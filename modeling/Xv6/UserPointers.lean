import Mathlib.Data.BitVec

/-!
# Arguments of system calls

The kernel reads the arguments of a system call from the user's memory, through
`fetchint` and `fetchstr`. All words have 32 bits and are added modulo `2 ^ 32`.
A fetch gives its value, if it succeeds, and the addresses it has read.
-/

set_option autoImplicit false

namespace Xv6.UserPointers

abbrev Word := BitVec 32

abbrev KERNBASE : Word := 0x80000000
abbrev NOFILE : Word := 16
abbrev MAXARG : ℕ := 32

structure Proc where
  sz : Word
  esp : Word
  mem : Word → BitVec 8

structure Fetch (α : Type) where
  value : Option α
  touched : List Word

namespace Fetch

variable {α β : Type} {sz : Word}

def fail : Fetch α := ⟨none,[]⟩

def bind (x : Fetch α) (f : α → Fetch β) : Fetch β :=
  match x.value with
  | none => ⟨none,x.touched⟩
  | some a => ⟨(f a).value,x.touched++(f a).touched⟩

instance : Monad Fetch where
  pure a := ⟨some a,[]⟩
  bind := bind

def Confined (sz : Word) (x : Fetch α) : Prop := ∀ a ∈ x.touched, a < sz

theorem confined_fail : Confined sz (fail : Fetch α) := by simp [Confined, fail]

theorem confined_pure (a : α) : Confined sz (pure a : Fetch α) := by
  intro b hb
  cases hb

theorem bind_some {x : Fetch α} {f : α → Fetch β} {b : β} (h : (x >>= f).value = some b) :
    ∃ a, x.value = some a ∧ (f a).value = some b := by
  change (Fetch.bind x f).value = some b at h
  rw [Fetch.bind] at h
  cases hx : x.value with
  | none => simp [hx] at h
  | some a => exact ⟨a,rfl,by simpa [hx] using h⟩

theorem confined_bind {x : Fetch α} {f : α → Fetch β} (hx : Confined sz x)
    (hf : ∀ a, x.value = some a → Confined sz (f a)) : Confined sz (x >>= f) := by
  change Confined sz (Fetch.bind x f)
  rw [Fetch.bind]
  cases h : x.value with
  | none => exact hx
  | some a =>
    intro b hb
    rcases List.mem_append.mp hb with hb | hb
    · exact hx b hb
    · exact hf a h b hb

end Fetch

open Fetch

def word (p : Proc) (addr : Word) : Fetch Word :=
  ⟨some (p.mem (addr+3)++p.mem (addr+2)++p.mem (addr+1)++p.mem addr),
    [addr,addr+1,addr+2,addr+3]⟩

def fetchint (p : Proc) (addr : Word) : Fetch Word :=
  if addr ≥ p.sz ∨ addr+4 > p.sz then fail else word p addr

def findNul (p : Proc) (s : Word) : Fetch Word :=
  if h : s < p.sz then
    if p.mem s = 0 then ⟨some s,[s]⟩
    else ⟨(findNul p (s+1)).value,s::(findNul p (s+1)).touched⟩
  else fail
termination_by (p.sz-s).toNat
decreasing_by all_goals bv_omega

def fetchstr (p : Proc) (addr : Word) : Fetch (Word × Word) :=
  if addr ≥ p.sz then fail
  else do
    let s ← findNul p addr
    pure (addr,s-addr)

def argint (p : Proc) (n : Word) : Fetch Word := fetchint p (p.esp+4+4*n)

def argptr (p : Proc) (n size : Word) : Fetch Word := do
  let i ← argint p n
  if size.slt 0 ∨ i ≥ p.sz ∨ i+size > p.sz then fail else pure i

def argstr (p : Proc) (n : Word) : Fetch (Word × Word) := do
  let addr ← argint p n
  fetchstr p addr

section Files

variable {F : Type} (p : Proc) (ofile : Word → Option F)

def argfd (n : Word) : Fetch F := do
  let fd ← argint p n
  if fd.slt 0 ∨ NOFILE.sle fd then fail
  else match ofile fd with
    | none => fail
    | some f => pure f

def rwArgs : Fetch (F × Word × Word) := do
  let f ← argfd p ofile 0
  let n ← argint p 2
  let q ← argptr p 1 n
  pure (f,q,n)

end Files

def fetchArgv (p : Proc) (uargv : Word) : ℕ → Word → Fetch (List (Word × Word))
  | 0, _ => fail
  | k+1, i => do
    let uarg ← fetchint p (uargv+4*i)
    if uarg = 0 then pure []
    else do
      let s ← fetchstr p uarg
      let rest ← fetchArgv p uargv k (i+1)
      pure (s::rest)

def execArgs (p : Proc) : Fetch ((Word × Word) × List (Word × Word)) := do
  let path ← argstr p 0
  let uargv ← argint p 1
  let argv ← fetchArgv p uargv MAXARG 0
  pure (path,argv)

structure IsString (p : Proc) (q len : Word) : Prop where
  inside : q.toNat+len.toNat+1 ≤ p.sz.toNat
  chars : ∀ k : Word, k < len → p.mem (q+k) ≠ 0
  nul : p.mem (q+len) = 0

section Bounds

variable {p : Proc} {addr v q s n size : Word}

theorem fetchint_inside (hsz : p.sz ≤ KERNBASE) (h : (fetchint p addr).value = some v) :
    addr.toNat+4 ≤ p.sz.toNat := by
  rw [fetchint] at h
  split_ifs at h with hc
  · cases h
  · bv_omega

theorem fetchint_confined (hsz : p.sz ≤ KERNBASE) : Confined p.sz (fetchint p addr) := by
  rw [fetchint]
  split_ifs with hc
  · exact confined_fail
  · intro a ha
    simp only [word, List.mem_cons, List.not_mem_nil, or_false] at ha
    rcases ha with rfl | rfl | rfl | rfl <;> bv_omega

/-- The loop reads upwards from `s`, stays below the size and ends at a NUL. -/
theorem findNul_spec : Confined p.sz (findNul p s) ∧
    ∀ e, (findNul p s).value = some e → s ≤ e ∧ e < p.sz ∧ p.mem e = 0 ∧
      ∀ a, s ≤ a → a < e → p.mem a ≠ 0 := by
  induction hd : (p.sz-s).toNat using Nat.strong_induction_on generalizing s with
  | _ d ih =>
    rw [findNul]
    split_ifs with hs h0
    · refine ⟨fun a ha => by simp_all,?_⟩
      intro e he
      cases he
      exact ⟨BitVec.le_refl s,hs,h0,fun a h1 h2 => by bv_omega⟩
    · obtain ⟨hc,hv⟩ := ih (p.sz-(s+1)).toNat (by bv_omega) rfl
      refine ⟨fun a ha => ?_,fun e he => ?_⟩
      · rcases List.mem_cons.mp ha with rfl | ha
        · exact hs
        · exact hc a ha
      · obtain ⟨hle,hlt,hz,hall⟩ := hv e he
        refine ⟨by bv_omega,hlt,hz,fun a h1 h2 => ?_⟩
        by_cases ha : a = s
        · rwa [ha]
        · exact hall a (by bv_omega) h2
    · exact ⟨confined_fail,fun e he => by cases he⟩

theorem fetchstr_confined : Confined p.sz (fetchstr p addr) := by
  rw [fetchstr]
  split_ifs
  · exact confined_fail
  · exact confined_bind findNul_spec.1 fun _ _ => confined_pure _

theorem fetchstr_string {len : Word} (h : (fetchstr p addr).value = some (q,len)) :
    q = addr ∧ IsString p q len := by
  rw [fetchstr] at h
  split_ifs at h with hc
  · cases h
  · obtain ⟨e,he,hp⟩ := bind_some h
    cases hp
    obtain ⟨hle,hlt,hz,hall⟩ := findNul_spec.2 e he
    refine ⟨rfl,by bv_omega,fun k hk => hall _ (by bv_omega) (by bv_omega),?_⟩
    rwa [show addr+(e-addr) = e by bv_omega]

section
variable (hsz : p.sz ≤ KERNBASE)
include hsz

theorem argint_inside (h : (argint p n).value = some v) :
    (p.esp+4+4*n).toNat+4 ≤ p.sz.toNat := fetchint_inside hsz h

theorem argptr_inside (h : (argptr p n size).value = some q) :
    (p.esp+4+4*n).toNat+4 ≤ p.sz.toNat ∧ 0 ≤ size.toInt ∧
      q.toNat+size.toInt ≤ p.sz.toNat := by
  obtain ⟨i,hi,h⟩ := bind_some h
  refine ⟨argint_inside hsz hi,?_⟩
  split_ifs at h with hc
  · cases h
  · obtain rfl := Option.some.inj h
    have hs : 0 ≤ size.toInt :=
      not_lt.mp fun hlt => hc (Or.inl (BitVec.slt_iff_toInt_lt.mpr hlt))
    have hz := BitVec.toInt_eq_toNat_cond size
    have hr : ¬i ≥ p.sz ∧ ¬i+size > p.sz := ⟨fun h => hc (Or.inr (Or.inl h)),
      fun h => hc (Or.inr (Or.inr h))⟩
    have hlt : 2*size.toNat < 2^32 := by
      by_contra hge
      rw [if_neg hge] at hz
      omega
    rw [if_pos hlt] at hz
    refine ⟨hs,?_⟩
    rw [hz]
    have hsum : i.toNat+size.toNat ≤ p.sz.toNat := by bv_omega
    exact_mod_cast hsum

theorem argint_confined : Confined p.sz (argint p n) :=
  fetchint_confined hsz

theorem argptr_confined : Confined p.sz (argptr p n size) := by
  apply confined_bind (argint_confined hsz)
  intro i _
  split_ifs
  · exact confined_fail
  · exact confined_pure i

end

theorem argstr_string {len : Word} (h : (argstr p n).value = some (q,len)) :
    IsString p q len := by
  obtain ⟨addr,-,h⟩ := bind_some h
  exact (fetchstr_string h).2

theorem argstr_confined (hsz : p.sz ≤ KERNBASE) : Confined p.sz (argstr p n) :=
  confined_bind (argint_confined hsz) fun _ _ => fetchstr_confined

end Bounds

section Calls

variable {p : Proc} {F : Type} {ofile : Word → Option F}

section
variable (hsz : p.sz ≤ KERNBASE)
include hsz

theorem argfd_confined (n : Word) : Confined p.sz (argfd p ofile n) := by
  apply confined_bind (argint_confined hsz)
  intro fd _
  split_ifs
  · exact confined_fail
  · cases ofile fd with
    | none => exact confined_fail
    | some f => exact confined_pure f

/-- `sys_read` and `sys_write` read their arguments below the size, and the
buffer they hand on lies below it. -/
theorem rwArgs_confined : Confined p.sz (rwArgs p ofile) ∧
    ∀ f q n, (rwArgs p ofile).value = some (f,q,n) →
      0 ≤ n.toInt ∧ q.toNat+n.toInt ≤ p.sz.toNat := by
  constructor
  · apply confined_bind (argfd_confined hsz 0)
    intro f _
    apply confined_bind (argint_confined hsz)
    intro n _
    exact confined_bind (argptr_confined hsz) fun _ _ => confined_pure _
  · intro f q n h
    obtain ⟨f,-,h⟩ := bind_some h
    obtain ⟨n,-,h⟩ := bind_some h
    obtain ⟨q,hq,h⟩ := bind_some h
    cases h
    exact (argptr_inside hsz hq).2

theorem fetchArgv_confined (uargv : Word) (k : ℕ) (i : Word) :
    Confined p.sz (fetchArgv p uargv k i) ∧
      ∀ l, (fetchArgv p uargv k i).value = some l → ∀ s ∈ l, IsString p s.1 s.2 := by
  induction k generalizing i with
  | zero => exact ⟨confined_fail,fun l h => by cases h⟩
  | succ k ih =>
    constructor
    · apply confined_bind (fetchint_confined hsz)
      intro uarg _
      split_ifs
      · exact confined_pure []
      · apply confined_bind fetchstr_confined
        intro s _
        exact confined_bind (ih (i+1)).1 fun _ _ => confined_pure _
    · intro l h
      obtain ⟨uarg,-,h⟩ := bind_some h
      split_ifs at h
      · cases h
        simp
      · obtain ⟨s,hs,h⟩ := bind_some h
        obtain ⟨rest,hrest,h⟩ := bind_some h
        cases h
        intro t ht
        rcases List.mem_cons.mp ht with rfl | ht
        · exact (fetchstr_string hs).2
        · exact (ih (i+1)).2 rest hrest t ht

/-- Whatever the user's stack pointer and pointers are, `sys_exec` reads below
the size, and so does everyone who follows the strings it hands on. -/
theorem execArgs_confined : Confined p.sz (execArgs p) ∧
    ∀ path argv, (execArgs p).value = some (path,argv) →
      IsString p path.1 path.2 ∧ ∀ s ∈ argv, IsString p s.1 s.2 := by
  constructor
  · apply confined_bind (argstr_confined hsz)
    intro path _
    apply confined_bind (argint_confined hsz)
    intro uargv _
    exact confined_bind (fetchArgv_confined hsz uargv MAXARG 0).1 fun _ _ => confined_pure _
  · intro path argv h
    obtain ⟨path,hp,h⟩ := bind_some h
    obtain ⟨uargv,-,h⟩ := bind_some h
    obtain ⟨argv,ha,h⟩ := bind_some h
    cases h
    exact ⟨argstr_string hp,(fetchArgv_confined hsz uargv MAXARG 0).2 argv ha⟩

end

end Calls

/-- Whenever an argument function succeeds, what it read or admits lies below the
size of the process; whether or not it succeeds, it reads nothing above. -/
theorem user_pointers_confined (p : Proc) (hsz : p.sz ≤ KERNBASE) (addr n size : Word) :
    (∀ v, (fetchint p addr).value = some v → addr.toNat+4 ≤ p.sz.toNat) ∧
    (∀ q len, (fetchstr p addr).value = some (q,len) → q = addr ∧ IsString p q len) ∧
    (∀ v, (argint p n).value = some v → (p.esp+4+4*n).toNat+4 ≤ p.sz.toNat) ∧
    (∀ q, (argptr p n size).value = some q → (p.esp+4+4*n).toNat+4 ≤ p.sz.toNat ∧
      0 ≤ size.toInt ∧ q.toNat+size.toInt ≤ p.sz.toNat) ∧
    (∀ q len, (argstr p n).value = some (q,len) → (p.esp+4+4*n).toNat+4 ≤ p.sz.toNat ∧
      IsString p q len) ∧
    Confined p.sz (fetchint p addr) ∧ Confined p.sz (fetchstr p addr) ∧
    Confined p.sz (argint p n) ∧ Confined p.sz (argptr p n size) ∧
    Confined p.sz (argstr p n) := by
  refine ⟨fun v => fetchint_inside hsz,fun q len => fetchstr_string,fun v => argint_inside hsz,
    fun q => argptr_inside hsz,fun q len h => ?_,fetchint_confined hsz,fetchstr_confined,
    argint_confined hsz,argptr_confined hsz,argstr_confined hsz⟩
  obtain ⟨addr,ha,-⟩ := bind_some h
  exact ⟨argint_inside hsz ha,argstr_string h⟩

def small : Proc := ⟨4096,4080,fun _ => 0⟩

/-- Its third argument is the last word of the page; a fourth one is refused. -/
theorem user_pointers_small :
    (small.esp+4+4*2).toNat+4 ≤ small.sz.toNat ∧ (argint small 3).value = none :=
  ⟨(user_pointers_confined small (by decide) 0 2 0).2.2.1 0 (by decide),by decide⟩

def stacked (top : List (BitVec 8)) : Proc := ⟨4096,4064,fun a => top.getD (a.toNat-4064) 0⟩

def execStack : List (BitVec 8) :=
  [0,0,0,0, 0xF8,0x0F,0,0, 0xEC,0x0F,0,0, 0xF8,0x0F,0,0, 0xFC,0x0F,0,0, 0,0,0,0,
    108,115,0,0, 47,0,0,0]

/-- The command `ls /`, with the strings at the end of the page. -/
theorem execArgs_ls : (execArgs (stacked execStack)).value =
      some ((4088,2),[(4088,2),(4092,1)]) ∧
    ∀ s ∈ [((4088 : Word),(2 : Word)),(4092,1)], IsString (stacked execStack) s.1 s.2 := by
  have h : (execArgs (stacked execStack)).value = some ((4088,2),[(4088,2),(4092,1)]) := by
    decide +kernel
  exact ⟨h,((execArgs_confined (p := stacked execStack) (by decide)).2 _ _ h).2⟩

def writeStack : List (BitVec 8) := [0,0,0,0, 1,0,0,0, 0xF0,0x0F,0,0, 16,0,0,0]

/-- A `write` of the last sixteen bytes of the page to descriptor 1. -/
theorem rwArgs_last_bytes : (rwArgs (stacked writeStack) some).value = some (1,4080,16) ∧
    (4080 : Word).toNat+(16 : Word).toInt ≤ (stacked writeStack).sz.toNat ∧
    Confined (stacked writeStack).sz (rwArgs (stacked writeStack) some) := by
  have h : (rwArgs (stacked writeStack) some).value = some (1,4080,16) := by decide +kernel
  have hsz : (stacked writeStack).sz ≤ KERNBASE := by decide
  exact ⟨h,((rwArgs_confined hsz).2 1 4080 16 h).2,(rwArgs_confined hsz).1⟩

end Xv6.UserPointers
