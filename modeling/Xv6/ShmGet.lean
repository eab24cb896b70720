import Xv6.PageCalls
import Xv6.PageRequests

/-!
# Attaching a shared page

`shmget` counts the entries with one variable through both loops, so an entry
found by the second one is recorded 32 words after its place in `shmpgs`.
Neither `kalloc` nor `mappages` is asked whether it succeeded, and the size
grows by one page from where it was, not from where the page is mapped.
-/

set_option autoImplicit false

namespace Xv6.ShmGet
open Function PageTables PageLedger PageRequests UserMemory TransitionRun
open PageCalls (SHM_MAXNUM ShmId ShmPg)

structure Caller where
  sz : ℕ
  pgdir : Pgdir
  ram : Ram
  initialized : Bool
  table : ShmId → ShmPg
  words : ℕ → ℕ

def NULL : ℕ := 2^32-1

def entryAt (base : ℕ) (i : ShmId) : ℕ := base+16*i.val

def v2p : Option Page → Page
  | some p => p
  | none => kernPage

def shminit (c : Caller) : Caller :=
  if c.initialized then c
  else { c with initialized := true, table := fun _ => ⟨false,0,none,0⟩ }

def clearAt (pa : Option Page) (c : Caller) : Except String Caller :=
  match pa with
  | some p => .ok { c with ram := clearPage p c.ram }
  | none => match c.pgdir.pte 0 with
    | none => .error "trap"
    | some e => if e.writable then .ok { c with ram := clearPage e.page c.ram } else .error "trap"

def attach (base : ℕ) (i : ShmId) (n : ℕ) (c : Caller) : Except String (ℕ × Caller) :=
  (mappages true true 1 (pages c.sz) (v2p (c.table i).pa) c.pgdir c.ram).map fun t =>
    (pages c.sz*PGSIZE,
      { c with
        pgdir := t.2.1
        ram := t.2.2
        sz := (c.sz+PGSIZE)%2^32
        words := update c.words n (entryAt base i) })

def count (i : ShmId) (c : Caller) : Caller :=
  { c with
    table := update c.table i { c.table i with refCount := ((c.table i).refCount+1)%2^32 } }

def create (name : ℕ) (k : ShmId) (c : Caller) : Except String Caller :=
  clearAt (kalloc c.ram.mem).1
    { c with
      ram := { c.ram with mem := (kalloc c.ram.mem).2 }
      table := update c.table k ⟨true,name,(kalloc c.ram.mem).1,1⟩ }

def entryOf (name : ℕ) (c : Caller) : Option ShmId :=
  (List.finRange SHM_MAXNUM).find? fun i => (c.table i).name = name

def shmget (base name : ℕ) (c : Caller) : Except String (ℕ × Caller) :=
  if name = 0 then .ok (NULL,c)
  else match entryOf name (shminit c) with
    | some i => (attach base i i.val (shminit c)).map fun t => (t.1,count i t.2)
    -- the second loop goes on counting from SHM_MAXNUM
    | none => match entryOf 0 (shminit c) with
      | some k => create name k (shminit c) >>= attach base k (SHM_MAXNUM+k.val)
      | none => .ok (NULL,shminit c)

section Specification

structure Attached (base name : ℕ) (c : Caller) (va : ℕ) (c' : Caller) (i : ShmId) : Prop where
  aligned : va%PGSIZE = 0
  unmapped : c.pgdir.pte (va/PGSIZE) = none
  below : va+PGSIZE ≤ c'.sz
  bound : c'.sz ≤ KERNBASE
  named : (c'.table i).name = name
  mapped : ∃ p, (c'.table i).pa = some p ∧ c'.pgdir.pte (va/PGSIZE) = some ⟨p,true,true⟩
  recorded : c'.words i.val = entryAt base i
  words : ∀ j, j ≠ i.val → c'.words j = c.words j
  table : ∀ j, j ≠ i → c'.table j = c.table j
  ptes : ∀ v, v ≠ va/PGSIZE → c'.pgdir.pte v = c.pgdir.pte v
  bytes : ∀ p, p ∉ c.ram.mem.freelist → c'.ram.bytes p = c.ram.bytes p

structure Unchanged (c c' : Caller) : Prop where
  sz : c'.sz = c.sz
  pgdir : c'.pgdir = c.pgdir
  initialized : c'.initialized = c.initialized
  table : c'.table = c.table
  words : c'.words = c.words

def Full (name : ℕ) (c : Caller) : Prop := entryOf name c = none ∧ entryOf 0 c = none

def TableAt (c : Caller) (n : ℕ) : Prop :=
  pages c.sz/NPTENTRIES ∈ tableSet c.pgdir ∨ Granted c.ram.mem n

def Exhausted (name : ℕ) (c : Caller) : Prop :=
  match entryOf name c, entryOf 0 c with
  | some _, _ => ¬TableAt c 0
  | none, some _ => ¬Granted c.ram.mem 0 ∨ ¬TableAt c 1
  | none, none => False

def NoSpace (c : Caller) : Prop := kernPage ≤ pages c.sz

def Specified (base name : ℕ) (c : Caller) : Prop :=
  ∃ va c', shmget base name c = .ok (va,c') ∧ (va ≠ NULL → ∃ i, Attached base name c va c' i) ∧
    (Full name c ∨ Exhausted name c ∨ NoSpace c → va = NULL ∧ Unchanged c c')

def Served (base name : ℕ) (c : Caller) : Prop :=
  match entryOf name c, entryOf 0 c with
  | some i, _ => TableAt c 0 ∧ pages c.sz < kernPage ∧ c.sz%PGSIZE = 0 ∧ (c.table i).pa.isSome
  | none, some k => Granted c.ram.mem 0 ∧ TableAt c 1 ∧ pages c.sz < kernPage ∧ c.sz%PGSIZE = 0 ∧
      c.words k.val = entryAt base k ∧ c.words (SHM_MAXNUM+k.val) = entryAt base k
  | none, none => True

end Specification

variable {base name : ℕ} {c c' : Caller} {i k : ShmId}

theorem entryOf_some (h : entryOf name c = some i) : (c.table i).name = name := by
  simpa using List.find?_some h

theorem entryOf_none (h : entryOf name c = none) (i : ShmId) : (c.table i).name ≠ name := by
  have hi := List.find?_eq_none.mp h i (List.mem_finRange i)
  simpa using hi

/-- A table that was never used is empty, so that initialising it changes the
flag only. -/
theorem shminit_eq (hfresh : c.initialized = false → ∀ i, c.table i = ⟨false,0,none,0⟩) :
    shminit c = { c with initialized := true } := by
  rw [shminit]
  split
  · rename_i hi
    cases c
    simp_all
  · rename_i hi
    have ht : c.table = fun _ => ⟨false,0,none,0⟩ := funext (hfresh (by simpa using hi))
    rw [ht]

theorem size_aligned {a : ℕ} : pages a*PGSIZE ≤ a ↔ a%PGSIZE = 0 := by
  simp only [pages, PGSIZE]
  omega

section Attach

variable (base i) (n : ℕ)

theorem attach_remap (hf : Fit c.pgdir c.sz) (hn : kernPage ≤ pages c.sz) :
    attach base i n c = .error "remap" := by
  have hv : pages c.sz = kernPage := le_antisymm (pages_le_kernPage hf.bound) hn
  obtain ⟨e,he⟩ := Option.isSome_iff_exists.mp hf.kernel
  have ht : ∃ t, c.pgdir.tables (kernPage/NPTENTRIES) = some t := by
    obtain ⟨t,ht,-⟩ := Option.bind_eq_some_iff.mp he
    exact ⟨t,ht⟩
  obtain ⟨t,ht⟩ := ht
  have hw : walkpgdirAlloc c.pgdir kernPage c.ram.mem = (some c.pgdir,c.ram.mem) := by
    rw [walkpgdirAlloc, ht]
  rw [attach, hv, UserMemory.mappages, PageTables.mappages, hw]
  dsimp only
  rw [he]
  rfl

theorem attach_ok (hf : Fit c.pgdir c.sz) (hn : pages c.sz < kernPage) :
    ∃ b d r, attach base i n c = .ok (pages c.sz*PGSIZE,
        { c with pgdir := d, ram := r, sz := c.sz+PGSIZE,
                 words := update c.words n (entryAt base i) }) ∧
      (b = true ↔ TableAt c 0) ∧ r.bytes = c.ram.bytes ∧
      d.pte = if b then update c.pgdir.pte (pages c.sz) (some ⟨v2p (c.table i).pa,true,true⟩)
        else c.pgdir.pte := by
  have ht : ∃ b d m, PageTables.mappages true true 1 (pages c.sz) (v2p (c.table i).pa) c.pgdir
      c.ram.mem = .ok (b,d,m) := by
    apply mappages_total
    intro j hj
    exact hf.above _ (by omega) (by omega)
  obtain ⟨b,d,m,ht⟩ := ht
  have hsz : (c.sz+PGSIZE)%2^32 = c.sz+PGSIZE := by
    have hb := hf.bound
    unfold KERNBASE at hb
    simp only [PGSIZE]
    omega
  refine ⟨b,d,{ c.ram with mem := m },?_,mappages_one_iff hn ht,rfl,?_⟩
  · rw [attach, UserMemory.mappages, ht, hsz]
    rfl
  · cases b with
    | true => exact (mappages_true ht).2
    | false => exact mappages_false ht

theorem attach_system (p : KernelState.Slot) (s : PageCalls.System) {pa : Page}
    (hd : (s.task p).pgdir = some c.pgdir) (hsz : (s.task p).sz = c.sz) (hm : s.mem = c.ram.mem)
    (hpa : (c.table i).pa = some pa) (hb : c.sz ≤ KERNBASE) :
    PageCalls.shmMap p pa s = PageCalls.raise ((attach base i n c).map fun t =>
      { s with mem := t.2.ram.mem }.setTask p
        { s.task p with pgdir := some t.2.pgdir, sz := t.2.sz }) := by
  have hword : (c.sz+PGSIZE)%2^32 = c.sz+PGSIZE := by
    unfold KERNBASE at hb
    simp only [PGSIZE]
    omega
  simp only [PageCalls.shmMap, attach, hd, hsz, hm, hpa, hword, v2p, UserMemory.mappages]
  cases PageTables.mappages true true 1 (pages c.sz) pa c.pgdir c.ram.mem <;> rfl

end Attach

theorem va_page (c : Caller) : pages c.sz*PGSIZE/PGSIZE = pages c.sz :=
  Nat.mul_div_cancel _ (by decide)

theorem va_ne_NULL (hb : c.sz ≤ KERNBASE) : pages c.sz*PGSIZE ≠ NULL := by
  have hp := pages_le_kernPage hb
  unfold kernPage at hp
  simp only [NULL, PGSIZE]
  omega

section Known

theorem count_ne (m : ℕ) : (m+1)%2^32 ≠ m := by
  omega

theorem specified_known (hf : Fit c.pgdir c.sz) (hname : name ≠ 0)
    (hfresh : c.initialized = false → ∀ i, c.table i = ⟨false,0,none,0⟩)
    (hi : entryOf name c = some i) :
    Specified base name c ↔
      TableAt c 0 ∧ pages c.sz < kernPage ∧ c.sz%PGSIZE = 0 ∧ (c.table i).pa.isSome := by
  have hget : shmget base name c =
      (attach base i i.val { c with initialized := true }).map fun t => (t.1,count i t.2) := by
    rw [shmget, if_neg hname, shminit_eq hfresh]
    show (match entryOf name c with | some i => _ | none => _) = _
    rw [hi]
  have hex : Exhausted name c ↔ ¬TableAt c 0 := by rw [Exhausted, hi]
  by_cases hn : pages c.sz < kernPage
  · obtain ⟨b,d,r,ha,hb,hbytes,hpte⟩ :=
      attach_ok base i i.val (c := { c with initialized := true }) hf hn
    rw [ha] at hget
    have hne := va_ne_NULL hf.bound
    constructor
    · rintro ⟨va,c',h,hatt,hshort⟩
      rw [hget] at h
      cases h
      have htab : TableAt c 0 := by
        by_contra ht
        exact hne (hshort (.inr (.inl (hex.mpr ht)))).1
      obtain ⟨j,hj⟩ := hatt hne
      have hji : j = i := by
        by_contra hji
        have he := congrArg ShmPg.refCount (hj.table i (Ne.symm hji))
        simp only [count, update_self] at he
        exact count_ne _ he
      subst hji
      refine ⟨htab,hn,size_aligned.mp (Nat.le_of_add_le_add_right hj.below),?_⟩
      obtain ⟨p,hp,-⟩ := hj.mapped
      simp only [count, update_self] at hp
      rw [hp]
      rfl
    · rintro ⟨htab,-,hal,hpa⟩
      obtain ⟨p,hp⟩ := Option.isSome_iff_exists.mp hpa
      rw [if_pos (hb.mpr htab)] at hpte
      refine ⟨_,_,hget,fun _ => ⟨i,?_⟩,?_⟩
      · refine ⟨Nat.mul_mod_left _ _,?_,?_,?_,?_,⟨p,?_,?_⟩,update_self _ _ _,
          fun j hj => update_of_ne hj _ _,fun j hj => update_of_ne hj _ _,?_,
          fun q _ => congrFun hbytes q⟩
        · rw [va_page]
          exact hf.above _ le_rfl hn
        · exact Nat.add_le_add_right (size_aligned.mpr hal) _
        · show c.sz+PGSIZE ≤ KERNBASE
          simp only [pages, PGSIZE, kernPage, KERNBASE] at *
          omega
        · simp only [count, update_self]
          exact entryOf_some hi
        · simp only [count, update_self]
          exact hp
        · rw [va_page]
          show d.pte (pages c.sz) = _
          rw [hpte, update_self]
          show some (⟨v2p (c.table i).pa,true,true⟩ : Pte) = _
          rw [hp]
          rfl
        · intro v hv
          rw [va_page] at hv
          show d.pte v = _
          rw [hpte]
          exact update_of_ne hv _ _
      · rintro (hfull | hexh | hspace)
        · rw [hfull.1] at hi
          cases hi
        · exact absurd htab (hex.mp hexh)
        · exact absurd hn (Nat.not_lt.mpr hspace)
  · have hr := attach_remap base i i.val (c := { c with initialized := true }) hf
      (Nat.le_of_not_lt hn)
    rw [hr] at hget
    refine iff_of_false ?_ (fun h => hn h.2.1)
    rintro ⟨va,c',h,-⟩
    rw [hget] at h
    cases h

end Known

section New

theorem attach_va {n va : ℕ} (h : attach base i n c = .ok (va,c')) :
    va = pages c.sz*PGSIZE := by
  obtain ⟨t,-,ht⟩ := map_ok h
  exact (Prod.mk.inj ht).1.symm

theorem clearAt_sz {pa : Option Page} (h : clearAt pa c = .ok c') : c'.sz = c.sz := by
  unfold clearAt at h
  split at h
  · cases h
    rfl
  · split at h
    · cases h
    · split at h
      · cases h
        rfl
      · cases h

theorem specified_new (hf : Fit c.pgdir c.sz) (hname : name ≠ 0)
    (hfresh : c.initialized = false → ∀ i, c.table i = ⟨false,0,none,0⟩)
    (hi : entryOf name c = none) (hk : entryOf 0 c = some k) :
    Specified base name c ↔
      Granted c.ram.mem 0 ∧ TableAt c 1 ∧ pages c.sz < kernPage ∧ c.sz%PGSIZE = 0 ∧
        c.words k.val = entryAt base k ∧ c.words (SHM_MAXNUM+k.val) = entryAt base k := by
  have hget : shmget base name c = (create name k { c with initialized := true } >>=
      attach base k (SHM_MAXNUM+k.val)) := by
    rw [shmget, if_neg hname, shminit_eq hfresh]
    show (match entryOf name c with | some i => _ | none => _) = _
    rw [hi]
    show (match entryOf 0 c with | some i => _ | none => _) = _
    rw [hk]
  have hex : Exhausted name c ↔ ¬Granted c.ram.mem 0 ∨ ¬TableAt c 1 := by rw [Exhausted, hi, hk]
  have hne := va_ne_NULL hf.bound
  obtain ⟨o,m,hkal⟩ : ∃ o m, kalloc c.ram.mem = (o,m) := ⟨_,_,rfl⟩
  have hcreate : create name k { c with initialized := true } = clearAt o
      { c with
        initialized := true
        ram := { c.ram with mem := m }
        table := update c.table k ⟨true,name,o,1⟩ } := by
    rw [create, hkal]
  cases o with
  | none =>
    have hnot : ¬Granted c.ram.mem 0 := (kalloc_refused hkal).2
    refine iff_of_false ?_ (fun h => hnot h.1)
    rintro ⟨va,c',h,-,hshort⟩
    rw [hget, hcreate] at h
    obtain ⟨c1,h1,h2⟩ := bind_ok h
    have hva := attach_va h2
    rw [clearAt_sz h1] at hva
    exact hne (hva.symm.trans (hshort (.inr (.inl (hex.mpr (.inl hnot))))).1)
  | some p =>
    have htook := kalloc_took hkal
    have hg : Granted c.ram.mem 0 := htook.1 0 (by omega)
    have hfree := kalloc_some hkal
    rw [hcreate] at hget
    have htable : TableAt { c with ram := { c.ram with mem := m } } 0 ↔ TableAt c 1 := by
      have hm : m = after c.ram.mem 1 := htook.2
      rw [TableAt, TableAt, hm]
      exact or_congr_right granted_after
    by_cases hn : pages c.sz < kernPage
    · obtain ⟨b,d,r,ha,hb,hbytes,hpte⟩ := attach_ok base k (SHM_MAXNUM+k.val)
        (c := { c with
          initialized := true
          ram := clearPage p { c.ram with mem := m }
          table := update c.table k ⟨true,name,some p,1⟩ }) hf hn
      have hres := hget.trans ha
      have hb' : b = true ↔ TableAt c 1 := hb.trans htable
      constructor
      · rintro ⟨va,c',h,hatt,hshort⟩
        rw [hres] at h
        cases h
        have htab : TableAt c 1 := by
          by_contra ht
          exact hne (hshort (.inr (.inl (hex.mpr (.inr ht))))).1
        obtain ⟨j,hj⟩ := hatt hne
        have hjk : j = k := by
          by_contra hjk
          have hnamed := hj.named
          simp only [update_of_ne hjk] at hnamed
          exact entryOf_none hi j hnamed
        subst hjk
        refine ⟨hg,htab,hn,size_aligned.mp (Nat.le_of_add_le_add_right hj.below),?_,?_⟩
        · have hrec : update c.words (SHM_MAXNUM+j.val) (entryAt base j) j.val = entryAt base j :=
            hj.recorded
          rwa [update_of_ne (by omega)] at hrec
        · have hword := hj.words (SHM_MAXNUM+j.val) (by omega)
          rw [← hword]
          exact update_self _ _ _
      · rintro ⟨-,htab,-,hal,hown,hpast⟩
        rw [if_pos (hb'.mpr htab)] at hpte
        refine ⟨_,_,hres,fun _ => ⟨k,?_⟩,?_⟩
        · refine ⟨Nat.mul_mod_left _ _,?_,?_,?_,?_,⟨p,?_,?_⟩,?_,?_,
            fun j hj => update_of_ne hj _ _,?_,?_⟩
          · rw [va_page]
            exact hf.above _ le_rfl hn
          · exact Nat.add_le_add_right (size_aligned.mpr hal) _
          · show c.sz+PGSIZE ≤ KERNBASE
            simp only [pages, PGSIZE, kernPage, KERNBASE] at *
            omega
          · simp only [update_self]
          · simp only [update_self]
          · rw [va_page]
            show d.pte (pages c.sz) = _
            rw [hpte]
            simp only [update_self]
            rfl
          · show update c.words _ _ k.val = _
            rw [update_of_ne (by omega)]
            exact hown
          · intro j _
            show update c.words _ _ j = _
            by_cases hj : j = SHM_MAXNUM+k.val
            · subst hj
              rw [update_self, hpast]
            · rw [update_of_ne hj]
          · intro v hv
            rw [va_page] at hv
            show d.pte v = _
            rw [hpte]
            exact update_of_ne hv _ _
          · intro q hq
            show r.bytes q = _
            rw [hbytes]
            refine update_of_ne ?_ _ _
            rintro rfl
            exact hq (by rw [hfree]; exact List.mem_cons_self)
        · rintro (hfull | hexh | hspace)
          · rw [hfull.2] at hk
            cases hk
          · exact absurd hexh (by rw [hex]; tauto)
          · exact absurd hn (Nat.not_lt.mpr hspace)
    · have hr := attach_remap base k (SHM_MAXNUM+k.val)
        (c := { c with
          initialized := true
          ram := clearPage p { c.ram with mem := m }
          table := update c.table k ⟨true,name,some p,1⟩ }) hf (Nat.le_of_not_lt hn)
      refine iff_of_false ?_ (fun h => hn h.2.2.1)
      rintro ⟨va,c',h,-⟩
      rw [hget.trans hr] at h
      cases h

end New

/-- The call does what it should exactly when the name is known, the size is on
a page boundary with room above it and the page table can be had, or when the
table is full; for a new name only if the two words it should not touch hold
the entry's address already. -/
theorem shmget_specified_iff (base name : ℕ) (hname : name ≠ 0) (c : Caller)
    (hf : Fit c.pgdir c.sz)
    (hfresh : c.initialized = false → ∀ i, c.table i = ⟨false,0,none,0⟩) :
    Specified base name c ↔ Served base name c := by
  cases hi : entryOf name c with
  | some i =>
    rw [specified_known hf hname hfresh hi, Served, hi]
  | none =>
    cases hk : entryOf 0 c with
    | some k => rw [specified_new hf hname hfresh hi hk, Served, hi, hk]
    | none =>
      have hinit : c.initialized = true := by
        by_contra hn
        have hz := hfresh (by simpa using hn) 0
        exact entryOf_none hk 0 (by rw [hz])
      refine iff_of_true ⟨NULL,c,?_,fun h => absurd rfl h,fun _ => ⟨rfl,rfl,rfl,rfl,rfl,rfl⟩⟩ ?_
      · rw [shmget, if_neg hname, shminit, if_pos hinit, hi]
        show (match entryOf 0 c with | some i => _ | none => _) = _
        rw [hk]
      · rw [Served, hi, hk]
        trivial

section Examples

def smallDir : Pgdir where
  page := 2
  tables := fun i =>
    if i = 0 then some ⟨3,fun j => if j = 0 then some ⟨4,true,true⟩ else none⟩
    else if i = 512 then some ⟨5,fun j => if j = 0 then some ⟨0,true,false⟩ else none⟩
    else none

theorem smallDir_above {v : ℕ} (h1 : 1 ≤ v) (h2 : v < kernPage) : smallDir.pte v = none := by
  unfold kernPage at h2
  have hi : v/1024 ≠ 512 := by omega
  by_cases hz : v/1024 = 0
  · have hj : v%1024 ≠ 0 := by omega
    simp [Pgdir.pte, smallDir, hz, hj]
  · simp [Pgdir.pte, smallDir, hz, hi]

def smallCaller (sz name : ℕ) (pa : Option Page) : Caller where
  sz := sz
  pgdir := smallDir
  ram :=
    { mem := { freelist := [6,7], refuse := fun _ => false, calls := 0 }, bytes := fun _ _ => 7 }
  initialized := true
  table := fun i => if i.val = 0 then ⟨pa.isSome,name,pa,1⟩ else ⟨false,0,none,0⟩
  words := fun _ => 0

theorem smallCaller_fit (sz name : ℕ) (pa : Option Page) (hpos : 0 < sz) (hb : sz ≤ 4096) :
    Fit (smallCaller sz name pa).pgdir (smallCaller sz name pa).sz := by
  have hk : (smallDir.pte kernPage).isSome := by decide
  refine ⟨?_,fun v h1 h2 => smallDir_above ?_ h2,hk⟩
  · show sz ≤ KERNBASE
    unfold KERNBASE
    omega
  · have hp : 0 < pages sz := page_of_byte hpos
    exact hp.trans_le h1

/-- A name that is in the table. -/
theorem shmget_specified_known_name : Served 0x80110000 100 (smallCaller 4096 100 (some 8)) ∧
    Specified 0x80110000 100 (smallCaller 4096 100 (some 8)) := by
  have hs : Served 0x80110000 100 (smallCaller 4096 100 (some 8)) := by
    have hi : entryOf 100 (smallCaller 4096 100 (some 8)) = some 0 := by decide
    rw [Served, hi]
    exact ⟨.inl (mem_tableSet.mpr ⟨by decide,by decide⟩),by decide,by decide,rfl⟩
  exact ⟨hs,(shmget_specified_iff 0x80110000 100 (by decide) (smallCaller 4096 100 (some 8))
    (smallCaller_fit 4096 100 (some 8) (by decide) (by decide)) (fun h => by cases h)).mpr hs⟩

/-- A new name is recorded outside `shmpgs`; a known name is not given a whole
page when the size is not on a page boundary. -/
theorem shmget_misplaced :
    Fit (smallCaller 4096 0 none).pgdir (smallCaller 4096 0 none).sz ∧
    ¬Specified 0x80110000 100 (smallCaller 4096 0 none) ∧
    Fit (smallCaller 100 100 (some 8)).pgdir (smallCaller 100 100 (some 8)).sz ∧
    ¬Specified 0x80110000 100 (smallCaller 100 100 (some 8)) := by
  have hf₁ := smallCaller_fit 4096 0 none (by decide) (by decide)
  have hf₂ := smallCaller_fit 100 100 (some 8) (by decide) (by decide)
  refine ⟨hf₁,?_,hf₂,?_⟩
  · rw [specified_new hf₁ (by decide) (fun h => by cases h) (k := 0) (by decide) (by decide)]
    rintro ⟨-,-,-,-,hw,-⟩
    exact absurd hw (by decide)
  · rw [specified_known hf₂ (by decide) (fun h => by cases h) (i := 0) (by decide)]
    rintro ⟨-,-,hal,-⟩
    exact absurd hal (by decide)

end Examples

end Xv6.ShmGet
