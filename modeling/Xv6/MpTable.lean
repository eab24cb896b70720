import Xv6.ByteStore
import Xv6.TransitionRun

/-!
# The table of the processors

`mp.c`: the search for the configuration table and the loop of `mpinit` over its
entries, on the bytes of physical memory. An entry of a known type is passed
over; one of another type is noted and looked at again, for the `break` leaves
the switch and not the loop.
-/

set_option autoImplicit false

namespace Xv6.MpTable
open Function ByteStore TransitionRun

def NCPU : ℕ := 8

def MPPROC : UInt8 := 0
def MPBUS : UInt8 := 1
def MPIOAPIC : UInt8 := 2
def MPIOINTR : UInt8 := 3
def MPLINTR : UInt8 := 4

def sum (b : Bytes) (a len : ℕ) : UInt8 := (slice b a len).foldl (· + ·) 0

def mpsearch1 (b : Bytes) (a len : ℕ) : Option ℕ :=
  ((List.range ((len+15)/16)).map (a+16*·)).find? fun p =>
    slice b p 4 = [95,77,80,95] ∧ sum b p 16 = 0

def mpsearch (b : Bytes) : Option ℕ :=
  let p := leNumber (slice b 0x40E 2)*16
  let first := if p ≠ 0 then mpsearch1 b p 1024
    else mpsearch1 b ((leNumber (slice b 0x413 2)*1024+2^32-1024)%2^32) 1024
  first.or (mpsearch1 b 0xF0000 0x10000)

def length (b : Bytes) (conf : ℕ) : ℕ := leNumber (slice b (conf+4) 2)

def mpconfig (b : Bytes) : Option (ℕ × ℕ) :=
  (mpsearch b).bind fun mp =>
    let conf := leNumber (slice b (mp+4) 4)
    if conf = 0 then none
    else if slice b conf 4 ≠ [80,67,77,80] then none
    else if b (conf+6) ≠ 1 ∧ b (conf+6) ≠ 4 then none
    else if sum b conf (length b conf) ≠ 0 then none
    else some (mp,conf)

structure Scan where
  ncpu : ℕ
  apicid : ℕ → UInt8
  ioapicid : UInt8
  ismp : Bool

def addCpu (s : Scan) (id : UInt8) : Scan :=
  if s.ncpu < NCPU then { s with apicid := update s.apicid s.ncpu id, ncpu := s.ncpu+1 } else s

def turn (b : Bytes) (p : ℕ) (s : Scan) : ℕ × Scan :=
  if b p = MPPROC then (p+20,addCpu s (b (p+1)))
  else if b p = MPIOAPIC then (p+8,{ s with ioapicid := b (p+1) })
  else if b p = MPBUS ∨ b p = MPIOINTR ∨ b p = MPLINTR then (p+8,s)
  else (p,{ s with ismp := false })

def scan (b : Bytes) (e : ℕ) : ℕ → ℕ → Scan → Option Scan
  | 0, _, _ => none
  | k+1, p, s => if p < e then scan b e k (turn b p s).1 (turn b p s).2 else some s

inductive Stop where
  | rounds
  | panic (msg : String)
  deriving DecidableEq, Repr

def mpinit (b : Bytes) (k : ℕ) : Except Stop (Scan × Bool) :=
  match mpconfig b with
  | none => .error (.panic "Expect to run on an SMP")
  | some (mp,conf) =>
    match scan b (conf+length b conf) k (conf+44) ⟨0,fun _ => 0,0,true⟩ with
    | none => .error .rounds
    | some s =>
      if s.ismp then .ok (s,b (mp+12) ≠ 0)
      else .error (.panic "Didn't find a suitable machine")

def short : List UInt8 := [MPBUS,MPIOAPIC,MPIOINTR,MPLINTR]

inductive Lists (b : Bytes) (e : ℕ) : ℕ → List UInt8 → Bool → Prop
  | done {p : ℕ} (h : e ≤ p) : Lists b e p [] true
  | unknown {p : ℕ} (h : p < e) (ht : b p ∉ MPPROC::short) : Lists b e p [] false
  | proc {p : ℕ} {ids : List UInt8} {known : Bool} (h : p < e) (ht : b p = MPPROC)
      (hr : Lists b e (p+20) ids known) : Lists b e p (b (p+1)::ids) known
  | other {p : ℕ} {ids : List UInt8} {known : Bool} (h : p < e) (ht : b p ∈ short)
      (hr : Lists b e (p+8) ids known) : Lists b e p ids known

variable {b : Bytes} {e p : ℕ} {ids : List UInt8}

theorem turn_short (s : Scan) (h : b p ∈ short) :
    ∃ id, turn b p s = (p+8,{ s with ioapicid := id }) := by
  simp only [short, List.mem_cons, List.not_mem_nil, or_false] at h
  rcases h with h | h | h | h
  · exact ⟨s.ioapicid,by simp [turn, h, MPPROC, MPBUS, MPIOAPIC]⟩
  · exact ⟨b (p+1),by simp [turn, h, MPPROC, MPIOAPIC]⟩
  · exact ⟨s.ioapicid,by simp [turn, h, MPPROC, MPIOAPIC, MPIOINTR]⟩
  · exact ⟨s.ioapicid,by simp [turn, h, MPPROC, MPIOAPIC, MPLINTR]⟩

theorem turn_unknown (s : Scan) (h : b p ∉ MPPROC::short) :
    turn b p s = (p,{ s with ismp := false }) := by
  simp only [short, List.mem_cons, List.not_mem_nil, or_false, not_or] at h
  simp [turn, h]

structure Adds (ids : List UInt8) (s t : Scan) : Prop where
  ncpu : t.ncpu = min NCPU (s.ncpu+ids.length)
  old : ∀ i < s.ncpu, t.apicid i = s.apicid i
  new : ∀ i, s.ncpu+i < t.ncpu → ids[i]? = some (t.apicid (s.ncpu+i))
  ismp : t.ismp = s.ismp

theorem adds_cons {s t : Scan} {id : UInt8} (hs : s.ncpu ≤ NCPU) (h : Adds ids (addCpu s id) t) :
    Adds (id::ids) s t := by
  obtain ⟨h1,h2,h3,h4⟩ := h
  by_cases hlt : s.ncpu < NCPU
  · simp only [addCpu, if_pos hlt] at h1 h2 h3 h4
    refine ⟨by rw [h1, List.length_cons]; omega,fun i hi => ?_,fun i hi => ?_,h4⟩
    · rw [h2 i (by omega), update_of_ne (by omega)]
    · cases i with
      | zero => rw [Nat.add_zero, h2 _ (Nat.lt_succ_self _), update_self, List.getElem?_cons_zero]
      | succ i =>
        rw [List.getElem?_cons_succ, h3 i (by omega)]
        congr 2
        omega
  · simp only [addCpu, if_neg hlt] at h1 h2 h4
    refine ⟨by rw [h1, List.length_cons]; omega,h2,fun i hi => ?_,h4⟩
    omega

theorem scan_listed (h : Lists b e p ids true) {s : Scan} (hs : s.ncpu ≤ NCPU) :
    ∃ t, Settles (fun k => scan b e k p s) (some t) ∧ Adds ids s t := by
  generalize hk : true = known at h
  induction h generalizing s with
  | done h =>
    refine ⟨s,.succ ?_,by simp [hs],fun _ _ => rfl,fun i hi => by omega,rfl⟩
    simp only [scan, if_neg (Nat.not_lt.mpr h)]
    exact .const _
  | unknown => cases hk
  | @proc p ids known h ht _ ih =>
    have hadd : (addCpu s (b (p+1))).ncpu ≤ NCPU := by
      unfold addCpu
      split
      · exact ‹s.ncpu < NCPU›
      · exact hs
    obtain ⟨t,ht',hadds⟩ := ih hadd hk
    refine ⟨t,.succ ?_,adds_cons hs hadds⟩
    simpa only [scan, if_pos h, turn, if_pos ht] using ht'
  | other h ht _ ih =>
    obtain ⟨id,hturn⟩ := turn_short s ht
    obtain ⟨t,ht',hadds⟩ := ih (s := { s with ioapicid := id }) hs hk
    refine ⟨t,.succ ?_,hadds.ncpu,hadds.old,hadds.new,hadds.ismp⟩
    simpa only [scan, if_pos h, hturn] using ht'

/-- From an entry of an unknown type on, the pointer stands still. -/
theorem scan_stuck (h : Lists b e p ids false) (k : ℕ) (s : Scan) : scan b e k p s = none := by
  induction k generalizing p ids s with
  | zero => rfl
  | succ k ih =>
    cases h with
    | unknown h ht =>
      rw [scan, if_pos h, turn_unknown s ht]
      exact ih (.unknown h ht) _
    | proc h ht hr =>
      rw [scan, if_pos h, turn, if_pos ht]
      exact ih hr _
    | other h ht hr =>
      obtain ⟨id,hturn⟩ := turn_short s ht
      rw [scan, if_pos h, hturn]
      exact ih hr _

def Scanned (b : Bytes) (conf : ℕ) : Prop :=
  ∃ ids known, Lists b (conf+length b conf) (conf+44) ids known ∧
    (known = true → ∃ s imcr, Settles (mpinit b) (.ok (s,imcr)) ∧ s.ncpu ≤ NCPU ∧
      (List.range s.ncpu).map s.apicid = ids.take NCPU) ∧
    (known = false → Settles (mpinit b) (.error (.panic "Didn't find a suitable machine")))

theorem mpinit_stuck {mp conf : ℕ} (h : mpconfig b = some (mp,conf))
    (hl : Lists b (conf+length b conf) (conf+44) ids false) :
    mpinit b = fun _ => .error .rounds := by
  funext k
  simp only [mpinit, h, scan_stuck hl]

theorem adds_take {s t : Scan} (h : Adds ids s t) (h0 : s.ncpu = 0) :
    (List.range t.ncpu).map t.apicid = ids.take NCPU := by
  have hlen : t.ncpu = min NCPU ids.length := by rw [h.ncpu, h0, Nat.zero_add]
  apply List.ext_getElem?
  intro i
  by_cases hi : i < t.ncpu
  · have hnew := h.new i (by omega)
    rw [h0, Nat.zero_add] at hnew
    rw [List.getElem?_take_of_lt (by omega), hnew, List.getElem?_map, List.getElem?_range hi]
    rfl
  · rw [List.getElem?_eq_none (by simpa using hi), List.getElem?_eq_none]
    rw [List.length_take]
    omega

/-- The loop does what it should exactly when all entries are of known types. -/
theorem mpinit_scanned_iff (b : Bytes) (mp conf : ℕ) (h : mpconfig b = some (mp,conf)) :
    Scanned b conf ↔ ∃ ids, Lists b (conf+length b conf) (conf+44) ids true := by
  constructor
  · rintro ⟨ids,known,hl,-,hpanic⟩
    cases known with
    | true => exact ⟨ids,hl⟩
    | false =>
      rw [mpinit_stuck h hl] at hpanic
      cases (hpanic rfl).unique (.const _)
  · rintro ⟨ids,hl⟩
    obtain ⟨t,⟨K,hK⟩,hadds⟩ := scan_listed hl (s := ⟨0,fun _ => 0,0,true⟩) (Nat.zero_le _)
    refine ⟨ids,true,hl,fun _ => ⟨t,decide (b (mp+12) ≠ 0),⟨K,fun k hk => ?_⟩,?_,
      adds_take hadds rfl⟩,by simp⟩
    · simp only [mpinit, h, hK k hk, hadds.ismp, if_true]
    · rw [hadds.ncpu]
      exact Nat.min_le_left _ _

def image (checksum : UInt8) (entries : List UInt8) : Bytes :=
  paste (paste (paste (fun _ => 0) 0x40E [0x50]) 0x500 [95,77,80,95,0,6,0,0,1,4,154,0,0,0,0,0])
    0x600 ([80,67,77,80,UInt8.ofNat (44+entries.length),0,1,checksum]++
      List.replicate 36 0++entries)

/-- One processor, with the id 7. -/
theorem mpinit_scanned_one : Scanned (image 136 (0::7::List.replicate 18 0)) 0x600 := by
  have hp : mpconfig (image 136 (0::7::List.replicate 18 0)) = some (0x500,0x600) := by
    decide +kernel
  refine (mpinit_scanned_iff _ _ _ hp).mpr ⟨[7],?_⟩
  exact .proc (by decide +kernel) (by decide +kernel) (.done (by decide +kernel))

/-- The only entry has the type 5: the loop does not end. -/
theorem mpinit_unknown_entry : mpconfig (image 157 [5]) = some (0x500,0x600) ∧
    Lists (image 157 [5]) (0x600+length (image 157 [5]) 0x600) (0x600+44) [] false ∧
    (mpinit (image 157 [5]) = fun _ => .error .rounds) ∧ ¬Scanned (image 157 [5]) 0x600 := by
  have hp : mpconfig (image 157 [5]) = some (0x500,0x600) := by decide +kernel
  have hl : Lists (image 157 [5]) (0x600+length (image 157 [5]) 0x600) (0x600+44) [] false :=
    .unknown (by decide +kernel) (by decide +kernel)
  refine ⟨hp,hl,mpinit_stuck hp hl,?_⟩
  rintro ⟨ids,known,-,hok,hpanic⟩
  rw [mpinit_stuck hp hl] at hok hpanic
  cases known with
  | true =>
    obtain ⟨s,imcr,hs,-⟩ := hok rfl
    cases hs.unique (.const _)
  | false => cases (hpanic rfl).unique (.const _)

end Xv6.MpTable
