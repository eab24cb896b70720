import Xv6.LogEffects
import Mathlib.Algebra.BigOperators.Group.List.Basic

/-!
# Space in the log

`begin_op` lets an operation in when the log has room for what is logged and
for the whole allowance of every operation inside. The room it counts on is
`LOGSIZE`; the log that `mkfs` makes has one block less, and `log_write` looks
at that bound even for a block that will be absorbed.
-/

set_option autoImplicit false

namespace Xv6.LogSpace
open LogCalls LogEffects TransitionRun Function

variable {P : Type} {sb : Superblock} {s t : Log P} {p q : P} {b : ℕ} {d : Disk}

def Disciplined (s : Log P) : Act P → Prop
  | .logCheck p b => ∀ used dirty, s.pc p = .inOp used dirty →
      b ∈ used ∨ used.length < MAXOPBLOCKS
  | _ => True

def usedBy : Pc → List ℕ
  | .inOp used _ | .checked used _ _ => used
  | _ => []

def allowance (s : Log P) (p : P) : ℕ := MAXOPBLOCKS - (usedBy (s.pc p)).length

structure Reserved (s : Log P) : Prop where
  distinct : s.block.Nodup
  logged : ∀ b, b ∈ s.logged ↔ b ∈ s.block
  used : ∀ p, ∀ b ∈ usedBy (s.pc p), b ∈ s.block
  room : s.block.length + (s.ops.map (allowance s)).sum ≤ LOGSIZE
  checked : ∀ p used dirty b, s.pc p = .checked used dirty b →
    b ∈ used ∨ used.length < MAXOPBLOCKS

theorem block_length (hs : Reserved s) : s.block.length = s.logged.dedup.length := by
  have hp : s.block.dedup.Perm s.logged.dedup := by
    rw [List.perm_ext_iff_of_nodup s.block.nodup_dedup s.logged.nodup_dedup]
    intro b
    rw [List.mem_dedup, List.mem_dedup, hs.logged]
  rw [← hp.length_eq, hs.distinct.dedup]

theorem allowance_le (s : Log P) (p : P) : allowance s p ≤ MAXOPBLOCKS := Nat.sub_le _ _

theorem allowances_le (s : Log P) (l : List P) :
    (l.map (allowance s)).sum ≤ l.length*MAXOPBLOCKS := by
  induction l with
  | nil => simp
  | cons p l ih =>
    have hp := allowance_le s p
    simp only [List.map_cons, List.sum_cons, List.length_cons, Nat.add_mul, Nat.one_mul]
    omega

/-- The allowances of the others stay. -/
theorem allowances_other {l : List P} (h : ∀ q ∈ l, t.pc q = s.pc q) :
    (l.map (allowance t)).sum = (l.map (allowance s)).sum := by
  congr 1
  apply List.map_congr_left
  intro q hq
  rw [allowance, allowance, h q hq]

variable [DecidableEq P]

theorem allowances_split (hn : s.ops.Nodup) (hp : p ∈ s.ops) (hpc : ∀ q, q ≠ p → t.pc q = s.pc q) :
    (s.ops.map (allowance t)).sum + allowance s p = (s.ops.map (allowance s)).sum +
      allowance t p := by
  have hperm := List.perm_cons_erase hp
  have hrest : ((s.ops.erase p).map (allowance t)).sum = ((s.ops.erase p).map (allowance s)).sum :=
    allowances_other (fun q hq => hpc q ((hn.mem_erase_iff.mp hq).1))
  rw [(hperm.map (allowance t)).sum_eq, (hperm.map (allowance s)).sum_eq]
  simp only [List.map_cons, List.sum_cons, hrest]
  omega

theorem reserved_begin (hc : Crew s) (hs : Reserved s) (h : beginOp s p = .ok t) : Reserved t := by
  obtain ⟨hp,-,hroom,rfl⟩ := beginOp_ok h
  have hout : p ∉ s.ops := by
    rw [hc.inside, hp]
    simp [isOp]
  refine ⟨hs.distinct,hs.logged,fun q b hb => ?_,?_,fun q used dirty b hq => ?_⟩
  · by_cases hq : q = p
    · simp [hq, Log.setPc, usedBy] at hb
    · exact hs.used q b (by simpa [hq, Log.setPc] using hb)
  · have hle := allowances_le { s.setPc p (.inOp [] []) with
      outstanding := s.outstanding+1, ops := p::s.ops } (p::s.ops)
    rw [hc.count] at hroom
    have hroom : s.block.length + (p::s.ops).length*MAXOPBLOCKS ≤ LOGSIZE := by exact_mod_cast hroom
    exact le_trans (Nat.add_le_add_left hle _) hroom
  · by_cases hqp : q = p
    · simp [hqp, Log.setPc] at hq
    · exact hs.checked q used dirty b (by simpa [hqp, Log.setPc] using hq)

theorem reserved_move (hs : Reserved s) {k : Pc} (hb : t.block = s.block)
    (hl : t.logged = s.logged) (ho : t.ops = s.ops) (hpc : t.pc = (s.setPc p k).pc)
    (hk : usedBy k = usedBy (s.pc p))
    (hchk : ∀ used dirty b, k = .checked used dirty b → b ∈ used ∨ used.length < MAXOPBLOCKS) :
    Reserved t := by
  have hused : ∀ q, usedBy (t.pc q) = usedBy (s.pc q) := by
    intro q
    rw [hpc]
    by_cases hq : q = p
    · simp [hq, hk]
    · simp [hq]
  have hsame : allowance t = allowance s := by
    funext q
    rw [allowance, allowance, hused]
  refine ⟨hb ▸ hs.distinct,fun b => ?_,fun q b hq => ?_,?_,fun q used dirty b hq => ?_⟩
  · rw [hb, hl]
    exact hs.logged b
  · rw [hb]
    exact hs.used q b (hused q ▸ hq)
  · rw [hb, ho, hsame]
    exact hs.room
  · rw [hpc] at hq
    by_cases hqp : q = p
    · exact hchk used dirty b (by simpa [hqp] using hq)
    · exact hs.checked q used dirty b (by simpa [hqp] using hq)

theorem reserved_append (hc : Crew s) (hs : Reserved s) (h : logAppend s p = .ok t) :
    Reserved t := by
  obtain ⟨used,dirty,b,l,hp,hl,ht⟩ := logAppend_ok h
  have hblock : t.block = l := by rw [ht]
  have hops : t.ops = s.ops := by rw [ht]; rfl
  have hself : usedBy (t.pc p) = if b ∈ used then used else b::used := by
    simp [ht, Log.setPc, usedBy]
  have hother : ∀ q, q ≠ p → t.pc q = s.pc q := fun q hq => by simp [ht, Log.setPc, hq]
  have hin : p ∈ s.ops := by
    rw [hc.inside, hp]
    rfl
  have hmem : ∀ x, x ∈ l ↔ x = b ∨ x ∈ s.block := by
    intro x
    rcases hl with ⟨hb,rfl⟩ | ⟨-,-,rfl⟩
    · constructor
      · exact .inr
      · rintro (rfl | h)
        · exact hb
        · exact h
    · rw [List.mem_append, List.mem_singleton, or_comm]
  have hused : ∀ x ∈ used, x ∈ s.block := fun x hx => hs.used p x (by rw [hp]; exact hx)
  refine ⟨?_,fun x => ?_,fun q x hx => ?_,?_,fun q u e x hq => ?_⟩
  · rw [hblock]
    rcases hl with ⟨-,rfl⟩ | ⟨hb,-,rfl⟩
    · exact hs.distinct
    · exact List.Nodup.append hs.distinct (by simp) (by simpa using hb)
  · rw [hblock, ht]
    simp only [List.mem_cons, hs.logged, hmem]
  · rw [hblock, hmem]
    by_cases hq : q = p
    · rw [hq, hself] at hx
      split at hx
      · exact .inr (hused x hx)
      · exact Or.imp_right (hused x) (List.mem_cons.mp hx)
    · exact .inr (hs.used q x (hother q hq ▸ hx))
  · have hsplit := allowances_split hc.nodup hin hother
    have hroom := hs.room
    have hold : allowance s p = MAXOPBLOCKS - used.length := by rw [allowance, hp]; rfl
    rw [hold, allowance, hself] at hsplit
    rw [hblock, hops]
    rcases hl with ⟨-,rfl⟩ | ⟨hb,-,rfl⟩
    · have hle : used.length ≤ (if b ∈ used then used else b::used).length := by
        split <;> simp
      omega
    · have hbu : b ∉ used := fun h => hb (hused b h)
      have hlt := (hs.checked p used dirty b hp).resolve_left hbu
      rw [if_neg hbu, List.length_cons] at hsplit
      rw [List.length_append, List.length_singleton]
      omega
  · by_cases hqp : q = p
    · simp [hqp, ht, Log.setPc] at hq
    · exact hs.checked q u e x ((hother q hqp).symm.trans hq)

theorem reserved_end (hc : Crew s) (hs : Reserved s) (h : endOp s p = .ok t) : Reserved t := by
  obtain ⟨used,hp,-,hk⟩ := endOp_ok h
  have hin : p ∈ s.ops := by
    rw [hc.inside, hp]
    rfl
  have hgen : ∀ {k : Pc} {u : Log P}, u.block = s.block → u.logged = s.logged →
      u.ops = s.ops.erase p → u.pc = (s.setPc p k).pc → isOp k = false → Reserved u := by
    intro k u h1 h2 h3 h4 h5
    have hother : ∀ q, q ≠ p → u.pc q = s.pc q := fun q hq => by simp [h4, hq]
    have hself : u.pc p = k := by simp [h4]
    refine ⟨h1 ▸ hs.distinct,fun b => ?_,fun q b hb => ?_,?_,fun q used dirty b hq => ?_⟩
    · rw [h1, h2]
      exact hs.logged b
    · rw [h1]
      by_cases hq : q = p
      · rw [hq, hself] at hb
        cases k <;> simp [isOp, usedBy] at h5 hb
      · exact hs.used q b (hother q hq ▸ hb)
    · have hsum := allowances_other (s := s) (t := u) (l := s.ops.erase p)
        (fun q hq => hother q (hc.nodup.mem_erase_iff.mp hq).1)
      have hperm := ((List.perm_cons_erase hin).map (allowance s)).sum_eq
      have hroom := hs.room
      rw [List.map_cons, List.sum_cons] at hperm
      rw [h1, h3, hsum]
      omega
    · by_cases hqp : q = p
      · rw [hqp, hself] at hq
        simp [hq, isOp] at h5
      · exact hs.checked q used dirty b ((hother q hqp).symm.trans hq)
  rcases hk with ⟨-,rfl⟩ | ⟨-,rfl⟩
  · exact hgen (k := .idle) rfl rfl rfl rfl rfl
  · refine hgen (k := if s.block = [] then .finish else .writeLog 0) rfl rfl rfl rfl ?_
    split <;> rfl

omit [DecidableEq P] in
theorem reserved_empty (hb : s.block = []) (hl : s.logged = []) (ho : s.ops = [])
    (hpc : ∀ p, isOp (s.pc p) = false) : Reserved s := by
  refine ⟨by simp [hb],by simp [hb, hl],fun p b h => ?_,by simp [hb, ho],fun p used dirty b h => ?_⟩
  · have hp := hpc p
    generalize s.pc p = k at hp h
    cases k <;> simp [isOp, usedBy] at hp h
  · have hp := hpc p
    simp [h, isOp] at hp

theorem reserved_commit (hc : Crew s) (hs : Reserved s) (h : commit sb s p = .ok t) :
    Reserved t := by
  have hct := crew_commit hc h
  rcases commit_ok h with ⟨tail,b,hp,-,-,rfl⟩ | ⟨hp,rfl⟩ | ⟨tail,b,hp,-,rfl⟩ | ⟨hp,rfl⟩ | ⟨hp,rfl⟩
  · refine reserved_move (p := p) hs rfl rfl rfl rfl ?_ ?_
    · rw [hp]
      split <;> rfl
    · split <;> simp
  · exact reserved_move (p := p) hs rfl rfl rfl rfl (by rw [hp]; rfl) (by simp)
  · refine reserved_move (p := p) hs rfl rfl rfl rfl ?_ ?_
    · rw [hp]
      split <;> rfl
    · split <;> simp
  · have hcom : s.committing = true := by
      by_contra hn
      have hq := hc.quiet (by simpa using hn) p
      simp [hp, isCommit] at hq
    have hops := (hc.alone hcom).1
    refine reserved_empty rfl rfl hops (fun q => ?_)
    by_contra hq
    have hin := (hct.inside q).mpr (by simpa using hq)
    rw [show ({ (writeHead sb s []).setPc p .finish with
      block := [], logged := [] } : Log P).ops = s.ops from rfl, hops] at hin
    simp at hin
  · exact reserved_move (p := p) hs rfl rfl rfl rfl (by rw [hp]; rfl) (by simp)

theorem reserved_step (hs : s.mode = .up → Crew s ∧ Reserved s) {a : Act P} (ha : Disciplined s a)
    (h : step sb s a = .ok t) : t.mode = .up → Crew t ∧ Reserved t := by
  intro ht
  refine ⟨crew_step (fun hu => (hs hu).1) h ht,?_⟩
  rcases step_up h ht with ⟨hu,hc⟩ | hf
  · obtain ⟨hcrew,hr⟩ := hs hu
    cases hc with
    | beginOp p h => exact reserved_begin hcrew hr h
    | modify p b v h =>
      obtain ⟨used,dirty,hp,-,rfl⟩ := modifyBuf_ok h
      exact reserved_move (p := p) hr rfl rfl rfl rfl (by rw [hp]; rfl) (by simp)
    | logCheck p b h =>
      obtain ⟨used,dirty,hp,-,-,-,rfl⟩ := logCheck_ok h
      refine reserved_move (p := p) hr rfl rfl rfl rfl (by rw [hp]; rfl) ?_
      intro u e x hk
      obtain ⟨rfl,rfl,rfl⟩ := Pc.checked.inj hk
      exact ha used dirty hp
    | logAppend p h => exact reserved_append hcrew hr h
    | endOp p h => exact reserved_end hcrew hr h
    | commit p h => exact reserved_commit hcrew hr h
  · exact reserved_empty hf.block hf.logged hf.ops (fun p => by rw [hf.pc]; rfl)

theorem reserved_reaches (h : Reaches (step sb) Disciplined (powerOff d) s) :
    s.mode = .up → Crew s ∧ Reserved s :=
  reaches_invariant (fun s : Log P => s.mode = .up → Crew s ∧ Reserved s)
    (fun _ _ _ hs ha ht => reserved_step hs ha ht) (fun h => by simp [powerOff] at h) h

omit [DecidableEq P] in
theorem whenUp_error {f : Except Stop (Log P)} {e : Stop} (he : e ≠ .disabled)
    (h : whenUp s f = .error e) : s.mode = .up ∧ f = .error e := by
  unfold whenUp at h
  split at h
  · exact ⟨‹_›,h⟩
  · exact absurd (Except.error.inj h).symm he

theorem endOp_calm (hc : Crew s) (m : String) : endOp s p ≠ .error (.panic m) := by
  intro h
  unfold endOp at h
  split at h
  case h_2 => simp at h
  rename_i hp
  split at h
  · rename_i hcom
    have hin : p ∈ s.ops := by
      rw [hc.inside, hp]
      rfl
    rw [(hc.alone hcom).1] at hin
    simp at hin
  · simp only at h
    split at h <;> simp at h

omit [DecidableEq P] in
theorem logCheck_inside (hc : Crew s) {used dirty : List ℕ} (hp : s.pc p = .inOp used dirty) :
    1 ≤ s.outstanding := by
  have hin : p ∈ s.ops := by
    rw [hc.inside, hp]
    rfl
  have hpos := List.length_pos_of_mem hin
  rw [hc.count]
  omega

theorem logAppend_fits (hc : Crew s) (hs : Reserved s) : logAppend s p ≠ .error .wild := by
  intro h
  unfold logAppend at h
  split at h
  case h_2 => simp at h
  rename_i used dirty b hp
  simp only at h
  split at h
  · simp at h
  rename_i hb
  split at h
  · simp at h
  rename_i hfull
  have hin : p ∈ s.ops := by
    rw [hc.inside, hp]
    rfl
  have hbu : b ∉ used := fun hu => hb (hs.used p b (by rw [hp]; exact hu))
  have hlt := (hs.checked p used dirty b hp).resolve_left hbu
  have hsplit := ((List.perm_cons_erase hin).map (allowance s)).sum_eq
  have hown : allowance s p = MAXOPBLOCKS - used.length := by rw [allowance, hp]; rfl
  have hroom := hs.room
  rw [List.map_cons, List.sum_cons, hown] at hsplit
  omega

/-- Space in the log of `mkfs`. In every run of operations that log at most
`MAXOPBLOCKS` distinct blocks each, `end_op` never panics, no `log_write` is
outside of a transaction or leaves the array of the header, and a `log_write`
panics because of its size exactly when `LOGSIZE`-1 distinct blocks have been
logged since the last commit. -/
theorem log_space_iff (hsb : sb.nlog = LOGSIZE) (h : Reaches (step sb) Disciplined (powerOff d) s) :
    (∀ p m, step sb s (.endOp p) ≠ .error (.panic m)) ∧
    (∀ p b, step sb s (.logCheck p b) ≠ .error (.panic "log_write outside of trans")) ∧
    (∀ p, step sb s (.logAppend p) ≠ .error .wild) ∧
    ∀ p b used dirty, s.mode = .up → s.pc p = .inOp used dirty →
      (step sb s (.logCheck p b) = .error (.panic "too big a transaction") ↔
        LOGSIZE-1 ≤ s.logged.dedup.length) := by
  have hk := reserved_reaches h
  refine ⟨fun p m he => ?_,fun p b he => ?_,fun p he => ?_,fun p b used dirty hu hp => ?_⟩
  · obtain ⟨hu,he⟩ := whenUp_error (by simp) he
    exact endOp_calm (hk hu).1 m he
  · obtain ⟨hu,he⟩ := whenUp_error (by simp) he
    unfold logCheck at he
    split at he
    case h_2 => simp at he
    rename_i hp
    have hin := logCheck_inside (hk hu).1 hp
    rw [if_neg (show ¬s.outstanding < 1 by omega)] at he
    rcases bget_cases (pinned s) b with hg | hg <;> split at he <;>
      simp [hg, bind, Except.bind] at he
  · obtain ⟨hu,he⟩ := whenUp_error (by simp) he
    exact logAppend_fits (hk hu).1 (hk hu).2 he
  · rw [← block_length (hk hu).2]
    have hin := logCheck_inside (hk hu).1 hp
    simp only [step, whenUp, hu, if_true, logCheck, hp, hsb,
      if_neg (show ¬s.outstanding < 1 by omega)]
    split
    · rename_i hbig
      simp only [true_iff]
      omega
    · rename_i hbig
      have hne : (do bget (pinned s) b; .ok (s.setPc p (.checked used dirty b)) :
          Except Stop (Log P)) ≠ .error (.panic "too big a transaction") := by
        rcases bget_cases (pinned s) b with hg | hg <;> simp [hg, bind, Except.bind]
      simp only [hne, false_iff, not_le]
      simp only [ge_iff_le, not_or, not_le] at hbig
      omega

def disciplined (s : Log P) : Act P → Bool
  | .logCheck p b => match s.pc p with
    | .inOp used _ => decide (b ∈ used ∨ used.length < MAXOPBLOCKS)
    | _ => true
  | _ => true

omit [DecidableEq P] in
theorem disciplined_allow (s : Log P) (a : Act P) (h : disciplined s a = true) :
    Disciplined s a := by
  cases a with
  | logCheck p b =>
    intro used dirty hp
    simpa [disciplined, hp] using h
  | _ => trivial

def logBlocks (p : P) (b n : ℕ) : List (Act P) :=
  (List.range n).flatMap (fun i => [.logCheck p (b+i), .logAppend p])

def threeOps (p q r : P) : List (Act P) :=
  List.flatten [[.initlog, .recover, .beginOp p, .beginOp q, .beginOp r], logBlocks p 100 10,
    logBlocks q 200 10, logBlocks r 300 9]

/-- The tenth block of the third operation is too big a transaction. -/
theorem full_allowance_panics : ∃ s : Log (Fin 3),
    Reaches (step mkfs) Disciplined (powerOff (fun _ _ => 0)) s ∧ Disciplined s (.logCheck 2 309) ∧
    step mkfs s (.logCheck 2 309) = .error (.panic "too big a transaction") := by
  obtain ⟨s,hr,hg⟩ := play_witness (step mkfs) Disciplined disciplined disciplined_allow
    (powerOff (fun _ _ => 0)) (threeOps (0 : Fin 3) 1 2) (fun s =>
      disciplined s (.logCheck 2 309) && decide (failure (step mkfs s (.logCheck 2 309)) =
        some (.panic "too big a transaction"))) (by decide +kernel)
  simp only [Bool.and_eq_true, decide_eq_true_eq] at hg
  exact ⟨s,hr,disciplined_allow s _ hg.1,failure_eq_some.mp hg.2⟩

/-- The same run one block earlier. -/
theorem log_space_one_left : ∃ s : Log (Fin 3),
    Reaches (step mkfs) Disciplined (powerOff (fun _ _ => 0)) s ∧ s.logged.dedup.length = 28 ∧
    step mkfs s (.logCheck 2 308) ≠ .error (.panic "too big a transaction") := by
  obtain ⟨s,hr,hg⟩ := play_witness (step mkfs) Disciplined disciplined disciplined_allow
    (powerOff (fun _ _ => 0)) ((threeOps (0 : Fin 3) 1 2).take 61) (fun s =>
      decide (s.logged.dedup.length = 28) && decide (s.mode = .up) &&
      decide (s.pc 2 = .inOp (usedBy (s.pc 2)) [])) (by decide +kernel)
  simp only [Bool.and_eq_true, decide_eq_true_eq] at hg
  obtain ⟨⟨hl,hu⟩,hp⟩ := hg
  refine ⟨s,hr,hl,fun he => ?_⟩
  have hn := ((log_space_iff rfl hr).2.2.2 2 308 _ _ hu hp).mp he
  rw [hl] at hn
  exact absurd hn (by decide)

end Xv6.LogSpace
