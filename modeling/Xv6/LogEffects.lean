import Xv6.LogCalls
import Mathlib.Tactic.Linarith

/-!
# What the steps of the log do

One inversion lemma for each step, and the processes around the log: those
inside an operation are counted, while one of them commits nobody is inside
one, and they never have more buffers than the cache.
-/

set_option autoImplicit false

namespace Xv6.LogEffects
open LogCalls TransitionRun Function

variable {P : Type} [DecidableEq P] {sb : Superblock} {s t : Log P} {p q : P} {b : ℕ} {v : Block}

section Pc
variable {k : Pc}

@[simp] theorem setPc_self : (s.setPc p k).pc p = k := by simp [Log.setPc]

@[simp] theorem setPc_other (h : q ≠ p) : (s.setPc p k).pc q = s.pc q := by simp [Log.setPc, h]

end Pc

section Buffers
variable {u : Finset ℕ} {x : Unit}

theorem bget_cases (u : Finset ℕ) (b : ℕ) :
    bget u b = .ok () ∨ bget u b = .error (.panic "bget: no buffers") := by
  unfold bget
  split
  · exact .inl rfl
  · exact .inr rfl

theorem bget_ok (h : bget u b = .ok x) : b ∈ u ∨ u.card < NBUF := by
  unfold bget at h
  split at h
  · rename_i hu
    exact hu
  · simp at h

section
omit [DecidableEq P]

theorem mem_pinned : b ∈ pinned s ↔ b ∈ s.block ∨ ∃ p ∈ s.ops, b ∈ heldBy (s.pc p) := by
  simp [pinned]

theorem block_le_pinned (h : s.block.Nodup) : s.block.length ≤ (pinned s).card := by
  rw [← List.toFinset_card_of_nodup h]
  refine Finset.card_le_card (fun b hb => ?_)
  exact mem_pinned.mpr (.inl (List.mem_toFinset.mp hb))

end

end Buffers

omit [DecidableEq P] in
theorem whenUp_ok {f : Except Stop (Log P)} (h : whenUp s f = .ok t) :
    s.mode = .up ∧ f = .ok t := by
  unfold whenUp at h
  split at h
  · exact ⟨‹_›,h⟩
  · simp at h

theorem beginOp_ok (h : beginOp s p = .ok t) :
    s.pc p = .idle ∧ s.committing = false ∧
    (s.block.length:ℤ) + (s.outstanding+1)*MAXOPBLOCKS ≤ LOGSIZE ∧
    t = { s.setPc p (.inOp [] []) with outstanding := s.outstanding+1, ops := p::s.ops } := by
  unfold beginOp at h
  split at h
  · simp at h
  split at h
  · simp at h
  split at h
  · simp at h
  rename_i h1 h2 h3
  exact ⟨by simpa using h1,by simpa using h2,by omega,(Except.ok.inj h).symm⟩

theorem modifyBuf_ok (h : modifyBuf s p b v = .ok t) :
    ∃ used dirty, s.pc p = .inOp used dirty ∧ (b ∈ pinned s ∨ (pinned s).card < NBUF) ∧
      t = { s.setPc p (.inOp used (b::dirty)) with
        cache := update s.cache b v, pending := s.pending ++ [(b,v)] } := by
  unfold modifyBuf at h
  split at h
  · obtain ⟨x,hx,h⟩ := bind_ok h
    exact ⟨_,_,‹_›,bget_ok hx,(Except.ok.inj h).symm⟩
  · simp at h

theorem logCheck_ok (h : logCheck sb s p b = .ok t) :
    ∃ used dirty, s.pc p = .inOp used dirty ∧ s.block.length < LOGSIZE ∧
      (s.block.length:ℤ) < (sb.nlog:ℤ)-1 ∧ (b ∈ pinned s ∨ (pinned s).card < NBUF) ∧
      t = s.setPc p (.checked used dirty b) := by
  unfold logCheck at h
  split at h
  case h_2 => simp at h
  split at h
  · simp at h
  split at h
  · simp at h
  rename_i hn _
  simp only [ge_iff_le, not_or, not_le] at hn
  obtain ⟨x,hx,h⟩ := bind_ok h
  exact ⟨_,_,‹_›,hn.1,hn.2,bget_ok hx,(Except.ok.inj h).symm⟩

theorem logAppend_ok (h : logAppend s p = .ok t) :
    ∃ used dirty b l, s.pc p = .checked used dirty b ∧
      (b ∈ s.block ∧ l = s.block ∨
        b ∉ s.block ∧ s.block.length < LOGSIZE ∧ l = s.block ++ [b]) ∧
      t = { s.setPc p (.inOp (if b ∈ used then used else b::used) (dirty.filter (· ≠ b))) with
        logged := b::s.logged, block := l } := by
  unfold logAppend at h
  split at h
  case h_2 => simp at h
  rename_i used dirty b hpc
  simp only at h
  split at h
  · exact ⟨used,dirty,b,s.block,hpc,.inl ⟨‹_›,rfl⟩,(Except.ok.inj h).symm⟩
  · split at h
    · exact ⟨used,dirty,b,s.block ++ [b],hpc,.inr ⟨‹_›,‹_›,rfl⟩,(Except.ok.inj h).symm⟩
    · simp at h

theorem endOp_ok (h : endOp s p = .ok t) :
    ∃ used, s.pc p = .inOp used [] ∧ s.committing = false ∧
      (s.outstanding ≠ 1 ∧ t = { s.setPc p .idle with
          outstanding := s.outstanding-1, ops := s.ops.erase p } ∨
        s.outstanding = 1 ∧ t = { s.setPc p (if s.block = [] then .finish else .writeLog 0) with
          outstanding := 0, ops := s.ops.erase p, committing := true
          groups := s.groups ++ [s.pending], pending := []
          durable := if s.block = [] then s.groups.length+1 else s.durable }) := by
  unfold endOp at h
  split at h
  case h_2 => simp at h
  rename_i used hpc
  split at h
  · simp at h
  rename_i hc
  refine ⟨used,hpc,by simpa using hc,?_⟩
  simp only at h
  split at h
  · rename_i ho
    have ho : s.outstanding = 1 := by omega
    cases h
    refine .inr ⟨ho,?_⟩
    simp [Log.setPc, ho]
  · rename_i ho
    exact .inl ⟨by omega,(Except.ok.inj h).symm⟩

theorem commit_ok (h : commit sb s p = .ok t) :
    (∃ tail b, s.pc p = .writeLog tail ∧ s.block[tail]? = some b ∧
      (sb.logstart+tail+1 ∈ pinned s ∨ (pinned s).card < NBUF) ∧
      t = (writeLogOne sb s tail b).setPc p
        (if tail+1 < s.block.length then .writeLog (tail+1) else .writeHead)) ∨
    (s.pc p = .writeHead ∧ t = { (writeHead sb s s.block).setPc p (.install 0) with
      durable := s.groups.length }) ∨
    (∃ tail b, s.pc p = .install tail ∧ s.block[tail]? = some b ∧
      t = (installOne sb s tail b).setPc p
        (if tail+1 < s.block.length then .install (tail+1) else .clearHead)) ∨
    (s.pc p = .clearHead ∧
      t = { (writeHead sb s []).setPc p .finish with block := [], logged := [] }) ∨
    (s.pc p = .finish ∧
      t = { s.setPc p .idle with committing := false, acked := s.groups.length }) := by
  unfold commit at h
  split at h
  · split at h
    · obtain ⟨x,hx,h⟩ := bind_ok h
      exact .inl ⟨_,_,‹_›,‹_›,bget_ok hx,(Except.ok.inj h).symm⟩
    · simp at h
  · obtain ⟨x,-,h⟩ := bind_ok h
    exact .inr (.inl ⟨‹_›,(Except.ok.inj h).symm⟩)
  · split at h
    · obtain ⟨x,-,h⟩ := bind_ok h
      exact .inr (.inr (.inl ⟨_,_,‹_›,‹_›,(Except.ok.inj h).symm⟩))
    · simp at h
  · exact .inr (.inr (.inr (.inl ⟨‹_›,(Except.ok.inj h).symm⟩)))
  · exact .inr (.inr (.inr (.inr ⟨‹_›,(Except.ok.inj h).symm⟩)))
  · simp at h

def isOp : Pc → Bool
  | .inOp _ _ | .checked _ _ _ => true
  | _ => false

def isCommit : Pc → Bool
  | .writeLog _ | .writeHead | .install _ | .clearHead | .finish => true
  | _ => false

structure Crew (s : Log P) : Prop where
  nodup : s.ops.Nodup
  inside : ∀ p, p ∈ s.ops ↔ isOp (s.pc p) = true
  count : s.outstanding = s.ops.length
  quiet : s.committing = false → ∀ p, isCommit (s.pc p) = false
  alone : s.committing = true → s.ops = [] ∧ ∃ p, ∀ q, isCommit (s.pc q) = true ↔ q = p

/-- A process moves between places of the same kind. -/
theorem crew_same (hs : Crew s) {k : Pc} (ho : t.ops = s.ops) (hn : t.outstanding = s.outstanding)
    (hc : t.committing = s.committing) (hp : t.pc = (s.setPc p k).pc)
    (h1 : isOp k = isOp (s.pc p)) (h2 : isCommit k = isCommit (s.pc p)) : Crew t := by
  have hop : ∀ q, isOp (t.pc q) = isOp (s.pc q) := by
    intro q
    rw [hp]
    by_cases hq : q = p
    · simp [hq, h1]
    · simp [hq]
  have hco : ∀ q, isCommit (t.pc q) = isCommit (s.pc q) := by
    intro q
    rw [hp]
    by_cases hq : q = p
    · simp [hq, h2]
    · simp [hq]
  refine ⟨ho ▸ hs.nodup,fun q => ?_,by rw [hn, ho, hs.count],fun h q => ?_,fun h => ?_⟩
  · rw [ho, hop]
    exact hs.inside q
  · rw [hco]
    exact hs.quiet (hc ▸ h) q
  · obtain ⟨hops,x,hx⟩ := hs.alone (hc ▸ h)
    exact ⟨ho.trans hops,x,fun q => by rw [hco]; exact hx q⟩

theorem crew_begin (hs : Crew s) (h : beginOp s p = .ok t) : Crew t := by
  obtain ⟨hp,hc,-,rfl⟩ := beginOp_ok h
  have hout : p ∉ s.ops := by
    rw [hs.inside, hp]
    simp [isOp]
  refine ⟨List.nodup_cons.mpr ⟨hout,hs.nodup⟩,fun q => ?_,?_,fun _ q => ?_,fun h => ?_⟩
  · by_cases hq : q = p
    · simp [hq, isOp, Log.setPc]
    · simpa [hq, Log.setPc] using hs.inside q
  · simp only [List.length_cons]
    rw [hs.count]
    push_cast
    rfl
  · by_cases hq : q = p
    · simp [hq, isCommit, Log.setPc]
    · simpa [hq, Log.setPc] using hs.quiet hc q
  · simp [Log.setPc, hc] at h

theorem crew_end (hs : Crew s) (h : endOp s p = .ok t) : Crew t := by
  obtain ⟨used,hp,hc,hk⟩ := endOp_ok h
  have hin : p ∈ s.ops := by
    rw [hs.inside, hp]
    rfl
  have hlen : ((s.ops.erase p).length:ℤ) = s.outstanding-1 := by
    have hpos := List.length_pos_of_mem hin
    rw [List.length_erase_of_mem hin, hs.count]
    omega
  have hmem : ∀ q, q ∈ s.ops.erase p ↔ q ≠ p ∧ isOp (s.pc q) = true := by
    intro q
    rw [hs.nodup.mem_erase_iff, hs.inside]
  rcases hk with ⟨-,rfl⟩ | ⟨ho,rfl⟩
  · refine ⟨hs.nodup.erase p,fun q => ?_,hlen.symm,fun _ q => ?_,fun h => ?_⟩
    · by_cases hq : q = p
      · simp [hq, hmem, isOp, Log.setPc]
      · simp [hq, hmem, Log.setPc]
    · by_cases hq : q = p
      · simp [hq, isCommit, Log.setPc]
      · simpa [hq, Log.setPc] using hs.quiet hc q
    · simp [Log.setPc, hc] at h
  · have hnil : s.ops.erase p = [] := by
      apply List.eq_nil_of_length_eq_zero
      omega
    have hk : isOp (if s.block = [] then Pc.finish else .writeLog 0) = false ∧
        isCommit (if s.block = [] then Pc.finish else .writeLog 0) = true := by
      split <;> simp [isOp, isCommit]
    refine ⟨hs.nodup.erase p,fun q => ?_,by simp [hnil],fun h => by simp at h,
      fun _ => ⟨hnil,p,fun q => ?_⟩⟩
    · by_cases hq : q = p
      · simp [hq, hmem, Log.setPc, hk.1]
      · simp [hq, hmem, Log.setPc]
    · by_cases hq : q = p
      · simp [hq, Log.setPc, hk.2]
      · simp [hq, Log.setPc, hs.quiet hc q]

theorem crew_commit (hs : Crew s) (h : commit sb s p = .ok t) : Crew t := by
  rcases commit_ok h with ⟨tail,b,hp,-,-,rfl⟩ | ⟨hp,rfl⟩ | ⟨tail,b,hp,-,rfl⟩ | ⟨hp,rfl⟩ | ⟨hp,rfl⟩
  · refine crew_same (p := p) hs rfl rfl rfl rfl ?_ ?_ <;> rw [hp] <;> split <;> rfl
  · refine crew_same (p := p) hs rfl rfl rfl rfl ?_ ?_ <;> rw [hp] <;> rfl
  · refine crew_same (p := p) hs rfl rfl rfl rfl ?_ ?_ <;> rw [hp] <;> split <;> rfl
  · refine crew_same (p := p) hs rfl rfl rfl rfl ?_ ?_ <;> rw [hp] <;> rfl
  · have hc : s.committing = true := by
      by_contra hc
      have hq := hs.quiet (by simpa using hc) p
      simp [hp, isCommit] at hq
    obtain ⟨hops,x,hx⟩ := hs.alone hc
    have hpx := (hx p).mp (by rw [hp]; rfl)
    refine ⟨hs.nodup,fun q => ?_,hs.count,fun _ q => ?_,fun h => by simp at h⟩
    · by_cases hq : q = p
      · simp [hq, Log.setPc, isOp, hops]
      · simpa [hq, Log.setPc] using hs.inside q
    · by_cases hq : q = p
      · simp [hq, Log.setPc, isCommit]
      · have hn : ¬isCommit (s.pc q) = true := by
          rw [hx, ← hpx]
          exact hq
        simpa [hq, Log.setPc] using hn

omit [DecidableEq P] in
theorem crew_idle (hops : s.ops = []) (hout : s.outstanding = 0) (hc : s.committing = false)
    (hpc : ∀ p, s.pc p = .idle) : Crew s :=
  ⟨by simp [hops],fun p => by simp [hops, hpc, isOp],by simp [hops, hout],
    fun _ p => by simp [hpc, isCommit],fun h => by simp [hc] at h⟩

/-- A call of a running system. -/
inductive Called (sb : Superblock) (s : Log P) : Act P → Log P → Prop
  | beginOp (p : P) {t : Log P} (h : beginOp s p = .ok t) : Called sb s (.beginOp p) t
  | modify (p : P) (b : ℕ) (v : Block) {t : Log P} (h : modifyBuf s p b v = .ok t) :
    Called sb s (.modify p b v) t
  | logCheck (p : P) (b : ℕ) {t : Log P} (h : logCheck sb s p b = .ok t) :
    Called sb s (.logCheck p b) t
  | logAppend (p : P) {t : Log P} (h : logAppend s p = .ok t) : Called sb s (.logAppend p) t
  | endOp (p : P) {t : Log P} (h : endOp s p = .ok t) : Called sb s (.endOp p) t
  | commit (p : P) {t : Log P} (h : commit sb s p = .ok t) : Called sb s (.commit p) t

structure Fresh (s : Log P) : Prop where
  block : s.block = []
  logged : s.logged = []
  ops : s.ops = []
  outstanding : s.outstanding = 0
  committing : s.committing = false
  pc : ∀ p, s.pc p = .idle

/-- A system is up after a call, or has just recovered. -/
theorem step_up {a : Act P} (h : step sb s a = .ok t) (ht : t.mode = .up) :
    s.mode = .up ∧ Called sb s a t ∨ Fresh t := by
  cases a with
  | crash =>
    cases h
    simp [crash] at ht
  | initlog =>
    simp only [step, initlog] at h
    split at h
    case isFalse => simp at h
    split at h
    · cases h
      simp at ht
    · simp at h
  | recover =>
    simp only [step] at h
    split at h
    case h_2 => simp at h
    cases h
    unfold recoverFromLog at ht ⊢
    split at ht
    · simp at ht
    · exact .inr ⟨rfl,rfl,rfl,rfl,rfl,fun _ => rfl⟩
  | _ =>
    obtain ⟨hu,h⟩ := whenUp_ok h
    exact .inl ⟨hu,by constructor; exact h⟩

theorem crew_step (hs : s.mode = .up → Crew s) {a : Act P} (h : step sb s a = .ok t) :
    t.mode = .up → Crew t := by
  intro ht
  rcases step_up h ht with ⟨hu,hc⟩ | hf
  · cases hc with
    | beginOp p h => exact crew_begin (hs hu) h
    | modify p b v h =>
      obtain ⟨used,dirty,hp,-,rfl⟩ := modifyBuf_ok h
      exact crew_same (p := p) (hs hu) rfl rfl rfl rfl (by rw [hp]; rfl) (by rw [hp]; rfl)
    | logCheck p b h =>
      obtain ⟨used,dirty,hp,-,-,-,rfl⟩ := logCheck_ok h
      exact crew_same (p := p) (hs hu) rfl rfl rfl rfl (by rw [hp]; rfl) (by rw [hp]; rfl)
    | logAppend p h =>
      obtain ⟨used,dirty,b,l,hp,-,rfl⟩ := logAppend_ok h
      exact crew_same (p := p) (hs hu) rfl rfl rfl rfl (by rw [hp]; rfl) (by rw [hp]; rfl)
    | endOp p h => exact crew_end (hs hu) h
    | commit p h => exact crew_commit (hs hu) h
  · exact crew_idle hf.ops hf.outstanding hf.committing hf.pc

section Pool

theorem pinned_move {k : Pc} (hb : b ∈ pinned t) (hops : ∀ q ∈ t.ops, q = p ∨ q ∈ s.ops)
    (hpc : t.pc = (s.setPc p k).pc) :
    b ∈ t.block ∨ b ∈ heldBy k ∨ b ∈ pinned s := by
  rcases mem_pinned.mp hb with hb | ⟨q,hq,hb⟩
  · exact .inl hb
  · rw [hpc] at hb
    by_cases hqp : q = p
    · rw [hqp, setPc_self] at hb
      exact .inr (.inl hb)
    · rw [setPc_other hqp] at hb
      exact .inr (.inr (mem_pinned.mpr (.inr ⟨q,(hops q hq).resolve_left hqp,hb⟩)))

section
omit [DecidableEq P]

theorem pooled_mono (hs : (pinned s).card ≤ NBUF) (h : ∀ b ∈ pinned t, b ∈ pinned s) :
    (pinned t).card ≤ NBUF :=
  le_trans (Finset.card_le_card h) hs

theorem pooled_get (hs : (pinned s).card ≤ NBUF) (hb : b ∈ pinned s ∨ (pinned s).card < NBUF)
    (h : ∀ x ∈ pinned t, x = b ∨ x ∈ pinned s) : (pinned t).card ≤ NBUF := by
  rcases hb with hb | hb
  · refine pooled_mono hs (fun x hx => ?_)
    rcases h x hx with rfl | hx
    · exact hb
    · exact hx
  · have hsub : pinned t ⊆ insert b (pinned s) := fun x hx => Finset.mem_insert.mpr (h x hx)
    exact le_trans (Finset.card_le_card hsub) (le_trans (Finset.card_insert_le _ _) hb)

theorem pinned_held (hc : Crew s) (hp : isOp (s.pc p) = true) (hb : b ∈ heldBy (s.pc p)) :
    b ∈ pinned s :=
  mem_pinned.mpr (.inr ⟨p,(hc.inside p).mpr hp,hb⟩)

end

theorem pooled_append (hc : Crew s) (hs : (pinned s).card ≤ NBUF) (h : logAppend s p = .ok t) :
    (pinned t).card ≤ NBUF := by
  obtain ⟨used,dirty,b,l,hp,hl,rfl⟩ := logAppend_ok h
  have hheld : ∀ x ∈ b::dirty, x ∈ pinned s := fun x hx =>
    pinned_held hc (p := p) (by rw [hp]; rfl) (by rw [hp]; exact hx)
  refine pooled_mono hs (fun x hx => ?_)
  rcases pinned_move (s := s) (p := p)
    (k := .inOp (if b ∈ used then used else b::used) (dirty.filter (· ≠ b))) hx
    (fun q hq => .inr hq) rfl with hx | hx | hx
  · rcases hl with ⟨-,rfl⟩ | ⟨-,-,rfl⟩
    · exact mem_pinned.mpr (.inl hx)
    · rcases List.mem_append.mp hx with hx | hx
      · exact mem_pinned.mpr (.inl hx)
      · exact hheld x (by simp [List.mem_singleton.mp hx])
  · have hx : x ∈ dirty ∧ x ≠ b := by simpa [heldBy] using hx
    exact hheld x (List.mem_cons_of_mem _ hx.1)
  · exact hx

theorem pooled_end (hs : (pinned s).card ≤ NBUF) (h : endOp s p = .ok t) :
    (pinned t).card ≤ NBUF := by
  obtain ⟨used,-,-,hk⟩ := endOp_ok h
  refine pooled_mono hs (fun x hx => ?_)
  have hsame : ∃ k, t.block = s.block ∧ (∀ q ∈ t.ops, q = p ∨ q ∈ s.ops) ∧
      t.pc = (s.setPc p k).pc ∧ heldBy k = [] := by
    rcases hk with ⟨-,rfl⟩ | ⟨-,rfl⟩
    · exact ⟨.idle,rfl,fun q hq => .inr (List.mem_of_mem_erase hq),rfl,rfl⟩
    · refine ⟨_,rfl,fun q hq => .inr (List.mem_of_mem_erase hq),rfl,?_⟩
      split <;> rfl
  obtain ⟨k,h1,h2,h3,h4⟩ := hsame
  rcases pinned_move hx h2 h3 with hx | hx | hx
  · exact mem_pinned.mpr (.inl (h1 ▸ hx))
  · simp [h4] at hx
  · exact hx

theorem pooled_commit (hs : (pinned s).card ≤ NBUF) (h : commit sb s p = .ok t) :
    (pinned t).card ≤ NBUF := by
  have hgo : ∀ {k : Pc}, heldBy k = [] → (∀ x ∈ t.block, x ∈ s.block) → t.ops = s.ops →
      t.pc = (s.setPc p k).pc → (pinned t).card ≤ NBUF := by
    intro k hk hb ho hpc
    refine pooled_mono hs (fun x hx => ?_)
    rcases pinned_move hx (fun q hq => .inr (ho ▸ hq)) hpc with hx | hx | hx
    · exact mem_pinned.mpr (.inl (hb x hx))
    · simp [hk] at hx
    · exact hx
  rcases commit_ok h with ⟨i,b,-,-,-,rfl⟩ | ⟨-,rfl⟩ | ⟨i,b,-,-,rfl⟩ | ⟨-,rfl⟩ | ⟨-,rfl⟩
  · exact hgo (k := if i+1 < s.block.length then .writeLog (i+1) else .writeHead)
      (by split <;> rfl) (fun _ => id) rfl rfl
  · exact hgo (k := .install 0) rfl (fun _ => id) rfl rfl
  · exact hgo (k := if i+1 < s.block.length then .install (i+1) else .clearHead)
      (by split <;> rfl) (fun _ => id) rfl rfl
  · exact hgo (k := .finish) rfl (by simp) rfl rfl
  · exact hgo (k := .idle) rfl (fun _ => id) rfl rfl

theorem pooled_hold {k : Pc} (hc : Crew s) (hs : (pinned s).card ≤ NBUF)
    (hb : b ∈ pinned s ∨ (pinned s).card < NBUF) (hp : isOp (s.pc p) = true)
    (hk : ∀ x ∈ heldBy k, x = b ∨ x ∈ heldBy (s.pc p)) (hblock : t.block = s.block)
    (hops : t.ops = s.ops) (hpc : t.pc = (s.setPc p k).pc) : (pinned t).card ≤ NBUF := by
  refine pooled_get hs hb (fun x hx => ?_)
  rcases pinned_move hx (fun q hq => .inr (hops ▸ hq)) hpc with hx | hx | hx
  · exact .inr (mem_pinned.mpr (.inl (hblock ▸ hx)))
  · exact (hk x hx).imp_right (pinned_held hc hp)
  · exact .inr hx

theorem pooled_step (hs : s.mode = .up → Crew s ∧ (pinned s).card ≤ NBUF) {a : Act P}
    (h : step sb s a = .ok t) : t.mode = .up → Crew t ∧ (pinned t).card ≤ NBUF := by
  intro ht
  refine ⟨crew_step (fun hu => (hs hu).1) h ht,?_⟩
  rcases step_up h ht with ⟨hu,hc⟩ | hf
  · obtain ⟨hcrew,hn⟩ := hs hu
    cases hc with
    | beginOp p h =>
      obtain ⟨-,-,-,rfl⟩ := beginOp_ok h
      refine pooled_mono hn (fun x hx => ?_)
      rcases pinned_move (s := s) (p := p) (k := .inOp [] []) hx
        (fun q hq => List.mem_cons.mp hq) rfl with hx | hx | hx
      · exact mem_pinned.mpr (.inl hx)
      · simp [heldBy] at hx
      · exact hx
    | modify p b v h =>
      obtain ⟨used,dirty,hp,hb,rfl⟩ := modifyBuf_ok h
      exact pooled_hold (p := p) (k := .inOp used (b::dirty)) hcrew hn hb (by rw [hp]; rfl)
        (by rw [hp]; exact fun x => List.mem_cons.mp) rfl rfl rfl
    | logCheck p b h =>
      obtain ⟨used,dirty,hp,-,-,hb,rfl⟩ := logCheck_ok h
      exact pooled_hold (p := p) (k := .checked used dirty b) hcrew hn hb (by rw [hp]; rfl)
        (by rw [hp]; exact fun x => List.mem_cons.mp) rfl rfl rfl
    | logAppend p h => exact pooled_append hcrew hn h
    | endOp p h => exact pooled_end hn h
    | commit p h => exact pooled_commit hn h
  · simp [pinned, hf.block, hf.ops]

end Pool

end Xv6.LogEffects
