import Xv6.LogInvariant
import Xv6.LogSpace

/-!
# Crash atomicity of the log

A crash leaves the disk, and recovery may be cut short at any of its writes and
begun again. Operations that test the log at the same time can log one block
more than its region takes, but then all buffers are dirty and the commit panics
before its first write.
-/

set_option autoImplicit false

namespace Xv6.CrashAtomicity
open LogCalls LogEffects LogInvariant LogSpace RedoLog
open TransitionRun Function

variable {P : Type} {sb : Superblock} {s t : Log P} {p : P} {b tail : ℕ} {d : Disk}
variable {l : List ℕ}

theorem safe_crash (hs : Safe sb d s) : Safe sb d (crash s) := by
  have hlen : (s.groups.take s.durable).length = s.durable := by
    rw [List.length_take]
    exact Nat.min_eq_left hs.durable
  refine ⟨?_,hs.acked,hlen.ge,fun _ => ⟨hlen.symm,rfl⟩,fun h => by simp [crash] at h,
    fun l tail h => by simp [crash] at h⟩
  have hw : written (crash s) = written s := by
    simp [written, crash, List.take_take]
  rw [hw]
  exact hs.holds

theorem safe_initlog (hs : Safe sb d s) (hm : s.mode = .down) (h : initlog sb s = .ok t) :
    Safe sb d t := by
  unfold initlog at h
  split at h
  case isFalse => simp at h
  cases h
  refine ⟨hs.holds,hs.acked,hs.durable,fun _ => hs.trimmed (by simp [hm]),fun h => by simp at h,
    fun l tail h => ?_⟩
  obtain ⟨rfl,rfl⟩ := Mode.recovering.inj h
  exact ⟨rfl,rfl,fun i hi => by simp at hi,Nat.zero_le _⟩

theorem recovering_install (hs : Safe sb d s) (hr : Recovering sb s l tail) (hb : l[tail]? = some b)
    (hm : s.mode = .recovering l tail) :
    Safe sb d { installOne sb s tail b with mode := .recovering l (tail+1) } := by
  have hfit := hr.header ▸ hs.holds.fits
  have hbh := hfit.home b (List.mem_of_getElem? hb)
  have hlt := (List.getElem?_eq_some_iff.mp hb).1
  have hregion := hfit.region
  have hdisk : (installOne sb s tail b).disk = update s.disk b (s.disk (sb.logstart+tail+1)) := by
    simp only [installOne, Log.bwrite, hr.cache]
  have hsame : ∀ j < sb.nlog, (installOne sb s tail b).disk (sb.logstart+j) =
      s.disk (sb.logstart+j) := by
    intro j hj
    rw [hdisk, update_of_ne (home_ne hbh hj).symm]
  have hh := hsame 0 sb.header
  rw [Nat.add_zero] at hh
  refine ⟨?_,hs.acked,hs.durable,fun _ => hs.trimmed (by simp [hm]),fun h => by simp at h,
    fun l' tail' h => ?_⟩
  · have h := holds_install hs.holds hr.header hb
    rw [← hdisk] at h
    exact h
  · obtain ⟨rfl,rfl⟩ := Mode.recovering.inj h
    refine ⟨?_,?_,fun j hj x hx => ?_,hlt⟩
    · simp only [installOne, Log.bwrite, hr.cache]
    · change readHead ((installOne sb s tail b).disk sb.logstart) = l
      rw [hh]
      exact hr.header
    · change (installOne sb s tail b).disk x = (installOne sb s tail b).disk (sb.logstart+j+1)
      have hj' := (List.getElem?_eq_some_iff.mp hx).1
      rw [Nat.add_assoc, hsame (j+1) (by omega), hdisk]
      by_cases hji : j = tail
      · subst hji
        obtain rfl : b = x := Option.some.inj (hb.symm.trans hx)
        rw [update_self]
        rfl
      · have hxb : x ≠ b := by
          rintro rfl
          exact hji ((List.getElem?_inj hj' hfit.nodup).mp (hx.trans hb.symm))
        rw [update_of_ne hxb]
        exact hr.installed j (by omega) x hx

theorem recovering_done (hs : Safe sb d s) (hr : Recovering sb s l tail) (hb : l[tail]? = none)
    (hm : s.mode = .recovering l tail) : Safe sb d (recoverFromLog sb s l tail) ∧
    (∀ b, Home sb b → (recoverFromLog sb s l tail).disk b = replay s.groups.flatten d b) := by
  have hlen : l.length ≤ tail := List.getElem?_eq_none_iff.mp hb
  obtain ⟨hdur,hpend⟩ := hs.trimmed (by simp [hm])
  have hset : ∀ i x, l[i]? = some x → s.disk x = s.disk (sb.logstart+i+1) := by
    intro i x hx
    have hi := (List.getElem?_eq_some_iff.mp hx).1
    exact hr.installed i (by omega) x hx
  have hall : written s = s.groups.flatten := by
    rw [written, hdur, List.take_length]
  obtain ⟨h1,h2⟩ := holds_erase hs.holds hr.header hset (s.cache sb.logstart)
  rw [hall] at h2
  have heq : recoverFromLog sb s l tail = { writeHead sb s [] with
      block := [], outstanding := 0, committing := false, pc := fun _ => .idle, mode := .up,
      ops := [], logged := [] } := by
    simp only [recoverFromLog, hb]
  rw [heq]
  refine ⟨safe_commit h1 rfl hs.acked hs.durable
    (working_idle (crew_idle rfl rfl rfl (fun _ => rfl))
    rfl gathered_nil (fun x hx => ?_) ?_ (by simp [writeHead, Log.bwrite, hpend]) (by simp)
      ⟨?_,hdur⟩),h2⟩
  · have h := h2 x hx
    simp only [writeHead, Log.bwrite, hr.cache, hpend, List.append_nil] at h ⊢
    exact h
  · simp [writeHead, Log.bwrite]
  · simp only [writeHead, Log.bwrite, update_self]
    exact readHead_headWith (by simp) _

def Outside (sb : Superblock) : Act P → Prop
  | .modify _ b _ | .logCheck _ b => Home sb b
  | _ => True

variable [DecidableEq P]

theorem safe_step (hsb : LOGSIZE ≤ sb.nlog) (hs : Safe sb d s) {a : Act P} (ha : Outside sb a)
    (h : step sb s a = .ok t) : Safe sb d t := by
  cases a with
  | beginOp p =>
    obtain ⟨hu,h⟩ := whenUp_ok h
    exact safe_begin hs hu h
  | modify p b v =>
    obtain ⟨hu,h⟩ := whenUp_ok h
    exact safe_modify hs hu ha h
  | logCheck p b =>
    obtain ⟨hu,h⟩ := whenUp_ok h
    exact safe_check hs hu ha h
  | logAppend p =>
    obtain ⟨hu,h⟩ := whenUp_ok h
    exact safe_append hs hu h
  | endOp p =>
    obtain ⟨hu,h⟩ := whenUp_ok h
    exact safe_end hs hu h
  | commit p =>
    obtain ⟨hu,h⟩ := whenUp_ok h
    have hc := crew_commit (hs.up hu).crew h
    rcases commit_ok h with ⟨i,b,hp,hb,hg,rfl⟩ | ⟨hp,rfl⟩ | ⟨i,b,hp,hb,rfl⟩ | ⟨hp,rfl⟩ | ⟨hp,rfl⟩
    · exact writeLog_kept hs hu (writeLog_region (hs.up hu) hsb hp hg) hc hp hb
    · exact writeHead_kept hs hu hp hc
    · exact install_kept hs hu hc hp hb
    · exact clearHead_kept hs hu hp hc
    · exact finish_kept hs hu hp hc
  | crash =>
    cases h
    exact safe_crash hs
  | initlog =>
    simp only [step] at h
    split at h
    · exact safe_initlog hs ‹_› h
    · simp at h
  | recover =>
    simp only [step] at h
    split at h
    case h_2 => simp at h
    rename_i l tail hm
    cases h
    have hr := hs.recovering l tail hm
    cases hb : l[tail]? with
    | some b =>
      simp only [recoverFromLog, hb]
      exact recovering_install hs hr hb hm
    | none => exact (recovering_done hs hr hb hm).1

omit [DecidableEq P] in
theorem safe_powerOff (h : d sb.logstart 0 = 0) : Safe sb d (powerOff d : Log P) :=
  ⟨holds_init h,le_rfl,le_rfl,fun _ => ⟨rfl,rfl⟩,fun h => by simp [powerOff] at h,
    fun l tail h => by simp [powerOff] at h⟩

theorem safe_reaches (h0 : d sb.logstart 0 = 0) (hsb : LOGSIZE ≤ sb.nlog)
    (h : Reaches (step sb) (fun _ a => Outside sb a) (powerOff d) s) : Safe sb d s :=
  reaches_invariant (Safe sb d) (fun _ _ _ hs ha ht => safe_step hsb hs ha ht) (safe_powerOff h0) h

theorem pooled_reaches {allow : Log P → Act P → Prop}
    (h : Reaches (step sb) allow (powerOff d) s) :
    s.mode = .up → Crew s ∧ (pinned s).card ≤ NBUF :=
  reaches_invariant (fun s : Log P => s.mode = .up → Crew s ∧ (pinned s).card ≤ NBUF)
    (fun _ _ _ hs _ ht => pooled_step hs ht) (fun h => by simp [powerOff] at h) h

section Tame
variable (hw : Working sb d s)
include hw

theorem logAppend_tame (hn : (pinned s).card ≤ NBUF) : logAppend s p ≠ .error .wild := by
  intro h
  unfold logAppend at h
  split at h
  case h_2 => simp at h
  rename_i used dirty b hp
  simp only at h
  split at h
  · simp at h
  rename_i hb
  split at h
  · simp at h
  rename_i hfull
  have hin : b ∈ pinned s :=
    pinned_held hw.crew (p := p) (by rw [hp]; rfl) (by rw [hp]; exact List.mem_cons_self)
  have hnodup : (b::s.block).Nodup := List.nodup_cons.mpr ⟨hb,hw.fits.nodup⟩
  have hsub : (b::s.block).toFinset ⊆ pinned s := by
    intro x hx
    rcases List.mem_cons.mp (List.mem_toFinset.mp hx) with rfl | hx
    · exact hin
    · exact mem_pinned.mpr (.inl hx)
  have hcard := Finset.card_le_card hsub
  rw [List.toFinset_card_of_nodup hnodup, List.length_cons] at hcard
  exact hfull (lt_of_lt_of_le (Nat.lt_succ_self _) (le_trans hcard hn))

theorem commit_tame : commit sb s p ≠ .error .wild := by
  intro h
  have hst := hw.stage p
  unfold commit at h
  split at h
  case h_6 => simp at h
  case h_1 tail hp =>
    rw [hp] at hst
    rw [List.getElem?_eq_getElem hst.2.1] at h
    rcases bget_cases (pinned s) (sb.logstart+tail+1) with hg | hg <;>
      simp [hg, bind, Except.bind] at h
  case h_2 => rcases bget_cases (pinned s) sb.logstart with hg | hg <;>
    simp [hg, bind, Except.bind] at h
  case h_3 tail hp =>
    rw [hp] at hst
    rw [List.getElem?_eq_getElem hst.2.1] at h
    rcases bget_cases (s.block.drop tail).toFinset (sb.logstart+tail+1) with hg | hg <;>
      simp [hg, bind, Except.bind] at h
  all_goals simp at h

end Tame

/-- No step leaves the arrays of the log. -/
theorem step_tame (hs : Safe sb d s) (hn : s.mode = .up → (pinned s).card ≤ NBUF) (a : Act P) :
    step sb s a ≠ .error .wild := by
  intro h
  cases a with
  | beginOp p =>
    obtain ⟨-,h⟩ := whenUp_error (by simp) h
    unfold beginOp at h
    split at h
    · simp at h
    · split at h
      · simp at h
      · split at h <;> simp at h
  | modify p b v =>
    obtain ⟨-,h⟩ := whenUp_error (by simp) h
    unfold modifyBuf at h
    split at h
    · rcases bget_cases (pinned s) b with hg | hg <;> simp [hg, bind, Except.bind] at h
    · simp at h
  | logCheck p b =>
    obtain ⟨-,h⟩ := whenUp_error (by simp) h
    unfold logCheck at h
    split at h
    · split at h
      · simp at h
      · split at h
        · simp at h
        · rcases bget_cases (pinned s) b with hg | hg <;> simp [hg, bind, Except.bind] at h
    · simp at h
  | logAppend p =>
    obtain ⟨hu,h⟩ := whenUp_error (by simp) h
    exact logAppend_tame (hs.up hu) (hn hu) h
  | endOp p =>
    obtain ⟨-,h⟩ := whenUp_error (by simp) h
    unfold endOp at h
    split at h
    · split at h
      · simp at h
      · simp only at h
        split at h <;> simp at h
    · simp at h
  | commit p =>
    obtain ⟨hu,h⟩ := whenUp_error (by simp) h
    exact commit_tame (hs.up hu) h
  | crash => simp [step] at h
  | initlog =>
    simp only [step, initlog] at h
    split at h
    · rw [if_pos (by rw [hs.holds.length]; exact hs.holds.fits.array)] at h
      simp at h
    · simp at h
  | recover =>
    simp only [step] at h
    split at h <;> simp at h

section Recovery
variable {e : Disk}

/-- The loop of recovery replays the log. -/
theorem installs_eq (hf : Fits sb l) (n : ℕ) (hn : n ≤ l.length) :
    (List.range n).foldl (installRound sb l) e = replay ((entries sb e l).take n) e := by
  induction n with
  | zero => rfl
  | succ n ih =>
    have hlt : n < l.length := hn
    have hregion := hf.region
    have hkeep : replay ((entries sb e l).take n) e (sb.logstart+n+1) = e (sb.logstart+n+1) := by
      apply replay_other
      intro hm
      rw [List.map_take, entries_keys] at hm
      exact home_ne (i := n+1) (hf.home _ (List.mem_of_mem_take hm)) (by omega) rfl
    have hlen : n < (entries sb e l).length := by simpa [entries] using hlt
    rw [List.range_succ, List.foldl_append, ih (by omega), List.take_succ_eq_append_getElem hlen,
      replay_append]
    simp only [List.foldl_cons, List.foldl_nil, installRound, List.getElem?_eq_getElem hlt, hkeep,
      replay_cons, replay_nil]
    simp [put, entries]

theorem recoverDisk_eq (hf : Fits sb (readHead (e sb.logstart))) : recoverDisk sb e =
    update (replay (entries sb e (readHead (e sb.logstart))) e) sb.logstart
      (headWith [] (e sb.logstart)) := by
  have hloop := installs_eq (e := e) hf _ le_rfl
  rw [List.take_of_length_le (by simp [entries])] at hloop
  have hkeep : replay (entries sb e (readHead (e sb.logstart))) e sb.logstart = e sb.logstart := by
    apply replay_other
    rw [entries_keys]
    exact fun hm => home_header (hf.home _ hm) rfl
  unfold recoverDisk
  simp only [hloop, hkeep]

theorem headWith_nil_twice (w : Block) : headWith [] (headWith [] w) = headWith [] w := by
  funext j
  by_cases hj : j = 0 <;> simp [headWith, hj]

theorem recoverDisk_clean (h : readHead (e sb.logstart) = []) :
    recoverDisk sb e = update e sb.logstart (headWith [] (e sb.logstart)) := by
  rw [recoverDisk_eq (h ▸ fits_nil), h]
  rfl

theorem recoverDisk_twice (hf : Fits sb (readHead (e sb.logstart))) :
    recoverDisk sb (recoverDisk sb e) = recoverDisk sb e := by
  have hself : recoverDisk sb e sb.logstart = headWith [] (e sb.logstart) := by
    rw [recoverDisk_eq hf, update_self]
  have hnil : readHead (recoverDisk sb e sb.logstart) = [] := by
    rw [hself]
    exact readHead_headWith (by simp) _
  rw [recoverDisk_clean hnil]
  rw [hself, headWith_nil_twice, ← hself, update_eq_self]

theorem recoverDisk_home {S : Disk} (hs : Holds sb e S) (hb : Home sb b) :
    recoverDisk sb e b = S b := by
  rw [recoverDisk_eq hs.fits, update_of_ne (home_header hb)]
  exact hs.home b hb

theorem recoverDisk_install {S : Disk} (hs : Holds sb e S) (hl : readHead (e sb.logstart) = l)
    (hb : l[tail]? = some b) :
    recoverDisk sb (update e b (e (sb.logstart+tail+1))) = recoverDisk sb e := by
  obtain ⟨hi,rfl⟩ := List.getElem?_eq_some_iff.mp hb
  have hfit := hl ▸ hs.fits
  have hhome := hfit.home l[tail] (List.getElem_mem hi)
  have hr : update e l[tail] (e (sb.logstart+tail+1)) sb.logstart = e sb.logstart :=
    update_of_ne (home_header hhome).symm _ _
  have he : entries sb (update e l[tail] (e (sb.logstart+tail+1))) l = entries sb e l := by
    refine entries_congr (fun j hj => update_of_ne ?_ _ _)
    have hregion := hfit.region
    exact (home_ne (i := j+1) hhome (by omega)).symm
  rw [recoverDisk_eq (by rw [hr]; exact hs.fits), recoverDisk_eq hs.fits, hr, hl, he]
  congr 1
  exact replay_put (w := (l[tail],e (sb.logstart+tail+1))) (by rw [entries_keys]; simp)

end Recovery

theorem recover_refines (hs : Safe sb d s) (h : step sb s .recover = .ok t) :
    recoverDisk sb t.disk = recoverDisk sb s.disk ∧
    (t.mode = .up → t.disk = recoverDisk sb s.disk ∧ t.groups = s.groups ∧ t.acked = s.acked) := by
  simp only [step] at h
  split at h
  case h_2 => simp at h
  rename_i l tail hm
  cases h
  have hr := hs.recovering l tail hm
  cases hb : l[tail]? with
  | some b =>
    simp only [recoverFromLog, hb]
    refine ⟨?_,fun h => by simp at h⟩
    have hdisk : (installOne sb s tail b).disk = update s.disk b (s.disk (sb.logstart+tail+1)) := by
      simp only [installOne, Log.bwrite, hr.cache]
    rw [hdisk]
    exact recoverDisk_install hs.holds hr.header hb
  | none =>
    have hlen : l.length ≤ tail := List.getElem?_eq_none_iff.mp hb
    have hset : replay (entries sb s.disk l) s.disk = s.disk := by
      apply replay_settled
      intro w hw
      obtain ⟨i,hi,rfl⟩ := entries_mem hw
      exact hr.installed i (by omega) _ (List.getElem?_eq_getElem hi)
    have hall : recoverDisk sb s.disk =
        update s.disk sb.logstart (headWith [] (s.disk sb.logstart)) := by
      rw [recoverDisk_eq hs.holds.fits, hr.header, hset]
    have hdisk : (recoverFromLog sb s l tail).disk = recoverDisk sb s.disk := by
      simp only [recoverFromLog, hb, writeHead, Log.bwrite, hr.cache, hall]
    refine ⟨?_,fun _ => ⟨hdisk,?_,?_⟩⟩
    · rw [hdisk]
      exact recoverDisk_twice hs.holds.fits
    · simp only [recoverFromLog, hb]
      rfl
    · simp only [recoverFromLog, hb]
      rfl

/-- Crash atomicity. In every state that operations, crashes and recoveries
reach from a disk with an empty log, as long as the operations leave the log
region alone: recovery leaves in every block outside that region what the
first `k` commits have made of it, with every commit whose `end_op` has
returned among them, and a second recovery changes nothing; a commit runs
while nobody is inside an operation; the recovery that the machine does write
by write leads to the same disk, however often it is cut short; and no step
goes past the arrays of the log. -/
theorem crash_atomic (h0 : d sb.logstart 0 = 0) (hsb : LOGSIZE ≤ sb.nlog)
    (h : Reaches (step sb) (fun _ a => Outside sb a) (powerOff d) s) :
    (∃ k, s.acked ≤ k ∧ k ≤ s.groups.length ∧
      ∀ b, Home sb b → recoverDisk sb s.disk b = replay (s.groups.take k).flatten d b) ∧
    recoverDisk sb (recoverDisk sb s.disk) = recoverDisk sb s.disk ∧
    (s.mode = .up → s.committing = true → ∀ p, isOp (s.pc p) = false) ∧
    (s.mode = .down → ∃ t, step sb s .initlog = .ok t ∧ t.disk = s.disk) ∧
    (∀ t, step sb s .recover = .ok t → recoverDisk sb t.disk = recoverDisk sb s.disk ∧
      (t.mode = .up → t.disk = recoverDisk sb s.disk ∧ t.groups = s.groups ∧
        t.acked = s.acked)) ∧
    ∀ a, step sb s a ≠ .error .wild := by
  have hs := safe_reaches h0 hsb h
  refine ⟨⟨s.durable,hs.acked,hs.durable,fun b hb => recoverDisk_home hs.holds hb⟩,
    recoverDisk_twice hs.holds.fits,fun hu hc p => ?_,fun hm => ?_,
    fun t ht => recover_refines hs ht,step_tame hs (fun hu => (pooled_reaches h hu).2)⟩
  · have hcrew := (hs.up hu).crew
    by_contra hp
    have hin := (hcrew.inside p).mpr (by simpa using hp)
    rw [(hcrew.alone hc).1] at hin
    simp at hin
  · refine ⟨_,(if_pos hm).trans (if_pos ?_),rfl⟩
    rw [hs.holds.length]
    exact hs.holds.fits.array

def outside (sb : Superblock) : Act P → Bool
  | .modify _ b _ | .logCheck _ b => decide (Home sb b)
  | _ => true

omit [DecidableEq P] in
theorem outside_allow (a : Act P) (h : outside sb a = true) : Outside sb a := by
  cases a with
  | modify p b v => exact of_decide_eq_true (p := Home sb b) h
  | logCheck p b => exact of_decide_eq_true (p := Home sb b) h
  | _ => trivial

def ones : Block := fun _ => 1

def changeBlocks (p : P) (b n : ℕ) : List (Act P) :=
  (List.range n).flatMap (fun i => [.modify p (b+i) ones, .logCheck p (b+i), .logAppend p])

def racingOps (p q r : P) : List (Act P) :=
  List.flatten [[.initlog, .recover, .beginOp p, .beginOp q, .beginOp r], changeBlocks p 100 10,
    changeBlocks q 200 9, changeBlocks r 300 9, [.modify q 209 ones, .modify r 309 ones,
      .logCheck q 209, .logCheck r 309, .logAppend q, .logAppend r, .endOp p, .endOp q, .endOp r]]

/-- A crash after the header of the first commit is written and before the
block is installed; and two operations that both saw the last free block of
the log, after which the commit of thirty blocks panics. -/
theorem crash_atomic_before_install :
    (∃ s : Log (Fin 1), (s.mode = .down ∧ s.disk 100 0 = 0 ∧ s.acked = 0 ∧ s.groups.length = 1) ∧
      ∃ k, s.acked ≤ k ∧ k ≤ s.groups.length ∧ ∀ b, Home mkfs b →
        recoverDisk mkfs s.disk b = replay (s.groups.take k).flatten (fun _ _ => 0) b) ∧
    ∃ s : Log (Fin 3), (s.block.length = 30 ∧
        step mkfs s (.commit 2) = .error (.panic "bget: no buffers")) ∧
      ∃ k, s.acked ≤ k ∧ k ≤ s.groups.length ∧ ∀ b, Home mkfs b →
        recoverDisk mkfs s.disk b = replay (s.groups.take k).flatten (fun _ _ => 0) b := by
  constructor
  · obtain ⟨s,hr,hg⟩ := play_witness (step mkfs) (fun _ a => Outside mkfs a)
      (fun _ a => outside mkfs a) (fun _ a => outside_allow a) (powerOff (fun _ _ => 0))
      [.initlog, .recover, .beginOp 0, .modify 0 100 ones, .logCheck 0 100, .logAppend 0, .endOp 0,
        .commit 0, .commit 0, .crash]
      (fun s : Log (Fin 1) => decide (s.mode = .down ∧ s.disk 100 0 = 0 ∧ s.acked = 0 ∧
        s.groups.length = 1)) (by decide +kernel)
    exact ⟨s,of_decide_eq_true hg,(crash_atomic rfl le_rfl hr).1⟩
  · obtain ⟨s,hr,hg⟩ := play_witness (step mkfs) (fun _ a => Outside mkfs a)
      (fun _ a => outside mkfs a) (fun _ a => outside_allow a) (powerOff (fun _ _ => 0))
      (racingOps 0 1 2) (fun s : Log (Fin 3) => decide (s.block.length = 30) &&
        decide (failure (step mkfs s (.commit 2)) = some (.panic "bget: no buffers")))
      (by decide +kernel)
    simp only [Bool.and_eq_true, decide_eq_true_eq] at hg
    exact ⟨s,⟨hg.1,failure_eq_some.mp hg.2⟩,(crash_atomic rfl le_rfl hr).1⟩

end Xv6.CrashAtomicity
