import Xv6.LogEffects

/-!
# The log while the machine is up

What the disk holds once the log is replayed, which only the write of the header
changes. While the machine is up the cache holds the effect of all operations
and the disk that of the commits, and every block in which the two differ is in
the log or still with the operation that modified it.
-/

set_option autoImplicit false

namespace Xv6.LogInvariant
open LogCalls RedoLog Function LogEffects

section
variable {sb : Superblock} {d e : Disk} {l : List ℕ} {b i : ℕ} {v : Block} {S T : Disk}

def Home (sb : Superblock) (b : ℕ) : Prop := b < sb.logstart ∨ sb.logstart+sb.nlog ≤ b

instance (sb : Superblock) (b : ℕ) : Decidable (Home sb b) := inferInstanceAs (Decidable (_ ∨ _))

theorem home_ne (hb : Home sb b) (hi : i < sb.nlog) : b ≠ sb.logstart+i := by
  unfold Home at hb
  omega

theorem home_header (hb : Home sb b) : b ≠ sb.logstart := home_ne (i := 0) hb sb.header

structure Gathered (sb : Superblock) (l : List ℕ) : Prop where
  array : l.length ≤ LOGSIZE
  home : ∀ b ∈ l, Home sb b
  nodup : l.Nodup

structure Fits (sb : Superblock) (l : List ℕ) : Prop extends Gathered sb l where
  region : l.length < sb.nlog

theorem gathered_nil : Gathered sb [] := ⟨by simp,by simp,by simp⟩

theorem fits_nil : Fits sb [] := ⟨gathered_nil,by simpa using sb.header⟩

theorem headWith_zero (l : List ℕ) (w : Block) : headWith l w 0 = l.length := by simp [headWith]

theorem readHead_headWith (h : l.length ≤ LOGSIZE) (w : Block) : readHead (headWith l w) = l := by
  unfold readHead
  rw [headWith_zero]
  apply List.ext_getElem
  · rw [List.length_take, List.length_ofFn]
    exact Nat.min_eq_left (le_trans h (by decide))
  · intro i h1 h2
    rw [List.getElem_take, List.getElem_ofFn, headWith, if_neg (Fin.succ_ne_zero _), Fin.val_succ,
      Nat.add_sub_cancel, List.getElem?_eq_getElem h2]
    rfl

theorem readHead_empty {w : Block} (h : w 0 = 0) : readHead w = [] := by
  rw [readHead, h, List.take_zero]

def entries (sb : Superblock) (d : Disk) (l : List ℕ) : List (ℕ × Block) :=
  l.mapIdx (fun i b => (b,d (sb.logstart+i+1)))

theorem entries_keys : (entries sb d l).map Prod.fst = l := by
  apply List.ext_getElem <;> simp [entries]

theorem entries_mem {w : ℕ × Block} (h : w ∈ entries sb d l) :
    ∃ i, ∃ hi : i < l.length, w = (l[i],d (sb.logstart+i+1)) := by
  obtain ⟨i,hi,rfl⟩ := List.mem_iff_getElem.mp h
  refine ⟨i,by simpa [entries] using hi,?_⟩
  simp [entries]

theorem entries_congr (h : ∀ i < l.length, d (sb.logstart+i+1) = e (sb.logstart+i+1)) :
    entries sb d l = entries sb e l := by
  apply List.ext_getElem
  · simp [entries]
  · intro i h1 h2
    simp only [entries, List.length_mapIdx] at h1
    simp [entries, h i h1]

structure Holds (sb : Superblock) (d : Disk) (S : Disk) : Prop where
  length : d sb.logstart 0 = (readHead (d sb.logstart)).length
  fits : Fits sb (readHead (d sb.logstart))
  home : ∀ b, Home sb b → replay (entries sb d (readHead (d sb.logstart))) d b = S b

theorem holds_clean (hs : Holds sb d S) (hh : readHead (d sb.logstart) = []) (hb : Home sb b) :
    d b = S b := by
  have h := hs.home b hb
  rw [hh] at h
  simpa [entries] using h

theorem holds_init (h : d sb.logstart 0 = 0) : Holds sb d d := by
  have hr := readHead_empty h
  refine ⟨by rw [h, hr]; rfl,hr ▸ fits_nil,fun b _ => ?_⟩
  rw [hr]
  rfl

/-- A log block is written while the header is empty. -/
theorem holds_log (hs : Holds sb d S) (hh : readHead (d sb.logstart) = []) (hi : i+1 < sb.nlog) :
    Holds sb (update d (sb.logstart+i+1) v) S := by
  have hne : sb.logstart ≠ sb.logstart+i+1 := by omega
  have hr : update d (sb.logstart+i+1) v sb.logstart = d sb.logstart := update_of_ne hne v d
  refine ⟨by rw [hr]; exact hs.length,by rw [hr]; exact hs.fits,fun b hb => ?_⟩
  have hb' : b ≠ sb.logstart+i+1 := home_ne (i := i+1) hb hi
  rw [hr, hh]
  simpa [entries, hb'] using holds_clean hs hh hb

theorem holds_commit (hl : Fits sb l) (w : Block)
    (h : ∀ b, Home sb b → replay (entries sb d l) d b = S b) :
    Holds sb (update d sb.logstart (headWith l w)) S := by
  have hr : readHead (update d sb.logstart (headWith l w) sb.logstart) = l := by
    rw [update_self, readHead_headWith hl.array]
  refine ⟨?_,by rw [hr]; exact hl,fun b hb => ?_⟩
  · rw [hr, update_self, headWith_zero]
  · rw [hr, ← h b hb]
    have he : entries sb (update d sb.logstart (headWith l w)) l = entries sb d l :=
      entries_congr (fun i _ => update_of_ne (by omega) _ _)
    rw [he]
    exact replay_agree (.inl (update_of_ne (home_header hb) _ _))

theorem holds_install (hs : Holds sb d S) (hl : readHead (d sb.logstart) = l)
    (hb : l[i]? = some b) : Holds sb (update d b (d (sb.logstart+i+1))) S := by
  obtain ⟨hi,rfl⟩ := List.getElem?_eq_some_iff.mp hb
  have hfit := hl ▸ hs.fits
  have hhome := hfit.home l[i] (List.getElem_mem hi)
  have hr : update d l[i] (d (sb.logstart+i+1)) sb.logstart = d sb.logstart :=
    update_of_ne (home_header hhome).symm _ _
  refine ⟨by rw [hr]; exact hs.length,by rw [hr]; exact hs.fits,fun b hb => ?_⟩
  have he : entries sb (update d l[i] (d (sb.logstart+i+1))) l = entries sb d l := by
    refine entries_congr (fun j hj => update_of_ne ?_ _ _)
    have hr := hfit.region
    exact (home_ne (i := j+1) hhome (by omega)).symm
  rw [hr, hl, he, ← hs.home b hb, hl]
  exact congrFun (replay_put (w := (l[i],d (sb.logstart+i+1))) (by rw [entries_keys]; simp)) b

theorem holds_erase (hs : Holds sb d S) (hl : readHead (d sb.logstart) = l)
    (hd : ∀ i b, l[i]? = some b → d b = d (sb.logstart+i+1)) (w : Block) :
    Holds sb (update d sb.logstart (headWith [] w)) S ∧
    ∀ b, Home sb b → update d sb.logstart (headWith [] w) b = S b := by
  have hset : replay (entries sb d l) d = d := by
    apply replay_settled
    intro x hx
    obtain ⟨i,hi,rfl⟩ := entries_mem hx
    exact hd i l[i] (List.getElem?_eq_getElem hi)
  have hall : ∀ b, Home sb b → d b = S b := by
    intro b hb
    rw [← hs.home b hb, hl, hset]
  refine ⟨holds_commit fits_nil w hall,fun b hb => ?_⟩
  rw [update_of_ne (home_header hb)]
  exact hall b hb

end

variable {P : Type} {sb : Superblock} {s t : Log P} {p q : P} {b i : ℕ} {v : Block}
variable {d : Disk}

def written (s : Log P) : List (ℕ × Block) := (s.groups.take s.durable).flatten

def dirtyBy : Pc → List ℕ
  | .inOp _ dirty | .checked _ dirty _ => dirty
  | _ => []

def LoggedTo (sb : Superblock) (s : Log P) (n : ℕ) : Prop :=
  ∀ i < n, ∀ b, s.block[i]? = some b →
    s.disk (sb.logstart+i+1) = s.cache b ∧ s.cache (sb.logstart+i+1) = s.cache b

def InstalledTo (s : Log P) (n : ℕ) : Prop :=
  ∀ i < n, ∀ b, s.block[i]? = some b → s.disk b = s.cache b

def Uncommitted (sb : Superblock) (s : Log P) : Prop :=
  readHead (s.disk sb.logstart) = [] ∧ s.durable+1 = s.groups.length ∧
    ∀ b ∈ (s.groups.drop s.durable).flatten.map Prod.fst, b ∈ s.block

def Committed (sb : Superblock) (s : Log P) : Prop :=
  readHead (s.disk sb.logstart) = s.block ∧ s.durable = s.groups.length ∧
    LoggedTo sb s s.block.length

def Stage (sb : Superblock) (s : Log P) : Pc → Prop
  | .writeLog tail => Uncommitted sb s ∧ tail < s.block.length ∧ LoggedTo sb s tail ∧
      (0 < tail → s.block.length < sb.nlog)
  | .writeHead => Uncommitted sb s ∧ 0 < s.block.length ∧ LoggedTo sb s s.block.length ∧
      s.block.length < sb.nlog
  | .install tail => Committed sb s ∧ tail < s.block.length ∧ InstalledTo s tail
  | .clearHead => Committed sb s ∧ InstalledTo s s.block.length
  | .finish => readHead (s.disk sb.logstart) = [] ∧ s.block = [] ∧ s.durable = s.groups.length
  | _ => True

theorem stage_other {k : Pc} (h : isCommit k = false) : Stage sb s k := by
  cases k <;> simp [isCommit] at h <;> trivial

structure Working (sb : Superblock) (d : Disk) (s : Log P) : Prop where
  crew : Crew s
  fits : Gathered sb s.block
  cache : ∀ b, Home sb b → s.cache b = replay (s.groups.flatten ++ s.pending) d b
  header : s.cache sb.logstart = s.disk sb.logstart
  kept : ∀ b ∈ s.pending.map Prod.fst, b ∈ s.block ∨ ∃ p, b ∈ dirtyBy (s.pc p)
  checked : ∀ p used dirty b, s.pc p = .checked used dirty b → Home sb b
  idle : s.committing = false → readHead (s.disk sb.logstart) = [] ∧ s.durable = s.groups.length
  busy : s.committing = true → s.pending = []
  stage : ∀ p, Stage sb s (s.pc p)

structure Recovering (sb : Superblock) (s : Log P) (l : List ℕ) (tail : ℕ) : Prop where
  cache : s.cache = s.disk
  header : readHead (s.disk sb.logstart) = l
  installed : ∀ i < tail, ∀ b, l[i]? = some b → s.disk b = s.disk (sb.logstart+i+1)
  bound : tail ≤ l.length

structure Safe (sb : Superblock) (d : Disk) (s : Log P) : Prop where
  holds : Holds sb s.disk (replay (written s) d)
  acked : s.acked ≤ s.durable
  durable : s.durable ≤ s.groups.length
  trimmed : s.mode ≠ .up → s.durable = s.groups.length ∧ s.pending = []
  up : s.mode = .up → Working sb d s
  recovering : ∀ l tail, s.mode = .recovering l tail → Recovering sb s l tail

/-- A step that writes neither disk nor books. -/
theorem safe_up (hs : Safe sb d s) (hd : t.disk = s.disk) (hg : t.groups = s.groups)
    (hu : t.durable = s.durable) (ha : t.acked = s.acked) (hm : t.mode = .up)
    (hw : Working sb d t) : Safe sb d t := by
  refine ⟨?_,by rw [ha, hu]; exact hs.acked,by rw [hu, hg]; exact hs.durable,
    fun h => absurd hm h,fun _ => hw,fun l tail h => by simp [hm] at h⟩
  rw [hd, written, hg, hu]
  exact hs.holds

theorem working_idle (hc : Crew t) (hn : t.committing = false) (hf : Gathered sb t.block)
    (hcache : ∀ b, Home sb b → t.cache b = replay (t.groups.flatten ++ t.pending) d b)
    (hh : t.cache sb.logstart = t.disk sb.logstart)
    (hk : ∀ b ∈ t.pending.map Prod.fst, b ∈ t.block ∨ ∃ p, b ∈ dirtyBy (t.pc p))
    (hchk : ∀ p used dirty b, t.pc p = .checked used dirty b → Home sb b)
    (hi : readHead (t.disk sb.logstart) = [] ∧ t.durable = t.groups.length) : Working sb d t :=
  ⟨hc,hf,hcache,hh,hk,hchk,fun _ => hi,fun h => by simp [hn] at h,
    fun p => stage_other (hc.quiet hn p)⟩

variable [DecidableEq P]

theorem safe_begin (hs : Safe sb d s) (hm : s.mode = .up) (h : beginOp s p = .ok t) :
    Safe sb d t := by
  have hw := hs.up hm
  have hc := crew_begin hw.crew h
  obtain ⟨hp,hn,-,rfl⟩ := beginOp_ok h
  refine safe_up hs rfl rfl rfl rfl hm (working_idle hc hn hw.fits hw.cache hw.header
    (fun b hb => ?_) (fun q used dirty b hq => ?_) (hw.idle hn))
  · refine Or.imp_right ?_ (hw.kept b hb)
    rintro ⟨q,hq⟩
    have hqp : q ≠ p := by
      rintro rfl
      simp [hp, dirtyBy] at hq
    exact ⟨q,by simpa [Log.setPc, hqp] using hq⟩
  · by_cases hqp : q = p
    · simp [hqp, Log.setPc] at hq
    · exact hw.checked q used dirty b (by simpa [Log.setPc, hqp] using hq)

omit [DecidableEq P] in
theorem not_committing (hc : Crew s) (hp : isOp (s.pc p) = true) : s.committing = false := by
  by_contra hn
  have hin := (hc.inside p).mpr hp
  rw [(hc.alone (by simpa using hn)).1] at hin
  simp at hin

theorem safe_modify (hs : Safe sb d s) (hm : s.mode = .up) (hb : Home sb b)
    (h : modifyBuf s p b v = .ok t) : Safe sb d t := by
  have hw := hs.up hm
  obtain ⟨used,dirty,hp,-,rfl⟩ := modifyBuf_ok h
  have hn := not_committing hw.crew (p := p) (by rw [hp]; rfl)
  have hc : Crew { s.setPc p (.inOp used (b::dirty)) with
      cache := update s.cache b v, pending := s.pending ++ [(b,v)] } :=
    crew_same (p := p) hw.crew rfl rfl rfl rfl (by rw [hp]; rfl) (by rw [hp]; rfl)
  refine safe_up hs rfl rfl rfl rfl hm (working_idle hc hn hw.fits (fun x hx => ?_) ?_
    (fun x hx => ?_) (fun q u e x hq => ?_) (hw.idle hn))
  · simp only [Log.setPc]
    rw [← List.append_assoc, replay_append]
    by_cases hxb : x = b
    · subst hxb
      simp [put]
    · rw [replay_cons, replay_nil, put_other hxb, update_of_ne hxb]
      exact hw.cache x hx
  · have hne := (home_header hb).symm
    simpa [Log.setPc, hne] using hw.header
  · simp only [Log.setPc, List.map_append, List.mem_append, List.map_cons, List.map_nil,
      List.mem_singleton] at hx ⊢
    rcases hx with hx | rfl
    · refine Or.imp_right ?_ (hw.kept x hx)
      rintro ⟨q,hq⟩
      by_cases hqp : q = p
      · subst hqp
        refine ⟨q,?_⟩
        rw [hp] at hq
        simpa [dirtyBy] using .inr hq
      · exact ⟨q,by simpa [hqp] using hq⟩
    · exact .inr ⟨p,by simp [dirtyBy]⟩
  · by_cases hqp : q = p
    · simp [hqp, Log.setPc] at hq
    · exact hw.checked q u e x (by simpa [Log.setPc, hqp] using hq)

theorem safe_check (hs : Safe sb d s) (hm : s.mode = .up) (hb : Home sb b)
    (h : logCheck sb s p b = .ok t) : Safe sb d t := by
  have hw := hs.up hm
  obtain ⟨used,dirty,hp,-,-,-,rfl⟩ := logCheck_ok h
  have hn := not_committing hw.crew (p := p) (by rw [hp]; rfl)
  have hc : Crew (s.setPc p (.checked used dirty b)) :=
    crew_same (p := p) hw.crew rfl rfl rfl rfl (by rw [hp]; rfl) (by rw [hp]; rfl)
  refine safe_up hs rfl rfl rfl rfl hm (working_idle hc hn hw.fits hw.cache hw.header
    (fun x hx => ?_) (fun q u e x hq => ?_) (hw.idle hn))
  · refine Or.imp_right ?_ (hw.kept x hx)
    rintro ⟨q,hq⟩
    refine ⟨q,?_⟩
    by_cases hqp : q = p
    · subst hqp
      rw [hp] at hq
      simpa [dirtyBy] using hq
    · simpa [hqp] using hq
  · by_cases hqp : q = p
    · subst hqp
      obtain ⟨-,-,rfl⟩ := Pc.checked.inj (setPc_self.symm.trans hq)
      exact hb
    · exact hw.checked q u e x (by simpa [hqp] using hq)

theorem safe_append (hs : Safe sb d s) (hm : s.mode = .up) (h : logAppend s p = .ok t) :
    Safe sb d t := by
  have hw := hs.up hm
  obtain ⟨used,dirty,b,l,hp,hl,rfl⟩ := logAppend_ok h
  have hn := not_committing hw.crew (p := p) (by rw [hp]; rfl)
  have hc : Crew { s.setPc p (.inOp (if b ∈ used then used else b::used)
    (dirty.filter (· ≠ b))) with
      logged := b::s.logged, block := l } :=
    crew_same (p := p) hw.crew rfl rfl rfl rfl (by rw [hp]; rfl) (by rw [hp]; rfl)
  have hb := hw.checked p used dirty b hp
  have hsub : b ∈ l ∧ ∀ x ∈ s.block, x ∈ l := by
    rcases hl with ⟨hb,rfl⟩ | ⟨-,-,rfl⟩
    · exact ⟨hb,fun x => id⟩
    · exact ⟨by simp,fun x hx => List.mem_append_left _ hx⟩
  have hfit : Gathered sb l := by
    rcases hl with ⟨-,rfl⟩ | ⟨hout,hlt,rfl⟩
    · exact hw.fits
    · have hlen : (s.block ++ [b]).length = s.block.length+1 := by simp
      refine ⟨by rw [hlen]; exact hlt,fun x hx => ?_,?_⟩
      · rcases List.mem_append.mp hx with hx | hx
        · exact hw.fits.home x hx
        · exact List.mem_singleton.mp hx ▸ hb
      · exact List.Nodup.append hw.fits.nodup (by simp) (by simpa using hout)
  refine safe_up hs rfl rfl rfl rfl hm (working_idle hc hn hfit hw.cache hw.header
    (fun x hx => ?_) (fun q u e x hq => ?_) (hw.idle hn))
  · rcases hw.kept x hx with h | ⟨q,hq⟩
    · exact .inl (hsub.2 x h)
    · by_cases hxb : x = b
      · exact .inl (hxb ▸ hsub.1)
      · refine .inr ⟨q,?_⟩
        by_cases hqp : q = p
        · subst hqp
          rw [hp] at hq
          have hq : x ∈ dirty := hq
          simp [Log.setPc, dirtyBy, hq, hxb]
        · simpa [Log.setPc, hqp] using hq
  · by_cases hqp : q = p
    · simp [hqp, Log.setPc] at hq
    · exact hw.checked q u e x (by simpa [Log.setPc, hqp] using hq)

omit [DecidableEq P] in
/-- When the last operation ends, all that was modified is in the log. -/
theorem pending_logged (hw : Working sb d s) {used : List ℕ} (hp : s.pc p = .inOp used [])
    (ho : s.outstanding = 1) : ∀ b ∈ s.pending.map Prod.fst, b ∈ s.block := by
  intro b hb
  refine (hw.kept b hb).resolve_right ?_
  rintro ⟨q,hq⟩
  have hin : p ∈ s.ops := by
    rw [hw.crew.inside, hp]
    rfl
  have hqin : q ∈ s.ops := by
    rw [hw.crew.inside]
    generalize s.pc q = k at hq
    cases k <;> simp [dirtyBy, isOp] at hq ⊢
  have hlen : s.ops.length = 1 := by
    have hcount := hw.crew.count
    omega
  obtain ⟨x,hx⟩ := List.length_eq_one_iff.mp hlen
  rw [hx, List.mem_singleton] at hin hqin
  rw [hqin, ← hin, hp] at hq
  simp [dirtyBy] at hq

theorem safe_end (hs : Safe sb d s) (hm : s.mode = .up) (h : endOp s p = .ok t) : Safe sb d t := by
  have hw := hs.up hm
  have hc := crew_end hw.crew h
  obtain ⟨used,hp,hn,hk⟩ := endOp_ok h
  obtain ⟨hhead,hdur⟩ := hw.idle hn
  rcases hk with ⟨-,rfl⟩ | ⟨ho,rfl⟩
  · refine safe_up hs rfl rfl rfl rfl hm (working_idle hc hn hw.fits hw.cache hw.header
      (fun x hx => ?_) (fun q u e x hq => ?_) (hw.idle hn))
    · refine Or.imp_right ?_ (hw.kept x hx)
      rintro ⟨q,hq⟩
      have hqp : q ≠ p := by
        rintro rfl
        simp [hp, dirtyBy] at hq
      exact ⟨q,by simpa [Log.setPc, hqp] using hq⟩
    · by_cases hqp : q = p
      · simp [hqp, Log.setPc] at hq
      · exact hw.checked q u e x (by simpa [Log.setPc, hqp] using hq)
  · have hlogged := pending_logged hw hp ho
    have hchk : ∀ q u e x, (s.setPc p (if s.block = [] then .finish else .writeLog 0)).pc q =
        .checked u e x → Home sb x := by
      intro q u e x hq
      by_cases hqp : q = p
      · simp only [hqp, setPc_self] at hq
        split at hq <;> simp at hq
      · exact hw.checked q u e x (by simpa [hqp] using hq)
    have hstage : ∀ {u : Log P} {k : Pc}, Crew u → u.pc = (s.setPc p k).pc → Stage sb u k →
        ∀ q, Stage sb u (u.pc q) := by
      intro u k _ hpc hk q
      by_cases hq : q = p
      · rw [hpc, hq, setPc_self]
        exact hk
      · rw [hpc, setPc_other hq]
        exact stage_other (hw.crew.quiet hn q)
    by_cases hb : s.block = []
    · have hnil : s.pending = [] := by
        cases hp : s.pending with
        | nil => rfl
        | cons w l =>
          have hw := hlogged w.1 (by simp [hp])
          simp [hb] at hw
      have htake : ((s.groups ++ [s.pending]).take (s.groups.length+1)).flatten =
          written s := by
        rw [List.take_of_length_le (by simp), written, hdur, List.take_length]
        simp [hnil]
      simp only [if_pos hb] at hc hchk ⊢
      refine ⟨?_,?_,by simp,fun h => absurd hm h,fun _ => ⟨hc,hw.fits,fun x hx => ?_,hw.header,
        by simp,hchk,fun h => by simp at h,fun _ =>
          rfl,hstage hc rfl ⟨hhead,hb,?_⟩⟩,fun l tail h => ?_⟩
      · rw [written, htake]
        exact hs.holds
      · have ha := hs.acked
        simp only [Log.setPc]
        omega
      · simpa [hnil, Log.setPc] using hw.cache x hx
      · simp
      · simp [Log.setPc, hm] at h
    · have htake : (s.groups ++ [s.pending]).take s.durable = s.groups.take s.durable :=
        List.take_append_of_le_length hs.durable
      simp only [if_neg hb] at hc hchk ⊢
      refine ⟨?_,hs.acked,?_,fun h => absurd hm h,fun _ => ⟨hc,hw.fits,fun x hx => ?_,hw.header,
        by simp,hchk,fun h => by simp at h,fun _ => rfl,hstage hc rfl ⟨⟨hhead,?_,?_⟩,?_,?_,?_⟩⟩,
        fun l tail h => ?_⟩
      · rw [written, htake]
        exact hs.holds
      · have hle := hs.durable
        simp only [List.length_append]
        omega
      · simpa [Log.setPc] using hw.cache x hx
      · simp [hdur]
      · rw [hdur, List.drop_left]
        simpa [Log.setPc] using hlogged
      · exact List.length_pos_of_ne_nil hb
      · exact fun i hi => by simp at hi
      · exact fun h0 => absurd h0 (lt_irrefl 0)
      · simp [Log.setPc, hm] at h

theorem working_commit (hw : Working sb d s) {k : Pc} (hp : isCommit (s.pc p) = true)
    (hc : Crew t) (hcom : t.committing = s.committing) (hf : Gathered sb t.block)
    (hpc : t.pc = (s.setPc p k).pc) (hg : t.groups = s.groups) (hpend : t.pending = s.pending)
    (hk : isCommit k = true) (hcache : ∀ b, Home sb b → t.cache b = s.cache b)
    (hh : t.cache sb.logstart = t.disk sb.logstart) (hst : Stage sb t k) : Working sb d t := by
  have hyes : s.committing = true := by
    by_contra hn
    have hq := hw.crew.quiet (by simpa using hn) p
    simp [hp] at hq
  obtain ⟨-,x,hx⟩ := hw.crew.alone hyes
  have hpx := (hx p).mp hp
  have hnil := hw.busy hyes
  refine ⟨hc,hf,fun b hb => ?_,hh,fun b hb => ?_,fun q u e b hq => ?_,fun h => ?_,fun _ => ?_,
    fun q => ?_⟩
  · rw [hcache b hb, hg, hpend]
    exact hw.cache b hb
  · simp [hpend, hnil] at hb
  · by_cases hqp : q = p
    · rw [hpc, hqp, setPc_self] at hq
      simp [hq, isCommit] at hk
    · exact hw.checked q u e b (by rw [hpc, setPc_other hqp] at hq; exact hq)
  · simp [hcom, hyes] at h
  · rw [hpend, hnil]
  · by_cases hqp : q = p
    · rw [hpc, hqp, setPc_self]
      exact hst
    · rw [hpc, setPc_other hqp]
      refine stage_other ?_
      have hn : ¬isCommit (s.pc q) = true := by
        rw [hx, ← hpx]
        exact hqp
      simpa using hn

section
omit [DecidableEq P]

theorem safe_commit (hd : Holds sb t.disk (replay (written t) d))
    (hm : t.mode = .up) (ha : t.acked ≤ t.durable) (hu : t.durable ≤ t.groups.length)
    (hw : Working sb d t) : Safe sb d t :=
  ⟨hd,ha,hu,fun h => absurd hm h,fun _ => hw,fun l tail h => by simp [hm] at h⟩

theorem ops_nil (hc : Crew s) (hp : isCommit (s.pc p) = true) : s.ops = [] := by
  refine (hc.alone ?_).1
  by_contra hn
  have hq := hc.quiet (by simpa using hn) p
  simp [hp] at hq

/-- A round of `write_log` that finds a buffer has a transaction that fits the
log region. -/
theorem writeLog_region (hw : Working sb d s) (hsb : NBUF ≤ sb.nlog) (hp : s.pc p = .writeLog i)
    (hbuf : sb.logstart+i+1 ∈ pinned s ∨ (pinned s).card < NBUF) : s.block.length < sb.nlog := by
  have hst := hw.stage p
  rw [hp] at hst
  obtain ⟨-,hi,-,hreg⟩ := hst
  by_cases h0 : 0 < i
  · exact hreg h0
  obtain rfl : i = 0 := by omega
  refine lt_of_lt_of_le (lt_of_le_of_lt (block_le_pinned hw.fits.nodup) ?_) hsb
  refine hbuf.resolve_left (fun hin => ?_)
  rw [mem_pinned, ops_nil hw.crew (p := p) (by rw [hp]; rfl)] at hin
  have hmem : sb.logstart+0+1 ∈ s.block := by simpa using hin
  have hlt : 1 < sb.nlog := lt_of_lt_of_le (by decide) hsb
  exact home_ne (hw.fits.home _ hmem) hlt rfl

end

section
variable (hs : Safe sb d s)
include hs

theorem writeLog_kept (hm : s.mode = .up) (hregion : s.block.length < sb.nlog)
    (hc : Crew ((writeLogOne sb s i b).setPc p (if i+1 < s.block.length then .writeLog (i+1) else
      .writeHead)))
    (hp : s.pc p = .writeLog i) (hb : s.block[i]? = some b) :
    Safe sb d ((writeLogOne sb s i b).setPc p
      (if i+1 < s.block.length then .writeLog (i+1) else .writeHead)) := by
  have hw := hs.up hm
  have hst := hw.stage p
  rw [hp] at hst
  obtain ⟨hun,hi,hlog,-⟩ := hst
  have hlt : i+1 < sb.nlog := lt_of_le_of_lt hi hregion
  have hhome : ∀ x, Home sb x → x ≠ sb.logstart+i+1 := fun x hx => home_ne (i := i+1) hx hlt
  have hne : sb.logstart ≠ sb.logstart+i+1 := by omega
  have hhead : (writeLogOne sb s i b).disk sb.logstart = s.disk sb.logstart := by
    simp [writeLogOne, Log.bwrite, hne]
  have hcache : ∀ x, Home sb x → (writeLogOne sb s i b).cache x = s.cache x := by
    intro x hx
    simp [writeLogOne, Log.bwrite, hhome x hx]
  have hun' : Uncommitted sb (writeLogOne sb s i b) := by
    rw [Uncommitted, hhead]
    exact hun
  have hlog' : LoggedTo sb (writeLogOne sb s i b) (i+1) := by
    intro j hj x hx
    have hxh := hw.fits.home x (List.mem_of_getElem? hx)
    rw [hcache x hxh]
    by_cases hji : j = i
    · subst hji
      obtain rfl : b = x := Option.some.inj (hb.symm.trans hx)
      simp [writeLogOne, Log.bwrite]
    · have h := hlog j (by omega) x hx
      simpa [writeLogOne, Log.bwrite, hji] using h
  refine safe_commit ?_ hm hs.acked hs.durable (working_commit hw (by rw [hp]; rfl) hc rfl hw.fits
    rfl rfl rfl (by split <;> rfl) hcache ?_ ?_)
  · exact holds_log hs.holds hun.1 hlt
  · have h := hw.header
    simpa [writeLogOne, Log.bwrite, Log.setPc, hne] using h
  · split
    · rename_i hlt
      exact ⟨hun',hlt,hlog',fun _ => hregion⟩
    · rename_i hge
      have hlen : s.block.length = i+1 := by omega
      refine ⟨hun',lt_of_le_of_lt (Nat.zero_le i) hi,?_,hregion⟩
      change LoggedTo sb (writeLogOne sb s i b) s.block.length
      rw [hlen]
      exact hlog'

omit [DecidableEq P] in
theorem commit_contents (hw : Working sb d s) (hun : Uncommitted sb s)
    (hlog : LoggedTo sb s s.block.length) (hpend : s.pending = []) (hb : Home sb b) :
    replay (entries sb s.disk s.block) s.disk b = replay s.groups.flatten d b := by
  obtain ⟨hhead,-,hgroup⟩ := hun
  by_cases hin : b ∈ s.block
  · obtain ⟨j,hj,rfl⟩ := List.mem_iff_getElem.mp hin
    have hmem : (s.block[j],s.disk (sb.logstart+j+1)) ∈ entries sb s.disk s.block := by
      refine List.mem_iff_getElem.mpr ⟨j,by simpa [entries] using hj,?_⟩
      simp [entries]
    have h := replay_mem (d := s.disk) (by rw [entries_keys]; exact hw.fits.nodup) hmem
    have hc := hw.cache _ hb
    rw [hpend, List.append_nil] at hc
    exact h.trans ((hlog j hj _ (List.getElem?_eq_getElem hj)).1.trans hc)
  · rw [replay_other (by rw [entries_keys]; exact hin), holds_clean hs.holds hhead hb]
    have hsplit : s.groups.flatten = written s ++ (s.groups.drop s.durable).flatten := by
      rw [written, ← List.flatten_append, List.take_append_drop]
    rw [hsplit, replay_append]
    exact (replay_other (fun h => hin (hgroup b h))).symm

theorem writeHead_kept (hm : s.mode = .up) (hp : s.pc p = .writeHead)
    (hc : Crew { (writeHead sb s s.block).setPc p (.install 0) with durable := s.groups.length }) :
    Safe sb d { (writeHead sb s s.block).setPc p (.install 0) with
      durable := s.groups.length } := by
  have hw := hs.up hm
  have hst := hw.stage p
  rw [hp] at hst
  obtain ⟨hun,hpos,hlog,hregion⟩ := hst
  have hpend : s.pending = [] := by
    apply hw.busy
    by_contra hn
    have hq := hw.crew.quiet (by simpa using hn) p
    simp [hp, isCommit] at hq
  have hcache : ∀ x, Home sb x → (writeHead sb s s.block).cache x = s.cache x := by
    intro x hx
    simp [writeHead, Log.bwrite, home_header hx]
  have hread : readHead ((writeHead sb s s.block).disk sb.logstart) = s.block := by
    simp only [writeHead, Log.bwrite, update_self]
    exact readHead_headWith hw.fits.array _
  refine safe_commit ?_ hm ?_ le_rfl (working_commit hw (by rw [hp]; rfl) hc rfl hw.fits rfl rfl rfl
    rfl hcache ?_ ⟨⟨hread,rfl,?_⟩,hpos,fun j hj => by simp at hj⟩)
  · have hall : written { (writeHead sb s s.block).setPc p (.install 0) with
        durable := s.groups.length } = s.groups.flatten := by
      simp [written, writeHead, Log.bwrite, Log.setPc]
    rw [hall]
    exact holds_commit ⟨hw.fits,hregion⟩ _ (fun x hx => commit_contents hs hw hun hlog hpend hx)
  · exact le_trans hs.acked hs.durable
  · simp [writeHead, Log.bwrite, Log.setPc]
  · intro j hj x hx
    have hxh := hw.fits.home x (List.mem_of_getElem? hx)
    have hne : sb.logstart+j+1 ≠ sb.logstart := by omega
    have h := hlog j hj x hx
    simpa [writeHead, Log.bwrite, Log.setPc, hne, home_header hxh] using h

theorem install_kept (hm : s.mode = .up)
    (hc : Crew ((installOne sb s i b).setPc p (if i+1 < s.block.length then .install (i+1) else
      .clearHead)))
    (hp : s.pc p = .install i) (hb : s.block[i]? = some b) :
    Safe sb d ((installOne sb s i b).setPc p
      (if i+1 < s.block.length then .install (i+1) else .clearHead)) := by
  have hw := hs.up hm
  have hst := hw.stage p
  rw [hp] at hst
  obtain ⟨⟨hread,hdur,hlog⟩,hi,hinst⟩ := hst
  have hbh := hw.fits.home b (List.mem_of_getElem? hb)
  obtain ⟨hl1,hl2⟩ := hlog i hi b hb
  have hregion : s.block.length < sb.nlog := hread ▸ hs.holds.fits.region
  have hcache : (installOne sb s i b).cache = s.cache := by
    simp only [installOne, Log.bwrite, hl2]
    exact update_eq_self b s.cache
  have hdisk : (installOne sb s i b).disk = update s.disk b (s.disk (sb.logstart+i+1)) := by
    simp only [installOne, Log.bwrite, hl1, hl2]
  have hsame : ∀ j < sb.nlog, (installOne sb s i b).disk (sb.logstart+j) =
    s.disk (sb.logstart+j) := by
    intro j hj
    rw [hdisk, update_of_ne (home_ne hbh hj).symm]
  have hcom : Committed sb (installOne sb s i b) := by
    refine ⟨?_,hdur,fun j hj x hx => ?_⟩
    · have h := hsame 0 sb.header
      rw [Nat.add_zero] at h
      rw [h]
      exact hread
    · have hj : j < s.block.length := hj
      have h := hsame (j+1) (by omega)
      rw [hcache, Nat.add_assoc, h]
      exact hlog j hj x hx
  have hinst' : InstalledTo (installOne sb s i b) (i+1) := by
    intro j hj x hx
    rw [hcache, hdisk]
    by_cases hxb : x = b
    · rw [hxb, update_self]
      exact hl1
    · rw [update_of_ne hxb]
      have hji : j ≠ i := by
        rintro rfl
        exact hxb (Option.some.inj (hx.symm.trans hb))
      exact hinst j (by omega) x hx
  refine safe_commit ?_ hm hs.acked hs.durable (working_commit hw (by rw [hp]; rfl) hc rfl hw.fits
    rfl rfl rfl (by split <;> rfl) (fun x _ => congrFun hcache x) ?_ ?_)
  · have h := holds_install hs.holds hread hb
    rw [← hdisk] at h
    exact h
  · have h := hsame 0 sb.header
    rw [Nat.add_zero] at h
    change (installOne sb s i b).cache sb.logstart = (installOne sb s i b).disk sb.logstart
    rw [hcache, h]
    exact hw.header
  · split
    · rename_i hlt
      exact ⟨hcom,hlt,hinst'⟩
    · rename_i hge
      have hlen : s.block.length = i+1 := by omega
      refine ⟨hcom,?_⟩
      change InstalledTo (installOne sb s i b) s.block.length
      rw [hlen]
      exact hinst'

theorem clearHead_kept (hm : s.mode = .up) (hp : s.pc p = .clearHead)
    (hc : Crew { (writeHead sb s []).setPc p .finish with block := [], logged := [] }) :
    Safe sb d { (writeHead sb s []).setPc p .finish with block := [], logged := [] } := by
  have hw := hs.up hm
  have hst := hw.stage p
  rw [hp] at hst
  obtain ⟨⟨hread,hdur,hlog⟩,hinst⟩ := hst
  have hset : ∀ j x, s.block[j]? = some x → s.disk x = s.disk (sb.logstart+j+1) := by
    intro j x hx
    have hj := (List.getElem?_eq_some_iff.mp hx).1
    rw [hinst j hj x hx, (hlog j hj x hx).1]
  refine safe_commit (holds_erase hs.holds hread hset _).1 hm hs.acked hs.durable (working_commit hw
    (by rw [hp]; rfl) hc rfl gathered_nil rfl rfl rfl rfl (fun x hx => ?_) ?_ ⟨?_,rfl,hdur⟩)
  · simp [writeHead, Log.bwrite, Log.setPc, home_header hx]
  · simp [writeHead, Log.bwrite, Log.setPc]
  · simp only [writeHead, Log.bwrite, Log.setPc, update_self]
    exact readHead_headWith (by simp) _

theorem finish_kept (hm : s.mode = .up) (hp : s.pc p = .finish)
    (hc : Crew { s.setPc p .idle with committing := false, acked := s.groups.length }) :
    Safe sb d { s.setPc p .idle with committing := false, acked := s.groups.length } := by
  have hw := hs.up hm
  have hst := hw.stage p
  rw [hp] at hst
  obtain ⟨hread,hnil,hdur⟩ := hst
  have hpend : s.pending = [] := by
    apply hw.busy
    by_contra hn
    have hq := hw.crew.quiet (by simpa using hn) p
    simp [hp, isCommit] at hq
  refine safe_commit hs.holds hm hdur.ge hs.durable (working_idle hc rfl hw.fits hw.cache hw.header
    (fun x hx => ?_) (fun q u e x hq => ?_) ⟨hread,hdur⟩)
  · simp [Log.setPc, hpend] at hx
  · by_cases hqp : q = p
    · simp [hqp, Log.setPc] at hq
    · exact hw.checked q u e x (by simpa [Log.setPc, hqp] using hq)

end

end Xv6.LogInvariant
