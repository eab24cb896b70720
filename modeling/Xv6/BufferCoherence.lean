import Xv6.BufferInvariant

/-!
# Coherence of the buffer cache

Each step of the cache keeps its ring, its books and its mirror of the disk,
and takes no buffer in use away from its block. Hence the cache and the disk
together are the map from block numbers to what was last stored.
-/

set_option autoImplicit false

namespace Xv6.BufferCoherence
open Function TransitionRun BufferCache BufferInvariant
open KernelState (Stop)

variable {P D : Type} [DecidableEq P]

def Keeps (s t : Cache P D) : Prop :=
  ∀ i, (s.buf i).refcnt > 0 ∨ (s.buf i).dirty = true →
    (t.buf i).dev = (s.buf i).dev ∧ (t.buf i).blockno = (s.buf i).blockno

section Steps
variable {g : Geometry} {m : ℕ → D} {s t : Cache P D} {r : Ref P} {p : P} {n : ℕ} {i : Fin NBUF}

section
omit [DecidableEq P]

/-- The two ways through `bget`: the block is cached, or no buffer carries it
and an idle one is recycled. -/
theorem bget_ok (hr : Ring s.links) (h : bget s p n = .ok (t,r)) :
    ∃ i, r = ⟨p,n,i,.waiting⟩ ∧
      (carries (s.buf i) n = true ∧
        t = (s.setBuf i { s.buf i with refcnt := (s.buf i).refcnt+1 }).addRef r ∨
      (∀ j, carries (s.buf j) n = false) ∧ (s.buf i).refcnt = 0 ∧ (s.buf i).dirty = false ∧
        t = (s.setBuf i { s.buf i with
          dev := ROOTDEV, blockno := n, valid := false, dirty := false,
          refcnt := 1 }).addRef r) := by
  unfold bget at h
  rcases ring_find (t := fun i => carries (s.buf i) n) hr with ⟨i,hi,hc⟩ | ⟨hi,hc⟩
  · rw [hi] at h
    cases h
    exact ⟨i,rfl,.inl ⟨hc,rfl⟩⟩
  · rw [hi] at h
    rcases ring_find_back (t := fun i => recyclable (s.buf i)) hr with ⟨i,hi,hf⟩ | ⟨hi,-⟩
    · simp only [hi] at h
      cases h
      simp only [recyclable, Bool.and_eq_true, decide_eq_true_eq, Bool.not_eq_true'] at hf
      exact ⟨i,rfl,.inr ⟨hc,hf.1,hf.2,rfl⟩⟩
    · simp [hi] at h

theorem iderw_ok (h : iderw g s i = .ok t) :
    (s.buf i).dirty = true ∧ t = { s.setBuf i { s.buf i with dirty := false, valid := true } with
      disk := update s.disk (s.buf i).blockno (s.buf i).data } ∨
    (s.buf i).dirty = false ∧ t = s.setBuf i { s.buf i with
      data := s.disk (s.buf i).blockno, valid := true } := by
  unfold iderw at h
  split at h
  · simp at h
  split at h
  · simp at h
  split at h
  · simp at h
  split at h
  · simp at h
  split at h
  · exact .inl ⟨‹_›,(Except.ok.inj h).symm⟩
  · exact .inr ⟨by simpa using ‹¬(s.buf i).dirty = true›,(Except.ok.inj h).symm⟩

end

theorem logWrite_ok {d : D} (h : logWrite g s r d = .ok t) :
    r ∈ s.refs ∧ r.stage = .holding ∧ 1 ≤ s.outstanding ∧ s.block.length < LOGSIZE ∧
    (s.block.length:ℤ) < g.logsize-1 ∧
    t = ({ s.setBuf r.buf { s.buf r.buf with data := d, dirty := true } with
      block := if (s.buf r.buf).blockno ∈ s.block then s.block
        else s.block ++ [(s.buf r.buf).blockno] }.record (.write (s.buf r.buf).blockno d)) := by
  unfold logWrite at h
  split at h
  case isFalse => simp at h
  rename_i hr
  split at h
  · simp at h
  rename_i hn
  split at h
  · simp at h
  rename_i ho
  simp only [not_or, not_le] at hn
  exact ⟨hr.1,hr.2,by omega,hn.1,hn.2,(Except.ok.inj h).symm⟩

theorem bwrite_ok {d : D} (h : bwrite g s r d = .ok t) :
    r ∈ s.refs ∧ r.stage = .holding ∧
    t = ({ s.setBuf r.buf { s.buf r.buf with data := d, dirty := false, valid := true } with
      disk := update s.disk (s.buf r.buf).blockno d }.record
        (.write (s.buf r.buf).blockno d)) := by
  unfold bwrite at h
  split at h
  case isFalse => simp at h
  rename_i hr
  split at h
  · simp at h
  obtain ⟨u,hu,rfl⟩ := map_ok h
  refine ⟨hr.1,hr.2,?_⟩
  rcases iderw_ok hu with ⟨-,rfl⟩ | ⟨hd,-⟩
  · simp [Cache.setBuf]
  · simp at hd

def loaded (s : Cache P D) (i : Fin NBUF) : Buf D :=
  { s.buf i with
    locked := true
    valid := true
    data := if (s.buf i).valid then (s.buf i).data else s.disk (s.buf i).blockno }

theorem lockBuf_ok (hs : Mirror m s) (h : lockBuf g s r = .ok t) :
    r ∈ s.refs ∧ r.stage = .waiting ∧ (s.buf r.buf).locked = false ∧
    t = ((s.setBuf r.buf (loaded s r.buf)).moveRef r .holding).record
      (.read r.block (loaded s r.buf).data) := by
  unfold lockBuf at h
  split at h
  case isFalse => simp at h
  rename_i hr
  obtain ⟨u,hu,h⟩ := bind_ok h
  obtain ⟨v,hv,h⟩ := bind_ok h
  unfold acquiresleep at hu
  split at hu
  · simp at hu
  rename_i hl
  cases hu
  have he : v = s.setBuf r.buf (loaded s r.buf) := by
    unfold load at hv
    split at hv
    · rename_i hval
      cases hv
      simp only [Cache.setBuf_self] at hval
      simp [loaded, hval]
    · rename_i hval
      simp only [Cache.setBuf_self, Bool.not_eq_true] at hval
      rcases iderw_ok hv with ⟨hd,-⟩ | ⟨-,rfl⟩
      · have hp := (hs.pinned r.buf (by simpa using hd)).1
        simp [hval] at hp
      · simp [loaded, hval]
  subst he
  refine ⟨hr.1,hr.2,by simpa using hl,?_⟩
  cases h
  simp

section
variable (hs : Coherent m s)
include hs

omit [DecidableEq P] in
theorem coherent_bget (h : bget s p n = .ok (t,r)) : Coherent m t ∧ Keeps s t := by
  obtain ⟨i,rfl,⟨hc,rfl⟩ | ⟨hn,h0,hd,rfl⟩⟩ := bget_ok hs.ring h
  · obtain ⟨hdev,rfl⟩ := carries_iff.mp hc
    refine ⟨⟨hs.ring,booked_add (b := { s.buf i with refcnt := (s.buf i).refcnt+1 }) hs.booked rfl
      rfl hdev rfl (.inr ⟨rfl,rfl⟩) p,mirror_congr hs.mirror (fun j => ?_) rfl rfl⟩,fun j _ => ?_⟩
    · by_cases hji : j = i
      · subst hji
        simp [Cache.addRef]
      · simp [Cache.addRef, hji]
    · by_cases hji : j = i
      · subst hji
        simp [Cache.addRef]
      · simp [Cache.addRef, hji]
  · let b : Buf D := { s.buf i with
      dev := ROOTDEV, blockno := n, valid := false, dirty := false, refcnt := 1 }
    have hm : Mirror m (s.setBuf i b) := mirror_recycle hs.mirror hn hd rfl rfl rfl
    refine ⟨⟨hs.ring,booked_add (b := b) hs.booked (by simp [b, h0]) rfl rfl rfl
      (.inl (no_refs hs.booked h0)) p,
      ⟨hm.unique,hm.pinned,hm.cached,hm.clean,hm.absent,hm.faithful⟩⟩,fun j hj => ?_⟩
    by_cases hji : j = i
    · subst hji
      simp [h0, hd] at hj
    · simp [Cache.addRef, hji]

theorem coherent_lockBuf (h : lockBuf g s r = .ok t) : Coherent m t ∧ Keeps s t := by
  obtain ⟨hr,hw,hl,rfl⟩ := lockBuf_ok hs.mirror h
  obtain ⟨hdev,hno⟩ := hs.booked.named r hr
  have hb : Booked ((s.setBuf r.buf (loaded s r.buf)).moveRef r .holding) :=
    booked_move hs.booked hr rfl rfl rfl (.inl ⟨by simp [hw],rfl,hl,rfl⟩) (fun _ => rfl)
      (fun _ => rfl)
  have hm : Mirror m ((s.setBuf r.buf (loaded s r.buf)).record
      (.read r.block (loaded s r.buf).data)) :=
    mirror_read hs.mirror hdev hno rfl rfl rfl rfl rfl
  refine ⟨⟨hs.ring,⟨hb.counted,hb.locked,hb.named,hb.loaded⟩,
    ⟨hm.unique,hm.pinned,hm.cached,hm.clean,hm.absent,hm.faithful⟩⟩,fun j _ => ?_⟩
  by_cases hji : j = r.buf
  · subst hji
    simp [Cache.record, Cache.moveRef, Cache.addRef, Cache.dropRef, loaded]
  · simp [Cache.record, Cache.moveRef, Cache.addRef, Cache.dropRef, hji]

omit [DecidableEq P] in
/-- A store through a held reference. -/
theorem coherent_store (hr : r ∈ s.refs) {b : Buf D} (hring : t.links = s.links)
    (hrefs : t.refs = s.refs) (hbuf : t.buf = update s.buf r.buf b) (h1 : b.dev = (s.buf r.buf).dev)
    (h2 : b.blockno = (s.buf r.buf).blockno) (h3 : b.refcnt = (s.buf r.buf).refcnt)
    (h4 : b.locked = (s.buf r.buf).locked) (h5 : b.valid = true)
    (hdisk : b.dirty = true ∧ t.disk = s.disk ∨ t.disk = update s.disk (s.buf r.buf).blockno b.data)
    (hhist : t.history = .write (s.buf r.buf).blockno b.data::s.history) :
    Coherent m t ∧ Keeps s t := by
  have hdev := (hs.booked.named r hr).1
  refine ⟨⟨hring ▸ hs.ring,booked_data hs.booked hbuf hrefs h1 h2 h3 h4 (fun _ => h5),
    mirror_store hs.mirror hdev h1 h2 h5 hbuf hdisk hhist⟩,fun j _ => ?_⟩
  rw [hbuf]
  by_cases hji : j = r.buf
  · subst hji
    simp [h1, h2]
  · simp [hji]

theorem coherent_logWrite {d : D} (h : logWrite g s r d = .ok t) : Coherent m t ∧ Keeps s t := by
  obtain ⟨hr,hk,-,-,-,rfl⟩ := logWrite_ok h
  exact coherent_store (b := { s.buf r.buf with data := d, dirty := true }) hs hr rfl rfl rfl
    rfl rfl rfl rfl (hs.booked.loaded r hr hk) (.inl ⟨rfl,rfl⟩) rfl

theorem coherent_bwrite {d : D} (h : bwrite g s r d = .ok t) : Coherent m t ∧ Keeps s t := by
  obtain ⟨hr,-,rfl⟩ := bwrite_ok h
  exact coherent_store (b := { s.buf r.buf with data := d, dirty := false, valid := true }) hs hr
    rfl rfl rfl rfl rfl rfl rfl rfl (.inr rfl) rfl

theorem coherent_unlockBuf (h : unlockBuf s r = .ok t) : Coherent m t ∧ Keeps s t := by
  unfold unlockBuf at h
  split at h
  case isFalse => simp at h
  rename_i hr
  split at h
  · simp at h
  rename_i hl
  simp only [not_not] at hl
  cases h
  have hb : Booked ((s.setBuf r.buf { s.buf r.buf with locked := false }).moveRef r .leaving) :=
    booked_move hs.booked hr.1 rfl rfl rfl (.inr ⟨hr.2,by simp,hl,rfl⟩) (by simp) id
  refine ⟨⟨hs.ring,hb,mirror_congr hs.mirror (fun j => ?_) rfl rfl⟩,fun j _ => ?_⟩ <;>
    by_cases hji : j = r.buf
  · simp [Cache.moveRef, Cache.addRef, Cache.dropRef, hji]
  · simp [Cache.moveRef, Cache.addRef, Cache.dropRef, hji]
  · simp [Cache.moveRef, Cache.addRef, Cache.dropRef, hji]
  · simp [Cache.moveRef, Cache.addRef, Cache.dropRef, hji]

theorem coherent_putBuf (h : putBuf s r = .ok t) : Coherent m t ∧ Keeps s t := by
  unfold putBuf at h
  split at h
  case isFalse => simp at h
  rename_i hr
  cases h
  have hb := booked_put hs.booked hr.1 (by simp [hr.2])
  refine ⟨⟨?_,⟨hb.counted,hb.locked,hb.named,hb.loaded⟩,
    mirror_congr hs.mirror (fun j => ?_) rfl rfl⟩,fun j _ => ?_⟩
  · show Ring (if (s.buf r.buf).refcnt-1 = 0 then _ else s.links)
    split
    · exact ring_move hs.ring r.buf
    · exact hs.ring
  · by_cases hji : j = r.buf <;> simp [Cache.dropRef, hji]
  · by_cases hji : j = r.buf <;> simp [Cache.dropRef, hji]

theorem coherent_step {a : Act P D} (h : step g s a = .ok t) : Coherent m t ∧ Keeps s t := by
  have hsame : ∀ u : Cache P D, u.links = s.links → u.buf = s.buf → u.refs = s.refs →
      u.disk = s.disk → u.history = s.history → Coherent m u ∧ Keeps s u := by
    intro u h1 h2 h3 h4 h5
    refine ⟨⟨h1 ▸ hs.ring,?_,mirror_congr hs.mirror (fun j => by simp [h2]) h4 h5⟩,
      fun j _ => by simp [h2]⟩
    refine ⟨fun j => ?_,fun j => ?_,fun x hx => ?_,fun x hx => ?_⟩
    · rw [h2, h3]
      exact hs.booked.counted j
    · rw [h2, h3]
      exact hs.booked.locked j
    · rw [h2]
      exact hs.booked.named x (h3 ▸ hx)
    · rw [h2]
      exact hs.booked.loaded x (h3 ▸ hx)
  cases a with
  | bget p n =>
    obtain ⟨⟨u,r⟩,hu,rfl⟩ := map_ok h
    exact coherent_bget hs hu
  | lockBuf r => exact coherent_lockBuf hs h
  | logWrite r d => exact coherent_logWrite hs h
  | bwrite r d => exact coherent_bwrite hs h
  | unlockBuf r => exact coherent_unlockBuf hs h
  | putBuf r => exact coherent_putBuf hs h
  | beginOp =>
    exact hsame t (by cases h; rfl) (by cases h; rfl) (by cases h; rfl) (by cases h; rfl)
      (by cases h; rfl)
  | endOp =>
    exact hsame t (by cases h; rfl) (by cases h; rfl) (by cases h; rfl) (by cases h; rfl)
      (by cases h; rfl)
  | clearLog =>
    exact hsame t (by cases h; rfl) (by cases h; rfl) (by cases h; rfl) (by cases h; rfl)
      (by cases h; rfl)

end

end Steps

section Commit
variable {g : Geometry} {s₀ s t : Cache P D} {r : Ref P} {p : P} {n : ℕ}

section
variable (hs : Reaches (step g) (fun _ _ => True) s₀ s)
include hs

theorem bread_reaches (h : bread g s p n = .ok (t,r)) :
    Reaches (step g) (fun _ _ => True) s₀ t := by
  obtain ⟨⟨u,r'⟩,hu,h⟩ := bind_ok h
  obtain ⟨v,hv,h⟩ := bind_ok h
  cases h
  have hb : step g s (.bget p n) = .ok u := by
    simp [step, hu, Except.map]
  exact reaches_step (.lockBuf r') (reaches_step (.bget p n) hs trivial hb) trivial hv

theorem brelse_reaches (h : brelse s r = .ok t) : Reaches (step g) (fun _ _ => True) s₀ t := by
  obtain ⟨u,hu,h⟩ := bind_ok h
  exact reaches_step (.putBuf _) (reaches_step (.unlockBuf r) hs trivial hu) trivial h

theorem bwrite_reaches {d : D} (h : bwrite g s r d = .ok t) :
    Reaches (step g) (fun _ _ => True) s₀ t :=
  reaches_step (.bwrite r d) hs trivial h

theorem copyOne_reaches {tail : ℕ}
    (h : writeLogOne g s p tail n = .ok t ∨ installOne g s p tail n = .ok t) :
    Reaches (step g) (fun _ _ => True) s₀ t := by
  rcases h with h | h
  all_goals
    obtain ⟨⟨s1,a⟩,h1,h⟩ := bind_ok h
    obtain ⟨⟨s2,b⟩,h2,h⟩ := bind_ok h
    obtain ⟨s3,h3,h⟩ := bind_ok h
    obtain ⟨s4,h4,h⟩ := bind_ok h
    have hw := bwrite_reaches (bread_reaches (bread_reaches hs h1) h2) h3
    exact brelse_reaches (brelse_reaches hw h4) h

theorem writeHead_reaches {head : List ℕ → D → D} (h : writeHead g head s p = .ok t) :
    Reaches (step g) (fun _ _ => True) s₀ t := by
  obtain ⟨⟨s1,a⟩,h1,h⟩ := bind_ok h
  obtain ⟨s2,h2,h⟩ := bind_ok h
  exact brelse_reaches (bwrite_reaches (bread_reaches hs h1) h2) h

theorem commit_reaches {head : List ℕ → D → D} (h : commit g head s p = .ok t) :
    Reaches (step g) (fun _ _ => True) s₀ t := by
  unfold commit at h
  split at h
  · cases h
    exact hs
  obtain ⟨s1,h1,h⟩ := bind_ok h
  obtain ⟨s2,h2,h⟩ := bind_ok h
  obtain ⟨s3,h3,h⟩ := bind_ok h
  have hlog : Reaches (step g) (fun _ _ => True) s₀ s1 :=
    foldlM_invariant _ _ (fun _ _ _ _ hu hv => copyOne_reaches hu (.inl hv)) hs h1
  have hinst : Reaches (step g) (fun _ _ => True) s₀ s3 :=
    foldlM_invariant _ _ (fun _ _ _ _ hu hv => copyOne_reaches hu (.inr hv))
      (writeHead_reaches hlog h2) h3
  exact writeHead_reaches (reaches_step .clearLog hinst trivial rfl) h

end

end Commit

omit [DecidableEq P] in
theorem coherent_binit (disk : ℕ → D) (junk : D) : Coherent disk (binit disk junk : Cache P D) := by
  refine ⟨ring_binit,⟨fun _ => rfl,fun _ => rfl,by simp [binit],by simp [binit]⟩,
    ⟨?_,?_,?_,?_,fun _ _ => rfl,trivial⟩⟩ <;> simp [binit]

structure Still (m : ℕ → D) (s t : Cache P D) : Prop where
  contents : contents m t.history = contents m s.history
  disk : t.disk = s.disk
  dirty : ∀ i, (s.buf i).dirty = true → (t.buf i).dirty = true

theorem still_step {g : Geometry} {m : ℕ → D} {s t : Cache P D} (hs : Coherent m s) {a : Act P D}
    (h : step g s a = .ok t) (ha : ∀ r d, a ≠ .logWrite r d ∧ a ≠ .bwrite r d) :
    Still m s t ∧ (a ≠ .clearLog → t.block = s.block) := by
  have hset : ∀ (i : Fin NBUF) (b : Buf D), b.dirty = (s.buf i).dirty → ∀ j,
      (s.buf j).dirty = true → ((s.setBuf i b).buf j).dirty = true := by
    intro i b hb j hj
    by_cases hji : j = i
    · subst hji
      simpa [hb] using hj
    · simpa [hji] using hj
  cases a with
  | bget p n =>
    obtain ⟨⟨u,r⟩,hu,rfl⟩ := map_ok h
    obtain ⟨i,rfl,⟨-,rfl⟩ | ⟨-,-,hd,rfl⟩⟩ := bget_ok hs.ring hu
    · exact ⟨⟨rfl,rfl,hset i _ rfl⟩,fun _ => rfl⟩
    · exact ⟨⟨rfl,rfl,hset i _ hd.symm⟩,fun _ => rfl⟩
  | lockBuf r =>
    obtain ⟨-,-,-,rfl⟩ := lockBuf_ok hs.mirror h
    exact ⟨⟨rfl,rfl,hset r.buf _ rfl⟩,fun _ => rfl⟩
  | logWrite r d => exact absurd rfl (ha r d).1
  | bwrite r d => exact absurd rfl (ha r d).2
  | unlockBuf r =>
    simp only [step, unlockBuf] at h
    split at h
    · split at h
      · simp at h
      · cases h
        exact ⟨⟨rfl,rfl,hset r.buf _ rfl⟩,fun _ => rfl⟩
    · simp at h
  | putBuf r =>
    simp only [step, putBuf] at h
    split at h
    · cases h
      exact ⟨⟨rfl,rfl,hset r.buf _ rfl⟩,fun _ => rfl⟩
    · simp at h
  | beginOp | endOp =>
    cases h
    exact ⟨⟨rfl,rfl,fun _ => id⟩,fun _ => rfl⟩
  | clearLog =>
    cases h
    exact ⟨⟨rfl,rfl,fun _ => id⟩,fun h => absurd rfl h⟩

theorem coherent_reaches {g : Geometry} {disk : ℕ → D} {junk : D} {s : Cache P D}
    (h : Reaches (step g) (fun _ _ => True) (binit disk junk) s) : Coherent disk s :=
  reaches_invariant (Coherent disk) (fun _ _ _ hs _ h => (coherent_step hs h).1)
    (coherent_binit disk junk) h

/-- The cache is a map. In every state of every run the buffers form one ring,
no two carry one block, and no step takes a buffer that is referred to or
dirty away from its block; each `bread` returns a buffer for its block with
what was last stored there, or what the disk had at first, and so did every
one before. What is stored is what the calls store: a `log_write` and a
`bwrite` give the block of their buffer its new contents, a `bwrite` also on
the disk, and nothing else changes contents or disk. The runs include those
through a `commit`. -/
theorem cache_is_map (g : Geometry) (disk : ℕ → D) (junk : D) (head : List ℕ → D → D)
    {s : Cache P D} (h : Reaches (step g) (fun _ _ => True) (binit disk junk) s) :
    Ring s.links ∧
    (∀ i j, (s.buf i).dev = ROOTDEV → (s.buf j).dev = ROOTDEV →
      (s.buf i).blockno = (s.buf j).blockno → i = j) ∧
    (∀ a t, step g s a = .ok t → Keeps s t) ∧
    (∀ r t, step g s (.lockBuf r) = .ok t → carries (t.buf r.buf) r.block = true ∧
      (t.buf r.buf).data = contents disk s.history r.block) ∧
    Faithful disk s.history ∧
    (∀ r d t, step g s (.logWrite r d) = .ok t →
      t.history = .write r.block d::s.history ∧ t.disk = s.disk) ∧
    (∀ r d t, step g s (.bwrite r d) = .ok t →
      t.history = .write r.block d::s.history ∧ t.disk = update s.disk r.block d) ∧
    (∀ a t, step g s a = .ok t → (∀ r d, a ≠ .logWrite r d ∧ a ≠ .bwrite r d) →
      contents disk t.history = contents disk s.history ∧ t.disk = s.disk) ∧
    ∀ p t, commit g head s p = .ok t →
      Reaches (step g) (fun _ _ => True) (binit disk junk) t := by
  have hs := coherent_reaches h
  refine ⟨hs.ring,hs.mirror.unique,fun a t ht => (coherent_step hs ht).2,fun r t ht => ?_,
    hs.mirror.faithful,fun r d t ht => ?_,fun r d t ht => ?_,
    fun a t ht ha => ?_,fun p t ht => commit_reaches h ht⟩
  · have hc := (coherent_step hs ht).1
    obtain ⟨hr,-,-,rfl⟩ := lockBuf_ok hs.mirror ht
    obtain ⟨hdev,hno⟩ := hs.booked.named r hr
    refine ⟨?_,?_⟩
    · rw [carries_iff]
      simpa [Cache.record, Cache.moveRef, Cache.addRef, Cache.dropRef, loaded] using ⟨hdev,hno⟩
    · have hd := hc.mirror.faithful.1
      simpa [Cache.record, Cache.moveRef, Cache.addRef, Cache.dropRef] using hd
  · obtain ⟨hr,-,-,-,-,rfl⟩ := logWrite_ok ht
    rw [← (hs.booked.named r hr).2]
    exact ⟨rfl,rfl⟩
  · obtain ⟨hr,-,rfl⟩ := bwrite_ok ht
    rw [← (hs.booked.named r hr).2]
    exact ⟨rfl,rfl⟩
  · have hst := (still_step hs ht ha).1
    exact ⟨hst.contents,hst.disk⟩

/-- A block is logged and released, and another is written to the disk; then a
second process reads the first from its pinned buffer while the disk still
has the old contents. -/
theorem cache_is_map_while_pinned : ∃ s t u : Cache (Fin 2) ℕ,
    (s.disk 5 = 5 ∧ s.disk 9 = 9) ∧
    (step ⟨1000,2,30⟩ s (.bwrite ⟨0,9,1,.holding⟩ 8) = .ok t ∧
      t.history = .write 9 8::s.history ∧ t.disk = update s.disk 9 8) ∧
    step ⟨1000,2,30⟩ t (.lockBuf ⟨1,5,0,.waiting⟩) = .ok u ∧ (u.buf 0).data = 7 := by
  obtain ⟨s,hr,hg⟩ := play_witness (step ⟨1000,2,30⟩) (fun _ _ => True) (fun _ _ => true)
    (fun _ _ _ => trivial) (binit id 0 : Cache (Fin 2) ℕ)
    [.beginOp, .bget 0 5, .lockBuf ⟨0,5,0,.waiting⟩, .logWrite ⟨0,5,0,.holding⟩ 7,
      .unlockBuf ⟨0,5,0,.holding⟩, .putBuf ⟨0,5,0,.leaving⟩, .bget 1 5, .bget 0 9,
      .lockBuf ⟨0,9,1,.waiting⟩]
    (fun s => decide (s.disk 5 = 5 ∧ s.disk 9 = 9) && decide (contents id s.history 5 = 7) &&
      (step ⟨1000,2,30⟩ s (.bwrite ⟨0,9,1,.holding⟩ 8)).toOption.any (fun t =>
        (step ⟨1000,2,30⟩ t (.lockBuf ⟨1,5,0,.waiting⟩)).toOption.any (fun _ => true)))
    (by decide +kernel)
  simp only [Bool.and_eq_true, decide_eq_true_eq] at hg
  obtain ⟨⟨hd,hc⟩,hok⟩ := hg
  obtain ⟨t,ht,hok⟩ := ok_of_any hok
  obtain ⟨u,hu,-⟩ := ok_of_any hok
  obtain ⟨hw,hdisk⟩ := (cache_is_map ⟨1000,2,30⟩ id 0 (fun _ d => d) hr).2.2.2.2.2.2.1 _ _ t ht
  have hm := (cache_is_map ⟨1000,2,30⟩ id 0 (fun _ d => d)
    (reaches_step _ hr trivial ht)).2.2.2.1 _ u hu
  refine ⟨s,t,u,hd,⟨ht,hw,hdisk⟩,hu,hm.2.trans ?_⟩
  rw [hw]
  exact hc

/-- In every run `refcnt` counts the references to a buffer, its sleep lock is
taken exactly while one of them holds it, and a holder has valid data. -/
theorem bcache_counts (g : Geometry) (disk : ℕ → D) (junk : D) {s : Cache P D}
    (h : Reaches (step g) (fun _ _ => True) (binit disk junk) s) : Booked s :=
  (coherent_reaches h).booked

/-- One process holds a buffer that another waits for. -/
theorem bcache_counts_two : ∃ s : Cache (Fin 2) ℕ, s.refs.length = 2 ∧ Booked s := by
  obtain ⟨s,hr,hs⟩ := play_witness (step ⟨1000,2,30⟩) (fun _ _ => True) (fun _ _ => true)
    (fun _ _ _ => trivial) (binit id 0 : Cache (Fin 2) ℕ)
    [.bget 0 5, .lockBuf ⟨0,5,0,.waiting⟩, .bget 1 5] (fun s => decide (s.refs.length = 2))
    (by decide +kernel)
  exact ⟨s,of_decide_eq_true hs,bcache_counts ⟨1000,2,30⟩ id 0 hr⟩

end Xv6.BufferCoherence
