import Xv6.BufferCache
import Mathlib.Data.Fintype.Option

/-!
# What the buffer cache keeps

The links form one ring through all buffers, so that a search of `bget` sees
each of them. The references explain the counts and the locks. Buffers and
disk mirror the contents of the blocks: a valid buffer has what its block
contains, and so has the disk where no dirty buffer covers it.
-/

set_option autoImplicit false

namespace Xv6.BufferInvariant
open Function CircularList BufferCache
open KernelState (Stop)

variable {P D : Type}

def Ring (r : Links Node) : Prop := ∃ l, IsRing r none l ∧ ∀ i, some i ∈ l

section Ring
variable {r : Links Node} {t : Fin NBUF → Bool}

theorem ring_length {l : List Node} (h : IsRing r none l) : l.length ≤ NBUF := by
  have hn := h.1.length_le_card
  simpa using hn

theorem any_find {l : List Node} (hall : ∀ i, some i ∈ l) :
    (∃ i, l.find? (fun x => x.any t) = some (some i) ∧ t i = true) ∨
    l.find? (fun x => x.any t) = none ∧ ∀ i, t i = false := by
  cases hf : l.find? (fun x => x.any t) with
  | none =>
    refine .inr ⟨rfl,fun i => ?_⟩
    have hi := List.find?_eq_none.mp hf (some i) (hall i)
    simpa using hi
  | some x =>
    have hx := List.find?_some hf
    cases x with
    | none => simp at hx
    | some i => exact .inl ⟨i,rfl,by simpa using hx⟩

/-- A walk through the whole ring finds a buffer with the property, if there
is one. -/
theorem ring_find (h : Ring r) :
    (∃ i, search r.next none (fun x => x.any t) (NBUF+1) (r.next none) = some (some (some i)) ∧
      t i = true) ∨
    search r.next none (fun x => x.any t) (NBUF+1) (r.next none) = some none ∧
      ∀ i, t i = false := by
  obtain ⟨l,hr,hall⟩ := h
  rw [ring_search hr (Nat.lt_succ_of_le (ring_length hr))]
  rcases any_find (t := t) hall with ⟨i,hi,ht⟩ | ⟨hn,ht⟩
  · exact .inl ⟨i,by rw [hi],ht⟩
  · exact .inr ⟨by rw [hn],ht⟩

theorem ring_find_back (h : Ring r) :
    (∃ i, search r.prev none (fun x => x.any t) (NBUF+1) (r.prev none) = some (some (some i)) ∧
      t i = true) ∨
    search r.prev none (fun x => x.any t) (NBUF+1) (r.prev none) = some none ∧
      ∀ i, t i = false := by
  obtain ⟨l,hr,hall⟩ := h
  exact ring_find (r := ⟨r.prev,r.next⟩) ⟨l.reverse,ring_reverse hr,by simpa using hall⟩

theorem ring_move (h : Ring r) (i : Fin NBUF) :
    Ring (pushFront (unlink r (some i)) none (some i)) := by
  obtain ⟨l,hr,hall⟩ := h
  obtain ⟨l1,l2,rfl⟩ := List.append_of_mem (hall i)
  have hnd := (List.nodup_cons.mp hr.1).2
  have hi : some i ∉ none::(l1 ++ l2) := by
    rw [List.nodup_middle, List.nodup_cons] at hnd
    simpa using hnd.1
  refine ⟨some i::(l1 ++ l2),ring_pushFront (ring_unlink hr) hi,fun j => ?_⟩
  have hj := hall j
  simp only [List.mem_append, List.mem_cons] at hj ⊢
  tauto

theorem ring_build (l : List (Fin NBUF)) {r : Links Node} {acc : List Node} (hr : IsRing r none acc)
    (hl : l.Nodup) (hd : ∀ i ∈ l, some i ∉ acc) :
    IsRing (l.foldl (fun r i => pushFront r none (some i)) r) none (l.reverse.map some ++ acc) := by
  induction l generalizing r acc with
  | nil => exact hr
  | cons i l ih =>
    obtain ⟨hi,hl⟩ := List.nodup_cons.mp hl
    have hp : IsRing (pushFront r none (some i)) none (some i::acc) :=
      ring_pushFront hr (by simpa using hd i (by simp))
    have hk := ih hp hl (fun j hj => ?_)
    · simpa using hk
    · have hji : j ≠ i := fun he => hi (he ▸ hj)
      simpa [hji] using hd j (by simp [hj])

theorem ring_binit : Ring binitLinks := by
  have hb := ring_build (List.finRange NBUF) (ring_close ⟨fun _ => none,fun _ => none⟩ none)
    (List.nodup_finRange NBUF) (by simp)
  exact ⟨_,hb,by simp⟩

end Ring

structure Booked (s : Cache P D) : Prop where
  counted : ∀ i, (s.buf i).refcnt = s.refs.countP (fun r => r.buf = i)
  locked : ∀ i, s.refs.countP (fun r => r.buf = i ∧ r.stage = .holding) =
    if (s.buf i).locked then 1 else 0
  named : ∀ r ∈ s.refs, (s.buf r.buf).dev = ROOTDEV ∧ (s.buf r.buf).blockno = r.block
  loaded : ∀ r ∈ s.refs, r.stage = .holding → (s.buf r.buf).valid = true

structure Mirror (m : ℕ → D) (s : Cache P D) : Prop where
  unique : ∀ i j, (s.buf i).dev = ROOTDEV → (s.buf j).dev = ROOTDEV →
    (s.buf i).blockno = (s.buf j).blockno → i = j
  pinned : ∀ i, (s.buf i).dirty = true → (s.buf i).valid = true ∧ (s.buf i).dev = ROOTDEV
  cached : ∀ i, (s.buf i).dev = ROOTDEV → (s.buf i).valid = true →
    (s.buf i).data = contents m s.history (s.buf i).blockno
  clean : ∀ i, (s.buf i).dev = ROOTDEV → (s.buf i).dirty = false →
    s.disk (s.buf i).blockno = contents m s.history (s.buf i).blockno
  absent : ∀ n, (∀ i, carries (s.buf i) n = false) → s.disk n = contents m s.history n
  faithful : Faithful m s.history

structure Coherent (m : ℕ → D) (s : Cache P D) : Prop where
  ring : Ring s.links
  booked : Booked s
  mirror : Mirror m s

theorem carries_iff {b : Buf D} {n : ℕ} : carries b n = true ↔ b.dev = ROOTDEV ∧ b.blockno = n := by
  simp [carries]

section Mirror
variable {m : ℕ → D} {s t : Cache P D} {i : Fin NBUF} {b : Buf D}

/-- Counts and locks may change. -/
theorem mirror_congr (hs : Mirror m s)
    (hb : ∀ i, (t.buf i).dev = (s.buf i).dev ∧ (t.buf i).blockno = (s.buf i).blockno ∧
      (t.buf i).valid = (s.buf i).valid ∧ (t.buf i).dirty = (s.buf i).dirty ∧
      (t.buf i).data = (s.buf i).data)
    (hd : t.disk = s.disk) (hh : t.history = s.history) : Mirror m t := by
  refine ⟨fun i j => ?_,fun i => ?_,fun i => ?_,fun i => ?_,fun n hn => ?_,
    by rw [hh]; exact hs.faithful⟩
  · rw [(hb i).1, (hb i).2.1, (hb j).1, (hb j).2.1]
    exact hs.unique i j
  · rw [(hb i).1, (hb i).2.2.1, (hb i).2.2.2.1]
    exact hs.pinned i
  · rw [(hb i).1, (hb i).2.1, (hb i).2.2.1, (hb i).2.2.2.2, hh]
    exact hs.cached i
  · rw [(hb i).1, (hb i).2.1, (hb i).2.2.2.1, hd, hh]
    exact hs.clean i
  · rw [hd, hh]
    refine hs.absent n (fun i => ?_)
    rw [← hn i, carries, carries, (hb i).1, (hb i).2.1]

theorem mirror_recycle (hs : Mirror m s) {n : ℕ} (hn : ∀ j, carries (s.buf j) n = false)
    (hi : (s.buf i).dirty = false) (hno : b.blockno = n)
    (hv : b.valid = false) (hd : b.dirty = false) : Mirror m (s.setBuf i b) := by
  have hother : ∀ j, j ≠ i → (s.setBuf i b).buf j = s.buf j := fun j h => s.setBuf_of_ne h b
  have hself : (s.setBuf i b).buf i = b := s.setBuf_self i b
  have hfree : ∀ j, (s.buf j).dev = ROOTDEV → (s.buf j).blockno ≠ n := by
    intro j hj he
    have hc := hn j
    simp [carries, hj, he] at hc
  refine ⟨fun j k hj hk he => ?_,fun j hj => ?_,fun j hj hjv => ?_,fun j hj hjd => ?_,
    fun l hl => ?_,hs.faithful⟩
  · by_cases hji : j = i <;> by_cases hki : k = i
    · rw [hji, hki]
    · subst hji
      rw [hself, hother k hki, hno] at he
      rw [hother k hki] at hk
      exact absurd he.symm (hfree k hk)
    · subst hki
      rw [hself, hother j hji, hno] at he
      rw [hother j hji] at hj
      exact absurd he (hfree j hj)
    · rw [hother j hji, hother k hki] at he
      rw [hother j hji] at hj
      rw [hother k hki] at hk
      exact hs.unique j k hj hk he
  · by_cases hji : j = i
    · subst hji
      rw [hself, hd] at hj
      exact absurd hj (by decide)
    · rw [hother j hji] at hj ⊢
      exact hs.pinned j hj
  · by_cases hji : j = i
    · subst hji
      rw [hself, hv] at hjv
      exact absurd hjv (by decide)
    · rw [hother j hji] at hj hjv ⊢
      exact hs.cached j hj hjv
  · by_cases hji : j = i
    · subst hji
      rw [hself, hno]
      exact hs.absent n hn
    · rw [hother j hji] at hj hjd ⊢
      exact hs.clean j hj hjd
  · by_cases hc : carries (s.buf i) l = true
    · obtain ⟨h1,rfl⟩ := carries_iff.mp hc
      exact hs.clean i h1 hi
    · refine hs.absent l (fun j => ?_)
      by_cases hji : j = i
      · subst hji
        simpa using hc
      · rw [← hother j hji]
        exact hl j

/-- One buffer gets data, and the contents of its block and of no other may
change. -/
theorem mirror_set (hs : Mirror m s) (hdev : (s.buf i).dev = ROOTDEV) (h1 : b.dev = (s.buf i).dev)
    (h2 : b.blockno = (s.buf i).blockno) (h3 : b.valid = true) (hbuf : t.buf = update s.buf i b)
    (hne : ∀ n, n ≠ (s.buf i).blockno →
      contents m t.history n = contents m s.history n ∧ t.disk n = s.disk n)
    (hdata : b.data = contents m t.history (s.buf i).blockno)
    (hclean : b.dirty = false →
      t.disk (s.buf i).blockno = contents m t.history (s.buf i).blockno)
    (hf : Faithful m t.history) : Mirror m t := by
  have hother : ∀ j, j ≠ i → t.buf j = s.buf j := fun j h => by rw [hbuf, update_of_ne h]
  have hself : t.buf i = b := by rw [hbuf, update_self]
  have hdb : ∀ j, (t.buf j).dev = (s.buf j).dev ∧ (t.buf j).blockno = (s.buf j).blockno := by
    intro j
    by_cases hji : j = i
    · subst hji
      rw [hself]
      exact ⟨h1,h2⟩
    · rw [hother j hji]
      exact ⟨rfl,rfl⟩
  have hblock : ∀ j, j ≠ i → (s.buf j).dev = ROOTDEV → (s.buf j).blockno ≠ (s.buf i).blockno :=
    fun j hji hj he => hji (hs.unique j i hj hdev he)
  refine ⟨fun j k => ?_,fun j hj => ?_,fun j hj hjv => ?_,fun j hj hjd => ?_,fun l hl => ?_,hf⟩
  · rw [(hdb j).1, (hdb j).2, (hdb k).1, (hdb k).2]
    exact hs.unique j k
  · by_cases hji : j = i
    · subst hji
      rw [hself]
      exact ⟨h3,h1.trans hdev⟩
    · rw [hother j hji] at hj ⊢
      exact hs.pinned j hj
  · by_cases hji : j = i
    · subst hji
      rw [hself, h2]
      exact hdata
    · rw [hother j hji] at hj hjv ⊢
      rw [(hne _ (hblock j hji hj)).1]
      exact hs.cached j hj hjv
  · by_cases hji : j = i
    · subst hji
      rw [hself] at hjd
      rw [(hdb j).2]
      exact hclean hjd
    · rw [hother j hji] at hj hjd ⊢
      rw [(hne _ (hblock j hji hj)).1, (hne _ (hblock j hji hj)).2]
      exact hs.clean j hj hjd
  · have hl' : ∀ j, carries (s.buf j) l = false := by
      intro j
      rw [← hl j, carries, carries, (hdb j).1, (hdb j).2]
    have hli : l ≠ (s.buf i).blockno := by
      rintro rfl
      have hc := hl' i
      simp [carries, hdev] at hc
    rw [(hne l hli).1, (hne l hli).2]
    exact hs.absent l hl'

theorem mirror_read (hs : Mirror m s) (hdev : (s.buf i).dev = ROOTDEV) {n : ℕ}
    (hno : (s.buf i).blockno = n) (h1 : b.dev = (s.buf i).dev) (h2 : b.blockno = (s.buf i).blockno)
    (h3 : b.valid = true) (h4 : b.dirty = (s.buf i).dirty)
    (h5 : b.data = if (s.buf i).valid then (s.buf i).data else s.disk (s.buf i).blockno) :
    Mirror m ((s.setBuf i b).record (.read n b.data)) := by
  have hdata : b.data = contents m s.history (s.buf i).blockno := by
    rw [h5]
    split
    · exact hs.cached i hdev ‹_›
    · rename_i hv
      refine hs.clean i hdev ?_
      by_contra hd
      exact hv (hs.pinned i (by simpa using hd)).1
  exact mirror_set hs hdev h1 h2 h3 rfl (fun _ _ => ⟨rfl,rfl⟩) hdata
    (fun hd => hs.clean i hdev (h4 ▸ hd)) ⟨hno ▸ hdata,hs.faithful⟩

theorem mirror_store (hs : Mirror m s) (hdev : (s.buf i).dev = ROOTDEV)
    (h1 : b.dev = (s.buf i).dev) (h2 : b.blockno = (s.buf i).blockno) (h3 : b.valid = true)
    (hbuf : t.buf = update s.buf i b)
    (hdisk : b.dirty = true ∧ t.disk = s.disk ∨ t.disk = update s.disk (s.buf i).blockno b.data)
    (hhist : t.history = .write (s.buf i).blockno b.data::s.history) : Mirror m t := by
  have heq : contents m t.history (s.buf i).blockno = b.data := by
    rw [hhist, contents, update_self]
  refine mirror_set hs hdev h1 h2 h3 hbuf (fun n hn => ⟨?_,?_⟩) heq.symm (fun hc => ?_)
    (by rw [hhist]; exact hs.faithful)
  · rw [hhist, contents, update_of_ne hn]
  · rcases hdisk with ⟨-,hd⟩ | hd
    · rw [hd]
    · rw [hd, update_of_ne hn]
  · rcases hdisk with ⟨hd,-⟩ | hd
    · exact absurd (hd.symm.trans hc) (by decide)
    · rw [hd, update_self, heq]

end Mirror

variable [DecidableEq P]

section Booked
variable {s t : Cache P D} {r : Ref P} {i : Fin NBUF} {b : Buf D}

theorem count_move (hr : r ∈ s.refs) (k : Stage) (f : Ref P → Bool) :
    (s.moveRef r k).refs.countP f + (if f r then 1 else 0) =
      s.refs.countP f + if f { r with stage := k } then 1 else 0 := by
  have hp := (List.perm_cons_erase hr).countP_eq f
  rw [hp]
  simp only [Cache.moveRef, Cache.addRef, Cache.dropRef, List.countP_cons]
  omega

theorem mem_move {x : Ref P} {k : Stage} (hx : x ∈ (s.moveRef r k).refs) :
    x = { r with stage := k } ∨ x ∈ s.refs := by
  rcases List.mem_cons.mp hx with hx | hx
  · exact .inl hx
  · exact .inr (List.mem_of_mem_erase hx)

section
variable (hs : Booked s)
include hs

section
omit [DecidableEq P]

theorem no_refs (hi : (s.buf i).refcnt = 0) : ∀ x ∈ s.refs, x.buf ≠ i := by
  intro x hx he
  have hc := hs.counted i
  rw [hi, eq_comm, List.countP_eq_zero] at hc
  exact hc x hx (by simpa using he)

/-- A reference to a buffer more. -/
theorem booked_add {n : ℕ} (h1 : b.refcnt = (s.buf i).refcnt+1) (h2 : b.locked = (s.buf i).locked)
    (h3 : b.dev = ROOTDEV) (h4 : b.blockno = n)
    (hold : (∀ x ∈ s.refs, x.buf ≠ i) ∨ b.blockno = (s.buf i).blockno ∧
      b.valid = (s.buf i).valid) (p : P) :
    Booked ((s.setBuf i b).addRef ⟨p,n,i,.waiting⟩) := by
  have hother : ∀ j, j ≠ i → (s.setBuf i b).buf j = s.buf j := fun j h => s.setBuf_of_ne h _
  refine ⟨fun j => ?_,fun j => ?_,fun x hx => ?_,fun x hx hk => ?_⟩
  · have hj := hs.counted j
    by_cases hji : j = i
    · subst hji
      simp [Cache.addRef, h1, hj]
    · simp [Cache.addRef, hother j hji, hj, Ne.symm hji]
  · have hj := hs.locked j
    by_cases hji : j = i
    · subst hji
      simpa [Cache.addRef, h2] using hj
    · simpa [Cache.addRef, hother j hji] using hj
  · rcases List.mem_cons.mp hx with rfl | hx
    · simp [Cache.addRef, h3, h4]
    · have hn := hs.named x hx
      by_cases hji : x.buf = i
      · have hb := (hold.resolve_left fun h => h x hx hji).1
        rw [hji] at hn
        simpa [Cache.addRef, hji, h3, hb] using hn.2
      · simpa [Cache.addRef, hother _ hji] using hn
  · rcases List.mem_cons.mp hx with rfl | hx
    · simp at hk
    · have hn := hs.loaded x hx hk
      by_cases hji : x.buf = i
      · have hb := (hold.resolve_left fun h => h x hx hji).2
        rw [hji] at hn
        simpa [Cache.addRef, hji, hb] using hn
      · simpa [Cache.addRef, hother _ hji] using hn

theorem booked_data (hb : t.buf = update s.buf i b) (hr : t.refs = s.refs)
    (h1 : b.dev = (s.buf i).dev) (h2 : b.blockno = (s.buf i).blockno)
    (h3 : b.refcnt = (s.buf i).refcnt) (h4 : b.locked = (s.buf i).locked)
    (h5 : (s.buf i).valid = true → b.valid = true) : Booked t := by
  refine ⟨fun j => ?_,fun j => ?_,fun x hx => ?_,fun x hx hk => ?_⟩ <;> rw [hb]
  · rw [hr, ← hs.counted j]
    by_cases hji : j = i
    · simp [hji, h3]
    · simp [hji]
  · rw [hr, hs.locked j]
    by_cases hji : j = i
    · simp [hji, h4]
    · simp [hji]
  · have hn := hs.named x (hr ▸ hx)
    by_cases hji : x.buf = i
    · rw [hji] at hn ⊢
      simpa [h1, h2] using hn
    · simpa [hji] using hn
  · have hn := hs.loaded x (hr ▸ hx) hk
    by_cases hji : x.buf = i
    · rw [hji] at hn ⊢
      simpa using h5 hn
    · simpa [hji] using hn

end

theorem booked_move (hr : r ∈ s.refs) {k : Stage} (h1 : b.dev = (s.buf r.buf).dev)
    (h2 : b.blockno = (s.buf r.buf).blockno) (h3 : b.refcnt = (s.buf r.buf).refcnt)
    (h4 : r.stage ≠ .holding ∧ k = .holding ∧ (s.buf r.buf).locked = false ∧ b.locked = true ∨
      r.stage = .holding ∧ k ≠ .holding ∧ (s.buf r.buf).locked = true ∧ b.locked = false)
    (h5 : k = .holding → b.valid = true) (h6 : (s.buf r.buf).valid = true → b.valid = true) :
    Booked ((s.setBuf r.buf b).moveRef r k) := by
  have hother : ∀ j, j ≠ r.buf → ((s.setBuf r.buf b).moveRef r k).buf j = s.buf j :=
    fun j h => s.setBuf_of_ne h b
  have hself : ((s.setBuf r.buf b).moveRef r k).buf r.buf = b := s.setBuf_self r.buf b
  have hcount := count_move (s := s.setBuf r.buf b) hr k
  refine ⟨fun j => ?_,fun j => ?_,fun x hx => ?_,fun x hx hk => ?_⟩
  · have hc := hcount (fun x => x.buf = j)
    have hj : (s.buf j).refcnt = (s.setBuf r.buf b).refs.countP (fun x => x.buf = j) := hs.counted j
    have he : (((s.setBuf r.buf b).moveRef r k).buf j).refcnt = (s.buf j).refcnt := by
      by_cases hjr : j = r.buf
      · rw [hjr, hself, h3]
      · rw [hother j hjr]
    rw [he, hj]
    exact (Nat.add_right_cancel hc).symm
  · have hc := hcount (fun x => x.buf = j ∧ x.stage = .holding)
    have hj : (s.setBuf r.buf b).refs.countP (fun x => x.buf = j ∧ x.stage = .holding) =
      if (s.buf j).locked then 1 else 0 := hs.locked j
    rw [hj] at hc
    by_cases hjr : j = r.buf
    · subst hjr
      rw [hself]
      rcases h4 with ⟨ha,rfl,hl,hb⟩ | ⟨ha,hk,hl,hb⟩
      · simp [ha, hl] at hc
        simp [hb, hc]
      · simp [ha, hk, hl] at hc
        simpa [hb] using hc
    · rw [hother j hjr]
      simpa [Ne.symm hjr] using hc
  · have hn : (s.buf x.buf).dev = ROOTDEV ∧ (s.buf x.buf).blockno = x.block := by
      rcases mem_move hx with rfl | hx
      · exact hs.named r hr
      · exact hs.named x hx
    by_cases hxr : x.buf = r.buf
    · rw [hxr] at hn ⊢
      rw [hself, h1, h2]
      exact hn
    · rw [hother _ hxr]
      exact hn
  · by_cases hxr : x.buf = r.buf
    · rw [hxr, hself]
      rcases mem_move hx with rfl | hx
      · exact h5 hk
      · exact h6 (hxr ▸ hs.loaded x hx hk)
    · rw [hother _ hxr]
      rcases mem_move hx with rfl | hx
      · exact absurd rfl hxr
      · exact hs.loaded x hx hk

theorem booked_put (hr : r ∈ s.refs) (hk : r.stage ≠ .holding) :
    Booked ((s.setBuf r.buf { s.buf r.buf with refcnt := (s.buf r.buf).refcnt-1 }).dropRef r) := by
  have hother : ∀ j, j ≠ r.buf → (s.setBuf r.buf { s.buf r.buf with
      refcnt := (s.buf r.buf).refcnt-1 }).buf j = s.buf j := fun j h => s.setBuf_of_ne h _
  have hcount : ∀ f : Ref P → Bool, s.refs.countP f =
      (s.refs.erase r).countP f + if f r then 1 else 0 := by
    intro f
    rw [(List.perm_cons_erase hr).countP_eq f, List.countP_cons]
  refine ⟨fun j => ?_,fun j => ?_,fun x hx => ?_,fun x hx hk => ?_⟩
  · have hj := hs.counted j
    have hc := hcount (fun x => x.buf = j)
    by_cases hjr : j = r.buf
    · subst hjr
      simp only [decide_true, if_true] at hc
      simp only [Cache.dropRef, Cache.setBuf_self]
      show (s.buf r.buf).refcnt-1 = (s.refs.erase r).countP (fun x => x.buf = r.buf)
      omega
    · simp only [Ne.symm hjr, decide_false, Bool.false_eq_true, if_false, Nat.add_zero] at hc
      simp only [Cache.dropRef, hother j hjr]
      exact hj.trans hc
  · have hj := hs.locked j
    have hc := hcount (fun x => x.buf = j ∧ x.stage = .holding)
    simp only [hk, and_false, decide_false, Bool.false_eq_true, if_false, Nat.add_zero] at hc
    rw [hc] at hj
    by_cases hjr : j = r.buf
    · subst hjr
      simpa [Cache.dropRef] using hj
    · simpa [Cache.dropRef, hother j hjr] using hj
  · have hn := hs.named x (List.mem_of_mem_erase hx)
    by_cases hxr : x.buf = r.buf
    · simpa [Cache.dropRef, hxr] using hn
    · simpa [Cache.dropRef, hother _ hxr] using hn
  · have hn := hs.loaded x (List.mem_of_mem_erase hx) hk
    by_cases hxr : x.buf = r.buf
    · simpa [Cache.dropRef, hxr] using hn
    · simpa [Cache.dropRef, hother _ hxr] using hn

end

end Booked

end Xv6.BufferInvariant
