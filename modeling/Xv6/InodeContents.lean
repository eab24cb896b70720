import Xv6.FreeBlocks

/-!
# Inodes as byte arrays

`contents` is what an inode in memory and the blocks in its slots stand for.
On a disk where the blocks that the sizes cover are there and every block in a
slot is in that slot alone, `readi` returns a stretch of the contents and
`writei` splices its bytes into them.
-/

set_option autoImplicit false

namespace Xv6.InodeContents
open Function ByteStore StateRuns Allotment BlockLayer BlockMap FileContent
open FreeBlocks
open FileContent (covers_grow)

def contents (w : Work) (m : ℕ) : List UInt8 := (List.range (table w m).size).map (byteAt w m)

def InSlot (w : Work) (i : ℕ × ℕ) : Prop :=
  (table w i.1).type ≠ .free ∧ i.2 < NSLOTS ∧ addr w i ≠ 0

structure Stored (w : Work) (first : ℕ) : Prop where
  covered : ∀ m k, (table w m).type ≠ .free → k < NSLOTS → covers (table w m).size k →
    addr w (m,k) ≠ 0
  size_le : ∀ m, (table w m).type ≠ .free → (table w m).size ≤ MAXFILE*BSIZE
  inside : ∀ i, InSlot w i → first ≤ addr w i ∧ addr w i < w.disk.size
  marked : ∀ i, InSlot w i → w.disk.bitmap (addr w i) = true
  apart : ∀ i j, InSlot w i → InSlot w j → addr w i = addr w j → i = j
  reserved : ∀ b, b < first → b < w.disk.size → w.disk.bitmap b = true
  first_pos : 0 < first
  disk_size : w.disk.size ≤ 2^32

variable {need : ℕ → ℕ → Prop} {loose : ℕ → Prop} {first : ℕ} {w u v : Work}

section Ownership

/-- Slots that hold a block are the ones needed; marked blocks in no slot are
loose. -/
theorem holds_of_stored (h : Stored w first) : Holds w (fun m k => addr w (m,k) ≠ 0)
    (fun b => first ≤ b ∧ b < w.disk.size ∧ w.disk.bitmap b = true ∧ ∀ i, InSlot w i → addr w i ≠ b)
    first where
  allotted :=
    { inside := h.inside
      apart := h.apart
      spare := fun b hb => ⟨hb.1,hb.2.1,hb.2.2.2⟩
      marked := by
        intro b hb
        constructor
        · intro hm
          by_cases hlt : b < first
          · exact .inl hlt
          by_cases hs : ∃ i, InSlot w i ∧ addr w i = b
          · exact .inr (.inl hs)
          · exact .inr (.inr ⟨by omega,hb,hm,fun i hi he => hs ⟨i,hi,he⟩⟩)
        · rintro (hlt | ⟨i,hi,rfl⟩ | hl)
          · exact h.reserved b hlt hb
          · exact h.marked i hi
          · exact hl.2.2.1 }
  clear := fun m k _ _ hn => not_not.mp hn
  first_pos := h.first_pos
  size_le := h.disk_size

theorem stored_of_holds (h : Holds w need loose first)
    (hc : ∀ m k, (table w m).type ≠ .free → k < NSLOTS → covers (table w m).size k → need m k)
    (hs : ∀ m, (table w m).type ≠ .free → (table w m).size ≤ MAXFILE*BSIZE) :
    Stored w first := by
  have hus : ∀ i, InSlot w i → Uses (table w) need i :=
    fun i hi => ⟨hi.1,hi.2.1,need_of_ne_zero h hi.1 hi.2.1 hi.2.2⟩
  refine ⟨fun m k hm hk hcov => ?_,hs,fun i hi => h.allotted.inside i (hus i hi),
    fun i hi => marked_of_use h.allotted (hus i hi),
    fun i j hi hj => h.allotted.apart i j (hus i hi) (hus j hj),
      fun b hb hlt => ?_,h.first_pos,h.size_le⟩
  · exact addr_ne_zero h ⟨hm,hk,hc m k hm hk hcov⟩
  · exact (h.allotted.marked b hlt).mpr (.inl hb)

end Ownership

section Reading

theorem contents_length (w : Work) (m : ℕ) : (contents w m).length = (table w m).size := by
  simp [contents]

theorem contents_getD {m x : ℕ} (h : x < (table w m).size) :
    (contents w m).getD x 0 = byteAt w m x := by
  simp [contents, List.getD_eq_getElem?_getD, h]

theorem contents_slice (m off n : ℕ) :
    ((contents w m).drop off).take n =
      (List.range (min n ((table w m).size-off))).map (fun x => byteAt w m (off+x)) := by
  apply List.ext_getElem
  · rw [List.length_take, List.length_drop, contents_length]
    simp
  · intro k h1 h2
    simp [contents]

theorem covers_of_range {size off n k : ℕ} (hn : off+n ≤ size) (hk : range off n k) :
    covers size k := by
  obtain ⟨x,hx,hxn,rfl | ⟨h12,rfl⟩⟩ := hk
  · rw [covers_position]
    simp only [BSIZE] at *
    omega
  · rw [covers_indirect]
    simp only [BSIZE, NDIRECT] at *
    omega

theorem range_lt {off n k : ℕ} (hn : off+n ≤ MAXFILE*BSIZE) (hk : range off n k) : k < NSLOTS := by
  obtain ⟨x,hx,hxn,rfl | ⟨h12,rfl⟩⟩ := hk
  · exact position_lt (div_lt_max (by omega))
  · exact indirect_lt

theorem readi_contents (hs : Stored w first) (hl : w.copy.type ≠ .free) (hd : w.copy.type ≠ .dev)
    (device : ℤ → Option (List UInt8)) (off n : ℕ) :
    readi device off n w = .ok (if w.copy.size < off ∨ (off+n)%2^32 < off then none
      else some (((contents w w.inum).drop off).take n),w) := by
  unfold readi
  rw [if_neg hd]
  by_cases hb : w.copy.size < off ∨ (off+n)%2^32 < off
  · rw [if_pos hb, if_pos hb]
  rw [if_neg hb, if_neg hb]
  have hl' : (table w w.inum).type ≠ .free := by rwa [table_self]
  have hle := hs.size_le w.inum hl'
  have hcov := hs.covered w.inum
  rw [table_self] at hle hcov
  have hr := readLoop_eq (holds_of_stored hs) hl n off (min n (w.copy.size-off)) (by omega)
    (by omega) (fun k hk => hcov k hl (range_lt (by omega) hk) (covers_of_range (by omega) hk))
  rw [contents_slice, table_self]
  show (readLoop n off (min n (w.copy.size-off)) w >>= fun r => .ok (some r.1,r.2)) = _
  rw [hr]
  rfl

end Reading

section Writing

theorem growTo_table (off n : ℕ) (u : Work) : ∃ v, growTo off n u = .ok ((),v) ∧
    v.inum = u.inum ∧ v.disk.content = u.disk.content ∧ v.disk.bitmap = u.disk.bitmap ∧
    v.disk.size = u.disk.size ∧ table v = update (table u) u.inum
      { u.copy with size := if 0 < n ∧ u.copy.size < off then off else u.copy.size } := by
  by_cases hg : 0 < n ∧ u.copy.size < off
  · refine ⟨_,if_pos hg,rfl,rfl,rfl,rfl,?_⟩
    rw [if_pos hg]
    show update (update u.disk.dinode u.inum _) u.inum _ =
      update (update u.disk.dinode u.inum _) u.inum _
    rw [update_idem, update_idem]
  · refine ⟨u,if_neg hg,rfl,rfl,rfl,rfl,?_⟩
    rw [if_neg hg, table, update_idem]

structure Spliced (w v : Work) (first off : ℕ) (src : List UInt8) : Prop where
  stored : Stored v first
  inum : v.inum = w.inum
  type : ∀ m, (table v m).type = (table w m).type
  self : contents v w.inum = splice (contents w w.inum) off src
  others : ∀ m, m ≠ w.inum → (table w m).type ≠ .free → contents v m = contents w m
  filled : ∀ k, k < NSLOTS → (addr v (w.inum,k) = 0 ↔ addr w (w.inum,k) = 0 ∧
    ¬range off src.length k)
  spent : freeBlocks v.disk+missing w (range off src.length) = freeBlocks w.disk

theorem splice_contents {m : ℕ} {l : List UInt8} {off : ℕ} {src : List UInt8}
    (hoff : off ≤ l.length)
    (hsize : (table v m).size = max l.length (off+src.length))
    (hin : ∀ x, off ≤ x → x < off+src.length → byteAt v m x = src.getD (x-off) 0)
    (hout : ∀ x, x < l.length → ¬(off ≤ x ∧ x < off+src.length) → byteAt v m x = l.getD x 0) :
    contents v m = splice l off src := by
  apply ext_getD
  · rw [contents_length, splice_length hoff, hsize]
  · intro x hx
    rw [contents_length] at hx
    rw [contents_getD hx]
    by_cases hr : off ≤ x ∧ x < off+src.length
    · rw [splice_in hoff hr.1 hr.2, hin x hr.1 hr.2]
    · rw [splice_out hoff (by omega), hout x (by omega) hr]

section
variable (hs : Stored w first) (hl : w.copy.type ≠ .free) (hd : w.copy.type ≠ .dev)
    (device : ℤ → Option ℕ)
include hs hl hd device

theorem writei_spliced (off : ℕ) (src : List UInt8) (hoff : off ≤ w.copy.size)
    (hmax : off+src.length ≤ MAXFILE*BSIZE)
    (hroom : missing w (range off src.length) ≤ freeBlocks w.disk) :
    ∃ v, writei device off src w = .ok (some src.length,v) ∧ Spliced w v first off src := by
  have hh := holds_of_stored hs
  have hl' : (table w w.inum).type ≠ .free := by rwa [table_self]
  obtain ⟨last,u,hu,⟨rfl,hhu,hw,-⟩,hfree⟩ := meets_exists (meets_and
    (writeLoop_meets src.length hh hl (le_refl _) hmax)
    (writeLoop_room src.length hh hl (le_refl _) hmax)) (fun e hf => by omega)
  obtain ⟨v,hv,hvi,hvc,hvb,hvs,hvt⟩ := growTo_table (off+src.length) src.length u
  have hsize : u.copy.size = w.copy.size := by rw [hw.copy]
  have hrun : writei device off src w = .ok (some src.length,v) := by
    have h32 : ¬(w.copy.size < off ∨ (off+src.length)%2^32 < off) := by
      simp only [MAXFILE, NDIRECT, NINDIRECT, BSIZE] at hmax
      omega
    refine (if_neg hd).trans ((if_neg h32).trans ((if_neg (by omega)).trans ?_))
    exact (run_bind_ok hu).trans (run_bind_ok hv)
  have hself : table v w.inum = { u.copy with size := max w.copy.size (off+src.length) } := by
    have hg : (if 0 < src.length ∧ u.copy.size < off+src.length then off+src.length
        else u.copy.size) = max w.copy.size (off+src.length) := by
      rw [hsize]
      split <;> omega
    rw [hvt, hw.inum, update_self, hg]
  have hother : ∀ m, m ≠ w.inum → table v m = table u m := by
    intro m hm
    rw [hvt, hw.inum, update_of_ne hm]
  have htv : ∀ m, (table v m).type = (table u m).type ∧ (table v m).addrs = (table u m).addrs := by
    intro m
    by_cases hm : m = w.inum
    · rw [hm, hself, ← hw.inum, table_self]
      exact ⟨rfl,rfl⟩
    · rw [hother m hm]
      exact ⟨rfl,rfl⟩
  have hut : ∀ m, m ≠ w.inum → table u m = table w m := by
    intro m hm
    rw [table_of_ne (by rwa [hw.inum]), table_of_ne hm, hw.dinode]
  have hslot : ∀ m k, addr v (m,k) = addr u (m,k) := by
    intro m k
    rw [addr, addr, hvc, slotAddr, slotAddr, (htv m).2]
  have hbyte : ∀ m x, byteAt v m x = byteAt u m x := by
    intro m x
    rw [byteAt, byteAt, hslot, hvc]
  have hvsize : ∀ m, (table v m).size =
      if m = w.inum then max w.copy.size (off+src.length) else (table w m).size := by
    intro m
    by_cases hm : m = w.inum
    · rw [if_pos hm, hm, hself]
    · rw [if_neg hm, hother m hm, hut m hm]
  have htype : ∀ m, (table v m).type = (table w m).type :=
    fun m => (htv m).1.trans (keeps_type hw.toKeeps m)
  have hcov : ∀ m k, (table v m).type ≠ .free → k < NSLOTS → covers (table v m).size k →
      more (fun m k => addr w (m,k) ≠ 0) w.inum (range off src.length) m k := by
    intro m k hm hk hc
    rw [htype] at hm
    rw [hvsize] at hc
    by_cases hmw : m = w.inum
    · rw [if_pos hmw, covers_grow hoff] at hc
      rcases hc with hc | hc
      · refine .inl (hs.covered m k hm hk ?_)
        rwa [hmw, table_self]
      · exact .inr ⟨hmw,hc⟩
    · rw [if_neg hmw] at hc
      exact .inl (hs.covered m k hm hk hc)
  have hkept : ∀ m x, (table w m).type ≠ .free → x < (table w m).size →
      ¬(m = w.inum ∧ off ≤ x ∧ x < off+src.length) → byteAt v m x = byteAt w m x := by
    intro m x hm hx hout
    have hle := hs.size_le m hm
    have hpos : position (x/BSIZE) < NSLOTS := position_lt (div_lt_max (by omega))
    refine (hbyte m x).trans (hw.kept m x ⟨hm,hpos,hs.covered m _ hm hpos ?_⟩ hout)
    rw [covers_position]
    simp only [BSIZE] at *
    omega
  have hlu : u.copy.type ≠ .free := by rwa [hw.copy]
  refine ⟨v,hrun,?_,hvi.trans hw.inum,htype,?_,fun m hm ht => ?_,fun k hk => ?_,?_⟩
  · refine stored_of_holds (owns_congr hhu (fun m => by rw [(htv m).1]) (fun _ _ _ _ => Iff.rfl)
      (fun m k _ _ => hslot m k) hvb hvs) hcov ?_
    intro m hm
    rw [htype] at hm
    rw [hvsize]
    split
    · have := hs.size_le w.inum hl'
      rw [table_self] at this
      omega
    · exact hs.size_le m hm
  · refine splice_contents (by rwa [contents_length, table_self]) ?_ (fun x h1 h2 => ?_)
      (fun x hx ho => ?_)
    · rw [hvsize, if_pos rfl, contents_length, table_self]
    · rw [hbyte, hw.written x h1 h2]
    · rw [contents_length] at hx
      rw [contents_getD hx, hkept w.inum x hl' hx (fun hc => ho hc.2)]
  · have hlen : (table v m).size = (table w m).size := by rw [hvsize, if_neg hm]
    apply ext_getD
    · rw [contents_length, contents_length, hlen]
    · intro x hx
      rw [contents_length] at hx
      rw [contents_getD hx, contents_getD (by omega), hkept m x ht (by omega) (fun hc => hm hc.1)]
  · rw [hslot, ← hw.inum, addr_zero_iff hhu hlu hk, hw.inum, more]
    simp
  · rwa [freeBlocks, hvb, hvs]

/-- With too few free blocks `writei` stops. -/
theorem writei_starved (off : ℕ) (src : List UInt8) (hoff : off ≤ w.copy.size)
    (hmax : off+src.length ≤ MAXFILE*BSIZE)
    (hroom : freeBlocks w.disk < missing w (range off src.length)) :
    writei device off src w = .error OUTOFBLOCKS := by
  have hh := holds_of_stored hs
  have hm := meets_and (writeLoop_meets src.length hh hl (le_refl _) hmax)
    (writeLoop_room src.length hh hl (le_refl _) hmax)
  have h32 : ¬(w.copy.size < off ∨ (off+src.length)%2^32 < off) := by
    simp only [MAXFILE, NDIRECT, NINDIRECT, BSIZE] at hmax
    omega
  refine (if_neg hd).trans ((if_neg h32).trans ((if_neg (by omega)).trans ?_))
  cases hx : writeLoop src.length off src w with
  | ok r =>
    have hsp := (meets_ok hm hx).2
    omega
  | error e =>
    rw [← (meets_error hm hx).1]
    exact run_bind_error hx

end

theorem range_append {off n m k : ℕ} :
    range off (n+m) k ↔ range off n k ∨ range (off+n) m k := by
  constructor
  · rintro ⟨x,h1,h2,h3⟩
    by_cases hx : x < off+n
    · exact .inl ⟨x,h1,hx,h3⟩
    · exact .inr ⟨x,by omega,by omega,h3⟩
  · rintro (⟨x,h1,h2,h3⟩ | ⟨x,h1,h2,h3⟩)
    · exact ⟨x,h1,by omega,h3⟩
    · exact ⟨x,by omega,by omega,h3⟩

theorem missing_append {off n : ℕ} {src : List UInt8} (h : Spliced w v first off src)
    (hn : n = src.length) (m : ℕ) : missing w (range off (n+m)) =
      missing w (range off n)+missing v (range (off+n) m) := by
  subst hn
  apply missing_union (fun _ => range_append)
  intro k hk
  rw [h.inum]
  exact h.filled k hk

end Writing

section Arrays

theorem wraps_iff {off n : ℕ} (hoff : off < 2^32) (hn : n < 2^32) :
    (off+n)%2^32 < off ↔ 2^32 ≤ off+n := by omega

def note : Work :=
  let c : Dinode := ⟨.file,0,1,3,fun k => if k = 0 then 20 else 0⟩
  { disk :=
      { size := 40
        ninodes := 10
        dinode := fun n => if n = 2 then c else ⟨.free,0,0,0,fun _ => 0⟩
        bitmap := fun b => b < 21
        content := fun b x => if b = 20 ∧ x < 3 then 65 else 0 }
    inum := 2
    copy := c }

theorem note_slot {i : ℕ × ℕ} (h : InSlot note i) : i = (2,0) ∧ addr note i = 20 := by
  obtain ⟨n,k⟩ := i
  obtain ⟨h1,h2,h3⟩ := h
  have hn : n = 2 := by
    by_contra hne
    exact h1 (by simp [table, note, hne])
  subst hn
  have hk : k = 0 := by
    by_contra hk
    exact h3 (by simp [addr, slotAddr, table, note, hk])
  subst hk
  exact ⟨rfl,rfl⟩

theorem note_stored : Stored note 20 where
  covered := by
    intro m k hm hk hc
    have hn : m = 2 := by
      by_contra hne
      exact hm (by simp [table, note, hne])
    subst hn
    have hk0 : k = 0 := by
      by_contra hne
      have hs : (table note 2).size = 3 := rfl
      rw [hs] at hc
      simp only [covers, NDIRECT, BSIZE] at hc
      split at hc <;> omega
    subst hk0
    decide
  size_le := by
    intro m _
    by_cases hm : m = 2
    · subst hm
      decide
    · have hs : (table note m).size = 0 := by simp [table, note, hm]
      rw [hs]
      exact Nat.zero_le _
  inside := by
    intro i hi
    rw [(note_slot hi).2]
    decide
  marked := by
    intro i hi
    rw [(note_slot hi).2]
    rfl
  apart := by
    intro i j hi hj _
    rw [(note_slot hi).1, (note_slot hj).1]
  reserved := by
    intro b hb _
    simp only [note, decide_eq_true_eq]
    omega
  first_pos := by decide
  disk_size := by decide

end Arrays

end Xv6.InodeContents
