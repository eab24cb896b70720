import Xv6.FileContent

/-!
# Free blocks and the blocks a write needs

A write needs one free block for each slot of its range that is empty. It
runs out of blocks exactly when there are fewer, whatever the order in which
`bmap` asks for them.
-/

set_option autoImplicit false

namespace Xv6.FreeBlocks
open Function ByteStore StateRuns Allotment BlockLayer BlockMap FileContent

def freeBlocks (d : Disk) : ℕ := (clear d.bitmap d.size).card

def holes (w : Work) (P : ℕ → Prop) [DecidablePred P] : Finset ℕ :=
  (Finset.range NSLOTS).filter (fun k => P k ∧ addr w (w.inum,k) = 0)

def missing (w : Work) (P : ℕ → Prop) [DecidablePred P] : ℕ := (holes w P).card

def blockOf (k : ℕ) : ℕ := if k < NDIRECT then k else k-1

def spans (off n k : ℕ) : Prop :=
  0 < n ∧ if k = NDIRECT then NDIRECT*BSIZE < off+n
    else blockOf k*BSIZE < off+n ∧ off < (blockOf k+1)*BSIZE

instance (off n : ℕ) : DecidablePred (spans off n) := by
  intro k
  unfold spans
  infer_instance

theorem blockOf_position (bn : ℕ) : blockOf (position bn) = bn := by
  unfold blockOf position
  by_cases h : bn < NDIRECT
  · rw [if_pos h, if_pos h]
  · rw [if_neg h, if_neg (by omega), Nat.add_sub_cancel]

variable {k : ℕ}

theorem position_blockOf (h : k ≠ NDIRECT) : position (blockOf k) = k := by
  unfold blockOf position
  by_cases hk : k < NDIRECT
  · rw [if_pos hk, if_pos hk]
  · rw [if_neg hk, if_neg (by omega), Nat.sub_add_cancel (by omega)]

theorem range_iff (off n k : ℕ) : range off n k ↔ spans off n k := by
  constructor
  · rintro ⟨x,hx,hxn,rfl | ⟨h12,rfl⟩⟩
    · refine ⟨by omega,?_⟩
      rw [if_neg position_ne_indirect, blockOf_position]
      simp only [BSIZE]
      omega
    · refine ⟨by omega,?_⟩
      rw [if_pos rfl]
      simp only [NDIRECT, BSIZE] at *
      omega
  · rintro ⟨hn,hk⟩
    by_cases h12 : k = NDIRECT
    · rw [if_pos h12] at hk
      refine ⟨off+n-1,by omega,by omega,.inr ⟨?_,h12⟩⟩
      simp only [NDIRECT, BSIZE] at *
      omega
    · rw [if_neg h12] at hk
      refine ⟨max off (blockOf k*BSIZE),by omega,by omega,.inl ?_⟩
      have hdiv : max off (blockOf k*BSIZE)/BSIZE = blockOf k := by
        simp only [BSIZE] at *
        omega
      rw [hdiv, position_blockOf h12]

instance (off n : ℕ) : DecidablePred (range off n) :=
  fun k => decidable_of_iff (spans off n k) (range_iff off n k).symm

instance (bn : ℕ) : DecidablePred (places bn) := by
  intro k
  unfold places
  infer_instance

variable {need : ℕ → ℕ → Prop} {loose : ℕ → Prop} {first : ℕ} {w u v : Work}

section Holes

variable {P A B : ℕ → Prop} [DecidablePred P] [DecidablePred A] [DecidablePred B]

theorem mem_holes : k ∈ holes w P ↔ k < NSLOTS ∧ P k ∧ addr w (w.inum,k) = 0 := by
  rw [holes, Finset.mem_filter, Finset.mem_range]

/-- The slots without a block are those that are not needed. -/
theorem addr_zero_iff (h : Holds w need loose first) (hl : w.copy.type ≠ .free) (hk : k < NSLOTS) :
    addr w (w.inum,k) = 0 ↔ ¬need w.inum k := by
  have hl' : (table w w.inum).type ≠ .free := by rwa [table_self]
  constructor
  · intro h0 hn
    exact addr_ne_zero h ⟨hl',hk,hn⟩ h0
  · exact h.clear w.inum k hl' hk

theorem missing_pos (hk : k < NSLOTS) (hP : P k) (h0 : addr w (w.inum,k) = 0) : 0 < missing w P :=
  Finset.card_pos.mpr ⟨k,mem_holes.mpr ⟨hk,hP,h0⟩⟩

theorem missing_mono (hP : ∀ k, A k → P k) : missing w A ≤ missing w P := by
  apply Finset.card_le_card
  intro k hk
  obtain ⟨h1,h2,h3⟩ := mem_holes.mp hk
  exact mem_holes.mpr ⟨h1,hP k h2,h3⟩

section
variable (hP : ∀ k, P k ↔ A k ∨ B k) (hv : ∀ k, k < NSLOTS →
    (addr v (v.inum,k) = 0 ↔ addr w (w.inum,k) = 0 ∧ ¬A k))
include hP hv

theorem holes_union : holes w P = holes w A ∪ holes v B := by
  ext k
  rw [Finset.mem_union, mem_holes, mem_holes, mem_holes, hP]
  by_cases hk : k < NSLOTS
  · rw [hv k hk]
    by_cases hA : A k <;> simp [hA, hk]
  · simp [hk]

theorem missing_union : missing w P = missing w A+missing v B := by
  have hdis : Disjoint (holes w A) (holes v B) := by
    rw [Finset.disjoint_left]
    intro k hkA hkB
    obtain ⟨h1,h2,-⟩ := mem_holes.mp hkA
    exact ((hv k h1).mp (mem_holes.mp hkB).2.2).2 h2
  rw [missing, holes_union hP hv, Finset.card_union_of_disjoint hdis]
  rfl

end

theorem filled_of_holds {Q : ℕ → Prop} (h : Holds w need loose first)
    (hv : Holds v (more need w.inum Q) loose first) (hl : w.copy.type ≠ .free) (hk : Keeps w v)
    (hkn : k < NSLOTS) : addr v (v.inum,k) = 0 ↔ addr w (w.inum,k) = 0 ∧ ¬Q k := by
  have hlv : v.copy.type ≠ .free := by rwa [hk.copy]
  rw [addr_zero_iff hv hlv hkn, addr_zero_iff h hl hkn, more, hk.inum]
  simp

theorem missing_split (h : Holds w need loose first) (hv : Holds v (more need w.inum A) loose first)
    (hl : w.copy.type ≠ .free) (hk : Keeps w v) (hP : ∀ k, P k ↔ A k ∨ B k) :
    missing w P = missing w A+missing v B :=
  missing_union hP fun _ hkn => filled_of_holds h hv hl hk hkn

theorem freeBlocks_spent (h : Holds w need loose first)
    (hu : Holds u (more need w.inum P) loose first) (hl : w.copy.type ≠ .free)
    (he : Extends need w u) : freeBlocks u.disk+missing w P = freeBlocks w.disk := by
  have hl' : (table w w.inum).type ≠ .free := by rwa [table_self]
  have hcard : ((holes w P).image (fun k => (w.inum,k))).card = missing w P :=
    Finset.card_image_of_injective _ (fun _ _ he => (Prod.mk.inj he).2)
  have hc := clear_card h.allotted (he.size ▸ hu.allotted)
    ((holes w P).image (fun k => (w.inum,k))) ?_ ?_ (fun i hi => he.addr i hi)
  · rw [freeBlocks, freeBlocks, he.size, ← hcard, hc]
  · intro i hi hus
    obtain ⟨k,hk,rfl⟩ := Finset.mem_image.mp hi
    obtain ⟨h1,-,h3⟩ := mem_holes.mp hk
    exact (addr_zero_iff h hl h1).mp h3 hus.2.2
  · intro i
    rw [Finset.mem_image]
    constructor
    · rintro ⟨h1,h2,h3 | ⟨h3,h4⟩⟩
      · rw [keeps_type he.toKeeps] at h1
        exact .inl ⟨h1,h2,h3⟩
      · by_cases hn : need i.1 i.2
        · rw [keeps_type he.toKeeps] at h1
          exact .inl ⟨h1,h2,hn⟩
        · rw [h3] at hn
          exact .inr ⟨i.2,mem_holes.mpr ⟨h2,h4,(addr_zero_iff h hl h2).mpr hn⟩,by rw [← h3]⟩
    · rintro (⟨h1,h2,h3⟩ | ⟨k,hk,rfl⟩)
      · exact ⟨by rwa [keeps_type he.toKeeps],h2,.inl h3⟩
      · obtain ⟨h1,h2,-⟩ := mem_holes.mp hk
        exact ⟨by rwa [keeps_type he.toKeeps],h1,.inr ⟨rfl,h2⟩⟩

end Holes

section Allocation

theorem balloc_starved (w : Work) :
    Meets balloc w (fun _ _ => True) (fun _ => freeBlocks w.disk = 0) := by
  unfold Meets balloc
  cases hf : (List.range w.disk.size).find? (fun b => ! w.disk.bitmap b) with
  | some b => trivial
  | none =>
    rw [freeBlocks, Finset.card_eq_zero, Finset.eq_empty_iff_forall_notMem]
    intro b hb
    obtain ⟨hlt,hm⟩ := mem_clear.mp hb
    have := List.find?_eq_none.mp hf b (List.mem_range.mpr hlt)
    simp [hm] at this

theorem mapAddr_starved (w : Work) (k : ℕ) : Meets (mapAddr k) w (fun _ _ => True)
    (fun _ => w.copy.addrs k = 0 ∧ freeBlocks w.disk = 0) := by
  by_cases h0 : w.copy.addrs k = 0
  · refine meets_of_eq (if_pos h0) (meets_bind (meets_mono (balloc_starved w) (fun _ _ ht => ht)
      (fun _ hf => ⟨h0,hf⟩)) ?_)
    intro b v _
    exact meets_of_ok rfl trivial
  · exact meets_of_ok (if_neg h0) trivial

theorem mapEntry_starved (w : Work) (a j : ℕ) : Meets (mapEntry a j) w (fun _ _ => True)
    (fun _ => word (w.disk.content a) j = 0 ∧ freeBlocks w.disk = 0) := by
  by_cases h0 : word (w.disk.content a) j = 0
  · refine meets_of_eq (if_pos h0) (meets_bind (meets_mono (balloc_starved w) (fun _ _ ht => ht)
      (fun _ hf => ⟨h0,hf⟩)) ?_)
    intro b v _
    exact meets_of_ok rfl trivial
  · exact meets_of_ok (if_neg h0) trivial

section
variable (h : Holds w need loose first) (hl : w.copy.type ≠ .free)
include h hl

theorem bmap_starved {bn : ℕ} (hbn : bn < MAXFILE) : Meets (bmap bn) w (fun _ _ => True)
      (fun _ => freeBlocks w.disk < missing w (places bn)) := by
  unfold bmap
  by_cases hd : bn < NDIRECT
  · rw [if_pos hd]
    refine meets_mono (mapAddr_starved w bn) (fun _ _ ht => ht) ?_
    rintro _ ⟨h0,hf⟩
    rw [hf]
    refine missing_pos (position_lt hbn) (.inl rfl) ?_
    have hp : position bn = bn := if_pos hd
    rw [hp, addr_direct (le_of_lt hd), h0]
  have hin : bn-NDIRECT < NINDIRECT := by
    unfold MAXFILE at hbn
    omega
  have h12 : addr w (w.inum,NDIRECT) = w.copy.addrs NDIRECT := addr_direct (le_refl _)
  rw [if_neg hd, if_pos hin]
  refine meets_bind (meets_mono (meets_and (mapAddr_meets h hl (le_refl _))
    (mapAddr_starved w NDIRECT)) (fun _ _ ht => ht.1) ?_) ?_
  · rintro _ ⟨-,h0,hf⟩
    rw [hf]
    exact missing_pos indirect_lt (.inr ⟨by omega,rfl⟩) (h12.trans h0)
  rintro a v ⟨hv,he,ha⟩
  have hlv : v.copy.type ≠ .free := by rwa [he.copy]
  have hsp := freeBlocks_spent (P := (· = NDIRECT)) h hv hl he
  have hpl : ∀ k, places bn k ↔ k = NDIRECT ∨ k = position bn := by
    intro k
    have hle : NDIRECT ≤ bn := by omega
    simp only [places, hle, true_and]
    exact or_comm
  have hsplit := missing_split (P := places bn) (A := (· = NDIRECT))
    (B := (· = position bn)) h hv hl
    he.toKeeps hpl
  refine meets_mono (mapEntry_starved v a (bn-NDIRECT)) (fun _ _ ht => ht) ?_
  rintro _ ⟨h0,hf⟩
  have ha0 : v.copy.addrs NDIRECT ≠ 0 := by
    have hne := addr_ne_zero hv (n := w.inum) (k := NDIRECT)
      ⟨by rw [← he.inum, table_self]; exact hlv,indirect_lt,.inr ⟨rfl,rfl⟩⟩
    rw [slotAddr_direct (le_refl _), ← he.inum, table_self] at hne
    exact hne
  have hav : v.copy.addrs NDIRECT = a := by
    rw [← ha, addr, slotAddr_direct (le_refl _), ← he.inum, table_self]
  have hpos : position bn = bn+1 := if_neg hd
  have hslot : addr v (v.inum,position bn) = 0 := by
    rw [addr, table_self, hpos, slotAddr_entry (by omega) ha0, hav, ← h0]
    congr 1
  have := missing_pos (P := (· = position bn)) (position_lt hbn) rfl hslot
  omega

theorem bmap_room {bn : ℕ} (hbn : bn < MAXFILE) : Meets (bmap bn) w
      (fun _ u => freeBlocks u.disk+missing w (places bn) = freeBlocks w.disk)
      (fun _ => freeBlocks w.disk < missing w (places bn)) := by
  refine meets_mono (meets_and (bmap_meets h hl hbn) (bmap_starved h hl hbn)) ?_ (fun _ hx => hx.2)
  rintro b u ⟨⟨hu,he,-⟩,-⟩
  exact freeBlocks_spent h hu hl he

theorem writeChunk_room {off : ℕ} {src : List UInt8} (hmax : off < MAXFILE*BSIZE) :
    Meets (writeChunk off src) w
      (fun _ u => freeBlocks u.disk+missing w (places (off/BSIZE)) = freeBlocks w.disk)
      (fun _ => freeBlocks w.disk < missing w (places (off/BSIZE))) := by
  refine meets_bind (bmap_room h hl (div_lt_max hmax)) ?_
  intro b v hv
  exact meets_of_ok rfl hv

end

theorem missing_range_nil (w : Work) (off : ℕ) : missing w (range off 0) = 0 := by
  rw [missing, Finset.card_eq_zero, Finset.eq_empty_iff_forall_notMem]
  intro k hk
  exact range_nil (mem_holes.mp hk).2.1

theorem writeLoop_room (k : ℕ) {off : ℕ} {src : List UInt8} (h : Holds w need loose first)
    (hl : w.copy.type ≠ .free) (hk : src.length ≤ k) (hmax : off+src.length ≤ MAXFILE*BSIZE) :
    Meets (writeLoop k off src) w
      (fun _ u => freeBlocks u.disk+missing w (range off src.length) = freeBlocks w.disk)
      (fun _ => freeBlocks w.disk < missing w (range off src.length)) := by
  induction k generalizing w need off src with
  | zero =>
    obtain rfl : src = [] := List.eq_nil_of_length_eq_zero (by omega)
    refine meets_of_ok rfl ?_
    rw [List.length_nil, missing_range_nil, Nat.add_zero]
  | succ k ih =>
    unfold writeLoop
    by_cases h0 : src = []
    · rw [if_pos h0, h0]
      refine meets_pure ?_
      rw [List.length_nil, missing_range_nil, Nat.add_zero]
    rw [if_neg h0]
    have hpos : 0 < src.length := List.length_pos_iff.mpr h0
    have hc := chunk_le off src.length
    have hcp := chunk_pos off hpos
    have hlen : (src.take (chunk off src.length)).length = chunk off src.length := by simp [hc]
    have hlen' : (src.drop (chunk off src.length)).length =
      src.length-chunk off src.length := by simp
    refine meets_bind (meets_mono (meets_and
      (writeChunk_meets h hl (by omega) (by rw [hlen]; exact chunk_fits _ _))
      (writeChunk_room h hl (by omega))) (fun _ _ ht => ht) ?_) ?_
    · rintro _ ⟨-,hf⟩
      exact lt_of_lt_of_le hf (missing_mono (fun j hj => (range_chunk hpos).mpr (.inl hj)))
    rintro _ v ⟨⟨hv,hw,-⟩,hsp⟩
    have hlv : v.copy.type ≠ .free := by rwa [hw.copy]
    have hsplit := missing_split (P := range off src.length) (A := places (off/BSIZE))
      (B := range (off+chunk off src.length) (src.length-chunk off src.length)) h hv hl hw.toKeeps
      (fun j => range_chunk hpos)
    have hrest := ih hv hlv (show (src.drop (chunk off src.length)).length ≤ k by omega)
      (show off+chunk off src.length+(src.drop (chunk off src.length)).length ≤
        MAXFILE*BSIZE by omega)
    simp only [hlen'] at hrest
    refine meets_mono hrest (fun _ u hu => ?_) (fun _ hf => ?_)
    · omega
    · omega

end Allocation

end Xv6.FreeBlocks
