import Xv6.BlockLayer
import Xv6.TransitionRun

/-!
# The bitmap of blocks in use

`balloc` and `bfree` on the bytes of the bitmap. `balloc` counts in an `int`,
which can overflow, and every block is read through the disk driver, which
panics at a block number from `FSSIZE` on. The superblock has the size of the
file system, the driver that of the disk.
-/

set_option autoImplicit false

namespace Xv6.Bitmap
open Function ByteStore

abbrev BPB : ℕ := BlockLayer.BSIZE*8
structure Superblock where
  size : UInt32
  bmapstart : UInt32
  deriving DecidableEq

structure Volume where
  fssize : ℕ
  sb : Superblock
  content : ℕ → Bytes

inductive Stop where
  | panic (s : String)
  | ide (s : String)
  | overflow
  deriving DecidableEq, Repr

abbrev Volume.size (s : Volume) : ℕ := s.sb.size.toNat

def bread (s : Volume) (a : ℕ) : Except Stop Bytes :=
  if s.fssize ≤ a then .error (.ide "incorrect blockno") else .ok (s.content a)

def readsb (data : Bytes) : Superblock :=
  ⟨UInt32.ofNat (word data 0),UInt32.ofNat (word data 6)⟩

def Superblock.bblock (sb : Superblock) (b : ℕ) : ℕ := (b/BPB+sb.bmapstart.toNat)%2^32

def mask (bi : ℕ) : UInt8 := 1 <<< UInt8.ofNat (bi%8)

def Volume.store (s : Volume) (a bi : ℕ) (f : UInt8 → UInt8) : Volume :=
  { s with content := update s.content a (update (s.content a) (bi/8) (f (s.content a (bi/8)))) }

def Volume.erase (s : Volume) (b : ℕ) : Volume :=
  { s with content := update s.content b (fun _ => 0) }

def bzero (s : Volume) (b : ℕ) : Except Stop Volume := (bread s b).map fun _ => s.erase b

def findBit (data : Bytes) (size b : ℕ) : ℕ → ℕ → Option ℕ
  | 0, _ => none
  | n+1, bi =>
    if b+bi < size then
      if data (bi/8) &&& mask bi = 0 then some bi else findBit data size b n (bi+1)
    else none

def findBlock (s : Volume) (b : ℕ) : Except Stop (ℕ × ℕ) :=
  if b < s.size then
    match bread s (s.sb.bblock b) with
    | .error e => .error e
    | .ok data => match findBit data s.size b BPB 0 with
      | some bi => .ok (b,bi)
      | none => if _h : b+BPB < 2^31 then findBlock s (b+BPB) else .error .overflow
  else .error (.panic "balloc: out of blocks")
termination_by 2^31-b
decreasing_by
  have : BPB = 4096 := rfl
  omega

def balloc (s : Volume) : Except Stop (ℕ × Volume) := do
  let (b,bi) ← findBlock s 0
  let s ← bzero (s.store (s.sb.bblock b) bi (· ||| mask bi)) (b+bi)
  .ok (b+bi,s)

def bfree (s : Volume) (b : ℕ) : Except Stop Volume := do
  let s := { s with sb := readsb (← bread s 1) }
  let data ← bread s (s.sb.bblock b)
  let bi := b%BPB
  if data (bi/8) &&& mask bi = 0 then .error (.panic "freeing free block")
  else .ok (s.store (s.sb.bblock b) bi (· &&& ~~~mask bi))

def ballocs : ℕ → Volume → Except Stop (List ℕ × Volume)
  | 0, s => .ok ([],s)
  | n+1, s => do
    let (b,s) ← balloc s
    let (l,s) ← ballocs n s
    .ok (b::l,s)

section Masks
variable {x : UInt8} {j k : ℕ}

theorem mask_bits : (mask k).toBitVec = BitVec.twoPow 8 (k%8) := by
  have h : ∀ k : Fin 8, ((1 : UInt8) <<< UInt8.ofNat k).toBitVec = BitVec.twoPow 8 k := by decide
  exact h ⟨k%8,Nat.mod_lt _ (by decide)⟩

theorem and_mask : x &&& mask j = 0 ↔ x.toBitVec.getLsbD (j%8) = false := by
  rw [← UInt8.toBitVec_inj, UInt8.toBitVec_and, mask_bits, BitVec.and_twoPow]
  cases h : x.toBitVec.getLsbD (j%8) with
  | false => simp
  | true =>
    simp only [if_true, Bool.true_eq_false, iff_false]
    intro h0
    have := congrArg (fun b => b.getLsbD (j%8)) h0
    simp [Nat.mod_lt] at this

theorem or_mask : (x ||| mask k) &&& mask j = 0 ↔ k%8 ≠ j%8 ∧ x &&& mask j = 0 := by
  rw [and_mask, and_mask, UInt8.toBitVec_or, mask_bits, BitVec.getLsbD_or, BitVec.getLsbD_twoPow]
  simp [Nat.mod_lt, and_comm]

theorem and_not_mask : x &&& ~~~mask k &&& mask j = 0 ↔ k%8 = j%8 ∨ x &&& mask j = 0 := by
  rw [and_mask, and_mask, UInt8.toBitVec_and, UInt8.toBitVec_not, mask_bits, BitVec.getLsbD_and,
    BitVec.getLsbD_not, BitVec.getLsbD_twoPow]
  rw [Bool.and_eq_false_iff, or_comm]
  simp [Nat.mod_lt]

end Masks

def Volume.bit (s : Volume) (b : ℕ) : Bool :=
  decide (s.content (s.sb.bblock b) (b%BPB/8) &&& mask (b%BPB) ≠ 0)

def Superblock.Maps (sb : Superblock) (a : ℕ) : Prop := ∃ i < sb.size.toNat, a = sb.bblock i

def Superblock.Covers (sb : Superblock) (j : ℕ) : Prop := ∃ i < sb.size.toNat, j/BPB = i/BPB

structure Formatted (s : Volume) : Prop where
  loaded : readsb (s.content 1) = s.sb
  apart : ¬s.sb.Maps 1
  marked : ∀ b < s.size, b = 1 ∨ s.sb.Maps b → s.bit b = true

structure Edited (s t : Volume) (b : ℕ) (v : Bool) : Prop where
  fssize : t.fssize = s.fssize
  sb : t.sb = s.sb
  bits : ∀ j, s.sb.Covers j → t.bit j = if j = b then v else s.bit j

section Bits
variable {s t : Volume} {a b j k n bi : ℕ}

theorem bit_false :
    s.bit b = false ↔ s.content (s.sb.bblock b) (b%BPB/8) &&& mask (b%BPB) = 0 := by
  simp [Volume.bit]

theorem covers_of_lt (h : b < s.size) : s.sb.Covers b := ⟨b,h,rfl⟩

theorem covers_lt (h : s.sb.Covers j) : j < 2^32 := by
  obtain ⟨i,hi,hj⟩ := h
  have hlt := s.sb.size.toNat_lt
  have : BPB = 4096 := rfl
  rw [this] at hj
  omega

theorem covers_maps (h : s.sb.Covers j) : s.sb.Maps (s.sb.bblock j) := by
  obtain ⟨i,hi,hj⟩ := h
  exact ⟨i,hi,by rw [Superblock.bblock, hj, Superblock.bblock]⟩

/-- Two bits have one block only if they have one quotient. -/
theorem bblock_inj (hb : b < 2^32) (hj : j < 2^32) (h : s.sb.bblock j = s.sb.bblock b) :
    j/BPB = b/BPB := by
  have : BPB = 4096 := rfl
  rw [Superblock.bblock, Superblock.bblock, this] at h
  rw [this]
  omega

theorem bit_store {f : UInt8 → UInt8} {v : Bool} (hb : b < 2^32) (hj : j < 2^32)
    (hf : ∀ x k, f x &&& mask k = 0 ↔ if k%8 = b%8 then v = false else x &&& mask k = 0) :
    (s.store (s.sb.bblock b) (b%BPB) f).bit j = if j = b then v else s.bit j := by
  have hbpb : BPB = 4096 := rfl
  by_cases ha : s.sb.bblock j = s.sb.bblock b
  · have hq := bblock_inj hb hj ha
    by_cases hx : j%BPB/8 = b%BPB/8
    · have he : j = b ↔ j%BPB%8 = b%8 := by
        rw [hbpb] at hq hx ⊢
        omega
      simp only [Volume.bit, Volume.store, ha, hx, update_self, ne_eq, hf, he]
      split <;> simp
    · have hne : j ≠ b := fun h => hx (by rw [h])
      simp [Volume.bit, Volume.store, ha, hx, hne]
  · have hne : j ≠ b := fun h => ha (by rw [h])
    simp [Volume.bit, Volume.store, ha, hne]

theorem bread_cases (s : Volume) (a : ℕ) : a < s.fssize ∧ bread s a = .ok (s.content a) ∨
    s.fssize ≤ a ∧ bread s a = .error (.ide "incorrect blockno") := by
  unfold bread
  split_ifs with h
  · exact .inr ⟨h,rfl⟩
  · exact .inl ⟨by omega,rfl⟩

theorem bread_content {data : Bytes} (h : bread s a = .ok data) : s.content a = data := by
  rcases bread_cases s a with ⟨-,hr⟩ | ⟨-,hr⟩ <;> rw [hr] at h
  · exact Except.ok.inj h
  · cases h

theorem findBit_spec {data : Bytes} {size : ℕ} {r : Option ℕ} (h : findBit data size b n bi = r) :
    (∀ i, bi ≤ i → i < r.getD (bi+n) → b+i < size → data (i/8) &&& mask i ≠ 0) ∧
    ∀ k, r = some k → k < bi+n ∧ b+k < size ∧ data (k/8) &&& mask k = 0 := by
  induction n generalizing bi with
  | zero =>
    subst h
    exact ⟨fun i h1 h2 => absurd (h1.trans_lt h2) (by simp [findBit]),fun k hk => by cases hk⟩
  | succ n ih =>
    rw [findBit] at h
    split_ifs at h with hs h0
    · subst h
      refine ⟨fun i h1 h2 => absurd (h1.trans_lt h2) (by simp),fun k hk => ?_⟩
      cases hk
      exact ⟨by omega,hs,h0⟩
    · obtain ⟨h1,h2⟩ := ih h
      rw [show bi+1+n = bi+(n+1) by omega] at h1 h2
      refine ⟨fun i hi hr hb => ?_,h2⟩
      rcases Nat.eq_or_lt_of_le hi with rfl | hi
      · exact h0
      · exact h1 i hi hr hb
    · subst h
      exact ⟨fun i hi _ hb => by omega,fun k hk => by cases hk⟩

theorem place_add (hb : b%BPB = 0) (hi : bi < BPB) :
    (b+bi)%BPB = bi ∧ s.sb.bblock (b+bi) = s.sb.bblock b := by
  have hbpb : BPB = 4096 := rfl
  rw [Superblock.bblock, Superblock.bblock, hbpb]
  rw [hbpb] at hb hi
  omega

theorem bit_add (hb : b%BPB = 0) (hi : bi < BPB) : s.bit (b+bi) =
    decide (s.content (s.sb.bblock b) (bi/8) &&& mask bi ≠ 0) := by
  obtain ⟨hm,hq⟩ := place_add (s := s) hb hi
  rw [Volume.bit, hm, hq]

inductive Found (s : Volume) : Except Stop (ℕ × ℕ) → Prop
  | bit {b bi : ℕ} (start : b%BPB = 0) (inside : bi < BPB) (low : b+bi < 2^31)
      (below : b+bi < s.size) (clear : s.bit (b+bi) = false)
      (first : ∀ j < b+bi, s.bit j = true) : Found s (.ok (b,bi))
  | full (small : s.size ≤ 2^31-BPB) (set : ∀ j < s.size, s.bit j = true) :
      Found s (.error (.panic "balloc: out of blocks"))
  | overflow (large : 2^31-BPB < s.size)
      (set : ∀ j < s.size, j < 2^31 → s.bit j = true) : Found s (.error .overflow)
  | ide {a : ℕ} (map : s.sb.Maps a) (outside : s.fssize ≤ a) :
      Found s (.error (.ide "incorrect blockno"))

theorem bit_set (hset : ∀ j < b, j < s.size → s.bit j = true) (h : b%BPB = 0)
    (hbi : ∀ i < n, b+i < s.size → s.content (s.sb.bblock b) (i/8) &&& mask i ≠ 0)
    (hn : n ≤ BPB) : ∀ j < b+n, j < s.size → s.bit j = true := by
  intro j hj hs
  by_cases hjb : j < b
  · exact hset j hjb hs
  · obtain ⟨i,rfl⟩ := Nat.exists_eq_add_of_le (not_lt.mp hjb)
    rw [bit_add h (by omega)]
    exact decide_eq_true (hbi i (by omega) hs)

/-- The induction is on the blocks of the bitmap that are left. -/
theorem findBlock_found (h : b%BPB = 0) (hb : b+BPB ≤ 2^31)
    (hset : ∀ j < b, j < s.size → s.bit j = true) : Found s (findBlock s b) := by
  have hbpb : BPB = 4096 := rfl
  induction b using findBlock.induct s with
  | case1 b hs e he =>
    rcases bread_cases s (s.sb.bblock b) with ⟨-,hr⟩ | ⟨ho,hr⟩
    · rw [hr] at he
      cases he
    · rw [findBlock, if_pos hs, hr]
      exact .ide ⟨b,hs,rfl⟩ ho
  | case2 b hs data hd bi hf =>
    obtain rfl := bread_content hd
    rw [findBlock, if_pos hs, hd]
    simp only [hf]
    obtain ⟨hfirst,hk⟩ := findBit_spec hf
    obtain ⟨hi,hlt,h0⟩ := hk bi rfl
    rw [Nat.zero_add] at hi
    refine .bit h hi (by omega) hlt (by simp [bit_add h hi, h0]) fun j hj => ?_
    exact bit_set hset h (fun i hi => hfirst i (Nat.zero_le i) hi) hi.le j hj (by omega)
  | case3 b hs data hd hf hlt ih =>
    obtain rfl := bread_content hd
    rw [findBlock, if_pos hs, hd]
    simp only [hf, dif_pos hlt]
    have h' : b%4096 = 0 := h
    refine ih (by rw [Nat.add_mod_right, h]) (by omega) (bit_set hset h (fun i hi => ?_) le_rfl)
    exact (findBit_spec hf).1 i (Nat.zero_le i) (by simpa using hi)
  | case4 b hs data hd hf hlt =>
    obtain rfl := bread_content hd
    rw [findBlock, if_pos hs, hd]
    simp only [hf, dif_neg hlt]
    refine .overflow (by omega) fun j hj _ => bit_set hset h (fun i hi => ?_) le_rfl j (by omega) hj
    exact (findBit_spec hf).1 i (Nat.zero_le i) (by simpa using hi)
  | case5 b hs =>
    rw [findBlock, if_neg hs]
    exact .full (by omega) fun j hj => hset j (by omega) hj

end Bits

inductive Allocates (s : Volume) : Except Stop (ℕ × Volume) → Prop
  | block {b : ℕ} {t : Volume} (inside : b < s.size) (clear : s.bit b = false)
      (first : ∀ j < b, s.bit j = true) (edited : Edited s t b true)
      (zeroed : ∀ a, ¬s.sb.Maps a → t.content a = if a = b then fun _ => 0 else s.content a) :
      Allocates s (.ok (b,t))
  | full (set : ∀ j < s.size, s.bit j = true) :
      Allocates s (.error (.panic "balloc: out of blocks"))

inductive Frees (s : Volume) (b : ℕ) : Except Stop Volume → Prop
  | block {t : Volume} (set : s.bit b = true) (edited : Edited s t b false)
      (kept : ∀ a, ¬s.sb.Maps a → t.content a = s.content a) : Frees s b (.ok t)
  | free (clear : s.bit b = false) : Frees s b (.error (.panic "freeing free block"))

structure Right (s : Volume) : Prop where
  alloc : Allocates s (balloc s)
  free : ∀ b < s.size, Frees s b (bfree s b)
  restores : ∀ b t, balloc s = .ok (b,t) →
    ∃ u, bfree t b = .ok u ∧ ∀ j, s.sb.Covers j → u.bit j = s.bit j
  distinct : ∀ n l t, ballocs n s = .ok (l,t) → l.Nodup

section Calls
variable {s t : Volume} {b n : ℕ} {l : List ℕ}

theorem formatted_clear (hs : Formatted s) (h : s.bit b = false) (hb : b < s.size) :
    b ≠ 1 ∧ ¬s.sb.Maps b := by
  constructor
  · rintro rfl
    simp [hs.marked 1 hb (.inl rfl)] at h
  · intro hm
    simp [hs.marked b hb (.inr hm)] at h

def taken (s : Volume) (b : ℕ) : Volume :=
  (s.store (s.sb.bblock b) (b%BPB) (· ||| mask (b%BPB))).erase b

theorem erase_bit {j : ℕ} (h : s.sb.bblock j ≠ b) : (s.erase b).bit j = s.bit j := by
  simp only [Volume.bit, Volume.erase, update_of_ne h]

theorem taken_edited (hs : Formatted s) (h : s.bit b = false) (hb : b < s.size) :
    Edited s (taken s b) b true := by
  refine ⟨rfl,rfl,fun j hj => ?_⟩
  have hne : s.sb.bblock j ≠ b := fun he => (formatted_clear hs h hb).2 (he ▸ covers_maps hj)
  rw [taken, erase_bit (s := s.store (s.sb.bblock b) (b%BPB) _) hne]
  refine bit_store (hb.trans s.sb.size.toNat_lt) (covers_lt hj) fun x k => ?_
  rw [or_mask, Nat.mod_mod_of_dvd b (by decide)]
  split_ifs with hk <;> simp [eq_comm (b := k%8), hk]

theorem taken_content {a : ℕ} (hb : b < s.size) (ha : ¬s.sb.Maps a) :
    (taken s b).content a = if a = b then fun _ => 0 else s.content a := by
  have hne : a ≠ s.sb.bblock b := fun h => ha ⟨b,hb,h⟩
  by_cases h : a = b
  · simp [taken, Volume.erase, h]
  · simp [taken, Volume.erase, Volume.store, h, hne]

inductive Result (s : Volume) : Except Stop (ℕ × Volume) → Prop
  | right {r : Except Stop (ℕ × Volume)} (allocates : Allocates s r) : Result s r
  | overflow (large : 2^31-BPB < s.size) : Result s (.error .overflow)
  | ide {a : ℕ} (asked : s.sb.Maps a ∨ a < s.size) (outside : s.fssize ≤ a) :
      Result s (.error (.ide "incorrect blockno"))

theorem balloc_result (hs : Formatted s) : Result s (balloc s) := by
  have hf := findBlock_found (s := s) (b := 0) rfl (by decide) (by simp)
  cases hr : findBlock s 0 with
  | error e =>
    rw [hr] at hf
    have hb : balloc s = .error e := by rw [balloc, hr]; rfl
    rw [hb]
    cases hf with
    | full small set => exact .right (.full set)
    | overflow large set => exact .overflow large
    | ide map outside => exact .ide (.inl map) outside
  | ok r =>
    obtain ⟨b,bi⟩ := r
    rw [hr] at hf
    cases hf with
    | bit start inside low below clear first =>
      obtain ⟨hm,hq⟩ := place_add (s := s) start inside
      rcases bread_cases (s.store (s.sb.bblock b) bi (· ||| mask bi)) (b+bi) with
        ⟨-,hz⟩ | ⟨ho,hz⟩
      · have hb : balloc s = .ok (b+bi,taken s (b+bi)) := by
          rw [balloc, hr]
          simp only [bind, Except.bind, bzero, hz, Except.map]
          rw [taken, hm, hq]
        rw [hb]
        exact .right (.block below clear first (taken_edited hs clear below)
          (fun a ha => taken_content below ha))
      · have hb : balloc s = .error (.ide "incorrect blockno") := by
          rw [balloc, hr]
          simp only [bind, Except.bind, bzero, hz, Except.map]
        rw [hb]
        exact .ide (.inr below) ho

/-- What a successful `balloc` returns. -/
theorem balloc_ok (hs : Formatted s) (h : balloc s = .ok (b,t)) : Allocates s (.ok (b,t)) := by
  have hr := balloc_result hs
  rw [h] at hr
  cases hr with
  | right allocates => exact allocates

theorem bfree_result (hs : Formatted s) (hb : b < s.size) : Frees s b (bfree s b) ∨
    bfree s b = .error (.ide "incorrect blockno") ∧
      (s.fssize ≤ 1 ∨ s.fssize ≤ s.sb.bblock b) := by
  rw [bfree]
  rcases bread_cases s 1 with ⟨-,h1⟩ | ⟨ho,h1⟩
  · simp only [h1, bind, Except.bind, hs.loaded]
    rcases bread_cases s (s.sb.bblock b) with ⟨-,hr⟩ | ⟨ho,hr⟩
    · rw [hr]
      refine .inl ?_
      simp only
      split_ifs with h
      · exact .free (bit_false.mpr h)
      · refine .block (by simp [Volume.bit, h]) ⟨rfl,rfl,fun j hj => ?_⟩ fun a ha => ?_
        · refine bit_store (hb.trans s.sb.size.toNat_lt) (covers_lt hj) fun x k => ?_
          rw [and_not_mask, Nat.mod_mod_of_dvd b (by decide)]
          split_ifs with hk <;> simp [eq_comm (b := k%8), hk]
        · exact update_of_ne (fun h => ha ⟨b,hb,h⟩) _ _
    · rw [hr]
      exact .inr ⟨rfl,.inr ho⟩
  · rw [h1]
    exact .inr ⟨rfl,.inl ho⟩

structure Shows (s : Volume) (d : BlockLayer.Disk) : Prop where
  size : d.size = s.size
  bitmap : ∀ b < s.size, d.bitmap b = s.bit b
  content : ∀ a, ¬s.sb.Maps a → d.content a = s.content a

theorem shows_edited {d : BlockLayer.Disk} {v : Bool} (hd : Shows s d) (h : Edited s t b v)
    {c : ℕ → Bytes} (hc : ∀ a, ¬s.sb.Maps a → c a = t.content a) :
    Shows t { d.setBit b v with content := c } := by
  refine ⟨by rw [Volume.size, h.sb]; exact hd.size,fun j hj => ?_,by rwa [h.sb]⟩
  rw [Volume.size, h.sb] at hj
  rw [h.bits j (covers_of_lt hj), ← hd.bitmap j hj]
  exact update_apply ..

/-- On the decoded disk the calls do what those of the block layer do, and panic
when these do. -/
theorem bitmap_refines {w : BlockLayer.Work} (hs : Formatted s) (hw : Shows s w.disk) :
    (∀ b t, balloc s = .ok (b,t) → ∃ v, BlockLayer.balloc w = .ok (b,v) ∧ Shows t v.disk) ∧
    (∀ m, balloc s = .error (.panic m) → BlockLayer.balloc w = .error m) ∧
    ∀ b < s.size, (∀ t, bfree s b = .ok t →
        ∃ v, BlockLayer.bfree b w = .ok ((),v) ∧ Shows t v.disk) ∧
      ∀ m, bfree s b = .error (.panic m) → BlockLayer.bfree b w = .error m := by
  refine ⟨fun b t h => ?_,fun m h => ?_,fun b hb => ?_⟩
  · cases balloc_ok hs h with
    | block inside clear first edited zeroed =>
      have hf : (List.range w.disk.size).find? (fun b => ! w.disk.bitmap b) = some b := by
        rw [hw.size, List.find?_range_eq_some]
        refine ⟨by simp [hw.bitmap b inside, clear],List.mem_range.mpr inside,fun j hj => ?_⟩
        simp [hw.bitmap j (hj.trans inside), first j hj]
      refine ⟨_,by rw [BlockLayer.balloc, hf],shows_edited hw edited fun a ha => ?_⟩
      rw [zeroed a ha, ← hw.content a ha]
      exact update_apply ..
  · have hr := balloc_result hs
    rw [h] at hr
    cases hr with
    | right allocates =>
      cases allocates with
      | full set =>
        have hf : (List.range w.disk.size).find? (fun b => ! w.disk.bitmap b) = none := by
          rw [hw.size, List.find?_eq_none]
          intro j hj
          simp [hw.bitmap j (List.mem_range.mp hj), set j (List.mem_range.mp hj)]
        rw [BlockLayer.balloc, hf]
  · refine ⟨fun t h => ?_,fun m h => ?_⟩ <;> rcases bfree_result hs hb with hf | ⟨he,-⟩
    · rw [h] at hf
      cases hf with
      | block set edited kept =>
        refine ⟨_,by rw [BlockLayer.bfree, hw.bitmap b hb, if_pos set],shows_edited hw edited ?_⟩
        exact fun a ha => (hw.content a ha).trans (kept a ha).symm
    · simp [h] at he
    · rw [h] at hf
      cases hf with
      | free clear => rw [BlockLayer.bfree, hw.bitmap b hb, clear, if_neg Bool.false_ne_true]
    · simp [h] at he

end Calls

def fullVolume (fssize : ℕ) (n : UInt32) : Volume where
  fssize := fssize
  sb := ⟨n,2⟩
  content a := if a = 1 then setWord (setWord (fun _ => 0) 0 n.toNat) 6 2 else fun _ => 255

section Full
variable {n : UInt32} {b k f : ℕ}

theorem full_bblock (hb : b < 2^32) : (fullVolume f n).sb.bblock b = b/BPB+2 :=
  Nat.mod_eq_of_lt (show b/4096+2 < 2^32 by omega)

theorem full_bit (hb : b < 2^32) : (fullVolume f n).bit b = true := by
  have h1 : ∀ i : Fin 8, (255 : UInt8) &&& 1 <<< UInt8.ofNat i ≠ 0 := by decide
  rw [Volume.bit, full_bblock hb]
  exact decide_eq_true (h1 ⟨b%BPB%8,Nat.mod_lt _ (by decide)⟩)

theorem full_maps {a : ℕ} (h : (fullVolume f n).sb.Maps a) :
    1 < a ∧ a ≤ n.toNat/BPB+2 := by
  obtain ⟨i,hi,rfl⟩ := h
  have hi : i < n.toNat := hi
  rw [full_bblock (hi.trans n.toNat_lt)]
  exact ⟨Nat.lt_add_left _ one_lt_two,Nat.add_le_add_right (Nat.div_le_div_right hi.le) 2⟩

theorem full_formatted : Formatted (fullVolume f n) := by
  have hn := n.toNat_lt
  refine ⟨?_,fun h => absurd (full_maps h).1 (by simp),fun b hb _ => full_bit (lt_trans hb hn)⟩
  have h0 : word (setWord (setWord (fun _ => 0) 0 n.toNat) 6 2) 0 = n.toNat := by
    rw [word_setWord_of_ne (by decide), word_setWord_self hn]
  have h6 : word (setWord (setWord (fun _ => 0) 0 n.toNat) 6 2) 6 = 2 :=
    word_setWord_self (by decide)
  simp [readsb, fullVolume, h0, h6]

end Full

/-- A block of a full disk is freed, in the bytes and in the decoded bitmap. -/
theorem bitmap_refines_full : ∃ w t v, bfree (fullVolume 5000 5000) 9 = .ok t ∧
    BlockLayer.bfree 9 w = .ok ((),v) ∧ Shows t v.disk := by
  have hw : Shows (fullVolume 5000 5000) ⟨5000,0,fun _ => ⟨.free,0,0,0,fun _ => 0⟩,fun _ => true,
      (fullVolume 5000 5000).content⟩ :=
    ⟨rfl,fun b hb => (full_bit (lt_trans hb (by decide))).symm,fun _ _ => rfl⟩
  obtain ⟨t,ht⟩ : ∃ t, bfree (fullVolume 5000 5000) 9 = .ok t := ⟨_,rfl⟩
  obtain ⟨v,hv⟩ := ((bitmap_refines (w := ⟨_,0,⟨.free,0,0,0,fun _ => 0⟩⟩) full_formatted hw).2.2 9
    (by decide)).1 t ht
  exact ⟨_,t,v,ht,hv⟩

end Xv6.Bitmap
