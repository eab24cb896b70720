import Xv6.Allotment
import Xv6.BlockLayer

/-!
# The block map keeps the ownership

An inode has 141 slots for block numbers: the direct ones, the pointer to the
indirect block and the entries of that block. `Owns` says that each slot in use
holds a data block that is in no other slot, the other slots are zero, and the
bitmap marks exactly these blocks. The table of inodes that counts is the one on
disk with the copy in memory in its place.
-/

set_option autoImplicit false

namespace Xv6.BlockMap
open Function ByteStore Allotment BlockLayer StateRuns

abbrev NSLOTS : ℕ := NDIRECT+1+NINDIRECT

def position (bn : ℕ) : ℕ := if bn < NDIRECT then bn else bn+1

def slotAddr (content : ℕ → Bytes) (c : Dinode) (k : ℕ) : ℕ :=
  if k ≤ NDIRECT then c.addrs k
  else if c.addrs NDIRECT = 0 then 0
  else word (content (c.addrs NDIRECT)) (k-NDIRECT-1)

def covers (size k : ℕ) : Prop := (if k ≤ NDIRECT then k else k-1)*BSIZE < size

instance (size k : ℕ) : Decidable (covers size k) := by
  unfold covers
  infer_instance

def Uses (D : ℕ → Dinode) (need : ℕ → ℕ → Prop) (i : ℕ × ℕ) : Prop :=
  (D i.1).type ≠ .free ∧ i.2 < NSLOTS ∧ need i.1 i.2

structure Owns (d : Disk) (D : ℕ → Dinode) (need : ℕ → ℕ → Prop) (loose : ℕ → Prop) (first : ℕ) :
    Prop where
  allotted : Allotted (Uses D need) (fun i => slotAddr d.content (D i.1) i.2) loose d.bitmap
    first d.size
  clear : ∀ n k, (D n).type ≠ .free → k < NSLOTS → ¬need n k → slotAddr d.content (D n) k = 0
  first_pos : 0 < first
  size_le : d.size ≤ 2^32

def noBlock : ℕ → Prop := fun _ => False

def more (need : ℕ → ℕ → Prop) (n : ℕ) (P : ℕ → Prop) : ℕ → ℕ → Prop :=
  fun m k => need m k ∨ m = n ∧ P k

section Slots

variable {content : ℕ → Bytes} {c : Dinode} {j k b : ℕ}

theorem slotAddr_direct (h : k ≤ NDIRECT) : slotAddr content c k = c.addrs k := if_pos h

theorem slotAddr_entry (h : NDIRECT < k) (ha : c.addrs NDIRECT ≠ 0) :
    slotAddr content c k = word (content (c.addrs NDIRECT)) (k-NDIRECT-1) := by
  rw [slotAddr, if_neg (by omega), if_neg ha]

theorem slotAddr_absent (h : NDIRECT < k) (ha : c.addrs NDIRECT = 0) :
    slotAddr content c k = 0 := by
  rw [slotAddr, if_neg (by omega), if_pos ha]

/-- The slots depend on the indirect block alone. -/
theorem slotAddr_congr {content' : ℕ → Bytes}
    (h : c.addrs NDIRECT ≠ 0 → content' (c.addrs NDIRECT) = content (c.addrs NDIRECT)) :
    slotAddr content' c k = slotAddr content c k := by
  unfold slotAddr
  by_cases ha : c.addrs NDIRECT = 0
  · simp [ha]
  · rw [h ha]

@[simp] theorem setAddr_self : (c.setAddr k b).addrs k = b := by
  simp [Dinode.setAddr]

theorem setAddr_of_ne (h : j ≠ k) : (c.setAddr k b).addrs j = c.addrs j := by
  simp [Dinode.setAddr, h]

theorem slotAddr_setAddr (hk : k ≤ NDIRECT)
    (h12 : k = NDIRECT → c.addrs NDIRECT = 0 ∧ content b = fun _ => 0) :
    slotAddr content (c.setAddr k b) j = if j = k then b else slotAddr content c j := by
  by_cases hjk : j = k
  · rw [if_pos hjk, hjk, slotAddr_direct hk, setAddr_self]
  rw [if_neg hjk]
  by_cases hj : j ≤ NDIRECT
  · rw [slotAddr_direct hj, slotAddr_direct hj, setAddr_of_ne hjk]
  by_cases hk12 : k = NDIRECT
  · obtain ⟨h0,hb⟩ := h12 hk12
    rw [slotAddr_absent (by omega) h0, hk12]
    by_cases hb0 : b = 0
    · rw [slotAddr_absent (by omega) (by rw [setAddr_self, hb0])]
    · rw [slotAddr_entry (by omega) (by rwa [setAddr_self]), setAddr_self, hb, word_zero]
  · have hsame : (c.setAddr k b).addrs NDIRECT = c.addrs NDIRECT := setAddr_of_ne (Ne.symm hk12)
    unfold slotAddr
    rw [if_neg hj, if_neg hj, hsame]

theorem slotAddr_setWord (hk : NDIRECT < k) (ha : c.addrs NDIRECT ≠ 0) (hb : b < 2^32) :
    slotAddr (update content (c.addrs NDIRECT)
      (setWord (content (c.addrs NDIRECT)) (k-NDIRECT-1) b)) c j =
      if j = k then b else slotAddr content c j := by
  by_cases hj : j ≤ NDIRECT
  · rw [slotAddr_direct hj, slotAddr_direct hj, if_neg (by omega)]
  rw [slotAddr_entry (by omega) ha, slotAddr_entry (by omega) ha, update_self]
  by_cases hjk : j = k
  · rw [if_pos hjk, hjk, word_setWord_self hb]
  · rw [if_neg hjk, word_setWord_of_ne (by omega)]

theorem indirect_lt : NDIRECT < NSLOTS := by decide

theorem position_lt (h : k < MAXFILE) : position k < NSLOTS := by
  simp only [MAXFILE, NSLOTS, NINDIRECT, NDIRECT, BSIZE, position] at h ⊢
  split <;> omega

theorem position_ne_indirect : position k ≠ NDIRECT := by
  unfold position
  split <;> omega

theorem position_inj (h : position j = position k) : j = k := by
  unfold position at h
  split at h <;> split at h <;> omega

theorem covers_position {size : ℕ} : covers size (position k) ↔ k*BSIZE < size := by
  unfold covers position
  by_cases h : k < NDIRECT
  · rw [if_pos h, if_pos (by omega)]
  · rw [if_neg h, if_neg (by omega), Nat.add_sub_cancel]

theorem covers_indirect {size : ℕ} : covers size NDIRECT ↔ NDIRECT*BSIZE < size := by
  unfold covers
  rw [if_pos (le_refl _)]

end Slots

section Ownership

variable {d d' : Disk} {D D' : ℕ → Dinode} {need need' : ℕ → ℕ → Prop} {loose : ℕ → Prop}
  {first : ℕ}

section
variable (h : Owns d D need loose first)
include h

theorem need_of_ne_zero {n k : ℕ} (hl : (D n).type ≠ .free) (hk : k < NSLOTS)
    (hne : slotAddr d.content (D n) k ≠ 0) : need n k := by
  by_contra hn
  exact hne (h.clear n k hl hk hn)

theorem addr_ne_zero {n k : ℕ} (hu : Uses D need (n,k)) : slotAddr d.content (D n) k ≠ 0 := by
  have hin := (h.allotted.inside (n,k) hu).1
  have hf := h.first_pos
  intro h0
  simp only [h0] at hin
  omega

theorem indirect_used {n : ℕ} (hl : (D n).type ≠ .free) (hne : (D n).addrs NDIRECT ≠ 0) :
    Uses D need (n,NDIRECT) := by
  refine ⟨hl,indirect_lt,need_of_ne_zero h hl indirect_lt ?_⟩
  rw [slotAddr_direct (le_refl _)]
  exact hne

theorem slotAddr_frame {content' : ℕ → Bytes}
    (hc : ∀ m, Uses D need (m,NDIRECT) → content' (slotAddr d.content (D m) NDIRECT) =
      d.content (slotAddr d.content (D m) NDIRECT))
    {m k : ℕ} (hl : (D m).type ≠ .free) :
    slotAddr content' (D m) k = slotAddr d.content (D m) k := by
  apply slotAddr_congr
  intro hne
  have := hc m (indirect_used h hl hne)
  rwa [slotAddr_direct (le_refl _)] at this

theorem owns_congr (ht : ∀ n, (D' n).type ≠ .free ↔ (D n).type ≠ .free)
    (hn : ∀ n k, (D n).type ≠ .free → k < NSLOTS → (need' n k ↔ need n k))
    (ha : ∀ n k, (D n).type ≠ .free → k < NSLOTS → slotAddr d'.content (D' n) k =
      slotAddr d.content (D n) k)
    (hb : d'.bitmap = d.bitmap) (hs : d'.size = d.size) : Owns d' D' need' loose first where
  allotted := by
    rw [hb, hs]
    refine allotted_congr h.allotted (fun i => ?_) (fun i hi => ha i.1 i.2 hi.1 hi.2.1)
    constructor
    · rintro ⟨h1,h2,h3⟩
      have h4 := (ht i.1).mp h1
      exact ⟨h4,h2,(hn i.1 i.2 h4 h2).mp h3⟩
    · rintro ⟨h1,h2,h3⟩
      exact ⟨(ht i.1).mpr h1,h2,(hn i.1 i.2 h1 h2).mpr h3⟩
  clear := by
    intro n k hl hk hnk
    have hl' := (ht n).mp hl
    rw [ha n k hl' hk]
    exact h.clear n k hl' hk (fun h' => hnk ((hn n k hl' hk).mpr h'))
  first_pos := h.first_pos
  size_le := by
    rw [hs]
    exact h.size_le

theorem owns_take {n k b : ℕ} (hl : (D n).type ≠ .free) (hk : k < NSLOTS) (hnk : ¬need n k)
    (hb : d.bitmap b = false) (hbs : b < d.size) (ht : ∀ m, (D' m).type = (D m).type)
    (ha : ∀ m j, (D m).type ≠ .free → j < NSLOTS → slotAddr d'.content (D' m) j =
      if m = n ∧ j = k then b else slotAddr d.content (D m) j)
    (hbm : d'.bitmap = update d.bitmap b true) (hs : d'.size = d.size) :
    Owns d' D' (more need n (· = k)) loose first where
  allotted := by
    rw [hbm, hs]
    have hnu : ¬Uses D need (n,k) := fun hu => hnk hu.2.2
    refine allotted_take h.allotted hnu hb hbs (fun i => ?_) (fun i hi => ?_) ?_
    · constructor
      · rintro ⟨h1,h2,h3⟩
        rw [ht] at h1
        rcases h3 with h3 | ⟨h3,h4⟩
        · exact .inl ⟨h1,h2,h3⟩
        · exact .inr (Prod.ext h3 h4)
      · rintro (⟨h1,h2,h3⟩ | rfl)
        · exact ⟨by rwa [ht],h2,.inl h3⟩
        · exact ⟨by rwa [ht],hk,.inr ⟨rfl,rfl⟩⟩
    · rw [ha i.1 i.2 hi.1 hi.2.1, if_neg]
      rintro ⟨h1,h2⟩
      exact hnu (by rw [← h1, ← h2]; exact hi)
    · rw [ha n k hl hk, if_pos ⟨rfl,rfl⟩]
  clear := by
    intro m j hm hj hmj
    rw [ht] at hm
    rw [ha m j hm hj, if_neg (fun hc => hmj (.inr hc))]
    exact h.clear m j hm hj (fun hn => hmj (.inl hn))
  first_pos := h.first_pos
  size_le := by
    rw [hs]
    exact h.size_le

end

end Ownership

abbrev OUTOFBLOCKS : String := "balloc: out of blocks"

def table (w : Work) : ℕ → Dinode := update w.disk.dinode w.inum w.copy

def addr (w : Work) (i : ℕ × ℕ) : ℕ := slotAddr w.disk.content (table w i.1) i.2

def Holds (w : Work) (need : ℕ → ℕ → Prop) (loose : ℕ → Prop) (first : ℕ) : Prop :=
  Owns w.disk (table w) need loose first

structure Keeps (w u : Work) : Prop where
  inum : u.inum = w.inum
  dinode : u.disk.dinode = w.disk.dinode
  size : u.disk.size = w.disk.size
  ninodes : u.disk.ninodes = w.disk.ninodes
  copy : u.copy = { w.copy with addrs := u.copy.addrs }

structure Extends (need : ℕ → ℕ → Prop) (w u : Work) : Prop extends Keeps w u where
  addr : ∀ i, Uses (table w) need i → addr u i = addr w i
  bytes : ∀ i, Uses (table w) need i → i.2 ≠ NDIRECT →
    u.disk.content (BlockMap.addr w i) = w.disk.content (BlockMap.addr w i)

variable {need need' : ℕ → ℕ → Prop} {loose : ℕ → Prop} {first : ℕ} {w w' u : Work}

@[simp] theorem table_self (w : Work) : table w w.inum = w.copy := update_self ..

theorem addr_direct {k : ℕ} (hk : k ≤ NDIRECT) : addr w (w.inum,k) = w.copy.addrs k := by
  rw [addr, slotAddr_direct hk, table_self]

theorem addr_entry {j : ℕ} (ha : w.copy.addrs NDIRECT ≠ 0) :
    addr w (w.inum,NDIRECT+1+j) = word (w.disk.content (w.copy.addrs NDIRECT)) j := by
  rw [addr, table_self, slotAddr_entry (by omega) ha]
  congr 1
  omega

theorem table_of_ne {m : ℕ} (h : m ≠ w.inum) : table w m = w.disk.dinode m := update_of_ne h ..

theorem keeps_refl (w : Work) : Keeps w w := ⟨rfl,rfl,rfl,rfl,rfl⟩

theorem keeps_trans (h : Keeps w w') (h' : Keeps w' u) : Keeps w u where
  inum := h'.inum.trans h.inum
  dinode := h'.dinode.trans h.dinode
  size := h'.size.trans h.size
  ninodes := h'.ninodes.trans h.ninodes
  copy := by rw [h'.copy, h.copy]

theorem keeps_type (h : Keeps w u) (m : ℕ) : (table u m).type = (table w m).type := by
  by_cases hm : m = w.inum
  · have h1 : table u m = u.copy := by rw [hm, ← h.inum, table_self]
    have h2 : table w m = w.copy := by rw [hm, table_self]
    rw [h1, h2, h.copy]
  · have hm' : m ≠ u.inum := by rwa [h.inum]
    rw [table_of_ne hm', table_of_ne hm, h.dinode]

theorem uses_keeps (h : Keeps w u) {i : ℕ × ℕ} (hn : need i.1 i.2 → need' i.1 i.2)
    (hu : Uses (table w) need i) : Uses (table u) need' i :=
  ⟨by rw [keeps_type h]; exact hu.1,hu.2.1,hn hu.2.2⟩

theorem extends_refl (need : ℕ → ℕ → Prop) (w : Work) : Extends need w w :=
  ⟨keeps_refl w,fun _ _ => rfl,fun _ _ _ => rfl⟩

theorem extends_trans (h : Extends need w w') (h' : Extends need' w' u)
    (hn : ∀ m k, need m k → need' m k) : Extends need w u where
  toKeeps := keeps_trans h.toKeeps h'.toKeeps
  addr := fun i hi => (h'.addr i (uses_keeps h.toKeeps (hn _ _) hi)).trans (h.addr i hi)
  bytes := by
    intro i hi hk
    have hb := h'.bytes i (uses_keeps h.toKeeps (hn _ _) hi) hk
    rw [h.addr i hi] at hb
    exact hb.trans (h.bytes i hi hk)

/-- A slot that is needed already adds nothing. -/
theorem holds_more (h : Holds w need loose first) {n : ℕ} {P : ℕ → Prop}
    (hP : ∀ k, P k → need n k) : Holds w (more need n P) loose first := by
  refine owns_congr h (fun _ => Iff.rfl) (fun m k _ _ => ?_) (fun _ _ _ _ => rfl) rfl rfl
  constructor
  · rintro (hn | ⟨rfl,hk⟩)
    · exact hn
    · exact hP k hk
  · exact .inl

section Allocation

theorem balloc_meets (w : Work) : Meets balloc w (fun b u => w.disk.bitmap b = false ∧
    b < w.disk.size ∧ u = { w with disk := (w.disk.setBit b true).setContent b (fun _ => 0) })
    (· = OUTOFBLOCKS) := by
  unfold Meets balloc
  cases hf : (List.range w.disk.size).find? (fun b => ! w.disk.bitmap b) with
  | none => rfl
  | some b =>
    have hb := List.find?_some hf
    have hm := List.mem_of_find?_eq_some hf
    rw [List.mem_range] at hm
    exact ⟨by simpa using hb,hm,rfl⟩

section
variable (h : Holds w need loose first)
include h

theorem slotAddr_zeroed {b : ℕ} (hb : w.disk.bitmap b = false) {m k : ℕ}
    (hl : (table w m).type ≠ .free) :
    slotAddr (update w.disk.content b (fun _ => 0)) (table w m) k = addr w (m,k) := by
  refine slotAddr_frame h (fun m' hu => ?_) hl
  exact update_of_ne (ne_of_clear h.allotted hu hb) ..

theorem holds_setAddr (hl : w.copy.type ≠ .free) {k b : ℕ} (hk : k ≤ NDIRECT) (hnk : ¬need w.inum k)
    (hb : w.disk.bitmap b = false) (hbs : b < w.disk.size)
    (hu : u = { w with
      disk := (w.disk.setBit b true).setContent b (fun _ => 0), copy := w.copy.setAddr k b }) :
    Holds u (more need w.inum (· = k)) loose first ∧
    ∀ i, (table w i.1).type ≠ .free → i.2 < NSLOTS →
      addr u i = if i.1 = w.inum ∧ i.2 = k then b else addr w i := by
  have hk' : k < NSLOTS := by
    simp only [NSLOTS, NINDIRECT, NDIRECT, BSIZE] at hk ⊢
    omega
  have hl' : (table w w.inum).type ≠ .free := by rwa [table_self]
  have hu0 : u.inum = w.inum := by rw [hu]
  have hself : table u w.inum = w.copy.setAddr k b := by rw [← hu0, table_self, hu]
  have hother : ∀ m, m ≠ w.inum → table u m = table w m := by
    intro m hm
    rw [table_of_ne (by rwa [hu0]), table_of_ne hm, hu]
    rfl
  have hcontent : u.disk.content = update w.disk.content b (fun _ => 0) := by rw [hu]; rfl
  have haddr : ∀ i : ℕ × ℕ, (table w i.1).type ≠ .free → i.2 < NSLOTS →
      addr u i = if i.1 = w.inum ∧ i.2 = k then b else addr w i := by
    rintro ⟨m,j⟩ hm hj
    have hz := slotAddr_zeroed h hb (k := j) hm
    by_cases hmn : m = w.inum
    · subst hmn
      have hclear : k = NDIRECT → w.copy.addrs NDIRECT = 0 ∧
          update w.disk.content b (fun _ => 0) b = fun _ => 0 := by
        rintro rfl
        have h0 := h.clear w.inum NDIRECT hl' hk' hnk
        rw [slotAddr_direct (le_refl _), table_self] at h0
        exact ⟨h0,update_self ..⟩
      rw [addr, hself, hcontent, slotAddr_setAddr hk hclear]
      rw [table_self] at hz
      simp [hz]
    · rw [addr, hother m hmn, hcontent, hz, if_neg (by simp [hmn])]
  refine ⟨?_,haddr⟩
  have ht : ∀ m, (table u m).type = (table w m).type := by
    intro m
    by_cases hmn : m = w.inum
    · rw [hmn, hself, table_self]
      rfl
    · rw [hother m hmn]
  exact owns_take h hl' hk' hnk hb hbs ht (fun m j hm hj => haddr (m,j) hm hj)
    (by rw [hu]; rfl) (by rw [hu]; rfl)

theorem holds_setEntry (hl : w.copy.type ≠ .free) {k a b : ℕ} (hk : NDIRECT < k) (hk' : k < NSLOTS)
    (ha : a = w.copy.addrs NDIRECT) (h12 : need w.inum NDIRECT) (hnk : ¬need w.inum k)
    (hb : w.disk.bitmap b = false) (hbs : b < w.disk.size) {z : ℕ → Bytes}
    (hz : z = update w.disk.content b (fun _ => 0))
    (hu : u = { w with disk := { w.disk with
      bitmap := update w.disk.bitmap b true,
      content := update z a (setWord (z a) (k-NDIRECT-1) b) } }) :
    Holds u (more need w.inum (· = k)) loose first ∧
    ∀ i, (table w i.1).type ≠ .free → i.2 < NSLOTS →
      addr u i = if i.1 = w.inum ∧ i.2 = k then b else addr w i := by
  have hl' : (table w w.inum).type ≠ .free := by rwa [table_self]
  have hua : Uses (table w) need (w.inum,NDIRECT) := ⟨hl',indirect_lt,h12⟩
  have haddr12 : addr w (w.inum,NDIRECT) = w.copy.addrs NDIRECT := addr_direct (le_refl _)
  have ha0 : w.copy.addrs NDIRECT ≠ 0 := by
    rw [← haddr12]
    exact addr_ne_zero h hua
  have htab : table u = table w := by rw [hu]; rfl
  have haddr : ∀ i : ℕ × ℕ, (table w i.1).type ≠ .free → i.2 < NSLOTS →
      addr u i = if i.1 = w.inum ∧ i.2 = k then b else addr w i := by
    rintro ⟨m,j⟩ hm hj
    have hzero : slotAddr z (table w m) j = addr w (m,j) := by
      rw [hz]
      exact slotAddr_zeroed h hb hm
    rw [addr, htab]
    have hc : u.disk.content = update z a (setWord (z a) (k-NDIRECT-1) b) := by rw [hu]
    rw [hc]
    by_cases hmn : m = w.inum
    · subst hmn
      rw [table_self] at hzero
      rw [table_self, ha, slotAddr_setWord hk ha0 (lt_of_lt_of_le hbs h.size_le), hzero]
      simp
    · rw [if_neg (by simp [hmn]), ← hzero]
      apply slotAddr_congr
      intro hne
      apply update_of_ne
      intro he
      have hap := h.allotted.apart (m,NDIRECT) (w.inum,NDIRECT) (indirect_used h hm hne) hua
      simp only [slotAddr_direct (le_refl _), table_self, ← ha, he] at hap
      exact hmn (congrArg Prod.fst (hap trivial))
  refine ⟨?_,haddr⟩
  exact owns_take h hl' hk' hnk hb hbs (fun m => by rw [htab])
    (fun m j hm hj => haddr (m,j) hm hj) (by rw [hu]) (by rw [hu])

theorem mapAddr_meets (hl : w.copy.type ≠ .free) {k : ℕ} (hk : k ≤ NDIRECT) :
    Meets (mapAddr k) w (fun b u => Holds u (more need w.inum (· = k)) loose first ∧
      Extends need w u ∧ addr u (w.inum,k) = b) (· = OUTOFBLOCKS) := by
  have hk' : k < NSLOTS := by
    simp only [NSLOTS, NINDIRECT, NDIRECT, BSIZE] at hk ⊢
    omega
  have hl' : (table w w.inum).type ≠ .free := by rwa [table_self]
  have hself : addr w (w.inum,k) = w.copy.addrs k := addr_direct hk
  by_cases h0 : w.copy.addrs k = 0
  · have hnk : ¬need w.inum k := by
      intro hn
      exact addr_ne_zero h ⟨hl',hk',hn⟩ (hself.trans h0)
    refine meets_of_eq (if_pos h0) (meets_bind (balloc_meets w) ?_)
    rintro b v ⟨hb,hbs,rfl⟩
    refine meets_of_ok rfl ?_
    obtain ⟨hh,ha⟩ := holds_setAddr h hl hk hnk hb hbs rfl
    refine ⟨hh,⟨⟨rfl,rfl,rfl,rfl,rfl⟩,fun i hi => ?_,fun i hi hne => ?_⟩,?_⟩
    · rw [ha i hi.1 hi.2.1, if_neg]
      rintro ⟨h1,h2⟩
      exact hnk (h1 ▸ h2 ▸ hi.2.2)
    · exact update_of_ne (ne_of_clear h.allotted hi hb) ..
    · rw [ha (w.inum,k) hl' hk', if_pos ⟨rfl,rfl⟩]
  · refine meets_of_ok (if_neg h0) ?_
    refine ⟨holds_more h ?_,extends_refl need w,hself⟩
    rintro j rfl
    exact need_of_ne_zero h hl' hk' (by rw [← hself] at h0; exact h0)

theorem mapEntry_meets (hl : w.copy.type ≠ .free) {a j : ℕ} (hj : j < NINDIRECT)
    (ha : addr w (w.inum,NDIRECT) = a) (h12 : need w.inum NDIRECT) :
    Meets (mapEntry a j) w (fun b u => Holds u (more need w.inum (· = NDIRECT+1+j)) loose first ∧
      Extends need w u ∧ addr u (w.inum,NDIRECT+1+j) = b) (· = OUTOFBLOCKS) := by
  have hk' : NDIRECT+1+j < NSLOTS := by
    unfold NSLOTS
    omega
  have hl' : (table w w.inum).type ≠ .free := by rwa [table_self]
  have hua : Uses (table w) need (w.inum,NDIRECT) := ⟨hl',indirect_lt,h12⟩
  have hac : a = w.copy.addrs NDIRECT :=
    ha.symm.trans (addr_direct (le_refl _))
  have ha0 : w.copy.addrs NDIRECT ≠ 0 := by
    rw [← hac, ← ha]
    exact addr_ne_zero h hua
  have hj' : NDIRECT+1+j-NDIRECT-1 = j := by omega
  have hself : addr w (w.inum,NDIRECT+1+j) = word (w.disk.content a) j := by
    rw [addr_entry ha0, hac]
  by_cases h0 : word (w.disk.content a) j = 0
  · have hnk : ¬need w.inum (NDIRECT+1+j) := by
      intro hn
      exact addr_ne_zero h ⟨hl',hk',hn⟩ (hself.trans h0)
    refine meets_of_eq (if_pos h0) (meets_bind (balloc_meets w) ?_)
    rintro b v ⟨hb,hbs,rfl⟩
    refine meets_of_ok rfl ?_
    obtain ⟨hh,haddr⟩ := holds_setEntry (u := { w with disk := { w.disk with
        bitmap := update w.disk.bitmap b true,
        content := update (update w.disk.content b (fun _ => 0)) a
          (setWord (update w.disk.content b (fun _ => 0) a) j b) } })
      h hl (by omega) hk' hac h12 hnk hb hbs rfl (by rw [hj'])
    refine ⟨hh,⟨⟨rfl,rfl,rfl,rfl,rfl⟩,fun i hi => ?_,fun i hi hne => ?_⟩,?_⟩
    · refine (haddr i hi.1 hi.2.1).trans (if_neg ?_)
      rintro ⟨h1,h2⟩
      exact hnk (h1 ▸ h2 ▸ hi.2.2)
    · have hia : addr w i ≠ a := by
        intro he
        have := h.allotted.apart i (w.inum,NDIRECT) hi hua (he.trans ha.symm)
        rw [this] at hne
        exact hne rfl
      calc update (update w.disk.content b (fun _ => 0)) a _ (addr w i)
          = update w.disk.content b (fun _ => 0) (addr w i) := update_of_ne hia ..
        _ = w.disk.content (addr w i) := update_of_ne (ne_of_clear h.allotted hi hb) ..
    · exact (haddr (w.inum,NDIRECT+1+j) hl' hk').trans (if_pos ⟨rfl,rfl⟩)
  · refine meets_of_ok (if_neg h0) ?_
    refine ⟨holds_more h ?_,extends_refl need w,hself⟩
    rintro k rfl
    exact need_of_ne_zero h hl' hk' (by rw [← hself] at h0; exact h0)

end

def places (bn k : ℕ) : Prop := k = position bn ∨ NDIRECT ≤ bn ∧ k = NDIRECT

variable {bn : ℕ}

theorem bmap_meets (h : Holds w need loose first) (hl : w.copy.type ≠ .free) (hbn : bn < MAXFILE) :
    Meets (bmap bn) w (fun b u => Holds u (more need w.inum (places bn)) loose first ∧
      Extends need w u ∧ addr u (w.inum,position bn) = b) (· = OUTOFBLOCKS) := by
  unfold bmap
  by_cases hd : bn < NDIRECT
  · have hp : position bn = bn := if_pos hd
    rw [if_pos hd, hp]
    refine meets_mono (mapAddr_meets h hl (le_of_lt hd)) ?_ (fun _ he => he)
    rintro b u ⟨hh,he,ha⟩
    refine ⟨owns_congr hh (fun _ => Iff.rfl) (fun m k _ _ => ?_) (fun _ _ _ _ => rfl) rfl rfl,he,ha⟩
    have hlt : ¬NDIRECT ≤ bn := by omega
    simp [more, places, hp, hlt]
  · have hp : position bn = NDIRECT+1+(bn-NDIRECT) := by
      rw [position, if_neg hd]
      omega
    have hin : bn-NDIRECT < NINDIRECT := by
      unfold MAXFILE at hbn
      omega
    rw [if_neg hd, if_pos hin, hp]
    refine meets_bind (mapAddr_meets h hl (le_refl _)) ?_
    rintro a v ⟨hv,he,ha⟩
    have hlv : v.copy.type ≠ .free := by rwa [he.copy]
    rw [← he.inum] at ha
    refine meets_mono (mapEntry_meets hv hlv hin ha (.inr ⟨he.inum,rfl⟩)) ?_ (fun _ he => he)
    rintro b u ⟨hh,he',hb⟩
    rw [he.inum] at hh hb
    refine ⟨owns_congr hh (fun _ => Iff.rfl) (fun m k _ _ => ?_) (fun _ _ _ _ => rfl) rfl rfl,
      extends_trans he he' (fun _ _ => .inl),hb⟩
    have hle : NDIRECT ≤ bn := by omega
    simp only [more, places, hp, hle, true_and]
    rw [or_assoc, ← and_or_left, or_comm (a := k = NDIRECT)]

/-- A block that is there is found, and nothing changes. -/
theorem bmap_mapped (h : Holds w need loose first) (hl : w.copy.type ≠ .free) (hbn : bn < MAXFILE)
    (hn : ∀ k, places bn k → need w.inum k) : bmap bn w = .ok (addr w (w.inum,position bn),w) := by
  have hl' : (table w w.inum).type ≠ .free := by rwa [table_self]
  have hp := hn (position bn) (.inl rfl)
  have hne : addr w (w.inum,position bn) ≠ 0 := addr_ne_zero h ⟨hl',position_lt hbn,hp⟩
  unfold bmap
  by_cases hd : bn < NDIRECT
  · have hpos : position bn = bn := if_pos hd
    have ha : addr w (w.inum,position bn) = w.copy.addrs bn := by
      rw [hpos, addr_direct (le_of_lt hd)]
    rw [ha] at hne ⊢
    rw [if_pos hd, mapAddr, if_neg hne]
  · have hle : NDIRECT ≤ bn := by omega
    have hin : bn-NDIRECT < NINDIRECT := by
      unfold MAXFILE at hbn
      omega
    have h12 : addr w (w.inum,NDIRECT) ≠ 0 :=
      addr_ne_zero h ⟨hl',indirect_lt,hn NDIRECT (.inr ⟨hle,rfl⟩)⟩
    have ha12 : addr w (w.inum,NDIRECT) = w.copy.addrs NDIRECT := addr_direct (le_refl _)
    rw [ha12] at h12
    have ha : addr w (w.inum,position bn) = word (w.disk.content (w.copy.addrs NDIRECT))
      (bn-NDIRECT) := by
      rw [show position bn = NDIRECT+1+(bn-NDIRECT) by rw [position, if_neg hd]; omega]
      exact addr_entry h12
    rw [ha] at hne ⊢
    have hm : mapAddr NDIRECT w = .ok (w.copy.addrs NDIRECT,w) := if_neg h12
    have he : mapEntry (w.copy.addrs NDIRECT) (bn-NDIRECT) w =
        .ok (word (w.disk.content (w.copy.addrs NDIRECT)) (bn-NDIRECT),w) := if_neg hne
    rw [if_neg hd, if_pos hin]
    rw [run_bind_ok hm]
    exact he

theorem bmap_spec (h : Holds w need loose first) (hl : w.copy.type ≠ .free) (hbn : bn < MAXFILE) :
    Meets (bmap bn) w (fun b u => (Holds u (more need w.inum (places bn)) loose first ∧
      Extends need w u ∧ addr u (w.inum,position bn) = b) ∧
      ((∀ k, places bn k → need w.inum k) → u.copy = w.copy)) (· = OUTOFBLOCKS) := by
  by_cases hn : ∀ k, places bn k → need w.inum k
  · exact meets_of_ok (bmap_mapped h hl hbn hn)
      ⟨⟨holds_more h hn,extends_refl need w,rfl⟩,fun _ => rfl⟩
  · exact meets_mono (bmap_meets h hl hbn) (fun b u hu => ⟨hu,fun hk => absurd hk hn⟩)
      (fun _ he => he)

end Allocation

end Xv6.BlockMap
