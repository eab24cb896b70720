import Xv6.BlockMap

/-!
# Reading and writing the bytes of a file

A read inside the file changes nothing and returns the bytes at its offsets. A
write replaces the bytes of its range, keeps every other byte of every file, and
needs the slots of its range in addition to those in use before; so a sound disk
stays sound.
-/

set_option autoImplicit false

namespace Xv6.FileContent
open Function ByteStore StateRuns BlockLayer BlockMap

section
def byteAt (w : Work) (m x : ℕ) : UInt8 :=
  w.disk.content (addr w (m,position (x/BSIZE))) (x%BSIZE)

def range (off n k : ℕ) : Prop := ∃ x, off ≤ x ∧ x < off+n ∧ places (x/BSIZE) k

variable {need need' : ℕ → ℕ → Prop} {loose : ℕ → Prop} {first : ℕ} {w u v : Work}

section Chunks

variable {off n j : ℕ}

theorem chunk_le (off n : ℕ) : chunk off n ≤ n := min_le_left ..

theorem chunk_fits (off n : ℕ) : off%BSIZE+chunk off n ≤ BSIZE := by
  unfold chunk
  have := Nat.mod_lt off (show 0 < BSIZE by decide)
  omega

theorem chunk_pos (off : ℕ) (h : 0 < n) : 0 < chunk off n := by
  unfold chunk
  have := Nat.mod_lt off (show 0 < BSIZE by decide)
  omega

/-- The bytes of a range inside a block. -/
theorem div_of_fits (h : off%BSIZE+n ≤ BSIZE) (hj : j < n) : (off+j)/BSIZE = off/BSIZE := by
  simp only [BSIZE] at *
  omega

theorem mod_of_fits (h : off%BSIZE+n ≤ BSIZE) (hj : j < n) : (off+j)%BSIZE = off%BSIZE+j := by
  simp only [BSIZE] at *
  omega

theorem div_lt_max (h : off < MAXFILE*BSIZE) : off/BSIZE < MAXFILE := by
  simp only [MAXFILE, NDIRECT, NINDIRECT, BSIZE] at *
  omega

theorem range_nil {k : ℕ} (h : range off 0 k) : False := by
  obtain ⟨x,h1,h2,_⟩ := h
  omega

theorem range_chunk (h : 0 < n) {k : ℕ} : range off n k ↔
    places (off/BSIZE) k ∨ range (off+chunk off n) (n-chunk off n) k := by
  constructor
  · rintro ⟨x,hx,hxn,hk⟩
    by_cases hlt : x < off+chunk off n
    · left
      have hdiv := div_of_fits (chunk_fits off n) (j := x-off) (by omega)
      rw [Nat.add_sub_cancel' hx] at hdiv
      rwa [← hdiv]
    · exact .inr ⟨x,by omega,by omega,hk⟩
  · rintro (hk | ⟨x,hx,hxn,hk⟩)
    · exact ⟨off,le_refl _,by omega,hk⟩
    · exact ⟨x,by omega,by omega,hk⟩

end Chunks

section Reading

theorem readChunk_eq (h : Holds w need loose first) (hl : w.copy.type ≠ .free) {off n : ℕ}
    (hmax : off < MAXFILE*BSIZE) (hfit : off%BSIZE+n ≤ BSIZE)
    (hn : ∀ k, places (off/BSIZE) k → need w.inum k) :
    readChunk off n w = .ok ((List.range n).map (fun x => byteAt w w.inum (off+x)),w) := by
  have hb := bmap_mapped h hl (div_lt_max hmax) hn
  have hs : slice (w.disk.content (addr w (w.inum,position (off/BSIZE)))) (off%BSIZE) n =
      (List.range n).map (fun x => byteAt w w.inum (off+x)) := by
    apply List.map_congr_left
    intro x hx
    rw [List.mem_range] at hx
    rw [byteAt, div_of_fits hfit hx, mod_of_fits hfit hx]
  show (bmap (off/BSIZE) w >>= fun r => loadBlock r.1 (off%BSIZE) n r.2) = _
  rw [hb, ← hs]
  rfl

theorem readLoop_eq (h : Holds w need loose first) (hl : w.copy.type ≠ .free) (k off n : ℕ)
    (hk : n ≤ k) (hmax : off+n ≤ MAXFILE*BSIZE) (hn : ∀ k, range off n k → need w.inum k) :
    readLoop k off n w = .ok ((List.range n).map (fun x => byteAt w w.inum (off+x)),w) := by
  induction k generalizing off n with
  | zero =>
    obtain rfl : n = 0 := by omega
    rfl
  | succ k ih =>
    unfold readLoop
    by_cases h0 : n = 0
    · rw [if_pos h0, h0]
      rfl
    · have hpos : 0 < n := by omega
      have hc := chunk_le off n
      have hcp := chunk_pos off hpos
      have hr := readChunk_eq h hl (by omega) (chunk_fits off n)
        (fun k hk => hn k ((range_chunk hpos).mpr (.inl hk)))
      have hrest := ih (off+chunk off n) (n-chunk off n) (by omega) (by omega)
        (fun k hk => hn k ((range_chunk hpos).mpr (.inr hk)))
      have hsplit : (List.range n).map (fun x => byteAt w w.inum (off+x)) =
          (List.range (chunk off n)).map (fun x => byteAt w w.inum (off+x)) ++
          (List.range (n-chunk off n)).map (fun x => byteAt w w.inum (off+chunk off n+x)) := by
        conv_lhs => rw [show n = chunk off n+(n-chunk off n) by omega]
        rw [List.range_add, List.map_append, List.map_map]
        simp only [Function.comp_def, Nat.add_assoc]
      rw [if_neg h0, hsplit]
      show (readChunk off (chunk off n) w >>= fun r =>
        (readLoop k (off+chunk off n) (n-chunk off n) r.2 >>= fun z => .ok (r.1++z.1,z.2))) = _
      rw [hr]
      show (readLoop k (off+chunk off n) (n-chunk off n) w >>= fun z => .ok (_++z.1,z.2)) = _
      rw [hrest]
      rfl

end Reading

section Writing

structure Wrote (need : ℕ → ℕ → Prop) (w u : Work) (off : ℕ) (src : List UInt8) : Prop
    extends Keeps w u where
  written : ∀ x, off ≤ x → x < off+src.length → byteAt u w.inum x = src.getD (x-off) 0
  kept : ∀ m x, Uses (table w) need (m,position (x/BSIZE)) →
    ¬(m = w.inum ∧ off ≤ x ∧ x < off+src.length) → byteAt u m x = byteAt w m x

theorem wrote_nil (need : ℕ → ℕ → Prop) (w : Work) (off : ℕ) : Wrote need w w off [] where
  toKeeps := keeps_refl w
  written := by
    intro x h1 h2
    rw [List.length_nil] at h2
    omega
  kept := fun _ _ _ _ => rfl

theorem byteAt_extends (h : Extends need w u) {m x : ℕ}
    (hu : Uses (table w) need (m,position (x/BSIZE))) : byteAt u m x = byteAt w m x := by
  rw [byteAt, byteAt, h.addr _ hu, h.bytes _ hu position_ne_indirect]

/-- A write into a data block moves no slot. -/
theorem holds_store (h : Holds w need loose first) {i : ℕ × ℕ} (hi : Uses (table w) need i)
    (hne : i.2 ≠ NDIRECT) {b : Bytes}
    (hu : u = { w with disk := w.disk.setContent (addr w i) b }) :
    Holds u need loose first ∧ ∀ j, (table w j.1).type ≠ .free → addr u j = addr w j := by
  have htab : table u = table w := by rw [hu]; rfl
  have haddr : ∀ j : ℕ × ℕ, (table w j.1).type ≠ .free → addr u j = addr w j := by
    intro j hj
    rw [addr, htab, hu]
    refine slotAddr_frame h (fun m hm => ?_) hj
    apply update_of_ne
    intro he
    exact hne (congrArg Prod.snd (h.allotted.apart (m,NDIRECT) i hm hi he)).symm
  exact ⟨owns_congr h (fun m => by rw [htab]) (fun _ _ _ _ => Iff.rfl)
    (fun m k hm _ => haddr (m,k) hm) (by rw [hu]; rfl) (by rw [hu]; rfl),haddr⟩

variable {src : List UInt8}

theorem writeChunk_meets (h : Holds w need loose first) (hl : w.copy.type ≠ .free) {off : ℕ}
    (hmax : off < MAXFILE*BSIZE) (hfit : off%BSIZE+src.length ≤ BSIZE) :
    Meets (writeChunk off src) w (fun _ u =>
      Holds u (more need w.inum (places (off/BSIZE))) loose first ∧ Wrote need w u off src ∧
      ((∀ k, places (off/BSIZE) k → need w.inum k) → u.copy = w.copy)) (· = OUTOFBLOCKS) := by
  have hbn := div_lt_max hmax
  refine meets_bind (bmap_spec h hl hbn) ?_
  rintro b v ⟨⟨hv,he,hb⟩,hcopy⟩
  have hlv : (table v w.inum).type ≠ .free := by
    rw [keeps_type he.toKeeps, table_self]
    exact hl
  have huse : Uses (table v) (more need w.inum (places (off/BSIZE)))
      (w.inum,position (off/BSIZE)) :=
    ⟨hlv,position_lt hbn,.inr ⟨rfl,.inl rfl⟩⟩
  subst hb
  obtain ⟨hh,ha⟩ := holds_store hv huse position_ne_indirect rfl
  refine meets_of_ok rfl ⟨hh,⟨⟨he.inum,he.dinode,he.size,he.ninodes,he.copy⟩,
    fun x h1 h2 => ?_,fun m x hm hx => ?_⟩,hcopy⟩
  · have hdiv := div_of_fits hfit (j := x-off) (by omega)
    have hmod := mod_of_fits hfit (j := x-off) (by omega)
    rw [Nat.add_sub_cancel' h1] at hdiv hmod
    rw [byteAt, hdiv, ha _ hlv, hmod]
    show update v.disk.content _ _ _ _ = _
    rw [update_self, paste_in (by omega) (by omega), Nat.add_sub_cancel_left]
  · have hm' : Uses (table v) (more need w.inum (places (off/BSIZE))) _ :=
      uses_keeps he.toKeeps .inl hm
    rw [← byteAt_extends he hm, byteAt, ha _ hm'.1]
    show update v.disk.content _ _ (addr v (m,position (x/BSIZE))) _ = byteAt v m x
    by_cases hsame : addr v (m,position (x/BSIZE)) = addr v (w.inum,position (off/BSIZE))
    · have hap := hv.allotted.apart _ _ hm' huse hsame
      simp only [Prod.mk.injEq] at hap
      have hbn' := position_inj hap.2
      rw [hsame, update_self, byteAt, hsame]
      apply paste_out
      simp only [BSIZE] at hbn' ⊢
      omega
    · rw [update_of_ne hsame, byteAt]

theorem wrote_append {off m : ℕ} (hm : m ≤ src.length) (h : Wrote need w v off (src.take m))
    (h' : Wrote need' v u (off+m) (src.drop m)) (hn : ∀ n k, need n k → need' n k)
    (hnew : ∀ x, off ≤ x → x < off+m → Uses (table v) need' (w.inum,position (x/BSIZE))) :
    Wrote need w u off src := by
  have hlen : (src.take m).length = m := by simp [hm]
  have hlen' : (src.drop m).length = src.length-m := by simp
  refine ⟨keeps_trans h.toKeeps h'.toKeeps,fun x h1 h2 => ?_,fun n x hu hx => ?_⟩
  · by_cases hlt : x < off+m
    · rw [h'.kept w.inum x (hnew x h1 hlt) (by omega), h.written x h1 (by rwa [hlen]),
        List.getD_eq_getElem?_getD, List.getElem?_take_of_lt (by omega), List.getD_eq_getElem?_getD]
    · have hw := h'.written x (by omega) (by omega)
      rw [h.inum] at hw
      rw [hw, List.getD_eq_getElem?_getD, List.getElem?_drop, List.getD_eq_getElem?_getD]
      congr 2
      omega
  · rw [h'.kept n x (uses_keeps h.toKeeps (hn _ _) hu) (by rw [h.inum, hlen']; omega),
      h.kept n x hu (by rw [hlen]; omega)]

theorem writeLoop_meets (k : ℕ) {off : ℕ} (h : Holds w need loose first) (hl : w.copy.type ≠ .free)
    (hk : src.length ≤ k) (hmax : off+src.length ≤ MAXFILE*BSIZE) :
    Meets (writeLoop k off src) w (fun last u => last = off+src.length ∧
      Holds u (more need w.inum (range off src.length)) loose first ∧ Wrote need w u off src ∧
      ((∀ k, range off src.length k → need w.inum k) → u.copy = w.copy)) (· = OUTOFBLOCKS) := by
  induction k generalizing w need off src with
  | zero =>
    obtain rfl : src = [] := List.eq_nil_of_length_eq_zero (by omega)
    exact meets_of_ok rfl ⟨rfl,holds_more h (fun k hk => (range_nil hk).elim),
      wrote_nil need w off,fun _ => rfl⟩
  | succ k ih =>
    unfold writeLoop
    by_cases h0 : src = []
    · rw [if_pos h0, h0]
      exact meets_pure ⟨rfl,holds_more h (fun k hk => (range_nil hk).elim),
      wrote_nil need w off,fun _ => rfl⟩
    rw [if_neg h0]
    have hpos : 0 < src.length := List.length_pos_iff.mpr h0
    have hc := chunk_le off src.length
    have hcp := chunk_pos off hpos
    have hlen : (src.take (chunk off src.length)).length = chunk off src.length := by simp [hc]
    have hlen' : (src.drop (chunk off src.length)).length =
      src.length-chunk off src.length := by simp
    refine meets_bind (writeChunk_meets h hl (by omega) (by rw [hlen]; exact chunk_fits _ _)) ?_
    rintro _ v ⟨hv,hw,hcopy⟩
    have hlv : v.copy.type ≠ .free := by rwa [hw.copy]
    refine meets_mono (ih hv hlv (by omega) (by omega)) ?_ (fun _ he => he)
    rintro last u ⟨rfl,hh,hw',hcopy'⟩
    rw [hw.inum, hlen'] at hh hcopy'
    refine ⟨by omega,owns_congr hh (fun _ => Iff.rfl) (fun m j _ _ => ?_) (fun _ _ _ _ =>
      rfl) rfl rfl,
      wrote_append hc hw hw' (fun _ _ => .inl) (fun x h1 h2 => ?_),fun hn => ?_⟩
    · simp only [more, range_chunk hpos (k := j), and_or_left, or_assoc]
    · have hdiv := div_of_fits (chunk_fits off src.length) (j := x-off) (by omega)
      rw [Nat.add_sub_cancel' h1] at hdiv
      refine ⟨?_,position_lt (div_lt_max (by omega)),.inr ⟨rfl,.inl (by rw [hdiv])⟩⟩
      rw [keeps_type hw.toKeeps, table_self]
      exact hl
    · rw [hcopy' (fun j hj => .inl (hn j ((range_chunk hpos).mpr (.inr hj)))),
        hcopy (fun j hj => hn j ((range_chunk hpos).mpr (.inl hj)))]

end Writing

end

def sized (D : ℕ → Dinode) (n k : ℕ) : Prop := covers (D n).size k

structure Sound (d : Disk) (first : ℕ) : Prop where
  owns : Owns d d.dinode (sized d.dinode) noBlock first
  size_le : ∀ n, (d.dinode n).type ≠ .free → (d.dinode n).size ≤ MAXFILE*BSIZE

def fileByte (d : Disk) (m x : ℕ) : UInt8 :=
  d.content (slotAddr d.content (d.dinode m) (position (x/BSIZE))) (x%BSIZE)

def Coherent (w : Work) : Prop := w.copy = w.disk.dinode w.inum

variable {d d' : Disk} {w u : Work} {first : ℕ}

theorem table_coherent (h : Coherent w) : table w = w.disk.dinode := by
  rw [table, h]
  exact update_eq_self ..

theorem holds_of_sound (hs : Sound w.disk first) (h : Coherent w) :
    Holds w (sized w.disk.dinode) noBlock first := by
  unfold Holds
  rw [table_coherent h]
  exact hs.owns

theorem byteAt_coherent (h : Coherent w) (m x : ℕ) : byteAt w m x = fileByte w.disk m x := by
  rw [byteAt, addr, table_coherent h, fileByte]

section Reading

theorem readi_eq (hs : Sound w.disk first) (h : Coherent w) (hl : w.copy.type ≠ .free)
    (hd : w.copy.type ≠ .dev) (device : ℤ → Option (List UInt8)) (off n : ℕ) :
    readi device off n w = .ok (if w.copy.size < off ∨ (off+n)%2^32 < off then Option.none
      else some ((List.range (min n (w.copy.size-off))).map
        (fun x => fileByte w.disk w.inum (off+x))),w) := by
  unfold readi
  rw [if_neg hd]
  by_cases hb : w.copy.size < off ∨ (off+n)%2^32 < off
  · rw [if_pos hb, if_pos hb]
  rw [if_neg hb, if_neg hb]
  have hl' : (w.disk.dinode w.inum).type ≠ .free := h ▸ hl
  have hle := hs.size_le w.inum hl'
  rw [← h] at hle
  have hr := readLoop_eq (holds_of_sound hs h) hl n off (min n (w.copy.size-off)) (by omega)
    (by omega) (fun k hk => by
      obtain ⟨x,hx,hxn,hp⟩ := hk
      show covers (w.disk.dinode w.inum).size k
      rw [← h]
      rcases hp with rfl | ⟨h12,rfl⟩
      · rw [covers_position]
        simp only [BSIZE] at *
        omega
      · rw [covers_indirect]
        simp only [BSIZE, NDIRECT] at *
        omega)
  show (some <$> readLoop n off (min n (w.copy.size-off))) w = _
  have hm : (some <$> readLoop n off (min n (w.copy.size-off))) w =
      (readLoop n off (min n (w.copy.size-off)) w >>= fun r => .ok (some r.1,r.2)) := rfl
  rw [hm, hr]
  simp only [byteAt_coherent h]
  rfl

end Reading

section Writing

theorem covers_grow {size off n k : ℕ} (hoff : off ≤ size) :
    covers (max size (off+n)) k ↔ covers size k ∨ range off n k := by
  constructor
  · intro h
    by_cases hs : covers size k
    · exact .inl hs
    · right
      have hbn : places (if k ≤ NDIRECT then k else k-1) k := by
        unfold places position
        simp only [NDIRECT]
        split <;> split <;> omega
      unfold covers at h hs
      refine ⟨(if k ≤ NDIRECT then k else k-1)*BSIZE,by omega,by omega,?_⟩
      rwa [Nat.mul_div_cancel _ (by decide)]
  · rintro (h | ⟨x,hx,hxn,rfl | ⟨h12,rfl⟩⟩)
    · unfold covers at *
      omega
    · rw [covers_position]
      simp only [BSIZE] at *
      omega
    · rw [covers_indirect]
      simp only [BSIZE, NDIRECT] at *
      omega

structure WroteFile (d d' : Disk) (n off : ℕ) (src : List UInt8) : Prop where
  size : d'.size = d.size
  ninodes : d'.ninodes = d.ninodes
  others : ∀ m, m ≠ n → d'.dinode m = d.dinode m
  self : d'.dinode n = { d.dinode n with
    size := max (d.dinode n).size (off+src.length), addrs := (d'.dinode n).addrs }
  written : ∀ x, off ≤ x → x < off+src.length → fileByte d' n x = src.getD (x-off) 0
  kept : ∀ m x, (d.dinode m).type ≠ .free → x < (d.dinode m).size →
    ¬(m = n ∧ off ≤ x ∧ x < off+src.length) → fileByte d' m x = fileByte d m x

inductive WriteOutcome (device : ℤ → Option ℕ) (w : Work) (off : ℕ) (src : List UInt8) :
    Option ℕ → Work → Prop
  | device (h : w.copy.type = .dev) : WriteOutcome device w off src (device w.copy.major) w
  | refused (h : w.copy.size < off ∨ (off+src.length)%2^32 < off ∨ MAXFILE*BSIZE < off+src.length) :
      WriteOutcome device w off src Option.none w
  | done {u : Work} (hoff : off ≤ w.copy.size) (h : WroteFile w.disk u.disk w.inum off src) :
      WriteOutcome device w off src (some src.length) u

/-- The end of `writei`, with the slots of the range filled. -/
theorem growTo_sound (hs : Sound w.disk first) (h : Coherent w) (hl : w.copy.type ≠ .free) {off : ℕ}
    {src : List UInt8} (hoff : off ≤ w.copy.size) (hmax : off+src.length ≤ MAXFILE*BSIZE)
    (hu : Holds u (more (sized w.disk.dinode) w.inum (range off src.length)) noBlock first)
    (hw : Wrote (sized w.disk.dinode) w u off src)
    (hc : (∀ k, range off src.length k → sized w.disk.dinode w.inum k) → u.copy = w.copy) :
    ∃ v, growTo (off+src.length) src.length u = .ok ((),v) ∧ v.inum = w.inum ∧ Coherent v ∧
      Sound v.disk first ∧ WroteFile w.disk v.disk w.inum off src := by
  have hsize : u.copy.size = w.copy.size := by rw [hw.copy]
  have htype : u.copy.type = w.copy.type := by rw [hw.copy]
  have hend : ∃ v, growTo (off+src.length) src.length u = .ok ((),v) ∧ v.inum = w.inum ∧
      v.copy = { u.copy with size := max w.copy.size (off+src.length) } ∧
      v.disk = { u.disk with dinode := update w.disk.dinode w.inum v.copy } := by
    by_cases hg : 0 < src.length ∧ u.copy.size < off+src.length
    · refine ⟨_,if_pos hg,hw.inum,?_,?_⟩
      · show { u.copy with size := off+src.length } = _
        rw [max_eq_right (by omega)]
      · rw [← hw.dinode, ← hw.inum]
        rfl
    · have hin : off+src.length ≤ w.copy.size := by omega
      have hcopy : u.copy = w.copy := by
        apply hc
        intro k hk
        have hcov := (covers_grow hoff (n := src.length) (k := k)).mpr (.inr hk)
        rw [max_eq_left hin] at hcov
        rwa [sized, ← h]
      refine ⟨u,if_neg hg,hw.inum,?_,?_⟩
      · rw [max_eq_left hin, hcopy]
      · rw [hcopy, h, update_eq_self, ← hw.dinode]
  obtain ⟨v,hv,hvi,hvc,hvd⟩ := hend
  have hself : v.disk.dinode w.inum = v.copy := by rw [hvd]; exact update_self ..
  have hother : ∀ m, m ≠ w.inum → v.disk.dinode m = w.disk.dinode m := by
    intro m hm
    rw [hvd]
    exact update_of_ne hm ..
  have htu : ∀ m, (table u m).type = (v.disk.dinode m).type ∧
      (table u m).addrs = (v.disk.dinode m).addrs := by
    intro m
    by_cases hm : m = w.inum
    · have ht : table u m = u.copy := by rw [hm, ← hw.inum, table_self]
      rw [ht, hm, hself, hvc]
      exact ⟨rfl,rfl⟩
    · have hm' : m ≠ u.inum := by rwa [hw.inum]
      rw [table_of_ne hm', hother m hm, hw.dinode]
      exact ⟨rfl,rfl⟩
  have hcont : v.disk.content = u.disk.content := by rw [hvd]
  have hslot : ∀ m k, slotAddr v.disk.content (v.disk.dinode m) k = addr u (m,k) := by
    intro m k
    rw [addr, hcont, slotAddr, slotAddr, (htu m).2]
  have hbyte : ∀ m x, fileByte v.disk m x = byteAt u m x := by
    intro m x
    rw [fileByte, hslot, byteAt, hcont]
  have hvs : ∀ m, (v.disk.dinode m).size =
      if m = w.inum then max w.copy.size (off+src.length) else (w.disk.dinode m).size := by
    intro m
    by_cases hm : m = w.inum
    · rw [if_pos hm, hm, hself, hvc]
    · rw [if_neg hm, hother m hm]
  refine ⟨v,hv,hvi,?_,⟨?_,?_⟩,⟨?_,?_,hother,?_,?_,?_⟩⟩
  · rw [Coherent, hvi, hself]
  · refine owns_congr hu (fun m => by rw [(htu m).1]) (fun m k _ _ => ?_) (fun m k _ _ => hslot m k)
      (by rw [hvd]) (by rw [hvd])
    by_cases hm : m = w.inum
    · rw [sized, hvs, if_pos hm, covers_grow hoff, more, sized, hm, ← h]
      simp
    · rw [sized, hvs, if_neg hm]
      simp [more, sized, hm]
  · intro m hm
    rw [hvs]
    split
    · have hl' : (w.disk.dinode w.inum).type ≠ .free := h ▸ hl
      have := hs.size_le w.inum hl'
      rw [← h] at this
      omega
    · next hne =>
      rw [hother m hne] at hm
      exact hs.size_le m hm
  · rw [hvd]
    exact hw.size
  · rw [hvd]
    exact hw.ninodes
  · rw [hself, ← h, hvc, hw.copy]
  · intro x h1 h2
    rw [hbyte]
    exact hw.written x h1 h2
  · intro m x hm hx hout
    rw [hbyte, hw.kept m x ?_ hout, byteAt_coherent h]
    rw [table_coherent h]
    have hle := hs.size_le m hm
    refine ⟨hm,position_lt (div_lt_max (by omega)),?_⟩
    show covers _ _
    rw [covers_position]
    simp only [BSIZE] at *
    omega

theorem writei_meets (hs : Sound w.disk first) (h : Coherent w) (hl : w.copy.type ≠ .free)
    (device : ℤ → Option ℕ) (off : ℕ) (src : List UInt8) :
    Meets (writei device off src) w (fun r u => u.inum = w.inum ∧ Coherent u ∧ Sound u.disk first ∧
      WriteOutcome device w off src r u) (· = OUTOFBLOCKS) := by
  by_cases hd : w.copy.type = .dev
  · exact meets_of_ok (if_pos hd) ⟨rfl,h,hs,.device hd⟩
  by_cases hb : w.copy.size < off ∨ (off+src.length)%2^32 < off
  · refine meets_of_ok ((if_neg hd).trans (if_pos hb)) ⟨rfl,h,hs,.refused ?_⟩
    rcases hb with hb | hb
    · exact .inl hb
    · exact .inr (.inl hb)
  by_cases hm : MAXFILE*BSIZE < off+src.length
  · exact meets_of_ok ((if_neg hd).trans ((if_neg hb).trans (if_pos hm)))
      ⟨rfl,h,hs,.refused (.inr (.inr hm))⟩
  refine meets_of_eq ((if_neg hd).trans ((if_neg hb).trans (if_neg hm))) ?_
  refine meets_bind (writeLoop_meets src.length (holds_of_sound hs h) hl (le_refl _) (by omega)) ?_
  rintro last u ⟨rfl,hu,hw,hc⟩
  obtain ⟨v,hv,hvi,hvc,hvs,hvw⟩ := growTo_sound hs h hl (by omega) (by omega) hu hw hc
  exact meets_bind_ok hv (meets_of_ok rfl ⟨hvi,hvc,hvs,.done (by omega) hvw⟩)

end Writing

section Lifetime

variable {n : ℕ} {c : Dinode}

theorem not_covers_zero (k : ℕ) : ¬covers 0 k := Nat.not_lt_zero _

end Lifetime

end Xv6.FileContent
