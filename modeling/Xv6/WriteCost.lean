import Mathlib.Order.Interval.Finset.Nat
import Xv6.WriteLog
import Xv6.LogCalls
import Xv6.ChunkedWrite

/-!
# How much of the log a write takes

`begin_op` reserves `MAXOPBLOCKS` blocks of the log for each transaction. The
number of blocks a piece of `filewrite` logs is computed here from the offset,
the length, the slots without a block and the free blocks of the disk.
-/

set_option autoImplicit false

namespace Xv6.WriteCost
open Function StateRuns BlockMap
open FileContent FreeBlocks InodeContents WriteLog
open BlockLayer (BSIZE NDIRECT NINDIRECT MAXFILE Disk Work DiskM)
open LogCalls (MAXOPBLOCKS)
open FsState (Fs FileId Ip)
open FsState (WRITEMAX)
open ChunkedWrite (inMemory Opened round noteFs writeRound_ok spliced_size spliced_type)

variable {sb : Super} {t : Trans} {need : ℕ → ℕ → Prop} {loose : ℕ → Prop} {first : ℕ}

section Counting

def pieces (off n : ℕ) : ℕ := if n = 0 then 0 else (off+n-1)/BSIZE+1-off/BSIZE

def dataSlots (off n : ℕ) : Finset ℕ :=
  (Finset.range NSLOTS).filter (fun k => range off n k ∧ k ≠ NDIRECT)

theorem dataSlots_card {off n : ℕ} (h : off+n ≤ MAXFILE*BSIZE) :
    (dataSlots off n).card = pieces off n := by
  have himg : dataSlots off n =
      (Finset.Ico (off/BSIZE) (off/BSIZE+pieces off n)).image position := by
    ext k
    rw [dataSlots, Finset.mem_filter, Finset.mem_range, Finset.mem_image]
    constructor
    · rintro ⟨-,⟨x,h1,h2,hk | ⟨-,hk⟩⟩,hne⟩
      · refine ⟨x/BSIZE,?_,hk.symm⟩
        rw [Finset.mem_Ico, pieces, if_neg (by omega)]
        simp only [BSIZE]
        omega
      · exact absurd hk hne
    · rintro ⟨j,hj,rfl⟩
      rw [Finset.mem_Ico, pieces] at hj
      by_cases hn : n = 0
      · rw [if_pos hn] at hj
        omega
      rw [if_neg hn] at hj
      have hx : max off (j*BSIZE)/BSIZE = j := by
        simp only [BSIZE] at *
        omega
      have hlt : max off (j*BSIZE) < off+n := by
        simp only [BSIZE] at *
        omega
      have hr : range off n (position j) :=
        ⟨max off (j*BSIZE),le_max_left ..,hlt,.inl (by rw [hx])⟩
      exact ⟨range_lt h hr,hr,position_ne_indirect⟩
  rw [himg, Finset.card_image_of_injective _ (fun _ _ he => position_inj he), Nat.card_Ico,
    Nat.add_sub_cancel_left]

structure Layout (sb : Super) (w : Work) (first : ℕ) : Prop where
  inodes : sb.iblock w.inum < sb.bmapstart
  start : sb.bmapstart ≤ first
  bitmap : ∀ b, b < w.disk.size → sb.bblock b < first

abbrev NewEntry (w : Work) (off n : ℕ) : Prop := ∃ k ∈ holes w (range off n), NDIRECT < k

def bitmapBlocks (d : Disk) (m : ℕ) : Finset ℕ := (((clearList d).take m).map (·/BPB)).toFinset

/-- Without its indirect block a range that reaches it has new entries. -/
theorem newEntry_of_indirect {w : Work} {off n : ℕ} (hmax : off+n ≤ MAXFILE*BSIZE)
    (h : NDIRECT ∈ holes w (range off n)) : NewEntry w off n := by
  obtain ⟨-,⟨x,h1,h2,h3 | ⟨h3,-⟩⟩,h0⟩ := mem_holes.mp h
  · exact absurd h3.symm position_ne_indirect
  · have hr : range off n (position (x/BSIZE)) := ⟨x,h1,h2,.inl rfl⟩
    have hlt : NDIRECT < position (x/BSIZE) := by
      rw [position, if_neg (by omega)]
      omega
    refine ⟨position (x/BSIZE),mem_holes.mpr ⟨range_lt hmax hr,hr,?_⟩,hlt⟩
    by_contra hne
    exact indirect_of_entry hlt hne h0

def loopBlocks (sb : Super) (w v : Work) (off n : ℕ) : Finset ℕ :=
  (dataSlots off n).image (fun k => addr v (v.inum,k)) ∪
  (bitmapBlocks w.disk (missing w (range off n))).image (·+sb.bmapstart) ∪
  (if NewEntry w off n then {addr v (v.inum,NDIRECT)} else ∅)

theorem loop_log {s : Trans} {off n : ℕ} (hmax : off+n ≤ MAXFILE*BSIZE)
    (h : Logs sb s t (range off n) (fun k => range off n k ∧ k ≠ NDIRECT)) :
    t.log.toFinset = s.log.toFinset ∪ loopBlocks sb s.work t.work off n := by
  ext b
  have hdata : ∀ k, k ∈ dataSlots off n ↔ range off n k ∧ k ≠ NDIRECT := by
    intro k
    rw [dataSlots, Finset.mem_filter, Finset.mem_range]
    exact ⟨fun hk => hk.2,fun hk => ⟨range_lt hmax hk.1,hk⟩⟩
  have hmap : (∃ c ∈ (clearList s.work.disk).take (missing s.work (range off n)), sb.bblock c = b) ↔
      b ∈ (bitmapBlocks s.work.disk (missing s.work (range off n))).image (·+sb.bmapstart) := by
    simp only [bitmapBlocks, Finset.mem_image, List.mem_toFinset, List.mem_map, Super.bblock]
    constructor
    · rintro ⟨c,hc,he⟩
      exact ⟨c/BPB,⟨c,hc,rfl⟩,he⟩
    · rintro ⟨_,⟨c,hc,rfl⟩,he⟩
      exact ⟨c,hc,he⟩
  have hnew : (∃ k ∈ holes s.work (range off n), NDIRECT < k ∧
      addr t.work (t.work.inum,NDIRECT) = b) ↔ NewEntry s.work off n ∧
      addr t.work (t.work.inum,NDIRECT) = b := by
    constructor
    · rintro ⟨k,hk,hlt,he⟩
      exact ⟨⟨k,hk,hlt⟩,he⟩
    · rintro ⟨⟨k,hk,hlt⟩,he⟩
      exact ⟨k,hk,hlt,he⟩
  have hif : b ∈ (if NewEntry s.work off n then {addr t.work (t.work.inum,NDIRECT)} else
    ∅ : Finset ℕ) ↔
      NewEntry s.work off n ∧ addr t.work (t.work.inum,NDIRECT) = b := by
    by_cases hc : NewEntry s.work off n
    · rw [if_pos hc, Finset.mem_singleton]
      exact ⟨fun he => ⟨hc,he.symm⟩,fun he => he.2.symm⟩
    · rw [if_neg hc]
      simp [hc]
  rw [List.mem_toFinset, h.log, loopBlocks, Finset.mem_union, Finset.mem_union, Finset.mem_union,
    List.mem_toFinset, hif, ← hmap, hnew, Finset.mem_image]
  refine or_congr Iff.rfl ?_
  constructor
  · rintro (⟨k,hk,he⟩ | ⟨k,hk,he⟩ | hb | hb)
    · exact .inl (.inl ⟨k,(hdata k).mpr hk,he⟩)
    · by_cases hk12 : k = NDIRECT
      · subst hk12
        exact .inr ⟨newEntry_of_indirect hmax hk,he⟩
      · exact .inl (.inl ⟨k,(hdata k).mpr ⟨(mem_holes.mp hk).2.1,hk12⟩,he⟩)
    · exact .inl (.inr hb)
    · exact .inr hb
  · rintro ((⟨k,hk,he⟩ | hb) | hb)
    · exact .inl ⟨k,(hdata k).mp hk,he⟩
    · exact .inr (.inr (.inl hb))
    · exact .inr (.inr (.inr hb))

/-- A range with new entries reaches the indirect block. -/
theorem indirect_of_newEntry {w : Work} {off n : ℕ} (h : NewEntry w off n) :
    range off n NDIRECT := by
  obtain ⟨k,hk,hlt⟩ := h
  obtain ⟨-,⟨x,h1,h2,h3 | ⟨-,h3⟩⟩,-⟩ := mem_holes.mp hk
  · refine ⟨x,h1,h2,.inr ⟨?_,rfl⟩⟩
    rw [h3, position] at hlt
    split at hlt <;> omega
  · omega

theorem loop_card {v w : Work} {off n : ℕ} (hmax : off+n ≤ MAXFILE*BSIZE) (hi : v.inum = w.inum)
    (hv : Holds v (more need w.inum (range off n)) loose first) (hl : v.copy.type ≠ .free)
    (hlay : Layout sb w first) :
    (loopBlocks sb w v off n).card =
      pieces off n+(bitmapBlocks w.disk (missing w (range off n))).card+
      (if NewEntry w off n then 1 else 0) ∧ sb.iblock w.inum ∉ loopBlocks sb w v off n := by
  have hl' : (table v v.inum).type ≠ .free := by rwa [table_self]
  have huse : ∀ k, range off n k → Uses (table v) (more need w.inum (range off n)) (v.inum,k) :=
    fun k hk => ⟨hl',range_lt hmax hk,.inr ⟨hi,hk⟩⟩
  have hge : ∀ k, range off n k → first ≤ addr v (v.inum,k) := fun k hk =>
    (hv.allotted.inside _ (huse k hk)).1
  have hdata : ∀ k ∈ dataSlots off n, range off n k ∧ k ≠ NDIRECT :=
    fun k hk => (Finset.mem_filter.mp hk).2
  have hmap : ∀ b ∈ (bitmapBlocks w.disk (missing w (range off n))).image (·+sb.bmapstart),
      sb.bmapstart ≤ b ∧ b < first := by
    intro b hb
    simp only [bitmapBlocks, Finset.mem_image, List.mem_toFinset, List.mem_map] at hb
    obtain ⟨_,⟨c,hc,rfl⟩,rfl⟩ := hb
    have hc' := List.mem_of_mem_take hc
    rw [clearList, List.mem_filter, List.mem_range] at hc'
    exact ⟨Nat.le_add_left ..,hlay.bitmap c hc'.1⟩
  have hcard1 : ((dataSlots off n).image (fun k => addr v (v.inum,k))).card = pieces off n := by
    rw [← dataSlots_card hmax]
    apply Finset.card_image_of_injOn
    intro j hj k hk he
    exact congrArg Prod.snd (hv.allotted.apart _ _ (huse j (hdata j hj).1)
      (huse k (hdata k hk).1) he)
  have hcard2 : ((bitmapBlocks w.disk (missing w (range off n))).image (·+sb.bmapstart)).card =
      (bitmapBlocks w.disk (missing w (range off n))).card :=
    Finset.card_image_of_injective _ (fun _ _ he => Nat.add_right_cancel he)
  have hdis : Disjoint ((dataSlots off n).image (fun k => addr v (v.inum,k)))
      ((bitmapBlocks w.disk (missing w (range off n))).image (·+sb.bmapstart)) := by
    rw [Finset.disjoint_left]
    intro b hb hb'
    obtain ⟨k,hk,rfl⟩ := Finset.mem_image.mp hb
    have := hge k (hdata k hk).1
    have := (hmap _ hb').2
    omega
  have hino := hlay.inodes
  have hstart := hlay.start
  have hnot : sb.iblock w.inum ∉ (dataSlots off n).image (fun k => addr v (v.inum,k)) ∪
      (bitmapBlocks w.disk (missing w (range off n))).image (·+sb.bmapstart) := by
    rw [Finset.mem_union]
    rintro (hb | hb)
    · obtain ⟨k,hk,he⟩ := Finset.mem_image.mp hb
      have := hge k (hdata k hk).1
      omega
    · have := (hmap _ hb).1
      omega
  unfold loopBlocks
  by_cases hne : NewEntry w off n
  · have hr := indirect_of_newEntry hne
    have hdis' : Disjoint ((dataSlots off n).image (fun k => addr v (v.inum,k)) ∪
        (bitmapBlocks w.disk (missing w (range off n))).image (·+sb.bmapstart))
        {addr v (v.inum,NDIRECT)} := by
      rw [Finset.disjoint_singleton_right, Finset.mem_union]
      rintro (hb | hb)
      · obtain ⟨k,hk,he⟩ := Finset.mem_image.mp hb
        exact (hdata k hk).2 (congrArg Prod.snd
          (hv.allotted.apart _ _ (huse k (hdata k hk).1) (huse NDIRECT hr) he))
      · have := hge NDIRECT hr
        have := (hmap _ hb).2
        omega
    rw [if_pos hne, if_pos hne, Finset.card_union_of_disjoint hdis',
      Finset.card_union_of_disjoint hdis,
      hcard1, hcard2, Finset.card_singleton, Finset.mem_union, Finset.mem_singleton]
    refine ⟨rfl,?_⟩
    rintro (hb | hb)
    · exact hnot hb
    · have := hge NDIRECT hr
      omega
  · rw [if_neg hne, if_neg hne, Finset.union_empty, Finset.card_union_of_disjoint hdis,
      hcard1, hcard2]
    exact ⟨rfl,hnot⟩

def cost (w : Work) (off n : ℕ) : ℕ :=
  if w.copy.size < off ∨ 2^32 ≤ off+n ∨ MAXFILE*BSIZE < off+n then 0
  else pieces off n+(bitmapBlocks w.disk (missing w (range off n))).card+
    (if NewEntry w off n then 1 else 0)+(if 0 < n ∧ w.copy.size < off+n then 1 else 0)

theorem growTo_log (sb : Super) (off n : ℕ) (s : Trans) : ∃ t, growTo sb off n s = .ok ((),t) ∧
    t.log = if 0 < n ∧ s.work.copy.size < off then sb.iblock s.work.inum::s.log else s.log := by
  unfold growTo
  by_cases hg : 0 < n ∧ s.work.copy.size < off
  · rw [if_pos hg, if_pos hg]
    exact ⟨_,rfl,rfl⟩
  · rw [if_neg hg, if_neg hg]
    exact ⟨s,rfl,rfl⟩

/-- A write that returns has added as many blocks to the log as it costs. -/
theorem writei_blocks {w : Work} (hs : Stored w first) (hl : w.copy.type ≠ .free)
    (hd : w.copy.type ≠ .dev) (hlay : Layout sb w first) (device : ℤ → Option ℕ) {off : ℕ}
    {src : List UInt8} {log : List ℕ} (hoff : off < 2^32) (hn : src.length < 2^32) {r : Option ℕ}
    (hw : writei sb device off src ⟨w,log⟩ = .ok (r,t)) :
    ∃ B : Finset ℕ, t.log.toFinset = log.toFinset ∪ B ∧ B.card = cost w off src.length := by
  have hwrap := wraps_iff hoff hn
  unfold writei at hw
  rw [if_neg hd] at hw
  unfold cost
  by_cases hb : w.copy.size < off ∨ (off+src.length)%2^32 < off
  · rw [if_pos hb] at hw
    cases hw
    rw [if_pos (by rw [hwrap] at hb; tauto)]
    exact ⟨∅,by simp,rfl⟩
  rw [if_neg hb] at hw
  by_cases hm : MAXFILE*BSIZE < off+src.length
  · rw [if_pos hm] at hw
    cases hw
    rw [if_pos (.inr (.inr hm))]
    exact ⟨∅,by simp,rfl⟩
  rw [if_neg hm] at hw
  rw [if_neg (by rw [hwrap] at hb; tauto)]
  have hmax : off+src.length ≤ MAXFILE*BSIZE := by omega
  have hh := holds_of_stored hs
  have hlogs : Meets (writeLoop sb src.length off src) ⟨w,log⟩ _ _ :=
    writeLoop_logs src.length hh hl (le_refl _) hmax
  have hm' := meets_and hlogs (meets_erased (erases_writeLoop src.length off src ⟨w,log⟩)
      (writeLoop_meets src.length hh hl (le_refl _) hmax))
  cases hx : writeLoop sb src.length off src ⟨w,log⟩ with
  | error e =>
    rw [run_bind_error hx] at hw
    cases hw
  | ok p =>
    obtain ⟨last,v⟩ := p
    obtain ⟨hlog,rfl,hhv,hwr,-⟩ := meets_ok hm' hx
    rw [run_bind_ok hx] at hw
    obtain ⟨u,hu,hul⟩ := growTo_log sb (off+src.length) src.length v
    rw [run_bind_ok hu] at hw
    cases hw
    have hlv : v.work.copy.type ≠ .free := by rwa [hwr.copy]
    have hsize : v.work.copy.size = w.copy.size := by rw [hwr.copy]
    have hinum : v.work.inum = w.inum := hwr.inum
    obtain ⟨hcard,hnot⟩ := loop_card hmax hwr.inum hhv hlv hlay
    have hset := loop_log hmax hlog
    rw [hul, hsize, hinum]
    by_cases hg : 0 < src.length ∧ w.copy.size < off+src.length
    · refine ⟨insert (sb.iblock w.inum) (loopBlocks sb w v.work off src.length),?_,?_⟩
      · rw [if_pos hg, List.toFinset_cons, hset, Finset.union_insert]
      · rw [if_pos hg, Finset.card_insert_of_notMem hnot, hcard]
    · refine ⟨loopBlocks sb w v.work off src.length,?_,?_⟩
      · rw [if_neg hg, hset]
      · rw [if_neg hg, hcard, Nat.add_zero]

theorem writei_cost {w : Work} (hs : Stored w first) (ht : w.copy.type = .file)
    (hlay : Layout sb w first) (device : ℤ → Option ℕ) {off : ℕ} {src : List UInt8}
    (hoff : off < 2^32) (hn : src.length < 2^32) {r : Option ℕ}
    (hw : writei sb device off src ⟨w,[]⟩ = .ok (r,t)) :
    t.log.toFinset.card = cost w off src.length := by
  obtain ⟨B,hB,hc⟩ := writei_blocks hs (by rw [ht]; decide) (by rw [ht]; decide) hlay device hoff hn
    hw
  rw [hB, List.toFinset_nil, Finset.empty_union, hc]

end Counting

section Sections

structure Section where
  work : Work
  off : ℕ
  src : List UInt8

def fileOffset (s : Fs) (f : FileId) : ℕ :=
  match (s.files f).kind with
  | .inode _ off _ _ => off
  | _ => 0

def sections (device : ℤ → Option ℕ) (f : FileId) (ip : Ip) (others : ℕ → Fs → Fs) :
    ℕ → List UInt8 → Fs → List Section
  | 0, _, _ => []
  | k+1, src, s => if src = [] then [] else
    ⟨inMemory s ip,fileOffset s f,src.take WRITEMAX⟩::
      match round f ip (BlockLayer.writei device (fileOffset s f) (src.take WRITEMAX))
        (fun r => r.getD 0) s with
      | .ok (some r,t) =>
        if r = (src.take WRITEMAX).length then
          sections device f ip others k (src.drop WRITEMAX) (others k t)
        else []
      | _ => []

variable {device : ℤ → Option ℕ} {f : FileId} {ip : Ip} {others : ℕ → Fs → Fs}

theorem sections_nil (k : ℕ) (s : Fs) : sections device f ip others k [] s = [] := by
  cases k with
  | zero => rfl
  | succ k => rw [sections, if_pos rfl]

theorem sections_src {k : ℕ} {src : List UInt8} {s : Fs} {x : Section}
    (hx : x ∈ sections device f ip others k src s) : x.src.length ≤ WRITEMAX := by
  induction k generalizing src s with
  | zero => exact absurd hx List.not_mem_nil
  | succ k ih =>
    rw [sections] at hx
    split at hx
    · exact absurd hx List.not_mem_nil
    rcases List.mem_cons.mp hx with rfl | hx
    · exact List.length_take_le ..
    split at hx
    · split at hx
      · exact ih hx
      · exact absurd hx List.not_mem_nil
    · exact absurd hx List.not_mem_nil

/-- A write of no more than one piece is one transaction. -/
theorem sections_one (k : ℕ) {src : List UInt8} {s : Fs} (hne : src ≠ [])
    (hlen : src.length ≤ WRITEMAX) :
    sections device f ip others (k+1) src s = [⟨inMemory s ip,fileOffset s f,src⟩] := by
  have htake : src.take WRITEMAX = src := List.take_of_length_le hlen
  have hdrop : src.drop WRITEMAX = [] := List.drop_of_length_le hlen
  rw [sections, if_neg hne, htake, hdrop]
  congr 1
  split
  · rw [sections_nil, ite_self]
  · rfl

theorem logged_spliced (sb : Super) (device : ℤ → Option ℕ) (off : ℕ) (src : List UInt8) {w : Work}
    (hs : Stored w first) (hl : w.copy.type ≠ .free) (hd : w.copy.type ≠ .dev) (log : List ℕ)
    (hc : ¬(w.copy.size < off ∨ 2^32 ≤ off+src.length ∨ MAXFILE*BSIZE < off+src.length))
    (hroom : missing w (range off src.length) ≤ freeBlocks w.disk) :
    ∃ t, writei sb device off src ⟨w,log⟩ = .ok (some src.length,t) ∧
      Spliced w t.work first off src := by
  obtain ⟨v,hv,hsp⟩ := writei_spliced hs hl hd device off src (by omega) (by omega) hroom
  have he : Erases (writei sb device off src) _ ⟨w,log⟩ := erases_writei device off src ⟨w,log⟩
  rw [Erases, hv] at he
  cases hx : writei sb device off src ⟨w,log⟩ with
  | ok p =>
    rw [hx] at he
    obtain ⟨h1,h2⟩ := Prod.mk.inj (Except.ok.inj he)
    exact ⟨p.2,by rw [← h1],h2 ▸ hsp⟩
  | error e =>
    rw [hx] at he
    cases he

theorem section_returns (sb : Super) (device : ℤ → Option ℕ) (off : ℕ) (src : List UInt8) {w : Work}
    (hs : Stored w first) (ht : w.copy.type = .file)
    (hc : ¬(w.copy.size < off ∨ 2^32 ≤ off+src.length ∨ MAXFILE*BSIZE < off+src.length))
    (hroom : missing w (range off src.length) ≤ freeBlocks w.disk) :
    ∃ r t, writei sb device off src ⟨w,[]⟩ = .ok (r,t) := by
  obtain ⟨t,ht,-⟩ := logged_spliced sb device off src hs (by rw [ht]; decide) (by rw [ht]; decide)
    [] hc hroom
  exact ⟨_,t,ht⟩

theorem section_room {w : Work} (hs : Stored w first) (ht : w.copy.type = .file) {off : ℕ}
    {src : List UInt8} (hc : ¬(w.copy.size < off ∨ 2^32 ≤ off+src.length ∨
      MAXFILE*BSIZE < off+src.length))
    {r : Option ℕ} (hw : writei sb device off src ⟨w,[]⟩ = .ok (r,t)) :
    missing w (range off src.length) ≤ freeBlocks w.disk := by
  have hl : w.copy.type ≠ .free := by rw [ht]; decide
  have hd : w.copy.type ≠ .dev := by rw [ht]; decide
  by_contra hlt
  have hst := writei_starved hs hl hd device off src (by omega) (by omega)
    (Nat.lt_of_not_le hlt)
  have he := erases_ok (erases_writei device off src ⟨w,[]⟩) hw
  cases hst.symm.trans he

/-- The transactions of `filewrite` fit what `begin_op` reserved for them just
when the pieces, the free blocks and the slots without a block say so. -/
theorem filewrite_fits_iff (sb : Super) (device : ℤ → Option ℕ) (f : FileId) (ip : Ip)
    (others : ℕ → Fs → Fs) (s : Fs) (src : List UInt8) (first : ℕ)
    (hgood : ∀ x ∈ sections device f ip others src.length src s, Stored x.work first ∧
      x.work.copy.type = .file ∧ Layout sb x.work first ∧ x.off < 2^32) :
    (∀ x ∈ sections device f ip others src.length src s, ∀ r t,
      writei sb device x.off x.src ⟨x.work,[]⟩ = .ok (r,t) → t.log.toFinset.card ≤ MAXOPBLOCKS) ↔
    ∀ x ∈ sections device f ip others src.length src s,
      missing x.work (range x.off x.src.length) ≤ freeBlocks x.work.disk →
      cost x.work x.off x.src.length ≤ MAXOPBLOCKS := by
  apply forall₂_congr
  intro x hx
  obtain ⟨hs,ht,hlay,hoff⟩ := hgood x hx
  have hn : x.src.length < 2^32 := lt_of_le_of_lt (sections_src hx) (by decide)
  constructor
  · intro hfit hroom
    by_cases hc : x.work.copy.size < x.off ∨ 2^32 ≤ x.off+x.src.length ∨
        MAXFILE*BSIZE < x.off+x.src.length
    · rw [cost, if_pos hc]
      exact Nat.zero_le _
    · obtain ⟨r,t,hw⟩ := section_returns sb device _ _ hs ht hc hroom
      rw [← writei_cost hs ht hlay device hoff hn hw]
      exact hfit r t hw
  · intro hfit r t hw
    rw [writei_cost hs ht hlay device hoff hn hw]
    by_cases hc : x.work.copy.size < x.off ∨ 2^32 ≤ x.off+x.src.length ∨
        MAXFILE*BSIZE < x.off+x.src.length
    · rw [cost, if_pos hc]
      exact Nat.zero_le _
    · exact hfit (section_room hs ht hc hw)

theorem noteFs_layout : Layout ⟨10,15⟩ (inMemory noteFs 0) 20 where
  inodes := by decide
  start := by decide
  bitmap := by
    intro b hb
    have hb' : b < 40 := hb
    simp only [Super.bblock, BPB, BSIZE]
    omega

/-- Three bytes over the end of a file. -/
theorem filewrite_fits_iff_note :
    sections (fun _ => none) 0 0 (fun _ z => z) 3 [7,8,9] noteFs =
      [⟨inMemory noteFs 0,1,[7,8,9]⟩] ∧
    ∀ x ∈ sections (fun _ => none) 0 0 (fun _ z => z) 3 [7,8,9] noteFs,
      ∀ r t, writei ⟨10,15⟩ (fun _ => none) x.off x.src ⟨x.work,[]⟩ = .ok (r,t) →
        t.log.toFinset.card ≤ MAXOPBLOCKS := by
  have hone : sections (fun _ => none) 0 0 (fun _ z => z) 3 [7,8,9] noteFs =
      [⟨inMemory noteFs 0,1,[7,8,9]⟩] := sections_one 2 (by simp) (by decide)
  refine ⟨hone,(filewrite_fits_iff ⟨10,15⟩ (fun _ => none) 0 0 (fun _ z => z) noteFs [7,8,9] 20
    ?_).mpr ?_⟩
  · intro x hx
    have hx' : x = ⟨inMemory noteFs 0,1,[7,8,9]⟩ := List.mem_singleton.mp (hone ▸ hx)
    subst hx'
    exact ⟨note_stored,rfl,noteFs_layout,by decide⟩
  · intro x hx _
    have hx' : x = ⟨inMemory noteFs 0,1,[7,8,9]⟩ := List.mem_singleton.mp (hone ▸ hx)
    subst hx'
    decide +kernel

/-- A piece of 6656 bytes behind the first byte of a file of three: fourteen
data blocks, a bitmap block, the indirect block and the block of the inode. -/
theorem filewrite_section_exceeds : ∃ x ∈ sections (fun _ => none) 0 0 (fun _ z => z) 6656
      (List.replicate 6656 7) noteFs, ∃ r t,
    writei ⟨10,15⟩ (fun _ => none) x.off x.src ⟨x.work,[]⟩ = .ok (r,t) ∧
      t.log.toFinset.card = 17 ∧ MAXOPBLOCKS < 17 := by
  have hlen : (List.replicate 6656 (7 : UInt8)).length = 6656 := List.length_replicate
  have hone : sections (fun _ => none) 0 0 (fun _ z => z) (6655+1) (List.replicate 6656 7) noteFs =
      [⟨inMemory noteFs 0,1,List.replicate 6656 7⟩] :=
    sections_one 6655 (List.ne_nil_of_length_pos (by rw [hlen]; decide)) hlen.le
  have hs : Stored (inMemory noteFs 0) 20 := note_stored
  obtain ⟨r,t,hw⟩ := section_returns ⟨10,15⟩ (fun _ => none) 1 (List.replicate 6656 7) hs rfl
    (by rw [hlen]; decide) (by rw [hlen]; decide +kernel)
  have hcost := writei_cost hs rfl noteFs_layout (fun _ => none) (by decide)
    (by rw [hlen]; decide) hw
  rw [hlen] at hcost
  refine ⟨⟨inMemory noteFs 0,1,List.replicate 6656 7⟩,?_,r,t,hw,?_,by decide⟩
  · rw [hone]
    exact List.mem_singleton.mpr rfl
  · rw [hcost]
    decide +kernel

end Sections

end Xv6.WriteCost
