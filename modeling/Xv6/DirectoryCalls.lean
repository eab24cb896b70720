import Xv6.InodeCache

/-!
# Looking up and adding directory entries

On a sound disk the loops of `dirlookup` and `dirlink` find what the list of
entries says and write at the first empty place of it. `dirlink` on a name that
exists puts the inode of that name, and never comes back if the call has it
locked.
-/

set_option autoImplicit false

namespace Xv6.DirectoryCalls
open Function StateRuns BlockLayer BlockMap FileContent
open FsState DirectoryFile InodeCache

variable {first : ℕ} {s t : Fs} {U : Ip → ℕ} {L : List Hold} {i : Ip} {h : Hold} {name : Name}
  {n : ℕ}

def Locked (L : List Hold) (n : ℕ) : Prop := ∃ g ∈ L, g.locked ∧ g.inum = n

structure OpenDir (s : Fs) (h : Hold) : Prop where
  locked : h.locked = true
  dir : (s.disk.dinode h.inum).type = .dir

section Reading

section
variable (b : Books first s U L)
include b

theorem openDir_copy (hm : h ∈ L) (hd : OpenDir s h) :
    (s.icache h.ip).copy = s.disk.dinode h.inum := (locked_entry b hm hd.locked).2.2.1

theorem openDir_size (hd : OpenDir s h) :
    (s.disk.dinode h.inum).size ≤ MAXFILE*BSIZE ∧ (s.disk.dinode h.inum).size%DIRENT = 0 :=
  ⟨b.sound.size_le _ (by rw [hd.dir]; decide),b.dirs _ hd.dir⟩

theorem readDirent_eq (hm : h ∈ L) (hd : OpenDir s h) (message : String) {j : ℕ}
    (hj : j < (s.disk.dinode h.inum).size/DIRENT) :
    readDirent message h.ip (DIRENT*j) s = .ok (entryAt s.disk h.inum j,s) := by
  obtain ⟨_,hv,hc,ht⟩ := locked_entry b hm hd.locked
  have hin := (b.held h hm).1
  obtain ⟨hmax,_⟩ := openDir_size b hd
  have hco := coherent_workOf b (ref_pos b hm) hv
  have hwc : (workOf s h.ip).copy = s.disk.dinode h.inum := hc
  have hr := readi_eq b.sound hco (by rwa [hwc]) (by rw [hwc, hd.dir]; decide) (fun _ => none)
    (DIRENT*j) DIRENT
  have hcond : ¬((workOf s h.ip).copy.size < DIRENT*j ∨ (DIRENT*j+DIRENT)%2^32 < DIRENT*j) := by
    rw [hwc]
    simp only [DIRENT, DIRSIZ, MAXFILE, NDIRECT, NINDIRECT, BSIZE] at *
    omega
  have hmin : min DIRENT ((workOf s h.ip).copy.size-DIRENT*j) = DIRENT := by
    rw [hwc]
    simp only [DIRENT, DIRSIZ] at *
    omega
  rw [if_neg hcond, hmin] at hr
  have hbytes : (List.range DIRENT).map (fun x => fileByte (workOf s h.ip).disk (workOf s h.ip).inum
      (DIRENT*j+x)) = entryBytes s.disk h.inum j := by
    rw [entryBytes, ← hin]
    rfl
  rw [hbytes] at hr
  have hlen : (entryBytes s.disk h.inum j).length = DIRENT := by simp [entryBytes]
  refine (run_bind_ok (onInode_eq hr)).trans ?_
  simp only [hlen, if_true]
  rfl

theorem scan_eq (hm : h ∈ L) (hd : OpenDir s h) (message : String) (test : Dirent → Bool) (m c : ℕ)
    (hmc : m+c = (s.disk.dinode h.inum).size/DIRENT) :
    scan message h.ip test ((List.range' m c).map (DIRENT*·)) s =
      .ok ((firstSlot test ((slots s.disk h.inum).drop m)).map
        (fun x => (DIRENT*(m+x.1),x.2)),s) := by
  induction c generalizing m with
  | zero =>
    rw [List.drop_of_length_le (by rw [slots_length]; omega)]
    rfl
  | succ c ih =>
    rw [List.range'_succ, List.map_cons, slots_drop (by omega)]
    refine (run_bind_ok (readDirent_eq b hm hd message (by omega))).trans ?_
    by_cases ht : test (entryAt s.disk h.inum m) = true
    · rw [if_pos ht, firstSlot, if_pos ht]
      rfl
    · rw [if_neg ht, firstSlot, if_neg ht, ih (m+1) (by omega), Option.map_map]
      congr 3
      funext x
      simp only [Function.comp, Prod.mk.injEq, and_true]
      congr 1
      omega

theorem offsets_eq (hm : h ∈ L) (hd : OpenDir s h) :
    offsets s h.ip = (List.range' 0 ((s.disk.dinode h.inum).size/DIRENT)).map (DIRENT*·) := by
  obtain ⟨_,hmod⟩ := openDir_size b hd
  rw [offsets, openDir_copy b hm hd, List.range_eq_range']
  congr 2
  simp only [DIRENT, DIRSIZ] at *
  omega

end

end Reading

section Lookup

inductive Found (first : ℕ) (s : Fs) (U : Ip → ℕ) (L : List Hold) (h : Hold) (name : Name) :
    Option (ℕ × Ip) → Fs → Prop
  | absent {t : Fs} (hn : findEntry name (nodes s.disk h.inum).slots = none)
      (b : Books first t U L) : Found first s U L h name none t
  | present {t : Fs} {k n : ℕ} {i : Ip} (hn : findEntry name (nodes s.disk h.inum).slots =
      some (k,n))
      (b : Books first t U (⟨i,n,false,false⟩::L)) : Found first s U L h name (some (DIRENT*k,i)) t

section
variable (b : Books first s U L) (hm : h ∈ L) (hd : OpenDir s h)
include b hm hd

theorem dirlookup_scan (name : Name) {α : Type} (f : Option (ℕ × Dirent) → FsM α) :
    (scan "dirlookup read" h.ip (named name) (offsets s h.ip) >>= f) s =
      f ((firstSlot (named name) (slots s.disk h.inum)).map (fun x => (DIRENT*x.1,x.2))) s := by
  have hscan := scan_eq b hm hd "dirlookup read" (named name) 0
    ((s.disk.dinode h.inum).size/DIRENT) (by omega)
  rw [← offsets_eq b hm hd, List.drop_zero] at hscan
  simp only [Nat.zero_add] at hscan
  exact run_bind_ok hscan

theorem dirlookup_absent (hn : findEntry name (nodes s.disk h.inum).slots = none) :
    dirlookup h.ip name s = .ok (none,s) := by
  have htype : ¬(s.icache h.ip).copy.type ≠ .dir := by
    rw [openDir_copy b hm hd, hd.dir]
    simp
  rw [nodes_slots hd.dir, findEntry, Option.map_eq_none_iff] at hn
  refine (if_neg htype).trans ((dirlookup_scan b hm hd name _).trans ?_)
  rw [hn]
  rfl

theorem dirlookup_present {k : ℕ} (hn : findEntry name (nodes s.disk h.inum).slots = some (k,n)) :
    dirlookup h.ip name s = (iget ROOTDEV n >>= fun ip => pure (some (DIRENT*k,ip))) s := by
  have htype : ¬(s.icache h.ip).copy.type ≠ .dir := by
    rw [openDir_copy b hm hd, hd.dir]
    simp
  rw [nodes_slots hd.dir, findEntry, Option.map_eq_some_iff] at hn
  obtain ⟨x,hx,he⟩ := hn
  obtain ⟨rfl,rfl⟩ := Prod.mk.inj he
  refine (if_neg htype).trans ((dirlookup_scan b hm hd name _).trans ?_)
  rw [hx, b.dev h.ip (ref_pos b hm)]
  rfl

theorem dirlookup_meets (name : Name) :
    Meets (dirlookup h.ip name) s (fun r t => Found first s U L h name r t ∧ t.disk = s.disk ∧
      Fixed s t) (· = NOINODES) := by
  cases hf : findEntry name (nodes s.disk h.inum).slots with
  | none => exact meets_of_ok (dirlookup_absent b hm hd hf) ⟨.absent hf b,rfl,fixed_refl s⟩
  | some x =>
    refine meets_of_eq (dirlookup_present b hm hd (k := x.1) (n := x.2) hf)
      (meets_bind (iget_meets b x.2) ?_)
    rintro i t ⟨bt,hdt,hft⟩
    exact meets_pure ⟨.present hf bt,hdt,hft⟩

end

end Lookup

section Adding

theorem firstSlot_some {test : Dirent → Bool} {l : List Dirent} {k : ℕ} {e : Dirent}
    (hf : firstSlot test l = some (k,e)) : l[k]? = some e ∧ test e = true := by
  induction l generalizing k with
  | nil => simp [firstSlot] at hf
  | cons x l ih =>
    unfold firstSlot at hf
    by_cases ht : test x = true
    · rw [if_pos ht] at hf
      simp only [Option.some.injEq, Prod.mk.injEq] at hf
      obtain ⟨rfl,rfl⟩ := hf
      exact ⟨rfl,ht⟩
    · rw [if_neg ht, Option.map_eq_some_iff] at hf
      obtain ⟨y,hy,he⟩ := hf
      simp only [Prod.mk.injEq] at he
      obtain ⟨rfl,rfl⟩ := he
      exact ih hy

theorem firstSlot_lt {test : Dirent → Bool} {l : List Dirent} {k : ℕ} {e : Dirent}
    (hf : firstSlot test l = some (k,e)) : k < l.length :=
  (List.getElem?_eq_some_iff.mp (firstSlot_some hf).1).1

def emptyPlace (l : List Dirent) : ℕ := ((firstSlot isEmpty l).map Prod.fst).getD l.length

theorem emptyPlace_le (l : List Dirent) : emptyPlace l ≤ l.length := by
  unfold emptyPlace
  cases hf : firstSlot isEmpty l with
  | none => simp
  | some x => simpa using le_of_lt (firstSlot_lt hf)

theorem writeDirent_meets (b : Books first s U (h::L)) (hd : OpenDir s h) (message : String)
    {k : ℕ} (hk : k ≤ (nodes s.disk h.inum).slots.length) (e : Dirent) :
    Meets (writeDirent message h.ip (DIRENT*k) e) s (fun _ t => Books first t U (h::L) ∧
      t.disk.ninodes = s.disk.ninodes ∧ nodes t.disk = update (nodes s.disk) h.inum
        { nodes s.disk h.inum with
          slots := placeAt k (Dirent.decode e.encode) (nodes s.disk h.inum).slots } ∧ Fixed s t)
      (fun x => x = .panic OUTOFBLOCKS ∨ x = .panic message ∧ MAXFILE*BSIZE < DIRENT*k+DIRENT) := by
  have hm : h ∈ h::L := by simp
  obtain ⟨_,hv,hc,ht⟩ := locked_entry b hm hd.locked
  have hin := (b.held h hm).1
  obtain ⟨hmax,hmod⟩ := openDir_size b hd
  have hco := coherent_workOf b (ref_pos b hm) hv
  have hwc : (workOf s h.ip).copy = s.disk.dinode h.inum := hc
  have hk' : k ≤ (s.disk.dinode h.inum).size/DIRENT := by
    rwa [nodes_slots hd.dir, slots_length] at hk
  have hw := writei_meets b.sound hco (by rwa [hwc]) (fun _ => none) (DIRENT*k) e.encode
  refine meets_bind (meets_mono (onInode_meets hw) (fun _ _ ht => ht) ?_) ?_
  · rintro x ⟨m,rfl,rfl⟩
    exact .inl rfl
  rintro r t ⟨w,⟨hwi,hwco,hws,hout⟩,rfl⟩
  cases hout with
  | device hdev =>
    rw [hwc, hd.dir] at hdev
    contradiction
  | refused href =>
    refine meets_of_error rfl (.inr ⟨rfl,?_⟩)
    rw [hwc, encode_length] at href
    simp only [DIRENT, DIRSIZ, MAXFILE, NDIRECT, NINDIRECT, BSIZE] at *
    omega
  | done hoff hwr =>
    have hwr' : WroteFile s.disk w.disk h.inum (DIRENT*k) e.encode := hin ▸ hwr
    have hself : w.copy = w.disk.dinode h.inum := by
      rw [hwco, hwi, ← hin]
      rfl
    have hok : (if some e.encode.length = some DIRENT then pure () else
      stop (.panic message) : FsM Unit)
        = pure () := by rw [encode_length, if_pos rfl]
    show Meets (if some e.encode.length = some DIRENT then pure () else
      stop (.panic message) : FsM Unit) _ _ _
    rw [hok]
    refine meets_pure ⟨?_,hwr'.ninodes,nodes_written hd.dir hk' hwr',⟨rfl,rfl,rfl,rfl,rfl,rfl⟩⟩
    have hb := books_write (f := h.firm) b hd.locked hws hself hwr'.others ?_ ?_ (.inr ⟨rfl,?_⟩)
    · exact hb
    · rw [hself, hwr'.self]
    · intro _
      rw [hself, hwr'.self, encode_length]
      simp only [DIRENT, DIRSIZ] at *
      omega
    · rw [hself, hwr'.self]

abbrev DISKFULL (x : Halt) : Prop := x = .panic OUTOFBLOCKS ∨ x = .panic "dirlink"

/-- `addEntry` writes to the first empty place. -/
theorem addEntry_run (b : Books first s U (h::L)) (hd : OpenDir s h) (name : Name) (n : ℕ) :
    addEntry h.ip name n s = writeDirent "dirlink" h.ip
      (DIRENT*emptyPlace (nodes s.disk h.inum).slots) ⟨n,name⟩ s := by
  have hm : h ∈ h::L := by simp
  have hscan := scan_eq b hm hd "dirlink read" isEmpty 0
    ((s.disk.dinode h.inum).size/DIRENT) (by omega)
  have hlen : (offsets s h.ip).length = (slots s.disk h.inum).length := by
    rw [offsets_eq b hm hd, slots_length]
    simp
  rw [← offsets_eq b hm hd, List.drop_zero] at hscan
  have hoff : ((((firstSlot isEmpty (slots s.disk h.inum)).map (fun x => (DIRENT*(0+x.1),x.2))).map
      Prod.fst).getD (DIRENT*(offsets s h.ip).length)) =
      DIRENT*emptyPlace (nodes s.disk h.inum).slots := by
    rw [hlen, nodes_slots hd.dir, emptyPlace]
    cases hf : firstSlot isEmpty (slots s.disk h.inum) <;> simp
  refine (run_bind_ok hscan).trans ?_
  rw [hoff]

theorem addEntry_meets (b : Books first s U (h::L)) (hd : OpenDir s h) (hn : Fits name) (n : ℕ) :
    Meets (addEntry h.ip name n) s (fun _ t => Books first t U (h::L) ∧
      t.disk.ninodes = s.disk.ninodes ∧ nodes t.disk = update (nodes s.disk) h.inum
        { nodes s.disk h.inum with
          slots := putEntry ⟨n%2^16,name⟩ (nodes s.disk h.inum).slots } ∧ Fixed s t) DISKFULL := by
  have hw := writeDirent_meets b hd "dirlink" (emptyPlace_le _) ⟨n,name⟩
  refine meets_of_eq (addEntry_run b hd name n)
    (meets_mono hw ?_ (fun x hx => hx.imp_right (fun hx => hx.1)))
  rintro _ t ⟨bt,hni,hnodes,hft⟩
  refine ⟨bt,hni,?_,hft⟩
  rw [hnodes, decode_encode n hn]
  rfl

theorem locksOf_eq_zero (b : Books first s U (⟨i,n,false,false⟩::L)) (hn : ¬Locked L n) :
    locksOf L i = 0 := by
  rw [locksOf, List.countP_eq_zero]
  intro g hg hgi
  simp only [decide_eq_true_eq] at hgi
  refine hn ⟨g,hg,hgi.2,?_⟩
  have h1 := (b.held g (List.mem_cons_of_mem _ hg)).1
  have h2 := (b.held ⟨i,n,false,false⟩ (by simp)).1
  rw [← h1, hgi.1]
  exact h2

theorem locked_of_mem (b : Books first s U (⟨i,n,false,false⟩::L)) (hn : Locked L n) :
    (s.icache i).locked = true := by
  obtain ⟨g,hg,hgl,hgn⟩ := hn
  have hg' : g ∈ (⟨i,n,false,false⟩ : Hold)::L := List.mem_cons_of_mem _ hg
  have h1 := (b.held g hg').1
  have h2 := (b.held ⟨i,n,false,false⟩ (by simp)).1
  have hip := b.unique g.ip i (ref_pos b hg') (ref_pos b (h := ⟨i,n,false,false⟩) (by simp))
    (h1.trans (hgn.trans h2.symm))
  rw [← hip]
  exact (locked_entry b hg' hgl).1

inductive Linked (first : ℕ) (s : Fs) (U : Ip → ℕ) (L : List Hold) (h : Hold) (name : Name)
    (n : ℕ) :
    Bool → Fs → Prop
  | added {t : Fs} (hn : findEntry name (nodes s.disk h.inum).slots = none)
      (b : Books first t U (h::L)) (hni : t.disk.ninodes = s.disk.ninodes)
      (hnodes : nodes t.disk = update (nodes s.disk) h.inum { nodes s.disk h.inum with
        slots := putEntry ⟨n%2^16,name⟩ (nodes s.disk h.inum).slots }) :
      Linked first s U L h name n true t
  | refused {t : Fs} {k m : ℕ} (hn : findEntry name (nodes s.disk h.inum).slots = some (k,m))
      (hm : ¬Locked (h::L) m) (b : Books first t U (h::L)) (hd : t.disk = s.disk) :
      Linked first s U L h name n false t

def LinkStops (s : Fs) (L : List Hold) (h : Hold) (name : Name) (x : Halt) : Prop :=
  x = NOINODES ∨ DISKFULL x ∨ x = .deadlock ∧
    ∃ k m, findEntry name (nodes s.disk h.inum).slots = some (k,m) ∧ Locked (h::L) m

theorem dirlink_meets (b : Books first s U (h::L)) (hd : OpenDir s h) (hn : Fits name) (n : ℕ) :
    Meets (dirlink h.ip name n) s (fun r t => Linked first s U L h name n r t ∧ Fixed s t)
      (LinkStops s L h name) := by
  refine meets_bind (meets_mono (dirlookup_meets b (by simp) hd name) (fun _ _ ht => ht)
    (fun _ hx => .inl hx)) ?_
  rintro r t ⟨hf,hdt,hft⟩
  cases hf with
  | absent hnone bt =>
    have hdt' : OpenDir t h := ⟨hd.locked,by rw [hdt]; exact hd.dir⟩
    refine meets_bind (meets_mono (addEntry_meets bt hdt' hn n) (fun _ _ hu => hu)
      (fun _ hx => .inr (.inl hx))) ?_
    rintro _ u ⟨bu,hni,hnodes,hfu⟩
    rw [hdt] at hni hnodes
    exact meets_pure ⟨.added hnone bu hni hnodes,fixed_trans hft hfu⟩
  | @present _ k m i hsome bt =>
    by_cases hlk : Locked (h::L) m
    · have hdead : iput i t = .error .deadlock := if_pos (locked_of_mem bt hlk)
      refine meets_bind (Q := fun _ _ => False) (meets_of_error hdead ?_) (fun _ _ hf => hf.elim)
      exact .inr (.inr ⟨rfl,_,_,hsome,hlk⟩)
    · refine meets_bind (meets_mono (iput_meets bt rfl (locksOf_eq_zero bt hlk) rfl)
        (fun _ _ hu => hu) (fun _ hx => hx.elim)) ?_
      rintro _ u ⟨bu,hdu,hfu⟩
      exact meets_pure ⟨.refused hsome hlk bu (hdu.trans hdt),fixed_trans hft hfu⟩

end Adding

end Xv6.DirectoryCalls
