import Xv6.DirectoryFile

/-!
# The inode cache

`Books` balances each entry of the cache: its count is the number of uses from
outside, by files and current directories, plus the number of references the
running call holds. An inode without links stays allocated only while a use or a
firm reference keeps it; a reference becomes firm when the call changes the
inode.
-/

set_option autoImplicit false

namespace Xv6.InodeCache
open Function BlockLayer FileContent FsState StateRuns

section
structure Hold where
  ip : Ip
  inum : ℕ
  locked : Bool
  firm : Bool
  deriving DecidableEq

def holdsOf (L : List Hold) (i : Ip) : ℕ := L.countP (fun h => h.ip = i)

def locksOf (L : List Hold) (i : Ip) : ℕ := L.countP (fun h => h.ip = i ∧ h.locked)

structure Books (first : ℕ) (s : Fs) (U : Ip → ℕ) (L : List Hold) : Prop where
  sound : Sound s.disk first
  dirs : ∀ n, (s.disk.dinode n).type = .dir → (s.disk.dinode n).size%DIRENT = 0
  refs : ∀ i, (s.icache i).ref = U i+holdsOf L i
  locks : ∀ i, locksOf L i = if (s.icache i).locked then 1 else 0
  held : ∀ h ∈ L, (s.icache h.ip).inum = h.inum ∧
    (h.locked ∨ h.firm → (s.icache h.ip).valid)
  unique : ∀ i j, 0 < (s.icache i).ref → 0 < (s.icache j).ref →
    (s.icache i).inum = (s.icache j).inum → i = j
  dev : ∀ i, 0 < (s.icache i).ref → (s.icache i).dev = ROOTDEV
  copies : ∀ i, 0 < (s.icache i).ref → (s.icache i).valid →
    (s.icache i).copy = s.disk.dinode (s.icache i).inum
  alive : ∀ i, 0 < U i ∨ 0 < (s.icache i).ref ∧ (s.icache i).valid →
    (s.disk.dinode (s.icache i).inum).type ≠ .free
  kept : ∀ n, (s.disk.dinode n).type ≠ .free → (s.disk.dinode n).nlink = 0 →
    ∃ i, (s.icache i).valid ∧ (s.icache i).inum = n ∧ (0 < U i ∨ ∃ h ∈ L, h.ip = i ∧ h.firm)

structure Fixed (s t : Fs) : Prop where
  files : t.files = s.files
  procs : t.procs = s.procs
  initproc : t.initproc = s.initproc
  pipes : t.pipes = s.pipes
  free : t.free = s.free
  others : t.others = s.others

theorem fixed_refl (s : Fs) : Fixed s s := ⟨rfl,rfl,rfl,rfl,rfl,rfl⟩

theorem fixed_trans {s t u : Fs} (h : Fixed s t) (h' : Fixed t u) : Fixed s u :=
  ⟨h'.files.trans h.files,h'.procs.trans h.procs,h'.initproc.trans h.initproc,
    h'.pipes.trans h.pipes,h'.free.trans h.free,h'.others.trans h.others⟩

variable {first : ℕ} {s t : Fs} {U : Ip → ℕ} {L L' : List Hold} {i j : Ip} {h : Hold}

section Lists

@[simp] theorem setEntry_self (e : Entry) : (s.setEntry i e).icache i = e := by simp [Fs.setEntry]

theorem setEntry_of_ne (e : Entry) (hj : j ≠ i) : (s.setEntry i e).icache j = s.icache j := by
  simp [Fs.setEntry, hj]

theorem fixed_setEntry (e : Entry) : Fixed s (s.setEntry i e) := ⟨rfl,rfl,rfl,rfl,rfl,rfl⟩

theorem holdsOf_cons (h : Hold) (L : List Hold) (i : Ip) :
    holdsOf (h::L) i = holdsOf L i+if h.ip = i then 1 else 0 := by
  simp [holdsOf, List.countP_cons]

theorem locksOf_cons (h : Hold) (L : List Hold) (i : Ip) :
    locksOf (h::L) i = locksOf L i+if h.ip = i ∧ h.locked then 1 else 0 := by
  simp [locksOf, List.countP_cons]

theorem holdsOf_pos (hm : h ∈ L) : 0 < holdsOf L h.ip :=
  List.countP_pos_iff.mpr ⟨h,hm,by simp⟩

end Lists

section Facts

section
variable (b : Books first s U L)
include b

theorem ref_pos (hm : h ∈ L) : 0 < (s.icache h.ip).ref := by
  have := holdsOf_pos hm
  rw [b.refs]
  omega

theorem ref_pos_of_use (hu : 0 < U i) : 0 < (s.icache i).ref := by
  rw [b.refs]
  omega

/-- The entry of a locked reference. -/
theorem locked_entry (hm : h ∈ L) (hl : h.locked) :
    (s.icache h.ip).locked = true ∧ (s.icache h.ip).valid = true ∧
    (s.icache h.ip).copy = s.disk.dinode h.inum ∧ (s.disk.dinode h.inum).type ≠ .free := by
  have hin := (b.held h hm).1
  have hv := (b.held h hm).2 (.inl hl)
  have hr := ref_pos b hm
  have hc := b.copies h.ip hr hv
  have ha := b.alive h.ip (.inr ⟨hr,hv⟩)
  rw [hin] at hc ha
  refine ⟨?_,hv,hc,ha⟩
  have hpos : 0 < locksOf L h.ip := List.countP_pos_iff.mpr ⟨h,hm,by simp [hl]⟩
  have h3 := b.locks h.ip
  by_contra hn
  rw [if_neg hn] at h3
  omega

theorem books_perm (hp : L.Perm L') : Books first s U L' where
  sound := b.sound
  dirs := b.dirs
  refs := fun i => by rw [b.refs, holdsOf, holdsOf, hp.countP_eq]
  locks := fun i => by rw [← b.locks, locksOf, locksOf, hp.countP_eq]
  held := fun h hm => b.held h (hp.mem_iff.mpr hm)
  unique := b.unique
  dev := b.dev
  copies := b.copies
  alive := b.alive
  kept := by
    intro n ht hn
    obtain ⟨i,hv,hi,hk⟩ := b.kept n ht hn
    refine ⟨i,hv,hi,hk.imp_right ?_⟩
    rintro ⟨h,hm,hh⟩
    exact ⟨h,hp.mem_iff.mp hm,hh⟩

theorem books_entry {e : Entry}
    (hcount : ∀ j, j ≠ i → holdsOf L' j = holdsOf L j ∧ locksOf L' j = locksOf L j)
    (hrest : ∀ h ∈ L', h.ip ≠ i → h ∈ L) (href : e.ref = U i+holdsOf L' i)
    (hlock : locksOf L' i = if e.locked then 1 else 0)
    (hself : ∀ h ∈ L', h.ip = i → e.inum = h.inum ∧ (h.locked ∨ h.firm → e.valid))
    (huniq : 0 < e.ref → ∀ j, j ≠ i → 0 < (s.icache j).ref → (s.icache j).inum ≠ e.inum)
    (hdev : 0 < e.ref → e.dev = ROOTDEV)
    (hcopy : 0 < e.ref → e.valid → e.copy = s.disk.dinode e.inum)
    (halive : 0 < U i ∨ 0 < e.ref ∧ e.valid → (s.disk.dinode e.inum).type ≠ .free)
    (hkept : ∀ n, (s.disk.dinode n).type ≠ .free → (s.disk.dinode n).nlink = 0 →
      ∃ j, ((s.setEntry i e).icache j).valid ∧ ((s.setEntry i e).icache j).inum = n ∧
      (0 < U j ∨ ∃ h ∈ L', h.ip = j ∧ h.firm)) :
    Books first (s.setEntry i e) U L' where
  sound := b.sound
  dirs := b.dirs
  refs := by
    intro j
    by_cases hj : j = i
    · rw [hj, setEntry_self, href]
    · rw [setEntry_of_ne e hj, b.refs, (hcount j hj).1]
  locks := by
    intro j
    by_cases hj : j = i
    · rw [hj, setEntry_self, hlock]
    · rw [setEntry_of_ne e hj, ← b.locks, (hcount j hj).2]
  held := by
    intro h hm
    by_cases hj : h.ip = i
    · rw [hj, setEntry_self]
      exact hself h hm hj
    · rw [setEntry_of_ne e hj]
      exact b.held h (hrest h hm hj)
  unique := by
    intro j k
    by_cases hj : j = i <;> by_cases hk : k = i
    · intros
      rw [hj, hk]
    · rw [hj, setEntry_self, setEntry_of_ne e hk]
      intro h1 h2 h3
      exact absurd h3.symm (huniq h1 k hk h2)
    · rw [hk, setEntry_self, setEntry_of_ne e hj]
      intro h1 h2 h3
      exact absurd h3 (huniq h2 j hj h1)
    · rw [setEntry_of_ne e hj, setEntry_of_ne e hk]
      exact b.unique j k
  dev := by
    intro j
    by_cases hj : j = i
    · rw [hj, setEntry_self]
      exact hdev
    · rw [setEntry_of_ne e hj]
      exact b.dev j
  copies := by
    intro j
    by_cases hj : j = i
    · rw [hj, setEntry_self]
      exact hcopy
    · rw [setEntry_of_ne e hj]
      exact b.copies j
  alive := by
    intro j
    by_cases hj : j = i
    · rw [hj, setEntry_self]
      exact halive
    · rw [setEntry_of_ne e hj]
      exact b.alive j
  kept := hkept

theorem kept_entry {e : Entry} (hfirm : ∀ h ∈ L, h.firm → ∃ h' ∈ L', h'.ip = h.ip ∧ h'.firm)
    (hi : 0 < (s.icache i).ref → (s.icache i).valid → e.valid ∧ e.inum = (s.icache i).inum) (n : ℕ)
    (ht : (s.disk.dinode n).type ≠ .free) (hn : (s.disk.dinode n).nlink = 0) :
    ∃ j, ((s.setEntry i e).icache j).valid ∧ ((s.setEntry i e).icache j).inum = n ∧
      (0 < U j ∨ ∃ h ∈ L', h.ip = j ∧ h.firm) := by
  obtain ⟨j,hv,hj,hk⟩ := b.kept n ht hn
  have hr : 0 < (s.icache j).ref := by
    rcases hk with hk | ⟨h,hm,rfl,_⟩
    · exact ref_pos_of_use b hk
    · exact ref_pos b hm
  have hk' : 0 < U j ∨ ∃ h ∈ L', h.ip = j ∧ h.firm := by
    rcases hk with hk | ⟨h,hm,rfl,hf⟩
    · exact .inl hk
    · exact .inr (hfirm h hm hf)
  refine ⟨j,?_,?_,hk'⟩
  · by_cases hji : j = i
    · subst hji
      rw [setEntry_self]
      exact (hi hr hv).1
    · rwa [setEntry_of_ne e hji]
  · by_cases hji : j = i
    · subst hji
      rw [setEntry_self, (hi hr hv).2, hj]
    · rwa [setEntry_of_ne e hji]

end

end Facts

end

variable {first : ℕ} {s t : Fs} {U : Ip → ℕ} {L L' : List Hold} {i j : Ip} {h : Hold}

section Inner

variable {α : Type} {x : DiskM α} {Q : α → Work → Prop} {F : String → Prop}

def workOf (s : Fs) (i : Ip) : Work := ⟨s.disk,(s.icache i).inum,(s.icache i).copy⟩

def putWork (s : Fs) (i : Ip) (w : Work) : Fs :=
  { s with disk := w.disk }.setEntry i { s.icache i with copy := w.copy }

theorem onInode_meets (hx : Meets x (workOf s i) Q F) :
    Meets (onInode i x) s (fun a t => ∃ w, Q a w ∧ t = putWork s i w)
      (fun e => ∃ m, e = .panic m ∧ F m) := by
  unfold Meets onInode
  cases hr : x (workOf s i) with
  | ok r =>
    rw [workOf] at hr
    rw [hr]
    exact ⟨r.2,meets_ok hx hr,rfl⟩
  | error m =>
    rw [workOf] at hr
    rw [hr]
    exact ⟨m,rfl,meets_error hx hr⟩

/-- A function that only looks leaves the state as it is. -/
theorem onInode_eq {a : α} (hx : x (workOf s i) = .ok (a,workOf s i)) :
    onInode i x s = .ok (a,s) := by
  unfold onInode
  rw [workOf] at hx
  rw [hx]
  simp [Fs.setEntry]

theorem coherent_workOf (b : Books first s U L) (hr : 0 < (s.icache i).ref)
    (hv : (s.icache i).valid) : Coherent (workOf s i) := b.copies i hr hv

end Inner

section References

theorem books_addRef (b : Books first s U L) (hr : 0 < (s.icache i).ref) :
    Books first (s.setEntry i { s.icache i with ref := (s.icache i).ref+1 }) U
      (⟨i,(s.icache i).inum,false,false⟩::L) := by
  refine books_entry b (fun j hj => ?_) (fun h hm hne => ?_) ?_ ?_ (fun h hm hi =>
    ?_) ?_ ?_ ?_ ?_ ?_
  · rw [holdsOf_cons, locksOf_cons]
    simp [hj.symm]
  · rcases List.mem_cons.mp hm with rfl | hm
    · exact absurd rfl hne
    · exact hm
  · rw [holdsOf_cons, b.refs]
    simp [Nat.add_assoc]
  · rw [locksOf_cons, b.locks]
    simp
  · rcases List.mem_cons.mp hm with rfl | hm'
    · exact ⟨rfl,fun hf => by simp at hf⟩
    · subst hi
      exact b.held h hm'
  · intro _ j hj hrj he
    exact hj (b.unique j i hrj hr he)
  · exact fun _ => b.dev i hr
  · exact fun _ => b.copies i hr
  · rintro (hu | ⟨_,hv⟩)
    · exact b.alive i (.inl hu)
    · exact b.alive i (.inr ⟨hr,hv⟩)
  · exact kept_entry b (fun h hm hf => ⟨h,List.mem_cons_of_mem _ hm,rfl,hf⟩) (fun _ hv => ⟨hv,rfl⟩)

theorem books_recycle (b : Books first s U L) (hr : (s.icache i).ref = 0) {n : ℕ}
    (hn : ∀ j, 0 < (s.icache j).ref → (s.icache j).inum ≠ n) :
    Books first (s.setEntry i
      { s.icache i with dev := ROOTDEV, inum := n, ref := 1, valid := false }) U
      (⟨i,n,false,false⟩::L) := by
  have hzero := b.refs i
  rw [hr] at hzero
  have hnone : ∀ h ∈ L, h.ip ≠ i := by
    rintro h hm rfl
    have := holdsOf_pos hm
    omega
  refine books_entry b (fun j hj => ?_) (fun h hm hne => ?_) ?_ ?_ (fun h hm hi =>
    ?_) ?_ ?_ ?_ ?_ ?_
  · rw [holdsOf_cons, locksOf_cons]
    simp [hj.symm]
  · rcases List.mem_cons.mp hm with rfl | hm
    · exact absurd rfl hne
    · exact hm
  · rw [holdsOf_cons, if_pos rfl]
    show 1 = _
    omega
  · rw [locksOf_cons, b.locks]
    simp
  · rcases List.mem_cons.mp hm with rfl | hm
    · exact ⟨rfl,fun hf => by simp at hf⟩
    · exact absurd hi (hnone h hm)
  · exact fun _ j _ hrj => hn j hrj
  · exact fun _ => rfl
  · exact fun _ hv => by simp at hv
  · rintro (hu | ⟨_,hv⟩)
    · omega
    · simp at hv
  · refine kept_entry b (fun h hm hf => ⟨h,List.mem_cons_of_mem _ hm,rfl,hf⟩) (fun hp => ?_)
    omega

abbrev NOINODES : Halt := .panic "iget: no inodes"

/-- The two ways through `iget`: the inode is cached, or an unused entry is
recycled. -/
theorem iget_cases (n : ℕ) (s : Fs) : Meets (iget ROOTDEV n) s
    (fun i t => 0 < (s.icache i).ref ∧ (s.icache i).inum = n ∧
        t = s.setEntry i { s.icache i with ref := (s.icache i).ref+1 } ∨
      (s.icache i).ref = 0 ∧
        (∀ j, 0 < (s.icache j).ref → (s.icache j).dev = ROOTDEV → (s.icache j).inum ≠ n) ∧
        t = s.setEntry i { s.icache i with dev := ROOTDEV, inum := n, ref := 1, valid := false })
    (fun e => e = NOINODES ∧
      ∀ j, 0 < (s.icache j).ref ∧ ((s.icache j).dev = ROOTDEV → (s.icache j).inum ≠ n)) := by
  unfold Meets iget
  cases hf : (List.finRange NINODE).find? (fun i =>
      0 < (s.icache i).ref ∧ (s.icache i).dev = ROOTDEV ∧ (s.icache i).inum = n) with
  | some i =>
    have hi := List.find?_some hf
    simp only [decide_eq_true_eq] at hi
    exact .inl ⟨hi.1,hi.2.2,rfl⟩
  | none =>
    have hnone : ∀ j, 0 < (s.icache j).ref → (s.icache j).dev = ROOTDEV → (s.icache j).inum ≠ n :=
      fun j hj hd hn => List.find?_eq_none.mp hf j (List.mem_finRange j)
        (decide_eq_true ⟨hj,hd,hn⟩)
    cases hg : (List.finRange NINODE).find? (fun i => (s.icache i).ref = 0) with
    | some i => exact .inr ⟨by simpa using List.find?_some hg,hnone,rfl⟩
    | none =>
      refine ⟨rfl,fun j => ?_⟩
      have hj : 0 < (s.icache j).ref := Nat.pos_of_ne_zero fun h0 =>
        List.find?_eq_none.mp hg j (List.mem_finRange j) (decide_eq_true h0)
      exact ⟨hj,hnone j hj⟩

theorem iget_meets (b : Books first s U L) (n : ℕ) :
    Meets (iget ROOTDEV n) s (fun i t => Books first t U (⟨i,n,false,false⟩::L) ∧
      t.disk = s.disk ∧ Fixed s t) (· = NOINODES) := by
  refine meets_mono (iget_cases n s) ?_ (fun _ h => h.1)
  rintro i t (⟨hr,rfl,rfl⟩ | ⟨hr,hn,rfl⟩)
  · exact ⟨books_addRef b hr,rfl,fixed_setEntry _⟩
  · exact ⟨books_recycle b hr (fun j hj => hn j hj (b.dev j hj)),rfl,fixed_setEntry _⟩

theorem idup_meets (b : Books first s U L) (hr : 0 < (s.icache i).ref) :
    Meets (idup i) s (fun _ t => Books first t U (⟨i,(s.icache i).inum,false,false⟩::L) ∧
      t.disk = s.disk ∧ Fixed s t) (fun _ => False) :=
  meets_of_ok rfl ⟨books_addRef b hr,rfl,fixed_setEntry _⟩

end References

section Locks

abbrev NOTYPE : Halt := .panic "ilock: no type"

theorem unlocked_of_head (b : Books first s U (h::L)) (hl : h.locked = false)
    (hno : locksOf L h.ip = 0) : (s.icache h.ip).locked = false := by
  have hk := b.locks h.ip
  rw [locksOf_cons, hno, hl] at hk
  by_contra hn
  rw [Bool.not_eq_false] at hn
  simp [hn] at hk

theorem loaded_eq (b : Books first s U L) (hr : 0 < (s.icache i).ref) :
    loaded s i = s.disk.dinode (s.icache i).inum := by
  unfold loaded
  split
  · next hv => exact b.copies i hr hv
  · rfl

section
variable (b : Books first s U (h::L))
include b

theorem books_relock {e : Entry} {l : Bool} (hno : locksOf L h.ip = 0)
    (he : e = { s.icache h.ip with locked := l, valid := e.valid, copy := e.copy })
    (hv : (s.icache h.ip).valid → e.valid) (hl : l ∨ h.firm → e.valid)
    (hc : e.valid → e.copy = s.disk.dinode h.inum ∧ (s.disk.dinode h.inum).type ≠ .free) :
    Books first (s.setEntry h.ip e) U ({ h with locked := l }::L) := by
  have hm : h ∈ h::L := by simp
  have hr := ref_pos b hm
  have hin := (b.held h hm).1
  have hei : e.inum = (s.icache h.ip).inum := by rw [he]
  have her : e.ref = (s.icache h.ip).ref := by rw [he]
  have hel : e.locked = l := by rw [he]
  have hed : e.dev = (s.icache h.ip).dev := by rw [he]
  refine books_entry b (fun j hj => ?_) (fun k hk hne => ?_) ?_ ?_ (fun k hk hi =>
    ?_) ?_ ?_ ?_ ?_ ?_
  · simp [holdsOf_cons, locksOf_cons, hj.symm]
  · rcases List.mem_cons.mp hk with rfl | hk
    · exact absurd rfl hne
    · exact List.mem_cons_of_mem _ hk
  · rw [her, b.refs, holdsOf_cons, holdsOf_cons]
  · rw [locksOf_cons, hno, hel]
    simp
  · rcases List.mem_cons.mp hk with rfl | hk
    · exact ⟨by rw [hei, hin],hl⟩
    · have hkh := b.held k (List.mem_cons_of_mem _ hk)
      rw [hi] at hkh
      exact ⟨by rw [hei, hkh.1],fun hkl => hv (hkh.2 hkl)⟩
  · intro _ j hj hrj hej
    rw [hei] at hej
    exact hj (b.unique j h.ip hrj hr hej)
  · intro _
    rw [hed]
    exact b.dev h.ip hr
  · intro _ hval
    rw [hei, hin]
    exact (hc hval).1
  · rw [hei]
    rintro (hu | ⟨_,hval⟩)
    · exact b.alive h.ip (.inl hu)
    · rw [hin]
      exact (hc hval).2
  · refine kept_entry b (fun k hk hf => ?_) (fun _ hval => ⟨hv hval,hei⟩)
    rcases List.mem_cons.mp hk with rfl | hk
    · exact ⟨_,List.mem_cons_self ..,rfl,hf⟩
    · exact ⟨k,List.mem_cons_of_mem _ hk,rfl,hf⟩

theorem ilock_meets (hl : h.locked = false) (hno : locksOf L h.ip = 0) :
    Meets (ilock h.ip) s (fun _ t => Books first t U ({ h with locked := true }::L) ∧
      t.disk = s.disk ∧ Fixed s t)
      (fun e => e = NOTYPE ∧ (s.disk.dinode h.inum).type = .free) := by
  have hm : h ∈ h::L := by simp
  have hr := ref_pos b hm
  have hin := (b.held h hm).1
  have hload := loaded_eq b hr
  have hnl := unlocked_of_head b hl hno
  have h1 : ¬(s.icache h.ip).ref < 1 := by omega
  have h2 : ¬(s.icache h.ip).locked = true := by simp [hnl]
  by_cases hf : (s.icache h.ip).valid = false ∧ (loaded s h.ip).type = .free
  · refine meets_of_error ((if_neg h1).trans ((if_neg h2).trans (if_pos hf))) ⟨rfl,?_⟩
    rw [← hin, ← hload]
    exact hf.2
  · refine meets_of_ok ((if_neg h1).trans ((if_neg h2).trans (if_neg hf)))
      ⟨books_relock b hno rfl (fun _ => rfl) (fun _ => rfl) (fun _ => ?_),rfl,fixed_setEntry _⟩
    rw [hload, hin]
    refine ⟨rfl,?_⟩
    by_cases hval : (s.icache h.ip).valid = true
    · have := b.alive h.ip (.inr ⟨hr,hval⟩)
      rwa [hin] at this
    · intro ht
      rw [hload, hin] at hf
      exact hf ⟨by simpa using hval,ht⟩

theorem locksOf_tail (hl : h.locked = true) : locksOf L h.ip = 0 := by
  have hk := b.locks h.ip
  rw [locksOf_cons, (locked_entry b (by simp) hl).1] at hk
  simp [hl] at hk
  omega

theorem iunlock_meets (hl : h.locked = true) :
    Meets (iunlock h.ip) s (fun _ t => Books first t U ({ h with locked := false }::L) ∧
      t.disk = s.disk ∧ Fixed s t) (fun _ => False) := by
  have hm : h ∈ h::L := by simp
  have hr := ref_pos b hm
  obtain ⟨hlo,hv,hc,ht⟩ := locked_entry b hm hl
  have hn : ¬((s.icache h.ip).locked = false ∨ (s.icache h.ip).ref < 1) := by
    simp only [hlo, Bool.true_eq_false, false_or]
    omega
  exact meets_of_ok (if_neg hn) ⟨books_relock b (locksOf_tail b hl) rfl (fun hv => hv)
    (fun _ => hv) (fun _ => ⟨hc,ht⟩),rfl,fixed_setEntry _⟩

end

end Locks

section Release

theorem books_dropRef (b : Books first s U (h::L)) (hl : h.locked = false)
    (hf : h.firm → (s.disk.dinode h.inum).nlink = 0 → 0 < U h.ip) :
    Books first (s.setEntry h.ip { s.icache h.ip with ref := (s.icache h.ip).ref-1 }) U L := by
  have hm : h ∈ h::L := by simp
  have hr := ref_pos b hm
  have hin := (b.held h hm).1
  have hrefs := b.refs h.ip
  rw [holdsOf_cons, if_pos rfl] at hrefs
  refine books_entry b (fun j hj => ?_) (fun k hk _ => List.mem_cons_of_mem _ hk) ?_ ?_
    (fun k hk hi => ?_) ?_ ?_ ?_ ?_ (fun n ht hn => ?_)
  · simp [holdsOf_cons, locksOf_cons, hj.symm]
  · show (s.icache h.ip).ref-1 = _
    omega
  · have hk := b.locks h.ip
    rw [locksOf_cons, hl] at hk
    simpa using hk
  · have hkh := b.held k (List.mem_cons_of_mem _ hk)
    rwa [hi] at hkh
  · intro _ j hj hrj hej
    exact hj (b.unique j h.ip hrj hr hej)
  · exact fun _ => b.dev h.ip hr
  · exact fun _ hv => b.copies h.ip hr hv
  · rintro (hu | ⟨_,hv⟩)
    · exact b.alive h.ip (.inl hu)
    · exact b.alive h.ip (.inr ⟨hr,hv⟩)
  · obtain ⟨j,hv,hj,hk⟩ := b.kept n ht hn
    have hsame :
        ((s.setEntry h.ip { s.icache h.ip with ref := (s.icache h.ip).ref-1 }).icache j).valid =
        (s.icache j).valid ∧
        ((s.setEntry h.ip { s.icache h.ip with ref := (s.icache h.ip).ref-1 }).icache j).inum =
        (s.icache j).inum := by
      by_cases hji : j = h.ip
      · rw [hji, setEntry_self]
        exact ⟨rfl,rfl⟩
      · rw [setEntry_of_ne _ hji]
        exact ⟨rfl,rfl⟩
    refine ⟨j,by rw [hsame.1]; exact hv,by rw [hsame.2]; exact hj,?_⟩
    rcases hk with hk | ⟨k,hkm,rfl,hkf⟩
    · exact .inl hk
    · rcases List.mem_cons.mp hkm with rfl | hkm
      · left
        apply hf hkf
        rw [← hin, hj]
        exact hn
      · exact .inr ⟨k,hkm,rfl,hkf⟩

theorem iput_meets (b : Books first s U (h::L)) (hl : h.locked = false)
    (hno : locksOf L h.ip = 0) (hf : h.firm = false) :
    Meets (iput h.ip) s (fun _ t => Books first t U L ∧ t.disk = s.disk ∧ Fixed s t)
      (fun _ => False) := by
  have hm : h ∈ h::L := by simp
  have hr := ref_pos b hm
  have hnl := unlocked_of_head b hl hno
  have hrefs := b.refs h.ip
  rw [holdsOf_cons, if_pos rfl] at hrefs
  have h2 : ¬(s.icache h.ip).locked = true := by simp [hnl]
  have h3 : ¬((s.icache h.ip).valid ∧ (s.icache h.ip).copy.nlink = 0 ∧
    (s.icache h.ip).ref = 1) := by
    rintro ⟨hv,hn,h1⟩
    rw [b.copies h.ip hr hv] at hn
    obtain ⟨j,_,hj,hk⟩ := b.kept _ (b.alive h.ip (.inr ⟨hr,hv⟩)) hn
    rcases hk with hk | ⟨k,hkm,rfl,hkf⟩
    · have := b.unique j h.ip (ref_pos_of_use b hk) hr hj
      rw [this] at hk
      omega
    · have hip := b.unique k.ip h.ip (ref_pos b hkm) hr hj
      rcases List.mem_cons.mp hkm with rfl | hkm
      · rw [hf] at hkf
        contradiction
      · have := holdsOf_pos hkm
        rw [hip] at this
        omega
  refine meets_of_ok ((if_neg h2).trans (if_neg h3)) ⟨books_dropRef b hl ?_,rfl,fixed_setEntry _⟩
  intro hfirm
  rw [hf] at hfirm
  contradiction

theorem iunlockput_meets (b : Books first s U (h::L)) (hl : h.locked = true) (hf : h.firm = false) :
    Meets (iunlockput h.ip) s (fun _ t => Books first t U L ∧ t.disk = s.disk ∧ Fixed s t)
      (fun _ => False) := by
  have hno := locksOf_tail b hl
  refine meets_bind (iunlock_meets b hl) ?_
  rintro _ u ⟨bu,hd,hfix⟩
  refine meets_mono (iput_meets (h := { h with locked := false }) bu rfl hno hf) ?_ (fun _ he => he)
  rintro _ t ⟨bt,hdt,hft⟩
  exact ⟨bt,hdt.trans hd,fixed_trans hfix hft⟩

end Release

section Changes

theorem books_write (b : Books first s U (h::L)) (hl : h.locked = true) {w : Work} {f : Bool}
    (hs : Sound w.disk first) (hco : w.copy = w.disk.dinode h.inum)
    (hother : ∀ m, m ≠ h.inum → w.disk.dinode m = s.disk.dinode m)
    (ht : w.copy.type = (s.disk.dinode h.inum).type)
    (hdir : w.copy.type = .dir → w.copy.size%DIRENT = 0)
    (hf : f = true ∨ f = h.firm ∧ w.copy.nlink = (s.disk.dinode h.inum).nlink) :
    Books first (putWork s h.ip w) U ({ h with firm := f }::L) := by
  have hm : h ∈ h::L := by simp
  have hr := ref_pos b hm
  have hin := (b.held h hm).1
  obtain ⟨_,hv,_,_⟩ := locked_entry b hm hl
  have hsame : ∀ j, ((putWork s h.ip w).icache j) = { s.icache j with
      copy := if j = h.ip then w.copy else (s.icache j).copy } := by
    intro j
    by_cases hj : j = h.ip
    · rw [hj, putWork, setEntry_self, if_pos rfl]
    · rw [putWork, setEntry_of_ne _ hj, if_neg hj]
  have hdisk : (putWork s h.ip w).disk = w.disk := rfl
  have htype : ∀ m, (w.disk.dinode m).type = (s.disk.dinode m).type := by
    intro m
    by_cases hm : m = h.inum
    · rw [hm, ← hco, ht]
    · rw [hother m hm]
  refine ⟨hs,fun n hn => ?_,fun j => ?_,fun j => ?_,fun k hk => ?_,fun j k => ?_,fun j => ?_,
    fun j => ?_,fun j => ?_,fun n hn hz => ?_⟩
  · rw [hdisk] at hn ⊢
    by_cases hnh : n = h.inum
    · rw [hnh, ← hco] at hn ⊢
      exact hdir hn
    · rw [hother n hnh] at hn ⊢
      exact b.dirs n hn
  · rw [hsame, holdsOf_cons, ← holdsOf_cons h]
    exact b.refs j
  · rw [hsame, locksOf_cons, ← locksOf_cons h]
    exact b.locks j
  · rw [hsame]
    rcases List.mem_cons.mp hk with rfl | hk
    · exact ⟨hin,fun _ => hv⟩
    · exact b.held k (List.mem_cons_of_mem _ hk)
  · rw [hsame, hsame]
    exact b.unique j k
  · rw [hsame]
    exact b.dev j
  · rw [hsame, hdisk]
    intro hrj hvj
    by_cases hj : j = h.ip
    · rw [if_pos hj, hj, hin]
      exact hco
    · have hne : (s.icache j).inum ≠ h.inum :=
        fun he => hj (b.unique j h.ip hrj hr (he.trans hin.symm))
      show (if j = h.ip then w.copy else (s.icache j).copy) = w.disk.dinode (s.icache j).inum
      rw [if_neg hj, hother _ hne]
      exact b.copies j hrj hvj
  · rw [hsame, hdisk, htype]
    exact b.alive j
  · rw [hdisk] at hn hz
    rw [htype] at hn
    have hold : (s.disk.dinode n).nlink = 0 → ∃ i, (s.icache i).valid ∧ (s.icache i).inum = n ∧
        (0 < U i ∨ ∃ k ∈ h::L, k.ip = i ∧ k.firm) := b.kept n hn
    by_cases hnh : n = h.inum ∧ f = true
    · refine ⟨h.ip,?_,?_,.inr ⟨_,List.mem_cons_self ..,rfl,hnh.2⟩⟩
      · rw [hsame]
        exact hv
      · rw [hsame, hnh.1]
        exact hin
    · have hz' : (s.disk.dinode n).nlink = 0 ∧ (n = h.inum → f = h.firm) := by
        by_cases hn' : n = h.inum
        · rcases hf with hf | ⟨hf,hnl⟩
          · exact absurd ⟨hn',hf⟩ hnh
          · refine ⟨?_,fun _ => hf⟩
            rw [hn', ← hnl, hco, ← hn']
            exact hz
        · rw [← hother n hn']
          exact ⟨hz,fun he => absurd he hn'⟩
      obtain ⟨i,hvi,hi,hk⟩ := hold hz'.1
      refine ⟨i,by rw [hsame]; exact hvi,by rw [hsame]; exact hi,hk.imp_right ?_⟩
      rintro ⟨k,hkm,rfl,hkf⟩
      rcases List.mem_cons.mp hkm with rfl | hkm
      · refine ⟨_,List.mem_cons_self ..,rfl,?_⟩
        show f = true
        rw [hz'.2 (hi.symm.trans hin), hkf]
      · exact ⟨k,List.mem_cons_of_mem _ hkm,rfl,hkf⟩

end Changes

end Xv6.InodeCache
