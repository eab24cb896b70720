import Xv6.DirectoryCalls
import Xv6.NameBytes

/-!
# Path lookup

`namex` follows the components of a path through the tree on disk. It locks
one directory at a time and carries one reference along; on return the
references are as before, but for one more to the inode it returns. It stops
only when the inode cache has no entry left to carry the reference in.
-/

set_option autoImplicit false

namespace Xv6.PathLookup
open Function StateRuns BlockLayer FsState DirectoryFile InodeCache
open DirectoryCalls
open KernelState (Slot)

def follow (N : ℕ → Node) : List Name → ℕ → Option ℕ
  | [], n => some n
  | c::cs, n =>
    if (N n).type ≠ .dir then none
    else match findEntry c (N n).slots with
      | none => none
      | some (_,m) => follow N cs m

def reach (parent : Bool) (N : ℕ → Node) : List Name → ℕ → Option (ℕ × Name)
  | [], n => if parent then none else some (n,[])
  | c::cs, n =>
    if (N n).type ≠ .dir then none
    else if parent ∧ cs = [] then some (n,c)
    else match findEntry c (N n).slots with
      | none => none
      | some (_,m) => reach parent N cs m

def Rooted (d : Disk) : Prop :=
  (d.dinode ROOTINO).type ≠ .free ∧ ∀ n, (d.dinode n).type = .dir → ∀ e ∈ slots d n, e.inum ≠ 0 →
    (d.dinode e.inum).type ≠ .free

section Trees

variable {N : ℕ → Node} {n : ℕ}

theorem reach_follow (cs : List Name) :
    reach false N cs n = (follow N cs n).map (fun m => (m,[])) := by
  induction cs generalizing n with
  | nil => rfl
  | cons c cs ih =>
    rw [reach, follow]
    by_cases hd : (N n).type ≠ .dir
    · rw [if_pos hd, if_pos hd]
      rfl
    rw [if_neg hd, if_neg hd, if_neg (by simp)]
    cases findEntry c (N n).slots with
    | none => rfl
    | some x => exact ih

/-- The parent is what all names but the last lead to, if it is a directory. -/
theorem reach_parent (cs : List Name) (c : Name) : reach true N (cs++[c]) n =
    ((follow N cs n).filter (fun m => (N m).type = .dir)).map (fun m => (m,c)) := by
  induction cs generalizing n with
  | nil =>
    rw [List.nil_append, reach, follow]
    by_cases hd : (N n).type ≠ .dir
    · rw [if_pos hd, Option.filter_some_neg (by simpa using hd)]
      rfl
    · rw [if_neg hd, if_pos ⟨rfl,rfl⟩, Option.filter_some_pos (by simpa using hd)]
      rfl
  | cons x cs ih =>
    rw [List.cons_append, reach, follow]
    by_cases hd : (N n).type ≠ .dir
    · rw [if_pos hd, if_pos hd]
      rfl
    rw [if_neg hd, if_neg hd, if_neg (by simp)]
    cases findEntry x (N n).slots with
    | none => rfl
    | some y => exact ih

theorem allocated_of_entry {d : Disk} (h : Rooted d) (hd : (d.dinode n).type = .dir) {name : Name}
    {k m : ℕ} (hf : findEntry name (nodes d n).slots = some (k,m)) : (d.dinode m).type ≠ .free := by
  rw [nodes_slots hd, findEntry, Option.map_eq_some_iff] at hf
  obtain ⟨⟨j,e⟩,hj,he⟩ := hf
  obtain ⟨-,rfl⟩ := Prod.mk.inj he
  obtain ⟨hmem,hnamed⟩ := firstSlot_some hj
  simp only [named, decide_eq_true_eq] at hnamed
  exact h.2 n hd e (List.mem_of_getElem? hmem) hnamed.1

end Trees

variable {first : ℕ} {s t : Fs} {U : Ip → ℕ} {L : List Hold} {i : Ip} {n : ℕ}

section Walking

def Crowded (U : Ip → ℕ) (L : List Hold) : Prop := ∃ j, ∀ i, i ≠ j → 0 < U i+holdsOf L i

theorem iget_full (n : ℕ) (s : Fs) : Meets (iget ROOTDEV n) s (fun _ _ => True)
    (fun _ => ∀ j, 0 < (s.icache j).ref) :=
  meets_mono (iget_cases n s) (fun _ _ _ => trivial) (fun _ h j => (h.2 j).1)

variable {h : Hold}

theorem dirlookup_full (b : Books first s U L) (hm : h ∈ L) (hd : OpenDir s h) (name : Name) :
    Meets (dirlookup h.ip name) s (fun _ _ => True) (fun _ => ∀ j, 0 < (s.icache j).ref) := by
  cases hf : findEntry name (nodes s.disk h.inum).slots with
  | none => exact meets_of_ok (dirlookup_absent b hm hd hf) trivial
  | some x =>
    exact meets_of_eq (dirlookup_present b hm hd (k := x.1) (n := x.2) hf)
      (meets_bind (iget_full x.2 s) (fun _ _ _ => meets_pure trivial))

inductive Walked (first : ℕ) (U : Ip → ℕ) (L : List Hold) : Option (ℕ × Name) →
    Option (Ip × Name) → Fs → Prop
  | absent {t : Fs} (b : Books first t U L) : Walked first U L none none t
  | present {t : Fs} {i : Ip} {n : ℕ} {c : Name} (b : Books first t U (⟨i,n,false,false⟩::L)) :
      Walked first U L (some (n,c)) (some (i,c)) t

theorem walked_held {target : Option (ℕ × Name)} {r : Option (Ip × Name)}
    (hw : Walked first U (h::L) target r t) : (t.icache h.ip).inum = h.inum := by
  cases hw with
  | absent b => exact (b.held h List.mem_cons_self).1
  | present b => exact (b.held h (List.mem_cons_of_mem _ List.mem_cons_self)).1

theorem locksOf_unlocked (hL : ∀ g ∈ L, g.locked = false) (i : Ip) : locksOf L i = 0 := by
  rw [locksOf, List.countP_eq_zero]
  intro g hg
  simp [hL g hg]

theorem crowded_of_full (b : Books first s U (h::L)) (hfull : ∀ j, 0 < (s.icache j).ref) :
    Crowded U L := by
  refine ⟨h.ip,fun j hj => ?_⟩
  have := hfull j
  rw [b.refs, holdsOf_cons, if_neg (Ne.symm hj)] at this
  omega

/-- The loop of `namex` finds what the tree says. -/
theorem walk_meets (parent : Bool) (cs : List Name) (b : Books first s U (⟨i,n,false,false⟩::L))
    (hL : ∀ g ∈ L, g.locked = false) (ht : Rooted s.disk) (hn : (s.disk.dinode n).type ≠ .free) :
    Meets (walk parent cs i) s (fun r t => Walked first U L (reach parent (nodes s.disk) cs n) r t ∧
      t.disk = s.disk ∧ Fixed s t) (fun e => e = NOINODES ∧ Crowded U L) := by
  induction cs generalizing s i n with
  | nil =>
    rw [walk, reach]
    cases parent with
    | true =>
      refine meets_bind (meets_mono (iput_meets b rfl (locksOf_unlocked hL i) rfl)
        (fun _ _ ht => ht)
        (fun _ he => he.elim)) ?_
      rintro _ t ⟨bt,hd,hf⟩
      exact meets_pure ⟨.absent bt,hd,hf⟩
    | false => exact meets_pure ⟨.present b,rfl,fixed_refl s⟩
  | cons c cs ih =>
    rw [walk, reach]
    refine meets_bind (meets_mono (ilock_meets b rfl (locksOf_unlocked hL i)) (fun _ _ ht => ht)
      (fun _ he => absurd he.2 hn)) ?_
    rintro _ u ⟨bu,hdu,hfu⟩
    have hm : (⟨i,n,true,false⟩ : Hold) ∈ (⟨i,n,true,false⟩ : Hold)::L := by simp
    have hcopy : (u.icache i).copy = s.disk.dinode n := by
      rw [← hdu]
      exact (locked_entry bu hm rfl).2.2.1
    have htype : typeOf i u = .ok ((nodes s.disk n).type,u) := by
      rw [typeOf, hcopy]
      rfl
    refine meets_bind_ok htype ?_
    by_cases hd : (nodes s.disk n).type ≠ .dir
    · rw [if_pos hd, if_pos hd]
      refine meets_bind (meets_mono (iunlockput_meets bu rfl rfl) (fun _ _ ht => ht)
        (fun _ he => he.elim)) ?_
      rintro _ t ⟨bt,hdt,hft⟩
      exact meets_pure ⟨.absent bt,hdt.trans hdu,fixed_trans hfu hft⟩
    rw [if_neg hd, if_neg hd]
    have hdir : (s.disk.dinode n).type = .dir := not_not.mp hd
    by_cases hp : parent ∧ cs = []
    · rw [if_pos hp, if_pos hp]
      refine meets_bind (meets_mono (iunlock_meets bu rfl) (fun _ _ ht => ht)
        (fun _ he => he.elim)) ?_
      rintro _ t ⟨bt,hdt,hft⟩
      exact meets_pure ⟨.present bt,hdt.trans hdu,fixed_trans hfu hft⟩
    rw [if_neg hp, if_neg hp]
    have hod : OpenDir u ⟨i,n,true,false⟩ := ⟨rfl,by rw [hdu]; exact hdir⟩
    refine meets_bind (meets_mono (meets_and (dirlookup_meets bu hm hod c)
      (dirlookup_full bu hm hod c))
      (fun _ _ ht => ht.1) (fun _ he => ⟨he.1,crowded_of_full bu he.2⟩)) ?_
    rintro r v ⟨hfound,hdv,hfv⟩
    cases hfound with
    | absent hnone bv =>
      rw [hdu] at hnone
      simp only [hnone]
      refine meets_bind (meets_mono (iunlockput_meets bv rfl rfl) (fun _ _ ht => ht)
        (fun _ he => he.elim)) ?_
      rintro _ t ⟨bt,hdt,hft⟩
      exact meets_pure ⟨.absent bt,(hdt.trans hdv).trans hdu,fixed_trans hfu (fixed_trans hfv hft)⟩
    | @present _ k m j hsome bv =>
      rw [hdu] at hsome
      simp only [hsome]
      have bv' := books_perm bv (List.Perm.swap (⟨i,n,true,false⟩ : Hold) ⟨j,m,false,false⟩ L)
      refine meets_bind (meets_mono (iunlockput_meets bv' rfl rfl) (fun _ _ ht => ht)
        (fun _ he => he.elim)) ?_
      rintro _ t ⟨bt,hdt,hft⟩
      have hdisk : t.disk = s.disk := (hdt.trans hdv).trans hdu
      have hrest := ih bt (by rwa [hdisk]) (by rw [hdisk]; exact allocated_of_entry ht hdir hsome)
      rw [hdisk] at hrest
      refine meets_mono hrest (fun r z hz => ⟨hz.1,hz.2.1,?_⟩) (fun _ he => he)
      exact fixed_trans hfu (fixed_trans hfv (fixed_trans hft hz.2.2))

end Walking

section References

theorem books_hold (b : Books first s U L) {j : Ip} (hj : 0 < U j) :
    Books first s (update U j (U j-1)) (⟨j,(s.icache j).inum,false,(s.icache j).valid⟩::L) where
  sound := b.sound
  dirs := b.dirs
  refs := by
    intro i
    rw [b.refs, holdsOf_cons]
    by_cases hi : i = j
    · subst hi
      rw [update_self, if_pos rfl]
      omega
    · rw [update_of_ne hi, if_neg (Ne.symm hi), Nat.add_zero]
  locks := by
    intro i
    rw [locksOf_cons, ← b.locks]
    simp
  held := by
    intro h hm
    rcases List.mem_cons.mp hm with rfl | hm
    · exact ⟨rfl,fun hf => hf.resolve_left (by simp)⟩
    · exact b.held h hm
  unique := b.unique
  dev := b.dev
  copies := b.copies
  alive := by
    intro i hi
    refine b.alive i (hi.imp_left fun hu => ?_)
    by_cases hij : i = j
    · rwa [hij]
    · rwa [update_of_ne hij] at hu
  kept := by
    intro n ht hn
    obtain ⟨i,hv,hi,hk⟩ := b.kept n ht hn
    refine ⟨i,hv,hi,?_⟩
    rcases hk with hu | ⟨h,hm,hh⟩
    · by_cases hij : i = j
      · exact .inr ⟨_,List.mem_cons_self,hij.symm,by rw [← hij]; exact hv⟩
      · exact .inl (by rwa [update_of_ne hij])
    · exact .inr ⟨h,List.mem_cons_of_mem _ hm,hh⟩

def startOf (s : Fs) (p : Slot) (path : List UInt8) : ℕ :=
  if path.head? = some slash then ROOTINO
  else ((s.procs p).cwd.map (fun c => (s.icache c).inum)).getD 0

variable {p : Slot} {c : Ip}

theorem pathStart_meets (b : Books first s U L) (hc : (s.procs p).cwd = some c)
    (hr : 0 < (s.icache c).ref) (path : List UInt8) :
    Meets (pathStart p path) s (fun i t => Books first t U (⟨i,startOf s p path,false,false⟩::L) ∧
      t.disk = s.disk ∧ Fixed s t) (fun e => e = NOINODES ∧ Crowded U L) := by
  unfold startOf
  by_cases hp : path.head? = some slash
  · refine meets_of_eq (if_pos hp) ?_
    rw [if_pos hp]
    refine meets_mono (meets_and (iget_meets b ROOTINO) (iget_full ROOTINO s))
      (fun _ _ ht => ht.1) ?_
    rintro e ⟨he,hfull⟩
    exact ⟨he,0,fun j _ => by rw [← b.refs]; exact hfull j⟩
  · have hrun : pathStart p path s = (idup c >>= fun _ => pure c) s := by
      unfold pathStart
      rw [if_neg hp, hc]
    refine meets_of_eq hrun ?_
    rw [if_neg hp, hc]
    refine meets_bind (meets_mono (idup_meets b hr) (fun _ _ ht => ht) (fun _ he => he.elim)) ?_
    rintro _ t ht
    exact meets_pure ht

theorem namex_meets (b : Books first s U L) (hL : ∀ g ∈ L, g.locked = false) (ht : Rooted s.disk)
    (hc : (s.procs p).cwd = some c) (hr : 0 < (s.icache c).ref)
    (hn : (s.disk.dinode (s.icache c).inum).type ≠ .free) (parent : Bool) (path : List UInt8) :
    Meets (namex p parent path) s (fun r t => Walked first U L
      (reach parent (nodes s.disk) (elements path.length path) (startOf s p path)) r t ∧
      t.disk = s.disk ∧ Fixed s t) (fun e => e = NOINODES ∧ Crowded U L) := by
  have hstart : (s.disk.dinode (startOf s p path)).type ≠ .free := by
    unfold startOf
    by_cases hp : path.head? = some slash
    · rw [if_pos hp]
      exact ht.1
    · rw [if_neg hp, hc]
      exact hn
  refine meets_bind (pathStart_meets b hc hr path) ?_
  rintro i u ⟨bu,hdu,hfu⟩
  have hw := walk_meets parent (elements path.length path) bu hL (by rwa [hdu]) (by rwa [hdu])
  rw [hdu] at hw
  exact meets_mono hw (fun r t hz => ⟨hz.1,hz.2.1,fixed_trans hfu hz.2.2⟩) (fun _ he => he)

def Quiet (first : ℕ) (s : Fs) : Prop := Books first s (fun i => (s.icache i).ref) []

structure Returned (s t : Fs) (r : Option Ip) (target : Option ℕ) : Prop where
  disk : t.disk = s.disk
  fixed : Fixed s t
  stays : ∀ j, 0 < (s.icache j).ref → (t.icache j).inum = (s.icache j).inum
  inum : r.map (fun i => (t.icache i).inum) = target
  refs : ∀ j, (t.icache j).ref = (s.icache j).ref+if r = some j then 1 else 0

def FullCache (s : Fs) : Prop := ∃ j, ∀ i, i ≠ j → 0 < (s.icache i).ref

theorem namex_returned (b : Quiet first s) (ht : Rooted s.disk) (hc : (s.procs p).cwd = some c)
    (hr : 0 < (s.icache c).ref) (parent : Bool) (path : List UInt8) :
    Meets (namex p parent path) s (fun r t =>
      Returned s t (r.map Prod.fst) ((reach parent (nodes s.disk) (elements path.length path)
        (startOf s p path)).map Prod.fst) ∧
      r.map Prod.snd = (reach parent (nodes s.disk) (elements path.length path)
        (startOf s p path)).map Prod.snd) (fun e => e = NOINODES ∧ FullCache s) := by
  have hn := b.alive c (.inl hr)
  have hm := namex_meets b (by simp) ht hc hr hn parent path
  rw [meets_iff]
  refine ⟨fun r t hx => ?_,fun e hx => (meets_error hm hx)⟩
  obtain ⟨hw,hdisk,hfix⟩ := meets_ok hm hx
  have hstays : ∀ j, 0 < (s.icache j).ref → (t.icache j).inum = (s.icache j).inum := by
    intro j hj
    have hm' := namex_meets (books_hold b hj) (by simp) ht hc hr hn parent path
    exact walked_held (meets_ok hm' hx).1
  generalize reach parent (nodes s.disk) (elements path.length path) (startOf s p path) =
    target at hw
  cases hw with
  | absent bt => exact ⟨⟨hdisk,hfix,hstays,rfl,fun j => bt.refs j⟩,rfl⟩
  | @present _ i m c bt =>
    refine ⟨⟨hdisk,hfix,hstays,?_,fun j => ?_⟩,rfl⟩
    · exact congrArg some (bt.held _ List.mem_cons_self).1
    · rw [bt.refs, holdsOf_cons]
      simp [holdsOf]

end References

section Resolution

open NameBytes (components iterate key found)

/-- Path resolution. `skipelem` yields the components of a path and ends;
`namei` returns the inode that they lead to, and `nameiparent` the directory
that all of them but the last lead to, with the last in the buffer. Only the
returned inode has a reference more. The lookups stop only for want of an
entry of the inode cache. -/
theorem path_resolution (first : ℕ) (s : Fs) (b : Quiet first s) (ht : Rooted s.disk)
    (p : Slot) (c : Ip)
    (hc : (s.procs p).cwd = some c) (hr : 0 < (s.icache c).ref) (path : List UInt8) (h0 : 0 ∉ path)
    (name : List UInt8) :
    (∀ k, path.length < k →
      ∃ bufs, iterate k path name = some bufs ∧ bufs.map key = components path) ∧
    Meets (NameBytes.namei p path name) s (fun r t =>
      Returned s t r (follow (nodes s.disk) (components path) (startOf s p path)))
      (fun e => e = NOINODES ∧ FullCache s) ∧
    Meets (NameBytes.nameiparent p path name) s (fun r t =>
      (components path = [] → Returned s t r.1 none) ∧
      ∀ cs last, components path = cs++[last] →
        Returned s t r.1 ((follow (nodes s.disk) cs (startOf s p path)).filter
          (fun n => (nodes s.disk n).type = .dir)) ∧ (r.1 ≠ none → key r.2 = last))
      (fun e => e = NOINODES ∧ FullCache s) := by
  refine ⟨fun k hk => NameBytes.iterate_components h0 hk name,?_,?_⟩
  · have hm := namex_returned b ht hc hr false path
    rw [NameBytes.elements_components h0 (le_refl _), ← NameBytes.namex_walk p false h0 name] at hm
    refine meets_bind (meets_of_map hm) ?_
    rintro r t ⟨hret,-⟩
    refine meets_pure ?_
    rwa [NameBytes.found_fst, reach_follow, Option.map_map,
      show Prod.fst ∘ (fun m : ℕ => (m,([] : Name))) = id from rfl,
      Option.map_id_fun, id] at hret
  · have hm := namex_returned b ht hc hr true path
    rw [NameBytes.elements_components h0 (le_refl _), ← NameBytes.namex_walk p true h0 name] at hm
    refine meets_mono (meets_of_map hm) ?_ (fun _ he => he)
    rintro r t ⟨hret,hname⟩
    rw [NameBytes.found_fst] at hret
    rw [NameBytes.found_snd] at hname
    constructor
    · intro hnil
      rwa [hnil] at hret
    · intro cs last hcs
      rw [hcs, reach_parent, Option.map_map] at hret hname
      constructor
      · rwa [show Prod.fst ∘ (fun m : ℕ => (m,last)) = id from rfl, Option.map_id_fun, id] at hret
      · intro hne
        obtain ⟨i,hi⟩ := Option.ne_none_iff_exists'.mp hne
        rw [hi, Option.map_some] at hname
        obtain ⟨m,-,hm⟩ := Option.map_eq_some_iff.mp hname.symm
        exact hm.symm

def twig : Disk :=
  { size := 40
    ninodes := 10
    dinode := fun n =>
      if n = 1 then ⟨.dir,0,1,48,fun k => if k = 0 then 20 else 0⟩
      else if n = 2 then ⟨.file,0,1,0,fun _ => 0⟩
      else ⟨.free,0,0,0,fun _ => 0⟩
    bitmap := fun b => b < 21
    content := fun b x => if b = 20 then
      (Dirent.encode ⟨1,dot⟩++Dirent.encode ⟨1,dotdot⟩++Dirent.encode ⟨2,[102]⟩).getD x 0 else 0 }

def twigFs : Fs :=
  { disk := twig
    icache := fun i => if i = 0 then ⟨ROOTDEV,1,1,true,false,twig.dinode 1⟩
      else ⟨0,0,0,false,false,twig.dinode 0⟩
    files := fun _ => ⟨0,.none⟩
    procs := fun _ => ⟨.live,fun _ => none,some 0⟩
    initproc := 0
    pipes := fun _ => none
    free := []
    others := [] }

theorem twig_uses {i : ℕ × ℕ} (h : Xv6.BlockMap.Uses twig.dinode
    (FileContent.sized twig.dinode) i) :
    i = (1,0) := by
  obtain ⟨n,k⟩ := i
  obtain ⟨h1,-,h3⟩ := h
  have hn : n = 1 := by
    by_contra hne
    by_cases h2 : n = 2
    · subst h2
      exact FileContent.not_covers_zero k h3
    · exact h1 (by simp [twig, hne, h2])
  subst hn
  have hk : k = 0 := by
    have hs : (twig.dinode 1).size = 48 := rfl
    rw [FileContent.sized, hs] at h3
    simp only [BlockMap.covers, NDIRECT, BSIZE] at h3
    split at h3 <;> omega
  rw [hk]

theorem twig_covers : FileContent.sized twig.dinode 1 0 := by
  have hc : BlockMap.covers 48 0 := by decide
  exact hc

theorem twig_sound : FileContent.Sound twig 20 where
  owns :=
    { allotted :=
        { inside := fun i hi => by rw [twig_uses hi]; decide
          apart := fun i j hi hj _ => by rw [twig_uses hi, twig_uses hj]
          spare := fun _ hb => hb.elim
          marked := by
            intro b hb
            have hm : twig.bitmap b = true ↔ b < 21 := by simp [twig]
            rw [hm]
            constructor
            · intro hlt
              by_cases h20 : b = 20
              · exact .inr (.inl ⟨(1,0),⟨by decide,by decide,twig_covers⟩,h20.symm⟩)
              · exact .inl (by omega)
            · rintro (hlt | ⟨i,hi,he⟩ | hf)
              · omega
              · rw [twig_uses hi] at he
                have h20 : BlockMap.slotAddr twig.content (twig.dinode 1) 0 = 20 := rfl
                rw [h20] at he
                omega
              · exact hf.elim }
      clear := by
        intro n k hn _ hc
        by_cases h1 : n = 1
        · subst h1
          have hk : k ≠ 0 := by
            rintro rfl
            exact hc twig_covers
          simp [BlockMap.slotAddr, twig, hk]
        by_cases h2 : n = 2
        · subst h2
          simp [BlockMap.slotAddr, twig]
        · exact absurd (by simp [twig, h1, h2]) hn
      first_pos := by decide
      size_le := by decide }
  size_le := by
    intro n _
    by_cases h1 : n = 1
    · subst h1
      decide
    · have hs : (twig.dinode n).size = 0 := by
        by_cases h2 : n = 2 <;> simp [twig, h1, h2]
      rw [hs]
      exact Nat.zero_le _

theorem twigFs_ref {i : Ip} (h : 0 < (twigFs.icache i).ref) : i = 0 := by
  by_contra hne
  simp [twigFs, hne] at h

theorem twigFs_quiet : Quiet 20 twigFs where
  sound := twig_sound
  dirs := by
    intro n hn
    by_cases h1 : n = 1
    · subst h1
      decide
    · by_cases h2 : n = 2 <;> simp [twigFs, twig, h1, h2] at hn
  refs := fun _ => rfl
  locks := by
    intro i
    by_cases hi : i = 0 <;> simp [twigFs, hi, locksOf]
  held := fun _ hm => absurd hm List.not_mem_nil
  unique := fun i j hi hj _ => by rw [twigFs_ref hi, twigFs_ref hj]
  dev := fun i hi => by rw [twigFs_ref hi]; rfl
  copies := fun i hi _ => by rw [twigFs_ref hi]; rfl
  alive := by
    intro i hi
    have hr : 0 < (twigFs.icache i).ref := hi.elim id And.left
    rw [twigFs_ref hr]
    decide
  kept := by
    intro n hn hz
    by_cases h1 : n = 1
    · subst h1
      exact absurd hz (by decide)
    by_cases h2 : n = 2
    · subst h2
      exact absurd hz (by decide)
    · exact absurd (by simp [twigFs, twig, h1, h2]) hn

theorem twig_rooted : Rooted twig := by
  refine ⟨by decide,fun n hn => ?_⟩
  by_cases h1 : n = 1
  · subst h1
    decide +kernel
  · by_cases h2 : n = 2 <;> simp [twig, h1, h2] at hn

/-- `namei` of `/f`. -/
theorem path_resolution_twig : ∃ r t, NameBytes.namei 0 [47,102] [] twigFs = .ok (some r,t) ∧
    (t.icache r).inum = 2 ∧ ∀ j, (t.icache j).ref = (twigFs.icache j).ref+
      if some r = some j then 1 else 0 := by
  have hroom : ¬FullCache twigFs := by
    rintro ⟨j,hj⟩
    by_cases h1 : j = 1
    · exact absurd (hj 2 (by rw [h1]; decide)) (by decide)
    · exact absurd (hj 1 (Ne.symm h1)) (by decide)
  have htarget : follow (nodes twigFs.disk) (components [47,102]) (startOf twigFs 0 [47,102]) =
    some 2 := by
    decide +kernel
  have hroot : Rooted twigFs.disk := twig_rooted
  have hcwd : (twigFs.procs 0).cwd = some 0 := rfl
  have hr : 0 < (twigFs.icache 0).ref := by decide
  have b := twigFs_quiet
  generalize twigFs = s at *
  obtain ⟨-,hm,-⟩ := path_resolution 20 s b hroot 0 0 hcwd hr [47,102] (by decide) []
  obtain ⟨r,t,hx,hret⟩ := meets_exists hm (fun _ he => hroom he.2)
  have hinum := hret.inum
  rw [htarget] at hinum
  cases r with
  | none => cases hinum
  | some i => exact ⟨i,t,hx,Option.some.inj hinum,hret.refs⟩

/-- `f/x` has a component before its last, and that leads to the file `f`, but
`nameiparent` returns 0. -/
theorem nameiparent_of_file :
    (NameBytes.nameiparent 0 [102,47,120] [] twigFs).toOption.map (fun x => x.1.1) = some none ∧
    components [102,47,120] = [[102]]++[[120]] ∧
    follow (nodes twigFs.disk) [[102]] (startOf twigFs 0 [102,47,120]) = some 2 := by
  decide +kernel

end Resolution

end Xv6.PathLookup
