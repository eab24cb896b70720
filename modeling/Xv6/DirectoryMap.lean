import Xv6.InodeContents
import Xv6.PathLookup

/-!
# Directories as finite maps

A directory binds the keys of names to inode numbers, each at a place of its
list of entries. With distinct names `dirlookup` finds the only one, `dirlink`
adds a binding at the first empty place and clearing an entry takes one away.
`dirlink` on a key bound to the directory itself waits for ever for the lock its
caller has.
-/

set_option autoImplicit false

namespace Xv6.DirectoryMap
open Function StateRuns BlockLayer BlockMap FileContent FreeBlocks FsState
open DirectoryFile InodeCache DirectoryCalls
open NameBytes (key)

structure Distinct (l : List Dirent) : Prop where
  apart : ∀ (j k : ℕ) (e f : Dirent), l[j]? = some e → l[k]? = some f → e.inum ≠ 0 →
    f.inum ≠ 0 → e.name = f.name → j = k
  named : ∀ (j : ℕ) (e : Dirent), l[j]? = some e → e.inum ≠ 0 → e.name ≠ []

section Lists

variable {l : List Dirent} {x : Name} {j k n : ℕ} {e : Dirent}

theorem firstSlot_none {test : Dirent → Bool} (h : firstSlot test l = none) :
    ∀ (j : ℕ) (e : Dirent), l[j]? = some e → test e = false := by
  induction l with
  | nil => simp
  | cons y l ih =>
    unfold firstSlot at h
    by_cases ht : test y = true
    · rw [if_pos ht] at h
      cases h
    · rw [if_neg ht, Option.map_eq_none_iff] at h
      intro j e hj
      cases j with
      | zero =>
        obtain rfl : y = e := by simpa using hj
        simpa using ht
      | succ j => exact ih h j e (by simpa using hj)

/-- A key is bound by the entry that has it. -/
theorem findEntry_iff (h : Distinct l) :
    findEntry x l = some (k,n) ↔ ∃ e, l[k]? = some e ∧ e.inum = n ∧ n ≠ 0 ∧ e.name = x := by
  constructor
  · intro hf
    rw [findEntry, Option.map_eq_some_iff] at hf
    obtain ⟨⟨i,e⟩,hi,he⟩ := hf
    obtain ⟨rfl,rfl⟩ := Prod.mk.inj he
    obtain ⟨hmem,ht⟩ := firstSlot_some hi
    simp only [FsState.named, decide_eq_true_eq] at ht
    exact ⟨e,hmem,rfl,ht.1,ht.2⟩
  · rintro ⟨e,hk,rfl,hne,rfl⟩
    cases hf : firstSlot (FsState.named e.name) l with
    | none =>
      have := firstSlot_none hf k e hk
      simp [FsState.named, hne] at this
    | some y =>
      obtain ⟨i,f⟩ := y
      obtain ⟨hi,ht⟩ := firstSlot_some hf
      simp only [FsState.named, decide_eq_true_eq] at ht
      have hik := h.apart i k f e hi hk ht.1 hne ht.2
      subst hik
      rw [hi, Option.some.injEq] at hk
      rw [findEntry, hf, hk]
      rfl

theorem findEntry_none (h : Distinct l) :
    findEntry x l = none ↔ ∀ (j : ℕ) (e : Dirent), l[j]? = some e → e.inum ≠ 0 → e.name ≠ x := by
  constructor
  · intro hf j e hj hne hx
    rw [(findEntry_iff h).mpr ⟨e,hj,rfl,hne,hx⟩] at hf
    cases hf
  · intro hall
    cases hf : findEntry x l with
    | none => rfl
    | some y =>
      obtain ⟨e,hj,he,hne,hx⟩ := (findEntry_iff (k := y.1) (n := y.2) h).mp hf
      exact absurd hx (hall y.1 e hj (by rwa [he]))

theorem placeAt_getElem? (hk : k ≤ l.length) (j : ℕ) :
    (placeAt k e l)[j]? = if j = k then some e else l[j]? := by
  by_cases hj : j = k
  · rw [if_pos hj, hj, placeAt_getElem?_self hk]
  · rw [if_neg hj, placeAt_getElem?_of_ne hk hj]

theorem distinct_put (h : Distinct l) (hk : k ≤ l.length) (hx : findEntry e.name l = none)
    (hne : e.name ≠ []) : Distinct (placeAt k e l) := by
  have hfresh := (findEntry_none h).mp hx
  refine ⟨fun i j f g hi hj hf hg hn => ?_,fun i f hi hf => ?_⟩
  · rw [placeAt_getElem? hk] at hi hj
    by_cases hik : i = k <;> by_cases hjk : j = k
    · rw [hik, hjk]
    · rw [if_pos hik, Option.some.injEq] at hi
      rw [if_neg hjk] at hj
      exact absurd (hn.symm.trans (by rw [hi])) (hfresh j g hj hg)
    · rw [if_pos hjk, Option.some.injEq] at hj
      rw [if_neg hik] at hi
      exact absurd (hn.trans (by rw [hj])) (hfresh i f hi hf)
    · rw [if_neg hik] at hi
      rw [if_neg hjk] at hj
      exact h.apart i j f g hi hj hf hg hn
  · rw [placeAt_getElem? hk] at hi
    by_cases hik : i = k
    · rw [if_pos hik, Option.some.injEq] at hi
      rwa [← hi]
    · rw [if_neg hik] at hi
      exact h.named i f hi hf

theorem findEntry_put (h : Distinct l) (hk : k ≤ l.length)
    (hempty : ∀ f, l[k]? = some f → f.inum = 0) (hx : findEntry e.name l = none) (hne : e.name ≠ [])
    (hin : e.inum ≠ 0) (x : Name) :
    findEntry x (placeAt k e l) = if x = e.name then some (k,e.inum) else findEntry x l := by
  have hd := distinct_put h hk hx hne
  by_cases hxe : x = e.name
  · rw [if_pos hxe, findEntry_iff hd]
    exact ⟨e,placeAt_getElem?_self hk,rfl,hin,hxe.symm⟩
  · rw [if_neg hxe]
    apply Option.ext
    rintro ⟨j,n⟩
    rw [findEntry_iff hd, findEntry_iff h]
    apply exists_congr
    intro f
    rw [placeAt_getElem? hk]
    by_cases hj : j = k
    · subst hj
      rw [if_pos rfl]
      constructor
      · rintro ⟨he,-,-,hn⟩
        rw [Option.some.injEq] at he
        exact absurd (by rw [he, hn]) hxe
      · rintro ⟨hf,rfl,hn,-⟩
        exact absurd (hempty f hf) hn
    · rw [if_neg hj]

theorem distinct_of_nodup (hn : (l.map Dirent.name).Nodup) (he : ∀ e ∈ l, e.name ≠ []) :
    Distinct l := by
  refine ⟨fun j k e f hj hk _ _ hname => ?_,fun j e hj _ => he e (List.mem_of_getElem? hj)⟩
  have h1 : (l.map Dirent.name)[j]? = some e.name := by rw [List.getElem?_map, hj, Option.map_some]
  have h2 : (l.map Dirent.name)[k]? = some f.name := by rw [List.getElem?_map, hk, Option.map_some]
  have hlt : j < (l.map Dirent.name).length := (List.getElem?_eq_some_iff.mp h1).1
  exact (List.getElem?_inj hlt hn).mp (by rw [h1, h2, hname])

theorem distinct_clear (h : Distinct l) (hk : k ≤ l.length) : Distinct (clearEntry k l) := by
  have hget : ∀ (i : ℕ) f, (clearEntry k l)[i]? = some f → f.inum ≠ 0 → l[i]? = some f := by
    intro i f hi hf
    rw [clearEntry, placeAt_getElem? hk] at hi
    by_cases hik : i = k
    · rw [if_pos hik, Option.some.injEq] at hi
      exact absurd (by rw [← hi]) hf
    · rwa [if_neg hik] at hi
  exact ⟨fun i j f g hi hj hf hg => h.apart i j f g (hget i f hi hf) (hget j g hj hg) hf hg,
    fun i f hi hf => h.named i f (hget i f hi hf) hf⟩

theorem findEntry_clear (h : Distinct l) (hb : findEntry x l = some (k,n)) (y : Name) :
    findEntry y (clearEntry k l) = if y = x then none else findEntry y l := by
  obtain ⟨e,hek,hen,hn,hex⟩ := (findEntry_iff h).mp hb
  have hk : k ≤ l.length := le_of_lt (List.getElem?_eq_some_iff.mp hek).1
  have hd := distinct_clear h hk
  apply Option.ext
  rintro ⟨j,m⟩
  rw [findEntry_iff hd]
  by_cases hyx : y = x
  · rw [if_pos hyx]
    constructor
    · rintro ⟨f,hf,rfl,hm,hfy⟩
      rw [clearEntry, placeAt_getElem? hk] at hf
      by_cases hj : j = k
      · rw [if_pos hj, Option.some.injEq] at hf
        exact absurd (by rw [← hf]) hm
      · rw [if_neg hj] at hf
        exact absurd (h.apart j k f e hf hek hm (by rwa [hen]) (hfy.trans (hyx.trans hex.symm))) hj
    · intro hf
      cases hf
  · rw [if_neg hyx, findEntry_iff h]
    apply exists_congr
    intro f
    rw [clearEntry, placeAt_getElem? hk]
    by_cases hj : j = k
    · subst hj
      rw [if_pos rfl]
      constructor
      · rintro ⟨hf,rfl,hm,-⟩
        rw [Option.some.injEq] at hf
        exact absurd (by rw [← hf]) hm
      · rintro ⟨hf,-,-,hfy⟩
        rw [hek, Option.some.injEq] at hf
        exact absurd (hfy.symm.trans (by rw [← hf, hex])) hyx
    · rw [if_neg hj]

end Lists

variable {first : ℕ} {s t : Fs} {U : Ip → ℕ} {L : List Hold} {h : Hold} {w : Work}

section Resources

def CanGet (s : Fs) (n : ℕ) : Prop :=
  (∃ j, 0 < (s.icache j).ref ∧ (s.icache j).inum = n) ∨ ∃ j, (s.icache j).ref = 0

def Room (d : Disk) (n k : ℕ) : Prop :=
  DIRENT*k+DIRENT ≤ MAXFILE*BSIZE ∧
    missing ⟨d,n,d.dinode n⟩ (range (DIRENT*k) DIRENT) ≤ freeBlocks d

theorem iget_exact (b : Books first s U L) (n : ℕ) :
    Meets (iget ROOTDEV n) s (fun _ _ => CanGet s n) (fun _ => ¬CanGet s n) := by
  refine meets_mono (iget_cases n s) (fun i t h => ?_) ?_
  · exact h.imp (fun h => ⟨i,h.1,h.2.1⟩) (fun h => ⟨i,h.1⟩)
  · rintro _ ⟨-,h⟩ (⟨j,hj,hn⟩ | ⟨j,hj⟩)
    · exact (h j).2 (b.dev j hj) hn
    · exact absurd hj (h j).1.ne'

theorem dirlookup_exact (b : Books first s U L) (hm : h ∈ L) (hd : OpenDir s h) (x : Name) :
    Meets (dirlookup h.ip x) s
      (fun _ _ => ∀ k n, findEntry x (nodes s.disk h.inum).slots = some (k,n) → CanGet s n)
      (fun _ => ∃ k n, findEntry x (nodes s.disk h.inum).slots = some (k,n) ∧ ¬CanGet s n) := by
  cases hf : findEntry x (nodes s.disk h.inum).slots with
  | none => exact meets_of_ok (dirlookup_absent b hm hd hf) (fun _ _ he => by cases he)
  | some y =>
    refine meets_of_eq (dirlookup_present b hm hd (k := y.1) (n := y.2) hf)
      (meets_bind (meets_mono (iget_exact b y.2) (fun _ _ hc => hc) (fun _ hc => ⟨_,_,rfl,hc⟩)) ?_)
    intro i t hc
    refine meets_pure (fun k n he => ?_)
    cases he
    exact hc

/-- `writei` at most at the end of a file stops just when blocks are missing. -/
theorem writei_room {need : ℕ → ℕ → Prop} {loose : ℕ → Prop} (hh : Holds w need loose first)
    (hl : w.copy.type ≠ .free) (hd : w.copy.type ≠ .dev) (device : ℤ → Option ℕ) (off : ℕ)
    (src : List UInt8) (hoff : off ≤ w.copy.size) (h32 : off+src.length < 2^32) :
    Meets (writei device off src) w
      (fun r _ => (r = some src.length → off+src.length ≤ MAXFILE*BSIZE ∧
        missing w (range off src.length) ≤ freeBlocks w.disk) ∧
        (r ≠ some src.length → ¬off+src.length ≤ MAXFILE*BSIZE))
      (fun _ => freeBlocks w.disk < missing w (range off src.length)) := by
  have hrange : ¬(w.copy.size < off ∨ (off+src.length)%2^32 < off) := by omega
  by_cases hmax : MAXFILE*BSIZE < off+src.length
  · refine meets_of_ok ((if_neg hd).trans ((if_neg hrange).trans (if_pos hmax)))
      ⟨fun hr => absurd hr (by simp),fun _ => ?_⟩
    omega
  · refine meets_of_eq ((if_neg hd).trans ((if_neg hrange).trans (if_neg hmax))) ?_
    refine meets_bind (writeLoop_room src.length hh hl (le_refl _) (by omega)) ?_
    intro last u hu
    obtain ⟨v,hv,-⟩ := InodeContents.growTo_table last src.length u
    refine meets_bind_ok hv (meets_pure ⟨fun _ => ⟨by omega,by omega⟩,fun hr => absurd rfl hr⟩)

theorem writeDirent_exact (b : Books first s U (h::L)) (hd : OpenDir s h) (message : String) {k : ℕ}
    (hk : k ≤ (nodes s.disk h.inum).slots.length) (e : Dirent) :
    Meets (writeDirent message h.ip (DIRENT*k) e) s (fun _ _ => Room s.disk h.inum k)
      (fun _ => ¬Room s.disk h.inum k) := by
  have hm : h ∈ h::L := by simp
  obtain ⟨_,hv,hc,ht⟩ := locked_entry b hm hd.locked
  have hin := (b.held h hm).1
  obtain ⟨hmax,hmod⟩ := openDir_size b hd
  have hwork : workOf s h.ip = ⟨s.disk,h.inum,s.disk.dinode h.inum⟩ := by rw [workOf, hin, hc]
  have hco := coherent_workOf b (ref_pos b hm) hv
  have hk' : k ≤ (s.disk.dinode h.inum).size/DIRENT := by
    rwa [nodes_slots hd.dir, slots_length] at hk
  have hlen := encode_length e
  have hw := writei_room (holds_of_sound b.sound hco) (by rw [hwork]; exact ht)
    (by rw [hwork, hd.dir]; decide) (fun _ => none) (DIRENT*k) e.encode ?_ ?_
  · rw [hlen] at hw
    refine meets_bind (meets_mono (onInode_meets hw) (fun _ _ hq => hq) ?_) ?_
    · rintro _ ⟨_,-,hf⟩ hroom
      rw [hwork] at hf
      exact absurd hroom.2 (Nat.not_le_of_lt hf)
    · rintro r t ⟨v,⟨hyes,hno⟩,-⟩
      by_cases hr : r = some DIRENT
      · rw [if_pos hr]
        have hroom := hyes hr
        rw [hwork] at hroom
        exact meets_pure hroom
      · rw [if_neg hr]
        exact meets_of_error rfl (fun hroom => hno hr hroom.1)
  · rw [hwork]
    simp only [DIRENT, DIRSIZ] at *
    omega
  · rw [hlen]
    simp only [DIRENT, DIRSIZ, MAXFILE, NDIRECT, NINDIRECT, BSIZE] at *
    omega

end Resources

section Laws

structure Good (first : ℕ) (U : Ip → ℕ) (L : List Hold) (h : Hold) (s : Fs) : Prop where
  books : Books first s U (h::L)
  dir : OpenDir s h
  distinct : Distinct (nodes s.disk h.inum).slots

def binding (s : Fs) (h : Hold) (x : Name) : Option (ℕ × ℕ) :=
  findEntry x (nodes s.disk h.inum).slots

inductive Op where
  | link (name : List UInt8) (inum : ℕ)
  | clear (k : ℕ)

def clearAt (dp : Ip) (off : ℕ) : FsM Unit :=
  NameBytes.writeRaw "unlink: writei" dp off (List.replicate DIRENT 0)

def perform (h : Hold) : Op → FsM Bool
  | .link name inum => NameBytes.dirlink h.ip name inum
  | .clear k => do
    clearAt h.ip (DIRENT*k)
    pure true

def Legal (s : Fs) (h : Hold) : Op → Prop
  | .link name inum => key name ≠ [] ∧ 0 < inum ∧ inum < 2^16
  | .clear k => ∃ x n, binding s h x = some (k,n)

inductive Steps (h : Hold) : Fs → List Op → Fs → Prop
  | nil (s : Fs) : Steps h s [] s
  | cons {s t u : Fs} {op : Op} {ops : List Op} {r : Bool} (hl : Legal s h op)
      (hx : perform h op s = .ok (r,t)) (hs : Steps h t ops u) : Steps h s (op::ops) u

structure LookupLaw (s t : Fs) (h : Hold) (x : Name) (r : Option (ℕ × Ip)) : Prop where
  disk : t.disk = s.disk
  result : r.map (fun y => (y.1,(t.icache y.2).inum)) =
    (binding s h x).map (fun y => (DIRENT*y.1,y.2))

def Reuses (l : List Dirent) (k : ℕ) : Prop :=
  (∃ (j : ℕ) (e : Dirent), l[j]? = some e ∧ e.inum = 0) → ∃ e, l[k]? = some e ∧ e.inum = 0

structure LinkLaw (s t : Fs) (h : Hold) (x : Name) (inum : ℕ) (r : Bool) : Prop where
  refused : r = false ↔ binding s h x ≠ none
  same : r = false → t.disk = s.disk ∧ ∀ j, (t.icache j).ref = (s.icache j).ref
  added : r = true → ∃ k, Reuses (nodes s.disk h.inum).slots k ∧
    ∀ y, binding t h y = if y = x then some (k,inum) else binding s h y
  others : ∀ m, m ≠ h.inum → nodes t.disk m = nodes s.disk m

def Able (s : Fs) (L : List Hold) (h : Hold) (x : Name) : Prop :=
  (∀ k m, binding s h x = some (k,m) → CanGet s m ∧ ¬Locked (h::L) m) ∧
  (binding s h x = none → Room s.disk h.inum (emptyPlace (nodes s.disk h.inum).slots))

theorem emptyPlace_empty (l : List Dirent) : ∀ f, l[emptyPlace l]? = some f → f.inum = 0 := by
  intro f hf
  unfold emptyPlace at hf
  cases he : firstSlot isEmpty l with
  | none =>
    rw [he, Option.map_none, Option.getD_none, List.getElem?_eq_none (le_refl _)] at hf
    cases hf
  | some x =>
    obtain ⟨h1,h2⟩ := firstSlot_some (k := x.1) (e := x.2) he
    rw [he, Option.map_some, Option.getD_some, h1, Option.some.injEq] at hf
    rw [← hf]
    simpa [isEmpty] using h2

theorem emptyPlace_reuses (l : List Dirent) : Reuses l (emptyPlace l) := by
  rintro ⟨j,e,hj,he⟩
  unfold emptyPlace
  cases hf : firstSlot isEmpty l with
  | none =>
    have := firstSlot_none hf j e hj
    simp [isEmpty, he] at this
  | some x =>
    obtain ⟨h1,h2⟩ := firstSlot_some (k := x.1) (e := x.2) hf
    exact ⟨x.2,h1,by simpa [isEmpty] using h2⟩

theorem dirlink_exact (b : Books first s U (h::L)) (hd : OpenDir s h) (x : Name) (n : ℕ) :
    Meets (dirlink h.ip x n) s (fun _ _ => Able s L h x) (fun _ => ¬Able s L h x) := by
  have hm : h ∈ h::L := by simp
  cases hf : findEntry x (nodes s.disk h.inum).slots with
  | none =>
    refine meets_bind_ok (dirlookup_absent b hm hd hf) ?_
    refine meets_bind (Q := fun _ _ => Able s L h x) ?_ (fun _ _ ha => meets_pure ha)
    refine meets_of_eq (addEntry_run b hd x n) ?_
    refine meets_mono (writeDirent_exact b hd "dirlink" (emptyPlace_le _) ⟨n,x⟩) (fun _ _ hr => ?_)
      (fun _ hr ha => hr (ha.2 hf))
    exact ⟨fun k m hb => absurd (hf.symm.trans hb) (by simp),fun _ => hr⟩
  | some y =>
    obtain ⟨k,m⟩ := y
    refine meets_bind (meets_mono
      (meets_and (dirlookup_meets b hm hd x) (dirlookup_exact b hm hd x))
      (fun _ _ ht => ht) ?_) ?_
    · rintro _ ⟨-,k',n',hf',hc⟩ ha
      exact hc (ha.1 k' n' hf').1
    · rintro r t ⟨⟨hfound,hdt,-⟩,hcan⟩
      cases hfound with
      | absent hnone bt =>
        rw [hf] at hnone
        cases hnone
      | @present _ k' m' i hsome bt =>
        obtain ⟨rfl,rfl⟩ := Prod.mk.inj (Option.some.inj (hf.symm.trans hsome))
        by_cases hlk : Locked (h::L) m
        · have hdead : iput i t = .error .deadlock := if_pos (locked_of_mem bt hlk)
          refine meets_bind (Q := fun _ _ => False) (meets_of_error hdead ?_)
            (fun _ _ hx => hx.elim)
          exact fun ha => (ha.1 k m hf).2 hlk
        · refine meets_bind (meets_mono (iput_meets bt rfl (locksOf_eq_zero bt hlk) rfl)
            (fun _ _ hu => hu) (fun _ hx => hx.elim)) ?_
          intro _ u _
          refine meets_pure ⟨fun k' m' hb => ?_,fun hb => ?_⟩
          · obtain ⟨rfl,rfl⟩ := Prod.mk.inj (Option.some.inj (hf.symm.trans hb))
            exact ⟨hcan k m hf,hlk⟩
          · exact absurd (hf.symm.trans hb) (by simp)

theorem good_of_nodes (bt : Books first t U (h::L)) (hd : OpenDir s h) {l : List Dirent}
    (hn : nodes t.disk = update (nodes s.disk) h.inum { nodes s.disk h.inum with slots := l })
    (hl : Distinct l) : Good first U L h t := by
  have hself : nodes t.disk h.inum = { nodes s.disk h.inum with slots := l } := by
    rw [hn, update_self]
  refine ⟨bt,⟨hd.locked,?_⟩,by rwa [hself]⟩
  exact (congrArg Node.type hself).trans hd.dir

theorem dirlookup_law (g : Good first U L h s) (name : List UInt8) :
    (∃ r t, NameBytes.dirlookup h.ip name s = .ok (r,t) ∧ LookupLaw s t h (key name) r) ↔
      ∀ k m, binding s h (key name) = some (k,m) → CanGet s m := by
  have hm : h ∈ h::L := by simp
  have hx := dirlookup_exact g.books hm g.dir (key name)
  rw [NameBytes.dirlookup_key]
  constructor
  · rintro ⟨r,t,hr,-⟩
    exact meets_ok hx hr
  · intro hcan
    obtain ⟨r,t,hr,⟨hf,hdt,-⟩,-⟩ :=
      meets_exists (meets_and (dirlookup_meets g.books hm g.dir (key name)) hx)
      (fun _ he => he.2.elim fun k hk => hk.elim fun n hn => hn.2 (hcan k n hn.1))
    refine ⟨r,t,hr,hdt,?_⟩
    cases hf with
    | absent hnone bt =>
      rw [binding, hnone]
      rfl
    | present hsome bt =>
      rw [binding, hsome]
      exact congrArg (fun n => some (_,n)) (bt.held _ List.mem_cons_self).1

theorem dirlink_meets_law (g : Good first U L h s) {name : List UInt8} {inum : ℕ}
    (hne : key name ≠ [])
    (h0 : 0 < inum) (h16 : inum < 2^16) :
    Meets (NameBytes.dirlink h.ip name inum) s (fun r t =>
      LinkLaw s t h (key name) inum r ∧ Good first U L h t) (fun _ => ¬Able s L h (key name)) := by
  rw [NameBytes.dirlink_key]
  refine meets_mono (meets_and (dirlink_meets g.books g.dir (NameBytes.key_fits name) inum)
    (dirlink_exact g.books g.dir (key name) inum)) ?_ (fun _ he => he.2)
  rintro r t ⟨⟨hlink,-⟩,-⟩
  cases hlink with
  | added hnone bt hni hnodes =>
    rw [Nat.mod_eq_of_lt h16] at hnodes
    have hdist := distinct_put (e := ⟨inum,key name⟩) g.distinct (emptyPlace_le _) hnone hne
    refine ⟨⟨?_,fun hr => absurd hr (by decide),fun _ => ⟨_,emptyPlace_reuses _,fun y => ?_⟩,
      fun m hm => ?_⟩,
      good_of_nodes bt g.dir hnodes hdist⟩
    · simp [binding, hnone]
    · rw [binding, hnodes, update_self]
      exact findEntry_put (e := ⟨inum,key name⟩) g.distinct (emptyPlace_le _) (emptyPlace_empty _)
        hnone hne (by simp only; omega) y
    · rw [hnodes, update_of_ne hm]
  | refused hsome hm bt hdt =>
    refine ⟨⟨?_,fun _ => ⟨hdt,fun j => by rw [bt.refs, g.books.refs]⟩,fun hr =>
      absurd hr (by decide),
      fun m _ => by rw [hdt]⟩,bt,⟨g.dir.locked,by rw [hdt]; exact g.dir.dir⟩,
        by rw [hdt]; exact g.distinct⟩
    simp [binding, hsome]

/-- The places of a directory have their blocks. -/
theorem room_inside (b : Books first s U (h::L)) (hd : OpenDir s h) {k : ℕ}
    (hk : k < (nodes s.disk h.inum).slots.length) : Room s.disk h.inum k := by
  obtain ⟨hmax,hmod⟩ := openDir_size b hd
  rw [nodes_slots hd.dir, slots_length] at hk
  have hle : DIRENT*k+DIRENT ≤ (s.disk.dinode h.inum).size := by
    simp only [DIRENT, DIRSIZ] at *
    omega
  have hl : (s.disk.dinode h.inum).type ≠ .free := by rw [hd.dir]; decide
  have hh : Holds ⟨s.disk,h.inum,s.disk.dinode h.inum⟩ (sized s.disk.dinode)
      BlockMap.noBlock first :=
    holds_of_sound b.sound rfl
  refine ⟨by omega,?_⟩
  have hnone : holes ⟨s.disk,h.inum,s.disk.dinode h.inum⟩ (range (DIRENT*k) DIRENT) = ∅ := by
    rw [Finset.eq_empty_iff_forall_notMem]
    intro j hj
    obtain ⟨h1,h2,h3⟩ := mem_holes.mp hj
    exact (addr_zero_iff hh hl h1).mp h3 (InodeContents.covers_of_range hle h2)
  rw [missing, hnone, Finset.card_empty]
  exact Nat.zero_le _

theorem clear_law (g : Good first U L h s) {x : Name} {k n : ℕ} (hb : binding s h x = some (k,n)) :
    ∃ t, clearAt h.ip (DIRENT*k) s = .ok ((),t) ∧ Good first U L h t ∧
      (∀ y, binding t h y = if y = x then none else binding s h y) ∧
      ∀ m, m ≠ h.inum → nodes t.disk m = nodes s.disk m := by
  obtain ⟨e,hek,-⟩ := (findEntry_iff g.distinct).mp hb
  have hk : k < (nodes s.disk h.inum).slots.length := (List.getElem?_eq_some_iff.mp hek).1
  have hzero : Dirent.decode (Dirent.encode ⟨0,[]⟩) = ⟨0,[]⟩ := by decide
  obtain ⟨_,t,hx,⟨bt,-,hnodes,-⟩,-⟩ := meets_exists (meets_and
    (writeDirent_meets g.books g.dir "unlink: writei" (le_of_lt hk) ⟨0,[]⟩)
    (writeDirent_exact g.books g.dir "unlink: writei" (le_of_lt hk) ⟨0,[]⟩))
    (fun _ he => he.2 (room_inside g.books g.dir hk))
  rw [hzero] at hnodes
  refine ⟨t,hx,good_of_nodes bt g.dir hnodes (distinct_clear g.distinct (le_of_lt hk)),fun y => ?_,
    fun m hm => by rw [hnodes, update_of_ne hm]⟩
  rw [binding, hnodes, update_self]
  exact findEntry_clear g.distinct hb y

theorem good_step (g : Good first U L h s) {op : Op} (hl : Legal s h op) {r : Bool}
    (hx : perform h op s = .ok (r,t)) : Good first U L h t := by
  cases op with
  | link name inum =>
    obtain ⟨h1,h2,h3⟩ := hl
    exact (meets_ok (dirlink_meets_law g h1 h2 h3) hx).2
  | clear k =>
    obtain ⟨x,n,hb⟩ := hl
    obtain ⟨u,hu,gu,-⟩ := clear_law g hb
    have hrun : perform h (.clear k) s = .ok (true,u) := run_bind_ok hu
    rw [hrun] at hx
    cases hx
    exact gu

theorem good_steps {ops : List Op} (g : Good first U L h s) (hs : Steps h s ops t) :
    Good first U L h t := by
  induction hs with
  | nil => exact g
  | cons hl hx _ ih => exact ih (good_step g hl hx)

/-- Directories are finite maps. In every state that calls of `dirlink` and
clearings that return lead to, the names are distinct, `dirlookup` and
`dirlink` do what the map says just when they have what they need, and
clearing an entry takes its binding away. -/
theorem directory_is_map (first : ℕ) (U : Ip → ℕ) (L : List Hold) (h : Hold) (s t : Fs)
    (ops : List Op)
    (g : Good first U L h s) (hs : Steps h s ops t) :
    Distinct (nodes t.disk h.inum).slots ∧
    (∀ name, (∃ r u, NameBytes.dirlookup h.ip name t = .ok (r,u) ∧ LookupLaw t u h (key name) r) ↔
      ∀ k m, binding t h (key name) = some (k,m) → CanGet t m) ∧
    (∀ name inum, Legal t h (.link name inum) →
      ((∃ r u, perform h (.link name inum) t = .ok (r,u) ∧ LinkLaw t u h (key name) inum r) ↔
        Able t L h (key name))) ∧
    ∀ k x n, binding t h x = some (k,n) → ∃ u, perform h (.clear k) t = .ok (true,u) ∧
      (∀ y, binding u h y = if y = x then none else binding t h y) ∧
      ∀ m, m ≠ h.inum → nodes u.disk m = nodes t.disk m := by
  have gt := good_steps g hs
  refine ⟨gt.distinct,dirlookup_law gt,fun name inum hl => ?_,fun k x n hb => ?_⟩
  · obtain ⟨h1,h2,h3⟩ := hl
    have hm := dirlink_meets_law gt h1 h2 h3
    have hx := dirlink_exact gt.books gt.dir (key name) inum
    constructor
    · rintro ⟨r,u,hr,-⟩
      have hr' : NameBytes.dirlink h.ip name inum t = .ok (r,u) := hr
      rw [NameBytes.dirlink_key] at hr'
      exact meets_ok hx hr'
    · intro ha
      obtain ⟨r,u,hr,hlaw,-⟩ := meets_exists hm (fun _ hn => hn ha)
      exact ⟨r,u,hr,hlaw⟩
  · obtain ⟨u,hu,-,hbind,hothers⟩ := clear_law gt hb
    exact ⟨u,run_bind_ok hu,hbind,hothers⟩

end Laws

section Root

open PathLookup (twig twigFs twigFs_quiet)

def rootFs : Fs :=
  twigFs.setEntry 0 { twigFs.icache 0 with ref := 2, locked := true }

def rootHold : Hold := ⟨0,1,true,false⟩

theorem rootFs_slots :
    (nodes rootFs.disk 1).slots = [⟨1,dot⟩,⟨1,dotdot⟩,⟨2,[102]⟩] := by decide +kernel

theorem rootFs_good : Good 20 (fun i => (twigFs.icache i).ref) [] rootHold rootFs := by
  have hdup := meets_ok (idup_meets (i := 0) twigFs_quiet (by decide)) rfl
  have hlock := meets_ok (ilock_meets hdup.1 rfl rfl) rfl
  refine ⟨?_,⟨rfl,rfl⟩,?_⟩
  · refine cast (congrArg (fun z => Books 20 z _ _) ?_) hlock.1
    simp only [rootFs, Fs.setEntry, update_self, update_idem]
    rfl
  · show Distinct (nodes rootFs.disk 1).slots
    rw [rootFs_slots]
    exact distinct_of_nodup (by decide) (by decide)

/-- An entry `g` is added to the root directory. -/
theorem directory_is_map_root : ∃ r u, perform rootHold (.link [103] 2) rootFs = .ok (r,u) ∧
    LinkLaw rootFs u rootHold (key [103]) 2 r := by
  have hnone : binding rootFs rootHold (key [103]) = none := by
    rw [binding]
    show findEntry _ (nodes rootFs.disk 1).slots = none
    rw [rootFs_slots]
    decide
  have hplace : emptyPlace (nodes rootFs.disk rootHold.inum).slots = 3 := by
    show emptyPlace (nodes rootFs.disk 1).slots = 3
    rw [rootFs_slots]
    decide
  have hable : Able rootFs [] rootHold (key [103]) := by
    refine ⟨fun k m hb => absurd (hnone.symm.trans hb) (by simp),fun _ => ?_⟩
    rw [hplace]
    exact ⟨by decide,by decide +kernel⟩
  have g := rootFs_good
  generalize rootFs = s at *
  obtain ⟨-,-,hlink,-⟩ := directory_is_map 20 (fun i => (twigFs.icache i).ref) [] rootHold s s [] g
    (.nil s)
  exact (hlink [103] 2 ⟨by decide,by decide,by decide⟩).mpr hable

def haltOf {α : Type} : Except Halt α → Option Halt
  | .error e => some e
  | .ok _ => none

/-- `dirlink` on the root directory with the name `.` never returns. -/
theorem dirlink_dot_deadlock : haltOf (NameBytes.dirlink 0 [46] 5 rootFs) = some .deadlock ∧
    binding rootFs rootHold (key [46]) = some (0,1) := by
  decide +kernel

end Root

end Xv6.DirectoryMap
