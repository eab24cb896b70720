import Mathlib.Data.List.TakeWhile
import Xv6.DirectoryFile

/-!
# Names and paths as bytes

`dirlookup`, `dirlink` and `namex` work on C strings: lists of bytes from a
pointer on, which read as 0 behind their end. What they do depends on the key of
a name alone: its bytes up to the first NUL, `DIRSIZ` of them at most.
-/

set_option autoImplicit false

namespace Xv6.NameBytes
open Function ByteStore StateRuns BlockLayer DirectoryFile
open FsState (Fs FsM Ip Name Dirent Halt DIRSIZ DIRENT ROOTDEV ROOTINO onInode offsets stop slash
  named iget iput ilock iunlock iunlockput typeOf pathStart walk elements readDirent
  writeDirent scan)
open KernelState (Slot)

def cut (n : ℕ) (p : List UInt8) : Name := (p.take n).takeWhile (· ≠ 0)

abbrev key (p : List UInt8) : Name := cut DIRSIZ p

section Strings

def strncmp : ℕ → List UInt8 → List UInt8 → ℤ
  | 0, _, _ => 0
  | n+1, p, q =>
    if p.headD 0 ≠ 0 ∧ p.headD 0 = q.headD 0 then strncmp n p.tail q.tail
    else ((p.headD 0).toNat : ℤ)-(q.headD 0).toNat

def strncpy : ℕ → List UInt8 → List UInt8
  | 0, _ => []
  | n+1, t => t.headD 0::if t.headD 0 = 0 then List.replicate n 0 else strncpy n t.tail

def namecmp (s t : List UInt8) : ℤ := strncmp DIRSIZ s t

theorem cut_succ (n : ℕ) (p : List UInt8) :
    cut (n+1) p = if p.headD 0 = 0 then [] else p.headD 0::cut n p.tail := by
  cases p with
  | nil => rfl
  | cons c l =>
    by_cases hc : c = 0
    · simp [cut, hc]
    · simp [cut, hc]

theorem cut_length (n : ℕ) (p : List UInt8) : (cut n p).length ≤ n :=
  (List.takeWhile_prefix _).length_le.trans (List.length_take_le ..)

theorem cut_no_nul (n : ℕ) (p : List UInt8) : 0 ∉ cut n p := by
  intro h
  simpa using List.mem_takeWhile_imp h

theorem key_fits (p : List UInt8) : Fits (key p) := ⟨cut_length ..,cut_no_nul _ p⟩

/-- Strings compare equal when they agree up to the NUL. -/
theorem strncmp_eq_zero (n : ℕ) (p q : List UInt8) : strncmp n p q = 0 ↔ cut n p = cut n q := by
  induction n generalizing p q with
  | zero => simp [strncmp, cut]
  | succ n ih =>
    rw [strncmp, cut_succ, cut_succ]
    by_cases hp : p.headD 0 = 0
    · rw [if_neg (fun h => h.1 hp), if_pos hp, hp]
      by_cases hq : q.headD 0 = 0
      · rw [hq, if_pos rfl]
        simp
      · have hne : (q.headD 0).toNat ≠ 0 := fun h0 => hq (UInt8.toNat_inj.mp h0)
        rw [if_neg hq]
        simpa using hne
    rw [if_neg hp]
    by_cases hpq : p.headD 0 = q.headD 0
    · rw [if_pos ⟨hp,hpq⟩, if_neg (hpq ▸ hp), ih, hpq]
      simp
    · have hne : (p.headD 0).toNat ≠ (q.headD 0).toNat := fun h0 => hpq (UInt8.toNat_inj.mp h0)
      rw [if_neg (fun h => hpq h.2)]
      constructor
      · intro h
        omega
      · intro h
        split at h
        · cases h
        · exact absurd (List.cons.inj h).1 hpq

theorem namecmp_eq_zero (p q : List UInt8) : namecmp p q = 0 ↔ key p = key q :=
  strncmp_eq_zero ..

theorem strncpy_eq (n : ℕ) (t : List UInt8) :
    strncpy n t = cut n t++List.replicate (n-(cut n t).length) 0 := by
  induction n generalizing t with
  | zero => simp [strncpy, cut]
  | succ n ih =>
    rw [strncpy, cut_succ]
    by_cases ht : t.headD 0 = 0
    · rw [if_pos ht, if_pos ht, ht]
      rfl
    · rw [if_neg ht, if_neg ht, ih, List.length_cons, Nat.add_sub_add_right]
      rfl

end Strings

section Entries

def readRaw (message : String) (dp : Ip) (off : ℕ) : FsM (List UInt8) := do
  match ← onInode dp (readi (fun _ => none) off DIRENT) with
  | some l => if l.length = DIRENT then pure l else stop (.panic message)
  | none => stop (.panic message)

def scanRaw (message : String) (dp : Ip) (test : List UInt8 → Bool) :
    List ℕ → FsM (Option (ℕ × List UInt8))
  | [] => pure none
  | off::rest => do
    let de ← readRaw message dp off
    if test de then pure (some (off,de)) else scanRaw message dp test rest

def inumField (de : List UInt8) : ℕ := leNumber (de.take 2)
def nameField (de : List UInt8) : List UInt8 := de.drop 2

def isNamed (name de : List UInt8) : Bool := inumField de ≠ 0 ∧ namecmp name (nameField de) = 0

def dirlookup (dp : Ip) (name : List UInt8) : FsM (Option (ℕ × Ip)) := fun s =>
  if (s.icache dp).copy.type ≠ .dir then .error (.panic "dirlookup not DIR")
  else (do
    match ← scanRaw "dirlookup read" dp (isNamed name) (offsets s dp) with
    | none => pure none
    | some (off,de) =>
      let ip ← iget (s.icache dp).dev (inumField de)
      pure (some (off,ip))) s

def writeRaw (message : String) (dp : Ip) (off : ℕ) (de : List UInt8) : FsM Unit := do
  if (← onInode dp (writei (fun _ => none) off de)) = some DIRENT then pure ()
  else stop (.panic message)

def addEntry (dp : Ip) (name : List UInt8) (inum : ℕ) : FsM Unit := fun s => (do
  let empty ← scanRaw "dirlink read" dp (fun de => inumField de = 0) (offsets s dp)
  writeRaw "dirlink" dp ((empty.map Prod.fst).getD (DIRENT*(offsets s dp).length))
    (leBytes 2 inum++strncpy DIRSIZ name)) s

def dirlink (dp : Ip) (name : List UInt8) (inum : ℕ) : FsM Bool := do
  match ← dirlookup dp name with
  | some (_,ip) =>
    iput ip
    pure false
  | none =>
    addEntry dp name inum
    pure true

theorem decode_name {de : List UInt8} (h : de.length = DIRENT) :
    (Dirent.decode de).name = key (nameField de) := by
  rw [key, cut, nameField, List.take_of_length_le (by rw [List.length_drop, h]; decide)]
  rfl

theorem isNamed_eq (name : List UInt8) {de : List UInt8} (h : de.length = DIRENT) :
    isNamed name de = named (key name) (Dirent.decode de) := by
  rw [isNamed, named, decide_eq_decide, namecmp_eq_zero, decode_name h]
  exact and_congr_right fun _ => eq_comm

/-- A scan of the bytes is a scan of the entries. -/
theorem scanRaw_eq (message : String) (dp : Ip) (test : List UInt8 → Bool) (test' : Dirent → Bool)
    (h : ∀ de : List UInt8, de.length = DIRENT → test de = test' (Dirent.decode de))
      (offs : List ℕ) :
    scan message dp test' offs =
      Option.map (fun x => (x.1,Dirent.decode x.2)) <$> scanRaw message dp test offs := by
  induction offs with
  | nil => rfl
  | cons off offs ih =>
    funext s
    unfold scan scanRaw readDirent readRaw
    simp only [map_bind, bind_assoc]
    cases hr : onInode dp (readi (fun _ => none) off DIRENT) s with
    | error e => rw [run_bind_error hr, run_bind_error hr]
    | ok p =>
      obtain ⟨r,t⟩ := p
      rw [run_bind_ok hr, run_bind_ok hr]
      cases r with
      | none => rfl
      | some de =>
        by_cases hl : de.length = DIRENT
        · simp only [hl, if_true, pure_bind, ← h de hl, ih]
          by_cases ht : test de = true
          · simp [ht]
          · simp [ht]
        · simp only [hl, if_false]
          rfl

theorem dirlookup_key (dp : Ip) (name : List UInt8) :
    dirlookup dp name = FsState.dirlookup dp (key name) := by
  funext s
  unfold dirlookup FsState.dirlookup
  by_cases hd : (s.icache dp).copy.type ≠ .dir
  · rw [if_pos hd, if_pos hd]
  rw [if_neg hd, if_neg hd, scanRaw_eq _ _ (isNamed name) _ (fun de h => isNamed_eq name h)]
  simp only [map_eq_pure_bind, bind_assoc, pure_bind]
  refine congrFun (bind_congr fun r => ?_) s
  cases r <;> rfl

theorem writeRaw_encode (message : String) (dp : Ip) (off : ℕ) (name : List UInt8) (inum : ℕ) :
    writeRaw message dp off (leBytes 2 inum++strncpy DIRSIZ name) =
      writeDirent message dp off ⟨inum,key name⟩ := by
  have hpad : strncpy DIRSIZ name = (key name++List.replicate DIRSIZ 0).take DIRSIZ := by
    rw [strncpy_eq, List.take_append, List.take_of_length_le (cut_length ..), List.take_replicate,
      min_eq_left (Nat.sub_le ..)]
  rw [hpad]
  rfl

theorem dirlink_key (dp : Ip) (name : List UInt8) (inum : ℕ) :
    dirlink dp name inum = FsState.dirlink dp (key name) inum := by
  have hadd : addEntry dp name inum = FsState.addEntry dp (key name) inum := by
    funext s
    unfold addEntry FsState.addEntry
    rw [scanRaw_eq _ _ (fun de => inumField de = 0) _ (fun _ _ => rfl)]
    simp only [map_eq_pure_bind, bind_assoc, pure_bind]
    refine congrFun (bind_congr fun r => ?_) s
    rw [writeRaw_encode, Option.map_map]
    rfl
  unfold dirlink FsState.dirlink
  refine (congrArg (fun z => z >>= _) (dirlookup_key dp name)).trans (bind_congr fun r => ?_)
  cases r with
  | none => exact congrArg (fun z => z >>= fun _ => pure true) hadd
  | some x => rfl

end Entries

section Paths

def storeName (elem name : List UInt8) : List UInt8 :=
  if DIRSIZ ≤ elem.length then elem.take DIRSIZ++name.drop DIRSIZ
  else elem++0::name.drop (elem.length+1)

def skipelem (path name : List UInt8) : Option (List UInt8 × List UInt8) :=
  match path.dropWhile (· = slash) with
  | [] => none
  | c::l => some (((c::l).dropWhile (· ≠ slash)).dropWhile (· = slash),
      storeName ((c::l).takeWhile (· ≠ slash)) name)

def iterate : ℕ → List UInt8 → List UInt8 → Option (List (List UInt8))
  | 0, _, _ => none
  | k+1, path, name => match skipelem path name with
    | none => some []
    | some (rest,buf) => (iterate k rest buf).map (buf::·)

def components (path : List UInt8) : List Name :=
  ((path.splitOn slash).filter (· ≠ [])).map (List.take DIRSIZ)

theorem components_slash (l : List UInt8) : components (slash::l) = components l := by
  have h := List.splitOn_append_cons_self (a := slash) [] l
  rw [List.nil_append, List.splitOn_nil] at h
  rw [components, h]
  rfl

theorem components_drop (path : List UInt8) :
    components (path.dropWhile (· = slash)) = components path := by
  induction path with
  | nil => rfl
  | cons c l ih =>
    by_cases hc : c = slash
    · rw [List.dropWhile_cons_of_pos (by simpa using hc), ih, hc, components_slash]
    · rw [List.dropWhile_cons_of_neg (by simpa using hc)]

theorem components_element {e rest : List UInt8} (hne : e ≠ []) (hs : slash ∉ e)
    (hr : rest = [] ∨ ∃ l, rest = slash::l) :
    components (e++rest) = e.take DIRSIZ::components rest := by
  have he : (e.splitOn slash).filter (· ≠ []) = [e] := by
    rw [List.splitOn_eq_singleton hs]
    simp [hne]
  rcases hr with rfl | ⟨l,rfl⟩
  · rw [List.append_nil, components, he]
    rfl
  · rw [components_slash, components, List.splitOn_append_cons_self, List.filter_append, he]
    rfl

theorem drop_element (l : List UInt8) : l.dropWhile (· ≠ slash) = [] ∨
    ∃ r, l.dropWhile (· ≠ slash) = slash::r := by
  induction l with
  | nil => exact .inl rfl
  | cons c l ih =>
    by_cases hc : c = slash
    · exact .inr ⟨l,by rw [hc, List.dropWhile_cons_of_neg (by simp)]⟩
    · rwa [List.dropWhile_cons_of_pos (by simpa using hc)]

/-- What is left of a path has no slash at its front. -/
theorem drop_slashes (l : List UInt8) : l.dropWhile (· = slash) = [] ∨
    ∃ c r, c ≠ slash ∧ l.dropWhile (· = slash) = c::r := by
  induction l with
  | nil => exact .inl rfl
  | cons c l ih =>
    by_cases hc : c = slash
    · rwa [List.dropWhile_cons_of_pos (by simpa using hc)]
    · exact .inr ⟨c,l,hc,by rw [List.dropWhile_cons_of_neg (by simpa using hc)]⟩

theorem key_storeName {elem : List UInt8} (h0 : 0 ∉ elem) (name : List UInt8) :
    key (storeName elem name) = elem.take DIRSIZ := by
  have hall : ∀ n, (elem.take n).takeWhile (· ≠ 0) = elem.take n := by
    intro n
    rw [List.takeWhile_eq_self_iff]
    intro x hx
    have hne : x ≠ 0 := fun he => h0 (he ▸ List.mem_of_mem_take hx)
    simpa using hne
  unfold storeName key cut
  by_cases hl : DIRSIZ ≤ elem.length
  · rw [if_pos hl, List.take_append_of_le_length (by simp [hl]), List.take_take, min_self, hall]
  · have hle : elem.length ≤ DIRSIZ := by omega
    obtain ⟨m,hm⟩ : ∃ m, DIRSIZ-elem.length = m+1 := ⟨DIRSIZ-elem.length-1,by omega⟩
    rw [if_neg hl, List.take_append, List.take_of_length_le hle, hm, List.take_succ_cons]
    have he := hall DIRSIZ
    rw [List.take_of_length_le hle] at he
    rw [List.takeWhile_append, he, if_pos rfl, List.takeWhile_cons_of_neg (by simp),
      List.append_nil]

variable {path : List UInt8} {k : ℕ}

theorem skipelem_spec (h0 : 0 ∉ path) (name : List UInt8) :
    (skipelem path name = none ∧ components path = [] ∧ FsState.skipelem path = none) ∨
    ∃ rest buf, skipelem path name = some (rest,buf) ∧
      FsState.skipelem path = some (key buf,rest) ∧ components path = key buf::components rest ∧
      rest.length < path.length ∧ 0 ∉ rest ∧ (rest = [] ↔ components rest = []) := by
  rcases drop_slashes path with hd | ⟨c,l,hc,hd⟩
  · left
    refine ⟨?_,?_,?_⟩
    · rw [skipelem, hd]
    · rw [← components_drop, hd]
      rfl
    · rw [FsState.skipelem, hd]
  · right
    have hmem : ∀ x ∈ c::l, x ∈ path := fun x hx =>
      (List.dropWhile_suffix (l := path) (fun x : UInt8 => decide (x = slash))).subset (hd ▸ hx)
    have hne : (c::l).takeWhile (· ≠ slash) ≠ [] := by
      rw [List.takeWhile_cons_of_pos (by simpa using hc)]
      simp
    have hns : slash ∉ (c::l).takeWhile (· ≠ slash) := by
      intro h
      simpa using List.mem_takeWhile_imp h
    have h0e : 0 ∉ (c::l).takeWhile (· ≠ slash) :=
      fun h => h0 (hmem 0 ((List.takeWhile_prefix _).subset h))
    have hsplit := List.takeWhile_append_dropWhile (p := fun x : UInt8 => decide (x ≠ slash))
      (l := c::l)
    have hkey := key_storeName h0e name
    refine ⟨_,_,by rw [skipelem, hd],?_,?_,?_,?_,?_⟩
    · rw [FsState.skipelem, hd, hkey]
    · rw [← components_drop path, hd, hkey, components_drop]
      conv_lhs => rw [← hsplit]
      exact components_element hne hns (drop_element _)
    · have h1 : (path.dropWhile (· = slash)).length ≤ path.length := List.length_dropWhile_le ..
      have h2 : (((c::l).dropWhile (· ≠ slash)).dropWhile (· = slash)).length ≤
          ((c::l).dropWhile (· ≠ slash)).length := List.length_dropWhile_le ..
      have h3 := congrArg List.length hsplit
      have h4 := List.length_pos_iff.mpr hne
      rw [List.length_append] at h3
      rw [hd] at h1
      omega
    · intro h
      exact h0 (hmem 0 ((List.dropWhile_suffix _).subset ((List.dropWhile_suffix _).subset h)))
    · constructor
      · intro h
        rw [h]
        rfl
      · intro h
        rcases drop_slashes ((c::l).dropWhile (· ≠ slash)) with he | ⟨d,m,hdm,he⟩
        · exact he
        · have hne' : (d::m).takeWhile (· ≠ slash) ≠ [] := by
            rw [List.takeWhile_cons_of_pos (by simpa using hdm)]
            simp
          have hcomp := components_element hne' (fun hm => by simpa using List.mem_takeWhile_imp hm)
            (drop_element (d::m))
          rw [List.takeWhile_append_dropWhile] at hcomp
          rw [he, hcomp] at h
          cases h

theorem iterate_components (h0 : 0 ∉ path) (hk : path.length < k) (name : List UInt8) :
    ∃ bufs, iterate k path name = some bufs ∧ bufs.map key = components path := by
  induction k generalizing path name with
  | zero => omega
  | succ k ih =>
    rw [iterate]
    rcases skipelem_spec h0 name with ⟨hs,hc,-⟩ | ⟨rest,buf,hs,-,hc,hlen,h0r,-⟩
    · rw [hs]
      exact ⟨[],rfl,hc.symm⟩
    · rw [hs]
      obtain ⟨bufs,hb,hmap⟩ := ih h0r (by omega) buf
      exact ⟨buf::bufs,by simp only [hb, Option.map_some],by rw [List.map_cons, hmap, hc]⟩

theorem elements_components (h0 : 0 ∉ path) (hk : path.length ≤ k) :
    elements k path = components path := by
  induction k generalizing path with
  | zero =>
    obtain rfl : path = [] := List.eq_nil_of_length_eq_zero (by omega)
    rfl
  | succ k ih =>
    rw [elements]
    rcases skipelem_spec h0 [] with ⟨-,hc,hs⟩ | ⟨rest,buf,-,hs,hc,hlen,h0r,-⟩
    · rw [hs, hc]
    · rw [hs, hc]
      simp only
      rw [ih h0r (by omega)]

def namexLoop (parent : Bool) : ℕ → List UInt8 → List UInt8 → Ip → FsM (Option Ip × List UInt8)
  | 0, _, _, _ => stop .wild
  | k+1, path, name, ip => match skipelem path name with
    | none =>
      if parent then do
        iput ip
        pure (none,name)
      else pure (some ip,name)
    | some (rest,buf) => do
      ilock ip
      if (← typeOf ip) ≠ .dir then do
        iunlockput ip
        pure (none,buf)
      else if parent ∧ rest = [] then do
        iunlock ip
        pure (some ip,buf)
      else do
        match ← dirlookup ip buf with
        | none =>
          iunlockput ip
          pure (none,buf)
        | some (_,next) =>
          iunlockput ip
          namexLoop parent k rest buf next

def namex (p : Slot) (parent : Bool) (path name : List UInt8) : FsM (Option Ip × List UInt8) := do
  let ip ← pathStart p path
  namexLoop parent (path.length+1) path name ip

def namei (p : Slot) (path stale : List UInt8) : FsM (Option Ip) := do
  pure (← namex p false path stale).1

def nameiparent (p : Slot) (path name : List UInt8) : FsM (Option Ip × List UInt8) :=
  namex p true path name

def found (parent : Bool) (x : Option Ip × List UInt8) : Option (Ip × Name) :=
  x.1.map (fun i => (i,if parent then key x.2 else []))

theorem found_fst (parent : Bool) (x : Option Ip × List UInt8) :
    (found parent x).map Prod.fst = x.1 := by
  rw [found, Option.map_map]
  exact Option.map_id' ..

theorem found_snd (x : Option Ip × List UInt8) :
    (found true x).map Prod.snd = x.1.map (fun _ => key x.2) := by
  rw [found, Option.map_map]
  rfl

theorem namexLoop_walk (parent : Bool) (h0 : 0 ∉ path) (hk : path.length < k) (name : List UInt8)
    (ip : Ip) :
    found parent <$> namexLoop parent k path name ip = walk parent (components path) ip := by
  induction k generalizing path name ip with
  | zero => omega
  | succ k ih =>
    rw [namexLoop]
    rcases skipelem_spec h0 name with ⟨hs,hc,-⟩ | ⟨rest,buf,hs,-,hc,hlen,h0r,hrest⟩
    · rw [hs, hc, walk]
      cases parent with
      | true =>
        simp only [if_true, map_bind, map_pure]
        rfl
      | false => rfl
    · rw [hs, hc, walk]
      simp only [map_bind]
      refine bind_congr fun _ => bind_congr fun type => ?_
      by_cases ht : type ≠ .dir
      · rw [if_pos ht, if_pos ht, map_bind]
        rfl
      rw [if_neg ht, if_neg ht]
      by_cases hp : parent ∧ rest = []
      · rw [if_pos hp, if_pos ⟨hp.1,hrest.mp hp.2⟩, map_bind]
        refine bind_congr fun _ => ?_
        rw [map_pure, found, hp.1]
        rfl
      rw [if_neg hp, if_neg (fun h => hp ⟨h.1,hrest.mpr h.2⟩), dirlookup_key, map_bind]
      refine bind_congr fun r => ?_
      cases r with
      | none => rw [map_bind]; rfl
      | some x =>
        rw [map_bind]
        refine bind_congr fun _ => ?_
        exact ih h0r (by omega) buf x.2

/-- On bytes `namex` does what it does on components. -/
theorem namex_walk (p : Slot) (parent : Bool) (h0 : 0 ∉ path) (name : List UInt8) :
    found parent <$> namex p parent path name = FsState.namex p parent path := by
  rw [namex, FsState.namex, map_bind, elements_components h0 (le_refl _)]
  exact bind_congr fun ip => namexLoop_walk parent h0 (Nat.lt_succ_self _) name ip

end Paths

end Xv6.NameBytes
