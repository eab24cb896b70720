import Xv6.FileContent
import Xv6.FsState

/-!
# Directories as lists of entries

A directory is a file whose bytes are entries of 16 bytes. `nodes` is the view
of the disk that path lookup has: the type and the link count of each inode
and the entries of each directory. Writing an entry changes one place of one
list, and writing to a file changes no list.
-/

set_option autoImplicit false

namespace Xv6.DirectoryFile
open Function ByteStore BlockLayer FileContent FsState

def Fits (name : Name) : Prop := name.length ≤ DIRSIZ ∧ 0 ∉ name

structure Node where
  type : Kind
  nlink : ℤ
  slots : List Dirent
  deriving DecidableEq, Repr

def entryBytes (d : Disk) (n j : ℕ) : List UInt8 :=
  (List.range DIRENT).map (fun x => fileByte d n (DIRENT*j+x))

def entryAt (d : Disk) (n j : ℕ) : Dirent := Dirent.decode (entryBytes d n j)

def slots (d : Disk) (n : ℕ) : List Dirent :=
  (List.range ((d.dinode n).size/DIRENT)).map (entryAt d n)

def nodes (d : Disk) (n : ℕ) : Node :=
  ⟨(d.dinode n).type,(d.dinode n).nlink,if (d.dinode n).type = .dir then slots d n else []⟩

def firstSlot (test : Dirent → Bool) : List Dirent → Option (ℕ × Dirent)
  | [] => none
  | e::l => if test e then some (0,e) else (firstSlot test l).map (fun x => (x.1+1,x.2))

def findEntry (name : Name) (l : List Dirent) : Option (ℕ × ℕ) :=
  (firstSlot (named name) l).map (fun x => (x.1,x.2.inum))

def isEmpty (e : Dirent) : Bool := e.inum = 0

def placeAt (k : ℕ) (e : Dirent) (l : List Dirent) : List Dirent := l.take k++e::l.drop (k+1)

def putEntry (e : Dirent) (l : List Dirent) : List Dirent :=
  placeAt (((firstSlot isEmpty l).map Prod.fst).getD l.length) e l

def clearEntry (k : ℕ) (l : List Dirent) : List Dirent := placeAt k ⟨0,[]⟩ l

section Encoding

theorem encode_length (e : Dirent) : e.encode.length = DIRENT := by
  simp [Dirent.encode]

theorem takeWhile_padded (name : Name) (h0 : 0 ∉ name) (m : ℕ) :
    (name++List.replicate m 0).takeWhile (· ≠ 0) = name := by
  induction name with
  | nil => cases m <;> simp [List.replicate_succ]
  | cons x l ih =>
    simp only [List.mem_cons, not_or] at h0
    have hx : x ≠ 0 := fun he => h0.1 he.symm
    simp only [List.cons_append, ne_eq, hx, not_false_eq_true, decide_true,
      List.takeWhile_cons_of_pos, List.cons.injEq, true_and]
    exact ih h0.2

theorem decode_encode (n : ℕ) {name : Name} (h : Fits name) :
    Dirent.decode (Dirent.encode ⟨n,name⟩) = ⟨n%2^16,name⟩ := by
  have hname : (name++List.replicate DIRSIZ (0 : UInt8)).take DIRSIZ =
      name++List.replicate (DIRSIZ-name.length) 0 := by
    rw [List.take_append, List.take_of_length_le h.1, List.take_replicate,
      min_eq_left (Nat.sub_le ..)]
  rw [Dirent.decode, Dirent.encode, hname]
  simp only [Dirent.mk.injEq]
  constructor
  · rw [List.take_append_of_le_length (by simp), List.take_of_length_le (by simp),
      leNumber_leBytes]
    norm_num
  · rw [List.drop_append_of_le_length (by simp), List.drop_of_length_le (by simp), List.nil_append]
    exact takeWhile_padded name h.2 _

end Encoding

section Places

variable {l : List Dirent} {e : Dirent} {j k : ℕ}

theorem placeAt_length (h : k ≤ l.length) : (placeAt k e l).length = max l.length (k+1) := by
  simp only [placeAt, List.length_append, List.length_take, List.length_cons, List.length_drop]
  omega

theorem placeAt_getElem?_self (h : k ≤ l.length) : (placeAt k e l)[k]? = some e := by
  rw [placeAt, List.getElem?_append_right (by simp), List.length_take, min_eq_left h, Nat.sub_self]
  rfl

theorem placeAt_getElem?_of_ne (h : k ≤ l.length) (hj : j ≠ k) : (placeAt k e l)[j]? = l[j]? := by
  rw [placeAt]
  by_cases hlt : j < k
  · rw [List.getElem?_append_left (by simp; omega), List.getElem?_take_of_lt hlt]
  · rw [List.getElem?_append_right (by simp; omega), List.length_take, min_eq_left h]
    obtain ⟨m,rfl⟩ : ∃ m, j = k+1+m := ⟨j-(k+1),by omega⟩
    rw [show k+1+m-k = m+1 by omega, List.getElem?_cons_succ, List.getElem?_drop]

end Places

section Slots

variable {d d' : Disk} {n m : ℕ} {first : ℕ}

theorem slots_length : (slots d n).length = (d.dinode n).size/DIRENT := by simp [slots]

theorem slots_getElem? {j : ℕ} (h : j < (d.dinode n).size/DIRENT) :
    (slots d n)[j]? = some (entryAt d n j) := by
  simp [slots, h]

theorem slots_drop {j : ℕ} (h : j < (d.dinode n).size/DIRENT) :
    (slots d n).drop j = entryAt d n j::(slots d n).drop (j+1) := by
  rw [List.drop_eq_getElem_cons (by rwa [slots_length])]
  simp [slots]

theorem entryAt_congr {j : ℕ} (h : ∀ x, x < DIRENT →
    fileByte d' n (DIRENT*j+x) = fileByte d n (DIRENT*j+x)) : entryAt d' n j = entryAt d n j := by
  rw [entryAt, entryBytes, entryAt, entryBytes]
  congr 1
  apply List.map_congr_left
  intro x hx
  exact h x (List.mem_range.mp hx)

/-- The entry that was written. -/
theorem entryAt_written {k : ℕ} {e : Dirent} (h : WroteFile d d' n (DIRENT*k) e.encode) :
    entryAt d' n k = Dirent.decode e.encode := by
  rw [entryAt, entryBytes]
  congr 1
  apply List.ext_getElem (by rw [encode_length]; simp)
  intro x h1 h2
  have hx : x < DIRENT := by rwa [encode_length] at h2
  have hw := h.written (DIRENT*k+x) (by omega) (by rw [encode_length]; omega)
  rw [Nat.add_sub_cancel_left, List.getD_eq_getElem _ _ h2] at hw
  simpa using hw

theorem slots_written {k : ℕ} {e : Dirent} (hl : (d.dinode n).type ≠ .free)
    (hk : k ≤ (d.dinode n).size/DIRENT) (h : WroteFile d d' n (DIRENT*k) e.encode) :
    slots d' n = placeAt k (Dirent.decode e.encode) (slots d n) := by
  have hsize : (d'.dinode n).size = max (d.dinode n).size (DIRENT*k+DIRENT) := by
    rw [h.self, encode_length]
  have hlen : (slots d' n).length = (placeAt k (Dirent.decode e.encode) (slots d n)).length := by
    rw [placeAt_length (by rwa [slots_length]), slots_length, slots_length, hsize]
    simp only [DIRENT, DIRSIZ] at *
    omega
  apply List.ext_getElem? 
  intro j
  by_cases hj : j < (d'.dinode n).size/DIRENT
  · rw [slots_getElem? hj]
    by_cases hjk : j = k
    · rw [hjk, placeAt_getElem?_self (by rwa [slots_length]), entryAt_written h]
    · rw [placeAt_getElem?_of_ne (by rwa [slots_length]) hjk]
      have hj' : j < (d.dinode n).size/DIRENT := by
        rw [hsize] at hj
        simp only [DIRENT, DIRSIZ] at *
        omega
      rw [slots_getElem? hj']
      congr 1
      apply entryAt_congr
      intro x hx
      apply h.kept n _ hl
      · simp only [DIRENT, DIRSIZ] at *
        omega
      · rw [encode_length]
        simp only [DIRENT, DIRSIZ] at *
        omega
  · rw [List.getElem?_eq_none (by rw [slots_length]; omega),
      List.getElem?_eq_none (by rw [← hlen, slots_length]; omega)]

theorem slots_other {off : ℕ} {src : List UInt8} (h : WroteFile d d' n off src) (hm : m ≠ n)
    (hl : (d.dinode m).type ≠ .free) : slots d' m = slots d m := by
  rw [slots, slots, h.others m hm]
  apply List.map_congr_left
  intro j hj
  rw [List.mem_range] at hj
  apply entryAt_congr
  intro x hx
  refine h.kept m _ hl ?_ (fun hc => hm hc.1)
  simp only [DIRENT, DIRSIZ] at *
  omega

end Slots

section Nodes

variable {d d' : Disk} {n : ℕ}

theorem nodes_congr {m : ℕ} (hd : d'.dinode m = d.dinode m)
    (hs : (d.dinode m).type = .dir → slots d' m = slots d m) : nodes d' m = nodes d m := by
  unfold nodes
  rw [hd]
  split
  · next h => rw [hs h]
  · rfl

theorem nodes_slots (h : (d.dinode n).type = .dir) : (nodes d n).slots = slots d n := if_pos h

theorem nodes_written {k : ℕ} {e : Dirent} (hl : (d.dinode n).type = .dir)
    (hk : k ≤ (d.dinode n).size/DIRENT) (h : WroteFile d d' n (DIRENT*k) e.encode) :
    nodes d' = update (nodes d) n { nodes d n with
      slots := placeAt k (Dirent.decode e.encode) (nodes d n).slots } := by
  funext m
  by_cases hm : m = n
  · subst hm
    have ht : (d'.dinode m).type = .dir := by rw [h.self, hl]
    have hn : (d'.dinode m).nlink = (d.dinode m).nlink := by rw [h.self]
    rw [update_self, nodes_slots hl, ← slots_written (by rw [hl]; decide) hk h]
    unfold nodes
    rw [if_pos ht, ht, hn, hl]
  · rw [update_of_ne hm]
    exact nodes_congr (h.others m hm) (fun hd => slots_other h hm (by rw [hd]; decide))

end Nodes

end Xv6.DirectoryFile
