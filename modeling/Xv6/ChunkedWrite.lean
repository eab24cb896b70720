import Xv6.InodeContents
import Xv6.InodeCache

/-!
# Writes in pieces

`filewrite` cuts its bytes into pieces that are not aligned with blocks and
gives each to `writei` under a lock of its own. They leave in the file what one
`writei` of all the bytes leaves, and fail for want of blocks exactly when that
one does.
-/

set_option autoImplicit false

namespace Xv6.ChunkedWrite
open Function ByteStore StateRuns BlockLayer BlockMap
open FileContent FreeBlocks InodeContents FsState
open InodeCache (workOf putWork)

def fileread (device : ℤ → Option (List UInt8)) (piped : Option (List UInt8)) (f : FileId) (n : ℕ) :
    FsM (Option (List UInt8)) := fun s =>
  match (s.files f).kind with
  | .none => .error (.panic "fileread")
  | .pipe _ writable => .ok (if writable then none else piped,s)
  | .inode ip off readable _ => if readable = false then .ok (none,s) else (do
      ilock ip
      let r ← onInode ip (readi device off n)
      advance f (r.getD []).length
      iunlock ip
      pure r) s

def readSeq (device : ℤ → Option (List UInt8)) (piped : Option (List UInt8)) (f : FileId) :
    List ℕ → FsM (List (Option (List UInt8)))
  | [] => pure []
  | n::ns => do
    let r ← fileread device piped f n
    let rs ← readSeq device piped f ns
    pure (r::rs)

section Splicing

variable {first off : ℕ} {w v u : Work} {a b : List UInt8}

theorem spliced_refl (hs : Stored w first) : Spliced w w first off [] where
  stored := hs
  inum := rfl
  type := fun _ => rfl
  self := by simp [splice]
  others := fun _ _ _ => rfl
  filled := by
    intro k _
    simp only [List.length_nil, iff_self_and]
    exact fun _ hr => range_nil hr
  spent := by rw [List.length_nil, missing_range_nil, Nat.add_zero]

theorem splice_splice {l : List UInt8} (h : off ≤ l.length) :
    splice (splice l off a) (off+a.length) b = splice l off (a++b) := by
  have hlen : (l.take off++a).length = off+a.length := by simp [h]
  rw [splice, splice, splice, List.take_append_of_le_length (by omega),
    List.take_of_length_le (by omega),
    List.drop_append, hlen, List.drop_of_length_le (l := l.take off++a) (by omega), List.nil_append,
    List.drop_drop, List.length_append, List.append_assoc (l.take off)]
  congr 2
  omega

theorem spliced_trans (hoff : off ≤ (contents w w.inum).length) (h : Spliced w v first off a)
    (h' : Spliced v u first (off+a.length) b) : Spliced w u first off (a++b) where
  stored := h'.stored
  inum := h'.inum.trans h.inum
  type := fun m => (h'.type m).trans (h.type m)
  self := by
    have hc := h'.self
    rw [h.inum, h.self, splice_splice hoff] at hc
    exact hc
  others := by
    intro m hm ht
    rw [h'.others m (by rwa [h.inum]) (by rwa [h.type m]), h.others m hm ht]
  filled := by
    intro k hk
    have h2 := h'.filled k hk
    rw [h.inum, h.filled k hk, and_assoc] at h2
    rw [h2, List.length_append, range_append, not_or]
  spent := by
    have h1 := h.spent
    have h2 := h'.spent
    rw [List.length_append, missing_append h rfl]
    omega

end Splicing

section Rounds

variable {s t u : Fs} {f g : FileId} {ip : Ip} {off off' : ℕ} {rd wr : Bool} {w v : Work}

def inMemory (s : Fs) (ip : Ip) : Work := ⟨s.disk,(s.icache ip).inum,loaded s ip⟩

structure Opened (s : Fs) (f : FileId) (ip : Ip) (off : ℕ) (rd wr : Bool) : Prop where
  kind : (s.files f).kind = .inode ip off rd wr
  ref : 0 < (s.icache ip).ref
  unlocked : (s.icache ip).locked = false

def settled (s : Fs) (f : FileId) (ip : Ip) (w : Work) (kind : FileKind) : Fs :=
  { s with
    disk := w.disk
    icache := update s.icache ip { s.icache ip with valid := true, locked := false, copy := w.copy }
    files := update s.files f { s.files f with kind := kind } }

structure Moved (s t : Fs) (f : FileId) (ip : Ip) : Prop where
  files : ∀ g, g ≠ f → t.files g = s.files g
  fileRef : (t.files f).ref = (s.files f).ref
  cache : ∀ j, j ≠ ip → t.icache j = s.icache j
  inum : (t.icache ip).inum = (s.icache ip).inum
  ref : (t.icache ip).ref = (s.icache ip).ref
  procs : t.procs = s.procs
  pipes : t.pipes = s.pipes

theorem moved_refl (s : Fs) (f : FileId) (ip : Ip) : Moved s s f ip :=
  ⟨fun _ _ => rfl,rfl,fun _ _ => rfl,rfl,rfl,rfl,rfl⟩

theorem moved_trans (h : Moved s t f ip) (h' : Moved t u f ip) : Moved s u f ip :=
  ⟨fun g hg => (h'.files g hg).trans (h.files g hg),h'.fileRef.trans h.fileRef,
    fun j hj => (h'.cache j hj).trans (h.cache j hj),h'.inum.trans h.inum,h'.ref.trans h.ref,
    h'.procs.trans h.procs,h'.pipes.trans h.pipes⟩

theorem moved_settled (s : Fs) (f : FileId) (ip : Ip) (w : Work) (kind : FileKind) :
    Moved s (settled s f ip w kind) f ip where
  files := fun g hg => update_of_ne hg ..
  fileRef := by simp [settled]
  cache := fun j hj => update_of_ne hj ..
  inum := by simp [settled]
  ref := by simp [settled]
  procs := rfl
  pipes := rfl

theorem opened_settled (h : Opened s f ip off rd wr) (w : Work) (off' : ℕ) :
    Opened (settled s f ip w (.inode ip off' rd wr)) f ip off' rd wr where
  kind := by simp [settled]
  ref := by
    rw [(moved_settled s f ip w _).ref]
    exact h.ref
  unlocked := by simp [settled]

theorem inMemory_settled (kind : FileKind) (hw : w.inum = (s.icache ip).inum) :
    inMemory (settled s f ip w kind) ip = w := by
  obtain ⟨d,n,c⟩ := w
  simp only at hw
  subst hw
  simp [inMemory, settled, loaded]

def round {α : Type} (f : FileId) (ip : Ip) (x : DiskM α) (len : α → ℕ) : FsM α := do
  ilock ip
  let r ← onInode ip x
  advance f (len r)
  iunlock ip
  pure r

variable {α : Type} {x : DiskM α}

theorem ilock_opened (h : Opened s f ip off rd wr) (hl : (loaded s ip).type ≠ .free) :
    ilock ip s = .ok ((),s.setEntry ip
      { s.icache ip with locked := true, valid := true, copy := loaded s ip }) := by
  unfold ilock
  rw [if_neg (by have := h.ref; omega), if_neg (by simp [h.unlocked]), if_neg (fun hc => hl hc.2)]

theorem workOf_locked (s : Fs) (ip : Ip) : workOf (s.setEntry ip
    { s.icache ip with locked := true, valid := true, copy := loaded s ip }) ip =
      inMemory s ip := by
  simp [workOf, inMemory, Fs.setEntry]

section
variable (h : Opened s f ip off rd wr) (hl : (loaded s ip).type ≠ .free) (len : α → ℕ)
include h hl len

theorem round_ok {r : α} (hx : x (inMemory s ip) = .ok (r,v)) : round f ip x len s =
      .ok (r,settled s f ip v (.inode ip ((off+len r)%2^32) rd wr)) := by
  have hr := h.ref
  have hx' : onInode ip x (s.setEntry ip
      { s.icache ip with locked := true, valid := true, copy := loaded s ip }) = .ok (r,putWork
        (s.setEntry ip { s.icache ip with locked := true, valid := true, copy := loaded s ip })
        ip v) := by
    rw [← workOf_locked] at hx
    unfold onInode
    unfold workOf at hx
    rw [hx]
    rfl
  refine (run_bind_ok (ilock_opened h hl)).trans ((run_bind_ok hx').trans ?_)
  have hadv : advance f (len r) (putWork (s.setEntry ip
      { s.icache ip with locked := true, valid := true, copy := loaded s ip }) ip v) =
      .ok ((),{ putWork (s.setEntry ip
        { s.icache ip with locked := true, valid := true, copy := loaded s ip }) ip v with
        files := update s.files f
          { s.files f with kind := .inode ip ((off+len r)%2^32) rd wr } }) := by
    unfold advance
    have hk : ((putWork (s.setEntry ip { s.icache ip with
        locked := true, valid := true, copy := loaded s ip }) ip v).files f).kind =
        .inode ip off rd wr := h.kind
    rw [hk]
    rfl
  refine (run_bind_ok hadv).trans ?_
  have hun : ∀ z : Fs, (z.icache ip).locked = true → 0 < (z.icache ip).ref →
      iunlock ip z = .ok ((),z.setEntry ip { z.icache ip with locked := false }) := by
    intro z h1 h2
    unfold iunlock
    rw [if_neg]
    simp only [h1, Bool.true_eq_false, false_or]
    omega
  refine (run_bind_ok (hun _ ?_ ?_)).trans ?_
  · simp [putWork, Fs.setEntry]
  · simpa [putWork, Fs.setEntry] using hr
  · simp only [putWork, Fs.setEntry, settled, update_self, update_idem]
    rfl

theorem round_error {m : String} (hx : x (inMemory s ip) = .error m) :
    round f ip x len s = .error (.panic m) := by
  refine (run_bind_ok (ilock_opened h hl)).trans (run_bind_error ?_)
  rw [← workOf_locked] at hx
  unfold onInode
  unfold workOf at hx
  rw [hx]

end

end Rounds

section Writing

variable {s t : Fs} {f : FileId} {ip : Ip} {off first : ℕ} {rd wr : Bool} {src : List UInt8}

def afterRound (device : ℤ → Option ℕ) (f : FileId) (ip : Ip) (k : ℕ) (src : List UInt8) :
    Option ℕ → FsM Bool
  | none => pure false
  | some r =>
    if r ≠ (src.take WRITEMAX).length then stop (.panic "short filewrite")
    else writeRounds device f ip k (src.drop WRITEMAX)

theorem writeRounds_succ (h : Opened s f ip off rd wr) (hl : (loaded s ip).type ≠ .free)
    (device : ℤ → Option ℕ) (k : ℕ) (hne : src ≠ []) : writeRounds device f ip (k+1) src s =
      (round f ip (writei device off (src.take WRITEMAX)) (fun r => r.getD 0) >>=
        afterRound device f ip k src) s := by
  have hoff : offsetOf f (s.setEntry ip
      { s.icache ip with locked := true, valid := true, copy := loaded s ip }) =
        .ok (off,s.setEntry ip
      { s.icache ip with locked := true, valid := true, copy := loaded s ip }) := by
    unfold offsetOf
    have hk : ((s.setEntry ip { s.icache ip with
        locked := true, valid := true, copy := loaded s ip }).files f).kind =
          .inode ip off rd wr := h.kind
    rw [hk]
  rw [writeRounds, if_neg hne, round]
  simp only [bind_assoc, pure_bind]
  refine (run_bind_ok (ilock_opened h hl)).trans (((run_bind_ok hoff).trans ?_).trans
    (run_bind_ok (ilock_opened h hl)).symm)
  congr 1

theorem spliced_type {w v : Work} (h : Spliced w v first off src) : v.copy.type = w.copy.type := by
  have := h.type v.inum
  rwa [table_self, h.inum, table_self] at this

theorem spliced_size {w v : Work} (h : Spliced w v first off src) (hoff : off ≤ w.copy.size) :
    v.copy.size = max w.copy.size (off+src.length) := by
  have hc := congrArg List.length h.self
  rwa [splice_length (by rw [contents_length, table_self]; exact hoff), contents_length,
    contents_length, table_self, ← h.inum, table_self] at hc

/-- A round that finds the blocks it needs. -/
theorem writeRound_ok (h : Opened s f ip off rd wr) (hs : Stored (inMemory s ip) first)
    (ht : (inMemory s ip).copy.type = .file) (device : ℤ → Option ℕ)
    (hoff : off ≤ (inMemory s ip).copy.size) (hmax : off+src.length ≤ MAXFILE*BSIZE)
    (hroom : missing (inMemory s ip) (range off src.length) ≤ freeBlocks s.disk) :
    ∃ t, round f ip (writei device off src) (fun r => r.getD 0) s = .ok (some src.length,t) ∧
      Moved s t f ip ∧ Opened t f ip (off+src.length) rd wr ∧
      Spliced (inMemory s ip) (inMemory t ip) first off src := by
  have hl : (inMemory s ip).copy.type ≠ .free := by rw [ht]; decide
  have hd : (inMemory s ip).copy.type ≠ .dev := by rw [ht]; decide
  obtain ⟨v,hv,hsp⟩ := writei_spliced hs hl hd device _ _ hoff hmax hroom
  have hr := round_ok h hl (fun r => r.getD 0) hv
  have hmod : (off+(some src.length).getD 0)%2^32 = off+src.length := by
    simp only [MAXFILE, NDIRECT, NINDIRECT, BSIZE, Option.getD_some] at *
    omega
  rw [hmod] at hr
  refine ⟨_,hr,moved_settled ..,opened_settled h v _,?_⟩
  rw [inMemory_settled _ hsp.inum]
  exact hsp

theorem writeRounds_spec (k : ℕ) (h : Opened s f ip off rd wr) (hs : Stored (inMemory s ip) first)
    (ht : (inMemory s ip).copy.type = .file) (device : ℤ → Option ℕ) (hk : src.length ≤ k)
    (hoff : off ≤ (inMemory s ip).copy.size) (hmax : off+src.length ≤ MAXFILE*BSIZE) :
    (missing (inMemory s ip) (range off src.length) ≤ freeBlocks s.disk →
      ∃ t, writeRounds device f ip k src s = .ok (true,t) ∧ Moved s t f ip ∧
        Opened t f ip (off+src.length) rd wr ∧
        Spliced (inMemory s ip) (inMemory t ip) first off src) ∧
    (freeBlocks s.disk < missing (inMemory s ip) (range off src.length) →
      writeRounds device f ip k src s = .error (.panic OUTOFBLOCKS)) := by
  induction k generalizing s off src with
  | zero =>
    obtain rfl : src = [] := List.eq_nil_of_length_eq_zero (by omega)
    refine ⟨fun _ => ⟨s,rfl,moved_refl s f ip,h,spliced_refl hs⟩,fun hr => ?_⟩
    rw [List.length_nil, missing_range_nil] at hr
    omega
  | succ k ih =>
    by_cases hne : src = []
    · subst hne
      refine ⟨fun _ => ⟨s,by rw [writeRounds, if_pos rfl]; rfl,moved_refl s f ip,h,spliced_refl hs⟩,
        fun hr => ?_⟩
      rw [List.length_nil, missing_range_nil] at hr
      omega
    have hl : (inMemory s ip).copy.type ≠ .free := by rw [ht]; decide
    have hd : (inMemory s ip).copy.type ≠ .dev := by rw [ht]; decide
    have hdisk : (inMemory s ip).disk = s.disk := rfl
    obtain ⟨a,ha⟩ : ∃ a, a = src.take WRITEMAX := ⟨_,rfl⟩
    obtain ⟨b,hb⟩ : ∃ b, b = src.drop WRITEMAX := ⟨_,rfl⟩
    have hsplit : a++b = src := by rw [ha, hb, List.take_append_drop]
    have hlen : a.length+b.length = src.length := by rw [← hsplit, List.length_append]
    have hpos : 0 < a.length := by
      have := List.length_pos_iff.mpr hne
      rw [ha, List.length_take]
      simp only [WRITEMAX]
      omega
    rw [writeRounds_succ h hl device k hne, ← ha]
    by_cases hroom : missing (inMemory s ip) (range off a.length) ≤ freeBlocks s.disk
    · obtain ⟨u,hu,hmu,hou,hsp⟩ := writeRound_ok h hs ht device hoff (by omega) hroom
      have hcont : (round f ip (writei device off a) (fun r => r.getD 0) >>=
          afterRound device f ip k src) s = writeRounds device f ip k b u := by
        refine (run_bind_ok hu).trans ?_
        show (if a.length ≠ (src.take WRITEMAX).length then _ else _ : FsM Bool) u = _
        rw [← ha, if_neg (by simp), hb]
      have hsize := spliced_size hsp hoff
      have happ := missing_append hsp rfl b.length
      have hspent := hsp.spent
      have hdu : (inMemory u ip).disk = u.disk := rfl
      rw [hlen] at happ
      rw [hdisk, hdu] at hspent
      have hnext := ih hou hsp.stored ((spliced_type hsp).trans ht) (show b.length ≤ k by omega)
        (by omega) (by omega)
      rw [hcont]
      refine ⟨fun hle => ?_,fun hlt => hnext.2 (by omega)⟩
      obtain ⟨t,ht1,ht2,ht3,ht4⟩ := hnext.1 (by omega)
      refine ⟨t,ht1,moved_trans hmu ht2,by rw [← hlen, ← Nat.add_assoc]; exact ht3,?_⟩
      have htr := spliced_trans (by rw [contents_length, table_self]; exact hoff) hsp ht4
      rwa [hsplit] at htr
    · have hst := writei_starved hs hl hd device _ _ hoff (by omega) (Nat.lt_of_not_le hroom)
      have hmono := missing_mono (w := inMemory s ip) (A := range off a.length)
        (P := range off src.length) (fun j hj => by
          rw [← hlen]
          exact range_append.mpr (.inl hj))
      exact ⟨fun hle => by omega,fun _ => run_bind_error (round_error h hl _ hst)⟩

end Writing

section Reading

variable {s t : Fs} {g : FileId} {ip : Ip} {off first : ℕ} {rd wr : Bool}

theorem fileread_ok (h : Opened s g ip off true wr) (hs : Stored (inMemory s ip) first)
    (ht : (inMemory s ip).copy.type = .file) (device : ℤ → Option (List UInt8))
    (piped : Option (List UInt8)) {n : ℕ} (hn : n < 2^31) (hoff : off ≤ (inMemory s ip).copy.size) :
    ∃ t, fileread device piped g n s =
        .ok (some (((contents (inMemory s ip) (inMemory s ip).inum).drop off).take n),t) ∧
      Opened t g ip (off+min n ((inMemory s ip).copy.size-off)) true wr ∧
      inMemory t ip = inMemory s ip := by
  have hl : (inMemory s ip).copy.type ≠ .free := by rw [ht]; decide
  have hd : (inMemory s ip).copy.type ≠ .dev := by rw [ht]; decide
  have hmax := hs.size_le (inMemory s ip).inum (by rwa [table_self])
  rw [table_self] at hmax
  have hcond : ¬((inMemory s ip).copy.size < off ∨ (off+n)%2^32 < off) := by
    simp only [MAXFILE, NDIRECT, NINDIRECT, BSIZE] at hmax
    omega
  have hr := readi_contents hs hl hd device off n
  rw [if_neg hcond] at hr
  have hround := round_ok h hl (fun r : Option (List UInt8) => (r.getD []).length) hr
  have hlen : (((contents (inMemory s ip) (inMemory s ip).inum).drop off).take n).length =
      min n ((inMemory s ip).copy.size-off) := by
    rw [List.length_take, List.length_drop, contents_length, table_self]
  have hmod : (off+min n ((inMemory s ip).copy.size-off))%2^32 =
      off+min n ((inMemory s ip).copy.size-off) := by
    simp only [MAXFILE, NDIRECT, NINDIRECT, BSIZE] at hmax
    omega
  rw [Option.getD_some, hlen, hmod] at hround
  refine ⟨_,?_,opened_settled h _ _,inMemory_settled _ rfl⟩
  unfold fileread
  rw [h.kind]
  exact hround

theorem readSeq_ok (ns : List ℕ) (h : Opened s g ip off true wr) (hs : Stored (inMemory s ip) first)
    (ht : (inMemory s ip).copy.type = .file) (device : ℤ → Option (List UInt8))
    (piped : Option (List UInt8)) (hns : ∀ n ∈ ns, n < 2^31)
    (hoff : off ≤ (inMemory s ip).copy.size) :
    ∃ (rs : List (List UInt8)) (t : Fs), readSeq device piped g ns s = .ok (rs.map some,t) ∧
      rs.length = ns.length ∧
      rs.flatten = ((contents (inMemory s ip) (inMemory s ip).inum).drop off).take ns.sum := by
  induction ns generalizing s off with
  | nil => exact ⟨[],s,rfl,rfl,by simp⟩
  | cons n ns ih =>
    obtain ⟨t,hr,ho,hw⟩ := fileread_ok h hs ht device piped (hns n (by simp)) hoff
    obtain ⟨rs,u,hrs,hlen,hjoin⟩ := ih ho (by rwa [hw]) (by rwa [hw])
      (fun m hm => hns m (List.mem_cons_of_mem _ hm)) (by rw [hw]; omega)
    refine ⟨_::rs,u,(run_bind_ok hr).trans ((run_bind_ok hrs).trans rfl),by simp [hlen],?_⟩
    rw [List.flatten_cons, hjoin, hw, List.sum_cons, List.take_add, List.drop_drop]
    congr 1
    rcases Nat.le_total n ((inMemory s ip).copy.size-off) with hle | hle
    · rw [min_eq_left hle]
    · have hlen' := contents_length (inMemory s ip) (inMemory s ip).inum
      rw [table_self] at hlen'
      rw [min_eq_right hle, List.drop_of_length_le (by omega), List.drop_of_length_le (by omega)]

end Reading

section Equality

variable {s t : Fs} {f g : FileId} {ip : Ip} {off first : ℕ} {rd wr : Bool}

def SameContents (w v u : Work) : Prop :=
  ∀ m, (table w m).type ≠ .free → contents u m = contents v m

/-- Writes in pieces equal one write. If one `writei` of all the bytes would
return, `filewrite` returns their number, moves the offset past them and
leaves the same contents, and reads from the old offset on, in any portions,
return the bytes in order; if that `writei` would stop, so does `filewrite`,
and it stops for want of blocks only. -/
theorem filewrite_is_one_write (s : Fs) (f : FileId) (ip : Ip) (off first : ℕ) (rd : Bool)
    (src : List UInt8) (h : Opened s f ip off rd true) (hs : Stored (inMemory s ip) first)
    (ht : (inMemory s ip).copy.type = .file) (hoff : off ≤ (inMemory s ip).copy.size)
    (hmax : off+src.length ≤ MAXFILE*BSIZE) (device : ℤ → Option ℕ) (piped : ℤ) :
    (∀ r v, writei device off src (inMemory s ip) = .ok (r,v) → r = some src.length ∧
      ∃ t, filewrite device piped f src s = .ok ((src.length : ℤ),t) ∧
        (t.files f).kind = .inode ip (off+src.length) rd true ∧ Moved s t f ip ∧
        SameContents (inMemory s ip) v (inMemory t ip) ∧
        ∀ g wr (dr : ℤ → Option (List UInt8)) pr ns, (t.files g).kind = .inode ip off true wr →
          (∀ n ∈ ns, n < 2^31) → ∃ (rs : List (List UInt8)) (u : Fs), readSeq dr pr g ns t =
            .ok (rs.map some,u) ∧
            rs.length = ns.length ∧ rs.flatten = (src++(contents (inMemory s ip)
              (inMemory s ip).inum).drop (off+src.length)).take ns.sum) ∧
    ∀ e, writei device off src (inMemory s ip) = .error e → e = OUTOFBLOCKS ∧
      filewrite device piped f src s = .error (.panic e) := by
  have hl : (inMemory s ip).copy.type ≠ .free := by rw [ht]; decide
  have hd : (inMemory s ip).copy.type ≠ .dev := by rw [ht]; decide
  have hspec := writeRounds_spec src.length h hs ht device (le_refl _) hoff hmax
  have hrun : filewrite device piped f src s = (writeRounds device f ip src.length src >>= fun b =>
      if b then pure (src.length : ℤ) else pure (-1)) s := by
    unfold filewrite
    rw [h.kind]
    rfl
  have hlen : off ≤ (contents (inMemory s ip) (inMemory s ip).inum).length := by
    rwa [contents_length, table_self]
  by_cases hroom : missing (inMemory s ip) (range off src.length) ≤ freeBlocks s.disk
  · obtain ⟨v₁,hv₁,hsp₁⟩ := writei_spliced hs hl hd device _ _ hoff hmax hroom
    refine ⟨fun r v hv => ?_,fun e he => absurd (hv₁.symm.trans he) (by simp)⟩
    rw [hv₁] at hv
    cases hv
    obtain ⟨t,ht1,ht2,ht3,ht4⟩ := hspec.1 hroom
    refine ⟨rfl,t,hrun.trans (run_bind_ok ht1),ht3.kind,ht2,fun m hm => ?_,
      fun g wr dr pr ns hg hns => ?_⟩
    · by_cases hmi : m = (inMemory s ip).inum
      · rw [hmi, ht4.self, hsp₁.self]
      · rw [ht4.others m hmi hm, hsp₁.others m hmi hm]
    · have hog : Opened t g ip off true wr := ⟨hg,ht3.ref,ht3.unlocked⟩
      have hsize := spliced_size ht4 hoff
      obtain ⟨rs,u,h1,h2,h3⟩ := readSeq_ok ns hog ht4.stored ((spliced_type ht4).trans ht) dr pr hns
        (by omega)
      refine ⟨rs,u,h1,h2,?_⟩
      rw [h3, ht4.inum, ht4.self, splice, List.append_assoc,
        List.drop_append_of_le_length (by simpa using hlen), List.drop_of_length_le (by simp),
        List.nil_append]
  · have hst := writei_starved hs hl hd device _ _ hoff hmax (Nat.lt_of_not_le hroom)
    refine ⟨fun r v hv => absurd (hst.symm.trans hv) (by simp),fun e he => ?_⟩
    rw [hst] at he
    obtain rfl := Except.error.inj he
    exact ⟨rfl,hrun.trans (run_bind_error (hspec.2 (Nat.lt_of_not_le hroom)))⟩

def noteFs : Fs :=
  { disk := note.disk
    icache := fun i => if i = 0 then ⟨ROOTDEV,2,1,true,false,note.copy⟩
      else ⟨0,0,0,false,false,note.copy⟩
    files := fun f => if f = 0 then ⟨1,.inode 0 1 true true⟩ else ⟨0,.none⟩
    procs := fun _ => ⟨.unused,fun _ => none,none⟩
    initproc := 0
    pipes := fun _ => none
    free := []
    others := [] }

theorem noteFs_opened : Opened noteFs 0 0 1 true true := ⟨rfl,by decide,rfl⟩

/-- A write of 7000 bytes, in two pieces. -/
theorem filewrite_is_one_write_note :
    ∃ t, filewrite (fun _ => none) 0 0 (List.replicate 7000 7) noteFs =
    .ok (7000,t) ∧ (t.files 0).kind = .inode 0 7001 true true := by
  have hs : Stored (inMemory noteFs 0) 20 := note_stored
  have hlen : (List.replicate 7000 (7 : UInt8)).length = 7000 := List.length_replicate
  obtain ⟨v,hv,-⟩ := writei_spliced hs (by decide) (by decide) (fun _ => none) 1
    (List.replicate 7000 7)
    (by decide) (by rw [hlen]; decide) (by rw [hlen]; decide +kernel)
  obtain ⟨-,t,ht,hk,-⟩ := (filewrite_is_one_write noteFs 0 0 1 20 true (List.replicate 7000 7)
    noteFs_opened hs rfl (by decide) (by rw [hlen]; decide) (fun _ => none) 0).1 _ v hv
  rw [hlen] at ht hk
  exact ⟨t,ht,hk⟩

end Equality

end Xv6.ChunkedWrite
