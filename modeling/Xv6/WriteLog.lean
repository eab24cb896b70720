import Xv6.InodeContents

/-!
# The log of a write

`writei` and the functions it calls, with every `log_write` they make, and what
each adds to the log: the blocks written to, the bitmap block of each block
allocated, the indirect block if it changes, and the block of the inode if the
file grows.
-/

set_option autoImplicit false

namespace Xv6.WriteLog
open Function ByteStore StateRuns FileContent Allotment BlockMap FreeBlocks
open BlockLayer (BSIZE NDIRECT NINDIRECT MAXFILE Disk Work DiskM chunk setAddr setEntry setSize
  storeBlock)

abbrev BPB : ℕ := BSIZE*8
abbrev IPB : ℕ := BSIZE/64

structure Super where
  inodestart : ℕ
  bmapstart : ℕ
  deriving DecidableEq, Repr

def Super.iblock (sb : Super) (i : ℕ) : ℕ := i/IPB+sb.inodestart
def Super.bblock (sb : Super) (b : ℕ) : ℕ := b/BPB+sb.bmapstart

structure Trans where
  work : Work
  log : List ℕ

abbrev LogM (α : Type) := Run Trans String α

def lift {α : Type} (x : DiskM α) : LogM α := fun s =>
  match x s.work with
  | .ok (a,w) => .ok (a,{ s with work := w })
  | .error e => .error e

def logWrite (b : ℕ) : LogM Unit := fun s => .ok ((),{ s with log := b::s.log })

section Functions

variable (sb : Super)

def balloc : LogM ℕ := do
  let b ← lift BlockLayer.balloc
  logWrite (sb.bblock b)
  logWrite b
  pure b

def iupdate : LogM Unit := fun s => (do
  lift BlockLayer.iupdate
  logWrite (sb.iblock s.work.inum)) s

def mapAddr (k : ℕ) : LogM ℕ := fun s =>
  if s.work.copy.addrs k = 0 then (do
    let b ← balloc sb
    lift (setAddr k b)
    pure b) s
  else .ok (s.work.copy.addrs k,s)

def mapEntry (a j : ℕ) : LogM ℕ := fun s =>
  if word (s.work.disk.content a) j = 0 then (do
    let b ← balloc sb
    lift (setEntry a j b)
    logWrite a
    pure b) s
  else .ok (word (s.work.disk.content a) j,s)

def bmap (bn : ℕ) : LogM ℕ :=
  if bn < NDIRECT then mapAddr sb bn
  else if bn-NDIRECT < NINDIRECT then do
    let a ← mapAddr sb NDIRECT
    mapEntry sb a (bn-NDIRECT)
  else fun _ => .error "bmap: out of range"

def writeChunk (off : ℕ) (src : List UInt8) : LogM Unit := do
  let b ← bmap sb (off/BSIZE)
  lift (storeBlock b (off%BSIZE) src)
  logWrite b

def writeLoop : ℕ → ℕ → List UInt8 → LogM ℕ
  | 0, off, _ => pure off
  | k+1, off, src => if src = [] then pure off else do
    writeChunk sb off (src.take (chunk off src.length))
    writeLoop k (off+chunk off src.length) (src.drop (chunk off src.length))

def growTo (off n : ℕ) : LogM Unit := fun s =>
  if 0 < n ∧ s.work.copy.size < off then (do
    lift (setSize off)
    iupdate sb) s
  else .ok ((),s)

def writei (device : ℤ → Option ℕ) (off : ℕ) (src : List UInt8) : LogM (Option ℕ) := fun s =>
  if s.work.copy.type = .dev then .ok (device s.work.copy.major,s)
  else if s.work.copy.size < off ∨ (off+src.length)%2^32 < off then .ok (none,s)
  else if MAXFILE*BSIZE < off+src.length then .ok (none,s)
  else (do
    let last ← writeLoop sb src.length off src
    growTo sb last src.length
    pure (some src.length)) s

end Functions

section Erasure

variable {α β : Type} {sb : Super} {y : DiskM α} {s : Trans}

def erase : Except String (α × Trans) → Except String (α × Work)
  | .ok (a,s) => .ok (a,s.work)
  | .error e => .error e

def Erases (x : LogM α) (y : DiskM α) (s : Trans) : Prop := erase (x s) = y s.work

theorem erases_lift (y : DiskM α) (s : Trans) : Erases (lift y) y s := by
  unfold Erases lift
  cases y s.work <;> rfl

theorem erases_ok {x : LogM α} {t : Trans} {a : α} (h : Erases x y s) (hx : x s = .ok (a,t)) :
    y s.work = .ok (a,t.work) := by
  rw [Erases, hx] at h
  exact h.symm

theorem erases_bind {x : LogM α} {f : α → LogM β} {g : α → DiskM β} (h : Erases x y s)
    (hf : ∀ a t, Erases (f a) (g a) t) : Erases (x >>= f) (y >>= g) s := by
  unfold Erases at *
  cases hx : x s with
  | ok r =>
    rw [hx] at h
    rw [run_bind_ok hx, run_bind_ok h.symm]
    exact hf r.1 r.2
  | error e =>
    rw [hx] at h
    rw [run_bind_error hx, run_bind_error h.symm]
    rfl

theorem erases_log {b : ℕ} {f : Unit → LogM α} (hf : ∀ t, Erases (f ()) y t) :
    Erases (logWrite b >>= f) y s :=
  hf { s with log := b::s.log }

theorem erases_pure (a : α) (s : Trans) : Erases (pure a : LogM α) (pure a) s := rfl

theorem erases_balloc (s : Trans) : Erases (balloc sb) BlockLayer.balloc s := by
  have h := erases_bind (g := pure) (erases_lift BlockLayer.balloc s)
    (f := fun b => logWrite (sb.bblock b) >>= fun _ => logWrite b >>= fun _ => pure b)
    (fun b t => erases_log fun t => erases_log fun t => erases_pure b t)
  rwa [bind_pure] at h

theorem erases_iupdate (s : Trans) : Erases (iupdate sb) BlockLayer.iupdate s := rfl

theorem erases_mapAddr (k : ℕ) (s : Trans) : Erases (mapAddr sb k) (BlockLayer.mapAddr k) s := by
  unfold Erases mapAddr BlockLayer.mapAddr
  by_cases h0 : s.work.copy.addrs k = 0
  · rw [if_pos h0, if_pos h0]
    exact erases_bind (erases_balloc s) fun b t => erases_bind (erases_lift _ t) fun _ =>
      erases_pure b
  · rw [if_neg h0, if_neg h0]
    rfl

theorem erases_mapEntry (a j : ℕ) (s : Trans) :
    Erases (mapEntry sb a j) (BlockLayer.mapEntry a j) s := by
  unfold Erases mapEntry BlockLayer.mapEntry
  by_cases h0 : word (s.work.disk.content a) j = 0
  · rw [if_pos h0, if_pos h0]
    exact erases_bind (erases_balloc s) fun b t => erases_bind (erases_lift _ t) fun _ t =>
      erases_log (erases_pure b)
  · rw [if_neg h0, if_neg h0]
    rfl

theorem erases_bmap (bn : ℕ) (s : Trans) : Erases (bmap sb bn) (BlockLayer.bmap bn) s := by
  unfold bmap BlockLayer.bmap
  by_cases hd : bn < NDIRECT
  · rw [if_pos hd, if_pos hd]
    exact erases_mapAddr bn s
  rw [if_neg hd, if_neg hd]
  by_cases hin : bn-NDIRECT < NINDIRECT
  · rw [if_pos hin, if_pos hin]
    exact erases_bind (erases_mapAddr _ s) fun a t => erases_mapEntry a _ t
  · rw [if_neg hin, if_neg hin]
    rfl

theorem erases_writeChunk (off : ℕ) (src : List UInt8) (s : Trans) :
    Erases (writeChunk sb off src) (BlockLayer.writeChunk off src) s := by
  have hb : Erases (bmap sb (off/BSIZE)) _ s := erases_bmap (off/BSIZE) s
  have h := erases_bind hb
    (f := fun b => lift (storeBlock b (off%BSIZE) src) >>= fun _ => logWrite b >>= fun _ => pure ())
    (g := fun b => storeBlock b (off%BSIZE) src >>= pure)
    (fun b t => erases_bind (erases_lift _ t) fun _ t => erases_log (erases_pure ()))
  simp only [bind_pure] at h
  exact h

theorem erases_writeLoop (k off : ℕ) (src : List UInt8) (s : Trans) :
    Erases (writeLoop sb k off src) (BlockLayer.writeLoop k off src) s := by
  induction k generalizing off src s with
  | zero => exact erases_pure off s
  | succ k ih =>
    unfold writeLoop BlockLayer.writeLoop
    by_cases h0 : src = []
    · rw [if_pos h0, if_pos h0]
      exact erases_pure off s
    · rw [if_neg h0, if_neg h0]
      exact erases_bind (erases_writeChunk ..) fun _ t => ih _ _ t

theorem erases_growTo (off n : ℕ) (s : Trans) :
    Erases (growTo sb off n) (BlockLayer.growTo off n) s := by
  unfold Erases growTo BlockLayer.growTo
  by_cases hg : 0 < n ∧ s.work.copy.size < off
  · rw [if_pos hg, if_pos hg]
    exact erases_bind (erases_lift _ s) fun _ t => erases_iupdate t
  · rw [if_neg hg, if_neg hg]
    rfl

/-- The log apart, this is the `writei` of the block layer. -/
theorem erases_writei (device : ℤ → Option ℕ) (off : ℕ) (src : List UInt8) (s : Trans) :
    Erases (writei sb device off src) (BlockLayer.writei device off src) s := by
  unfold Erases writei BlockLayer.writei
  by_cases hd : s.work.copy.type = .dev
  · rw [if_pos hd, if_pos hd]
    rfl
  rw [if_neg hd, if_neg hd]
  by_cases hb : s.work.copy.size < off ∨ (off+src.length)%2^32 < off
  · rw [if_pos hb, if_pos hb]
    rfl
  rw [if_neg hb, if_neg hb]
  by_cases hm : MAXFILE*BSIZE < off+src.length
  · rw [if_pos hm, if_pos hm]
    rfl
  rw [if_neg hm, if_neg hm]
  exact erases_bind (erases_writeLoop ..) fun last t => erases_bind (erases_growTo ..) fun _ t =>
    erases_pure _ t

end Erasure

def clearList (d : Disk) : List ℕ := (List.range d.size).filter (fun b => ! d.bitmap b)

variable {sb : Super} {s t u : Trans} {need : ℕ → ℕ → Prop} {loose : ℕ → Prop} {first : ℕ}

section Allocation

theorem clearList_setBit {d : Disk} {b : ℕ} {l : List ℕ} {v : Bytes} (h : clearList d = b::l) :
    clearList ((d.setBit b true).setContent b v) = l := by
  have hf : clearList ((d.setBit b true).setContent b v) = (clearList d).filter (fun c =>
    c ≠ b) := by
    unfold clearList
    rw [List.filter_filter]
    apply List.filter_congr
    intro c _
    by_cases hc : c = b
    · subst hc
      simp [Disk.setBit, Disk.setContent]
    · simp [Disk.setBit, Disk.setContent, hc]
  have hnd : (clearList d).Nodup := List.nodup_range.filter _
  rw [h] at hnd
  rw [hf, h, List.filter_cons_of_neg (by simp), List.filter_eq_self]
  intro c hc
  have hne : c ≠ b := fun he => (List.nodup_cons.mp hnd).1 (he ▸ hc)
  simpa using hne

/-- `balloc` takes the first free block and logs it and its bitmap block. -/
theorem balloc_logs (s : Trans) : Meets (balloc sb) s (fun b t =>
    clearList s.work.disk = b::clearList t.work.disk ∧ t.log = b::sb.bblock b::s.log ∧
    t.work = { s.work with disk := (s.work.disk.setBit b true).setContent b (fun _ => 0) })
    (fun _ => True) := by
  unfold balloc
  have hl : Meets (lift BlockLayer.balloc) s (fun b t => clearList s.work.disk =
    b::clearList t.work.disk ∧
      t.log = s.log ∧ t.work =
        { s.work with disk := (s.work.disk.setBit b true).setContent b (fun _ => 0) })
      (fun _ => True) := by
    unfold Meets lift BlockLayer.balloc
    cases hf : (List.range s.work.disk.size).find? (fun b => ! s.work.disk.bitmap b) with
    | none => trivial
    | some b =>
      have hh : (clearList s.work.disk).head? = some b := by rw [clearList, List.head?_filter, hf]
      obtain ⟨l,hcl⟩ : ∃ l, clearList s.work.disk = b::l := by
        cases hc : clearList s.work.disk with
        | nil => rw [hc] at hh; cases hh
        | cons x l =>
          rw [hc, List.head?_cons, Option.some.injEq] at hh
          exact ⟨l,by rw [hh]⟩
      exact ⟨by rw [clearList_setBit hcl, hcl],rfl,rfl⟩
  refine meets_bind hl ?_
  rintro b v ⟨h1,h2,h3⟩
  refine meets_of_ok rfl ⟨h1,?_,h3⟩
  rw [h2]

theorem clear_head (h : Holds s.work need loose first) {b : ℕ} {l : List ℕ}
    (hc : clearList s.work.disk = b::l) :
    s.work.disk.bitmap b = false ∧ b < s.work.disk.size ∧ first ≤ b := by
  have hb : b ∈ clearList s.work.disk := by
    rw [hc]
    exact List.mem_cons_self
  rw [clearList, List.mem_filter, List.mem_range, Bool.not_eq_true'] at hb
  exact ⟨hb.2,hb.1,lo_le_of_clear h.allotted hb.2 hb.1⟩

end Allocation

section Logging

variable {P A B T T' : ℕ → Prop} [DecidablePred P] [DecidablePred A] [DecidablePred B]

structure Logs (sb : Super) (s t : Trans) (P T : ℕ → Prop) [DecidablePred P] : Prop where
  inum : t.work.inum = s.work.inum
  fills : ∀ k, k < NSLOTS → (addr t.work (t.work.inum,k) = 0 ↔
    addr s.work (s.work.inum,k) = 0 ∧ ¬P k)
  stays : ∀ k, k < NSLOTS → addr s.work (s.work.inum,k) ≠ 0 →
    addr t.work (t.work.inum,k) = addr s.work (s.work.inum,k)
  clear : clearList t.work.disk = (clearList s.work.disk).drop (missing s.work P)
  log : ∀ b, b ∈ t.log ↔ b ∈ s.log ∨ (∃ k, T k ∧ addr t.work (t.work.inum,k) = b) ∨
    (∃ k ∈ holes s.work P, addr t.work (t.work.inum,k) = b) ∨
    (∃ c ∈ (clearList s.work.disk).take (missing s.work P), sb.bblock c = b) ∨
    ∃ k ∈ holes s.work P, NDIRECT < k ∧ addr t.work (t.work.inum,NDIRECT) = b

/-- An entry of the indirect block is there only if that block is. -/
theorem indirect_of_entry {w : Work} {n k : ℕ} (hk : NDIRECT < k) (h : addr w (n,k) ≠ 0) :
    addr w (n,NDIRECT) ≠ 0 := by
  intro h0
  rw [addr, slotAddr_direct (le_refl _)] at h0
  exact h (slotAddr_absent hk h0)

theorem logs_trans (h : Logs sb s t A T) (h' : Logs sb t u B T') (hP : ∀ k, P k ↔ A k ∨ B k)
    (hT : ∀ k, T k → k < NSLOTS ∧ addr t.work (t.work.inum,k) ≠ 0) :
    Logs sb s u P (fun k => T k ∨ T' k) := by
  have hholes := holes_union hP h.fills
  have hmiss := missing_union hP h.fills
  have hA : ∀ k ∈ holes s.work A, addr u.work (u.work.inum,k) = addr t.work (t.work.inum,k) ∧
      addr t.work (t.work.inum,k) ≠ 0 := by
    intro k hk
    obtain ⟨h1,h2,-⟩ := mem_holes.mp hk
    have hne : addr t.work (t.work.inum,k) ≠ 0 := fun h0 => ((h.fills k h1).mp h0).2 h2
    exact ⟨h'.stays k h1 hne,hne⟩
  have hT' : ∀ k, T k → addr u.work (u.work.inum,k) = addr t.work (t.work.inum,k) :=
    fun k hk => h'.stays k (hT k hk).1 (hT k hk).2
  refine ⟨h'.inum.trans h.inum,fun k hk => ?_,fun k hk hne => ?_,?_,fun b => ?_⟩
  · rw [h'.fills k hk, h.fills k hk, hP]
    simp only [not_or, and_assoc]
  · have ht := h.stays k hk hne
    rw [h'.stays k hk (by rwa [ht]), ht]
  · rw [h'.clear, h.clear, List.drop_drop, hmiss]
  · rw [h'.log, h.log, h.clear, hholes, hmiss, List.take_add]
    constructor
    · rintro ((hb | ⟨k,hk,rfl⟩ | ⟨k,hk,rfl⟩ | ⟨c,hc,rfl⟩ | ⟨k,hk,hkn,rfl⟩) |
        ⟨k,hk,rfl⟩ | ⟨k,hk,rfl⟩ | ⟨c,hc,rfl⟩ | ⟨k,hk,hkn,rfl⟩)
      · exact .inl hb
      · exact .inr (.inl ⟨k,.inl hk,hT' k hk⟩)
      · exact .inr (.inr (.inl ⟨k,Finset.mem_union_left _ hk,(hA k hk).1⟩))
      · exact .inr (.inr (.inr (.inl ⟨c,List.mem_append_left _ hc,rfl⟩)))
      · refine .inr (.inr (.inr (.inr ⟨k,Finset.mem_union_left _ hk,hkn,?_⟩)))
        exact h'.stays NDIRECT indirect_lt (indirect_of_entry hkn (hA k hk).2)
      · exact .inr (.inl ⟨k,.inr hk,rfl⟩)
      · exact .inr (.inr (.inl ⟨k,Finset.mem_union_right _ hk,rfl⟩))
      · exact .inr (.inr (.inr (.inl ⟨c,List.mem_append_right _ hc,rfl⟩)))
      · exact .inr (.inr (.inr (.inr ⟨k,Finset.mem_union_right _ hk,hkn,rfl⟩)))
    · rintro (hb | ⟨k,hk | hk,rfl⟩ | ⟨k,hk,rfl⟩ | ⟨c,hc,rfl⟩ | ⟨k,hk,hkn,rfl⟩)
      · exact .inl (.inl hb)
      · exact .inl (.inr (.inl ⟨k,hk,(hT' k hk).symm⟩))
      · exact .inr (.inl ⟨k,hk,rfl⟩)
      · rcases Finset.mem_union.mp hk with hk | hk
        · exact .inl (.inr (.inr (.inl ⟨k,hk,(hA k hk).1.symm⟩)))
        · exact .inr (.inr (.inl ⟨k,hk,rfl⟩))
      · rcases List.mem_append.mp hc with hc | hc
        · exact .inl (.inr (.inr (.inr (.inl ⟨c,hc,rfl⟩))))
        · exact .inr (.inr (.inr (.inl ⟨c,hc,rfl⟩)))
      · rcases Finset.mem_union.mp hk with hk | hk
        · refine .inl (.inr (.inr (.inr (.inr ⟨k,hk,hkn,?_⟩))))
          exact (h'.stays NDIRECT indirect_lt (indirect_of_entry hkn (hA k hk).2)).symm
        · exact .inr (.inr (.inr (.inr ⟨k,hk,hkn,rfl⟩)))

theorem logs_congr (h : Logs sb s t A T) (hP : ∀ k, P k ↔ A k) (hT : ∀ k, T' k ↔ T k) :
    Logs sb s t P T' := by
  obtain rfl : P = A := funext fun k => propext (hP k)
  obtain rfl : T' = T := funext fun k => propext (hT k)
  convert h

theorem logs_refl (hP : ∀ k, k < NSLOTS → P k → addr s.work (s.work.inum,k) ≠ 0) :
    Logs sb s s P (fun _ => False) := by
  have hh : holes s.work P = ∅ := by
    rw [Finset.eq_empty_iff_forall_notMem]
    intro k hk
    obtain ⟨h1,h2,h3⟩ := mem_holes.mp hk
    exact hP k h1 h2 h3
  have hm : missing s.work P = 0 := by rw [missing, hh, Finset.card_empty]
  refine ⟨rfl,fun k hk => ?_,fun _ _ _ => rfl,by rw [hm, List.drop_zero],fun b => ?_⟩
  · constructor
    · exact fun h0 => ⟨h0,fun hk' => hP k hk hk' h0⟩
    · exact fun h0 => h0.1
  · rw [hh, hm]
    simp

theorem logs_fill (h : Holds s.work need loose first) (hf : s.work.copy.type ≠ .free) {k b : ℕ}
    (hk : k < NSLOTS) (h0 : addr s.work (s.work.inum,k) = 0) (hi : t.work.inum = s.work.inum)
    (ha : ∀ i, (table s.work i.1).type ≠ .free → i.2 < NSLOTS →
      addr t.work i = if i.1 = s.work.inum ∧ i.2 = k then b else addr s.work i)
    (hc : clearList s.work.disk = b::clearList t.work.disk)
    (hl : ∀ c, c ∈ t.log ↔ c ∈ s.log ∨ b = c ∨ sb.bblock b = c ∨
      NDIRECT < k ∧ addr t.work (t.work.inum,NDIRECT) = c) :
    Logs sb s t (· = k) (fun _ => False) := by
  have hh : holes s.work (· = k) = {k} := by
    ext j
    rw [mem_holes, Finset.mem_singleton]
    constructor
    · exact fun hj => hj.2.1
    · rintro rfl
      exact ⟨hk,rfl,h0⟩
  have hm : missing s.work (· = k) = 1 := by rw [missing, hh, Finset.card_singleton]
  have hf' : (table s.work s.work.inum).type ≠ .free := by rwa [table_self]
  have hb : addr t.work (t.work.inum,k) = b := by
    rw [hi, ha (s.work.inum,k) hf' hk, if_pos ⟨rfl,rfl⟩]
  have hstay : ∀ j, j < NSLOTS → j ≠ k →
      addr t.work (t.work.inum,j) = addr s.work (s.work.inum,j) := by
    intro j hj hne
    rw [hi, ha (s.work.inum,j) hf' hj, if_neg (fun he => hne he.2)]
  have hb0 : b ≠ 0 := by
    have := (clear_head h hc).2.2
    have := h.first_pos
    omega
  refine ⟨hi,fun j hj => ?_,fun j hj hne => ?_,by rw [hm, hc]; rfl,fun c => ?_⟩
  · by_cases hjk : j = k
    · subst hjk
      simp [hb, hb0]
    · rw [hstay j hj hjk]
      simp [hjk]
  · refine hstay j hj ?_
    rintro rfl
    exact hne h0
  · rw [hl, hh, hm, hc]
    simp only [Finset.mem_singleton, exists_eq_left, hb, false_and, exists_false, false_or,
      List.take_succ_cons, List.take_zero, List.mem_singleton]

theorem logs_touch (h : Logs sb s t P (fun _ => False)) (hi : u.work.inum = t.work.inum)
    (ha : ∀ j, addr u.work (t.work.inum,j) = addr t.work (t.work.inum,j))
    (hc : clearList u.work.disk = clearList t.work.disk) {k : ℕ}
    (hl : u.log = addr t.work (t.work.inum,k)::t.log) : Logs sb s u P (· = k) := by
  have ha' : ∀ j, addr u.work (u.work.inum,j) = addr t.work (t.work.inum,j) := by
    intro j
    rw [hi, ha]
  refine ⟨hi.trans h.inum,fun j hj => ?_,fun j hj hne => ?_,hc.trans h.clear,fun c => ?_⟩
  · rw [ha', h.fills j hj]
  · rw [ha', h.stays j hj hne]
  · rw [hl, List.mem_cons, h.log]
    simp only [ha', false_and, exists_false, false_or, exists_eq_left, eq_comm (a := c)]
    exact or_left_comm

end Logging

section Mapping

theorem meets_erased {α : Type} {x : LogM α} {y : DiskM α} {Q : α → Work → Prop} {E : String → Prop}
    (he : Erases x y s) (h : Meets y s.work Q E) : Meets x s (fun a t => Q a t.work) E := by
  rw [meets_iff]
  constructor
  · intro a t hx
    exact meets_ok h (erases_ok he hx)
  · intro e hx
    rw [Erases, hx] at he
    exact meets_error h he.symm

section
variable (h : Holds s.work need loose first) (hl : s.work.copy.type ≠ .free)
include h hl

theorem mapAddr_logs {k : ℕ} (hk : k < NDIRECT+1) :
    Meets (mapAddr sb k) s (fun _ t => Logs sb s t (· = k) (fun _ => False)) (fun _ => True) := by
  have hk' : k < NSLOTS := by
    unfold NSLOTS
    omega
  have hl' : (table s.work s.work.inum).type ≠ .free := by rwa [table_self]
  have hself : addr s.work (s.work.inum,k) = s.work.copy.addrs k := addr_direct (by omega)
  by_cases h0 : s.work.copy.addrs k = 0
  · have hz : addr s.work (s.work.inum,k) = 0 := hself.trans h0
    refine meets_of_eq (if_pos h0) (meets_bind (balloc_logs s) ?_)
    rintro b v ⟨h1,h2,h3⟩
    obtain ⟨hb,hbs,-⟩ := clear_head h h1
    refine meets_of_ok rfl (logs_fill h hl hk' hz ?_ ?_ h1 fun c => ?_)
    · show v.work.inum = s.work.inum
      rw [h3]
    · exact (holds_setAddr h hl (by omega) ((addr_zero_iff h hl hk').mp hz) hb hbs (by rw [h3])).2
    · show c ∈ v.log ↔ _
      have hnk : ¬NDIRECT < k := by omega
      rw [h2]
      simp only [List.mem_cons, hnk, false_and, or_false, eq_comm (a := c)]
      tauto
  · refine meets_of_ok (if_neg h0) (logs_refl ?_)
    rintro j _ rfl
    rwa [hself]

theorem mapEntry_logs {a j : ℕ} (hj : j < NINDIRECT) (ha : addr s.work (s.work.inum,NDIRECT) = a)
    (h12 : need s.work.inum NDIRECT) :
    Meets (mapEntry sb a j) s (fun _ t => Logs sb s t (· = NDIRECT+1+j) (fun _ => False))
      (fun _ => True) := by
  have hk' : NDIRECT+1+j < NSLOTS := by
    unfold NSLOTS
    omega
  have hl' : (table s.work s.work.inum).type ≠ .free := by rwa [table_self]
  have hac : a = s.work.copy.addrs NDIRECT :=
    ha.symm.trans (addr_direct (le_refl _))
  have ha0 : s.work.copy.addrs NDIRECT ≠ 0 := by
    rw [← hac, ← ha]
    exact addr_ne_zero h ⟨hl',indirect_lt,h12⟩
  have hj' : NDIRECT+1+j-NDIRECT-1 = j := by omega
  have hself : addr s.work (s.work.inum,NDIRECT+1+j) = word (s.work.disk.content a) j := by
    rw [addr_entry ha0, hac]
  by_cases h0 : word (s.work.disk.content a) j = 0
  · have hz : addr s.work (s.work.inum,NDIRECT+1+j) = 0 := hself.trans h0
    refine meets_of_eq (if_pos h0) (meets_bind (balloc_logs s) ?_)
    rintro b v ⟨h1,h2,h3⟩
    obtain ⟨hb,hbs,-⟩ := clear_head h h1
    obtain ⟨-,haddr⟩ := holds_setEntry (u := { v.work with
        disk := v.work.disk.setContent a (setWord (v.work.disk.content a) j b) })
      h hl (by omega) hk' hac h12 ((addr_zero_iff h hl hk').mp hz) hb hbs rfl
      (by rw [h3, hj']; rfl)
    have hi : v.work.inum = s.work.inum := by rw [h3]
    refine meets_of_ok rfl (logs_fill h hl hk' hz hi haddr h1 fun c => ?_)
    show c ∈ a::v.log ↔ _
    have h12' : addr { v.work with
        disk := v.work.disk.setContent a (setWord (v.work.disk.content a) j b) }
        (v.work.inum,NDIRECT) = a := by
      rw [hi]
      refine (haddr (s.work.inum,NDIRECT) hl' indirect_lt).trans ?_
      rw [if_neg (by simp only; omega), ha]
    have hnk : NDIRECT < NDIRECT+1+j := by omega
    rw [h2]
    simp only [List.mem_cons, hnk, true_and, eq_comm (a := c)]
    rw [show addr _ _ = a from h12']
    tauto
  · refine meets_of_ok (if_neg h0) (logs_refl ?_)
    rintro k _ rfl
    rwa [hself]

theorem bmap_logs {bn : ℕ} (hbn : bn < MAXFILE) :
    Meets (bmap sb bn) s (fun _ t => Logs sb s t (places bn) (fun _ => False)) (fun _ => True) := by
  unfold bmap
  by_cases hd : bn < NDIRECT
  · have hp : position bn = bn := if_pos hd
    have hle : ¬NDIRECT ≤ bn := by omega
    rw [if_pos hd]
    refine meets_mono (mapAddr_logs h hl (by omega)) (fun _ t ht => ?_) (fun _ he => he)
    refine logs_congr ht (fun k => ?_) (fun _ => Iff.rfl)
    simp only [places, hp, hle, false_and, or_false]
  · have hp : position bn = NDIRECT+1+(bn-NDIRECT) := by
      rw [position, if_neg hd]
      omega
    have hin : bn-NDIRECT < NINDIRECT := by
      unfold MAXFILE at hbn
      omega
    rw [if_neg hd, if_pos hin]
    refine meets_bind (meets_mono (meets_and (mapAddr_logs h hl (by omega))
      (meets_erased (erases_mapAddr NDIRECT s) (mapAddr_meets h hl (le_refl _)))) (fun _ _ ht => ht)
      (fun _ _ => trivial)) ?_
    rintro a v ⟨hlog,hv,he,ha⟩
    have hlv : v.work.copy.type ≠ .free := by rwa [he.copy]
    rw [← he.inum] at ha
    refine meets_mono (mapEntry_logs hv hlv hin ha (.inr ⟨he.inum,rfl⟩)) (fun _ t ht => ?_)
      (fun _ he => he)
    refine logs_congr (logs_trans (P := places bn) hlog ht (fun k => ?_) (fun _ => False.elim))
      (fun _ => Iff.rfl) (fun _ => (or_self_iff).symm)
    have hle : NDIRECT ≤ bn := by omega
    simp only [places, hp, hle, true_and]
    exact or_comm

theorem writeChunk_logs {off : ℕ} {src : List UInt8} (hmax : off < MAXFILE*BSIZE) :
    Meets (writeChunk sb off src) s
      (fun _ t => Logs sb s t (places (off/BSIZE)) (· = position (off/BSIZE))) (fun _ => True) := by
  have hbn := div_lt_max hmax
  refine meets_bind (meets_mono (meets_and (bmap_logs h hl hbn)
    (meets_erased (erases_bmap _ s) (bmap_meets h hl hbn))) (fun _ _ ht => ht)
    (fun _ _ => trivial)) ?_
  rintro b v ⟨hlog,hv,he,hb⟩
  have hlv : (table v.work v.work.inum).type ≠ .free := by
    rw [table_self, he.copy]
    exact hl
  rw [← he.inum] at hb hv
  have huse : Uses (table v.work) (more need v.work.inum (places (off/BSIZE)))
      (v.work.inum,position (off/BSIZE)) := ⟨hlv,position_lt hbn,.inr ⟨rfl,.inl rfl⟩⟩
  subst hb
  have ha := fun c => (holds_store (b := c) hv huse position_ne_indirect rfl).2
  refine meets_of_ok rfl (logs_touch hlog ?_ ?_ ?_ rfl)
  · rfl
  · exact fun k => ha _ (v.work.inum,k) hlv
  · rfl

end

theorem logs_nil (s : Trans) (off : ℕ) :
    Logs sb s s (range off 0) (fun j => range off 0 j ∧ j ≠ NDIRECT) :=
  logs_congr (A := range off 0) (logs_refl fun _ _ hj => (range_nil hj).elim) (fun _ => Iff.rfl)
    (fun _ => ⟨fun hj => range_nil hj.1,False.elim⟩)

theorem writeLoop_logs (k : ℕ) {off : ℕ} {src : List UInt8} (h : Holds s.work need loose first)
    (hl : s.work.copy.type ≠ .free) (hk : src.length ≤ k) (hmax : off+src.length ≤ MAXFILE*BSIZE) :
    Meets (writeLoop sb k off src) s (fun _ t => Logs sb s t (range off src.length)
      (fun j => range off src.length j ∧ j ≠ NDIRECT)) (fun _ => True) := by
  induction k generalizing s need off src with
  | zero =>
    obtain rfl : src = [] := List.eq_nil_of_length_eq_zero (by omega)
    exact meets_of_ok rfl (logs_nil s off)
  | succ k ih =>
    unfold writeLoop
    by_cases h0 : src = []
    · rw [if_pos h0, h0]
      exact meets_pure (logs_nil s off)
    rw [if_neg h0]
    have hpos : 0 < src.length := List.length_pos_iff.mpr h0
    have hc := chunk_le off src.length
    have hcp := chunk_pos off hpos
    have hlen : (src.take (chunk off src.length)).length = chunk off src.length := by simp [hc]
    have hlen' : (src.drop (chunk off src.length)).length =
      src.length-chunk off src.length := by simp
    refine meets_bind (meets_mono (meets_and (writeChunk_logs h hl (by omega))
      (meets_erased (erases_writeChunk ..)
        (writeChunk_meets h hl (by omega) (by rw [hlen]; exact chunk_fits _ _))))
      (fun _ _ ht => ht) (fun _ _ => trivial)) ?_
    rintro _ v ⟨hlog,hv,hw,-⟩
    have hlv : v.work.copy.type ≠ .free := by rwa [hw.copy]
    have hplace : position (off/BSIZE) < NSLOTS := position_lt (div_lt_max (by omega))
    refine meets_mono (ih hv hlv (by omega) (by omega)) (fun _ t ht => ?_) (fun _ he => he)
    rw [hlen'] at ht
    refine logs_congr (logs_trans (P := range off src.length) hlog ht (fun j =>
      range_chunk hpos) ?_)
      (fun _ => Iff.rfl) (fun j => ?_)
    · rintro j rfl
      exact ⟨hplace,fun h0 => ((hlog.fills _ hplace).mp h0).2 (.inl rfl)⟩
    · rw [range_chunk hpos, places]
      constructor
      · rintro ⟨(hj | ⟨-,hj⟩) | hj,hne⟩
        · exact .inl hj
        · exact absurd hj hne
        · exact .inr ⟨hj,hne⟩
      · rintro (hj | ⟨hj,hne⟩)
        · exact ⟨.inl (.inl hj),hj ▸ position_ne_indirect⟩
        · exact ⟨.inr hj,hne⟩

end Mapping

end Xv6.WriteLog
