import Xv6.ByteStore
import Xv6.PageBalance

/-!
# User memory with its contents

The functions of `vm.c` that allocate, copy and free user memory, with the bytes
they leave in the pages; without the bytes every function here is the one of
`PageTables`. `kfree` overwrites the pages it is given; a page that a call takes
off the free list is zeroed or filled with the copied page before the next one
is taken, and stays so.
-/

set_option autoImplicit false

namespace Xv6.UserMemory
open Function ByteStore PageTables

structure Ram where
  mem : Mem
  bytes : Page → Bytes

def freed (next : Option Page) : Bytes :=
  paste (fun _ => 1) 0 (leBytes 4 (next.elim 0 fun q => KERNBASE+q*PGSIZE))

def kfree (v : Page) (r : Ram) : Ram :=
  ⟨PageTables.kfree v r.mem,update r.bytes v (freed r.mem.freelist.head?)⟩

def clearPage (p : Page) (r : Ram) : Ram := { r with bytes := update r.bytes p fun _ => 0 }

def copyPage (dst src : Page) (r : Ram) : Ram :=
  { r with bytes := update r.bytes dst (r.bytes src) }

def mappages (writable user : Bool) (n vpn : ℕ) (pa : Page) (d : Pgdir) (r : Ram) :
    Except String (Bool × Pgdir × Ram) :=
  (PageTables.mappages writable user n vpn pa d r.mem).map fun t =>
    (t.1,t.2.1,{ r with mem := t.2.2 })

def deallocLoop : ℕ → ℕ → ℕ → Pgdir → Ram → Except String (Pgdir × Ram)
  | 0, _, _, d, r => .ok (d,r)
  | fuel+1, vpn, last, d, r =>
    if vpn < last then
      match walkpgdir d vpn with
      | none => deallocLoop fuel ((vpn/NPTENTRIES+1)*NPTENTRIES) last d r
      | some none => deallocLoop fuel (vpn+1) last d r
      | some (some e) =>
        if e.page = 0 then .error "kfree"
        else deallocLoop fuel (vpn+1) last (d.setPte vpn none) (kfree e.page r)
    else .ok (d,r)

def deallocuvm (d : Pgdir) (oldsz newsz : ℕ) (r : Ram) : Except String (ℕ × Pgdir × Ram) :=
  if oldsz ≤ newsz then .ok (oldsz,d,r)
  else (deallocLoop (pages oldsz-pages newsz) (pages newsz) (pages oldsz) d r).map
    fun t => (newsz,t)

def freeTables (d : Pgdir) : ℕ → Ram → Ram
  | 0, r => r
  | n+1, r => match d.tablePage n with
    | none => freeTables d n r
    | some t => kfree t (freeTables d n r)

def freevm (d : Pgdir) (r : Ram) : Except String Ram :=
  (deallocuvm d KERNBASE 0 r).map fun t => kfree t.2.1.page (freeTables t.2.1 NPDENTRIES t.2.2)

def setupkvm (L : Layout) (r : Ram) : Except String (Option Pgdir × Ram) :=
  match kalloc r.mem with
  | (none,m) => .ok (none,{ r with mem := m })
  | (some pgdir,m) => do
    match ← setupRanges L.kmap ⟨pgdir,fun _ => none⟩ m with
    | (true,d,m) => .ok (some d,{ r with mem := m })
    | (false,d,m) => (freevm d { r with mem := m }).map fun r => (none,r)

def allocLoop (oldsz newsz : ℕ) : ℕ → ℕ → Pgdir → Ram → Except String (ℕ × Pgdir × Ram)
  | 0, _, d, r => .ok (newsz,d,r)
  | n+1, vpn, d, r => match kalloc r.mem with
    | (none,m) => (deallocuvm d newsz oldsz { r with mem := m }).map fun t => (0,t.2)
    | (some mem,m) => do
      match ← mappages true true 1 vpn mem d (clearPage mem { r with mem := m }) with
      | (true,d,r) => allocLoop oldsz newsz n (vpn+1) d r
      | (false,d,r) => (deallocuvm d newsz oldsz r).map fun t => (0,t.2.1,kfree mem t.2.2)

def allocuvm (d : Pgdir) (oldsz newsz : ℕ) (r : Ram) : Except String (ℕ × Pgdir × Ram) :=
  if KERNBASE ≤ newsz then .ok (0,d,r)
  else if newsz < oldsz then .ok (oldsz,d,r)
  else allocLoop oldsz newsz (pages newsz-pages oldsz) (pages oldsz) d r

def copyLoop (src : Pgdir) : ℕ → ℕ → Pgdir → Ram → Except String (Bool × Pgdir × Ram)
  | 0, _, d, r => .ok (true,d,r)
  | n+1, vpn, d, r => match walkpgdir src vpn with
    | none => .error "copyuvm: pte should exist"
    | some none => .error "copyuvm: page not present"
    | some (some e) => match kalloc r.mem with
      | (none,m) => .ok (false,d,{ r with mem := m })
      | (some mem,m) => do
        match ← mappages e.writable e.user 1 vpn mem d
          (copyPage mem e.page { r with mem := m }) with
        | (false,d,r) => .ok (false,d,r)
        | (true,d,r) => copyLoop src n (vpn+1) d r

def copyuvm (L : Layout) (src : Pgdir) (sz : ℕ) (r : Ram) :
    Except String (Option Pgdir × Ram) := do
  match ← setupkvm L r with
  | (none,r) => .ok (none,r)
  | (some d,r) =>
    match ← copyLoop src (pages sz) 0 d r with
    | (true,d,r) => .ok (some d,r)
    | (false,d,r) => (freevm d r).map fun r => (none,r)

def growproc (n : ℤ) (sz : ℕ) (d : Pgdir) (r : Ram) : Except String (ℤ × ℕ × Pgdir × Ram) :=
  let newsz := ((sz+n)%2^32).toNat
  if 0 < n then do
    let (k,d,r) ← allocuvm d sz newsz r
    if k = 0 then .ok (-1,sz,d,r) else .ok (0,k,d,r)
  else if n < 0 then do
    let (k,d,r) ← deallocuvm d sz newsz r
    if k = 0 then .ok (-1,sz,d,r) else .ok (0,k,d,r)
  else .ok (0,sz,d,r)

def byteAt (d : Pgdir) (r : Ram) (a : ℕ) : Option UInt8 :=
  (d.ptePage (a/PGSIZE)).map fun p => r.bytes p (a%PGSIZE)

section Erasure

variable {E α β γ δ : Type}

theorem map_bind_erase {x : Except E α} {y : Except E β} {e : α → β} {f : α → Except E γ}
    {k : β → Except E δ} {g : γ → δ} (hx : x.map e = y) (hf : ∀ a, (f a).map g = k (e a)) :
    (x >>= f).map g = y >>= k := by
  subst hx
  cases x with
  | error e => rfl
  | ok a => exact hf a

theorem map_map_erase {x : Except E α} {y : Except E β} {e : α → β} {f : α → γ} {k : β → δ}
    {g : γ → δ} (hx : x.map e = y) (hf : ∀ a, g (f a) = k (e a)) :
    (x.map f).map g = y.map k := by
  subst hx
  cases x with
  | error e => rfl
  | ok a => exact congrArg Except.ok (hf a)

variable {d : Pgdir} {r : Ram}

theorem mappages_mem {w u : Bool} {n vpn : ℕ} {pa : Page} :
    (mappages w u n vpn pa d r).map (fun t => (t.1,t.2.1,t.2.2.mem)) =
      PageTables.mappages w u n vpn pa d r.mem := by
  rw [mappages]
  cases PageTables.mappages w u n vpn pa d r.mem <;> rfl

theorem deallocLoop_mem {fuel vpn last : ℕ} :
    (deallocLoop fuel vpn last d r).map (fun t => (t.1,t.2.mem)) =
      PageTables.deallocLoop fuel vpn last d r.mem := by
  induction fuel generalizing vpn d r with
  | zero => rfl
  | succ fuel ih =>
    rw [deallocLoop, PageTables.deallocLoop]
    split
    · cases walkpgdir d vpn with
      | none => exact ih
      | some o => cases o with
        | none => exact ih
        | some e =>
          dsimp only
          split
          · rfl
          · exact ih
    · rfl

theorem deallocuvm_mem {oldsz newsz : ℕ} :
    (deallocuvm d oldsz newsz r).map (fun t => (t.1,t.2.1,t.2.2.mem)) =
      PageTables.deallocuvm d oldsz newsz r.mem := by
  rw [deallocuvm, PageTables.deallocuvm]
  split
  · rfl
  · exact map_map_erase deallocLoop_mem fun _ => rfl

theorem freeTables_mem {n : ℕ} : (freeTables d n r).mem = PageTables.freeTables d n r.mem := by
  induction n with
  | zero => rfl
  | succ n ih =>
    rw [freeTables, PageTables.freeTables]
    cases d.tablePage n with
    | none => exact ih
    | some t => exact congrArg (PageTables.kfree t) ih

theorem freevm_mem : (freevm d r).map Ram.mem = PageTables.freevm d r.mem :=
  map_map_erase deallocuvm_mem fun t => congrArg (PageTables.kfree t.2.1.page) freeTables_mem

theorem setupkvm_mem {L : Layout} :
    (setupkvm L r).map (fun t => (t.1,t.2.mem)) = PageTables.setupkvm L r.mem := by
  rw [setupkvm, PageTables.setupkvm]
  obtain ⟨o,m⟩ := kalloc r.mem
  cases o with
  | none => rfl
  | some pgdir =>
    refine map_bind_erase (congrFun Except.map_id _) ?_
    rintro ⟨b,d,m⟩
    cases b with
    | true => rfl
    | false => exact map_map_erase freevm_mem fun _ => rfl

theorem allocLoop_mem {oldsz newsz n vpn : ℕ} :
    (allocLoop oldsz newsz n vpn d r).map (fun t => (t.1,t.2.1,t.2.2.mem)) =
      PageTables.allocLoop oldsz newsz n vpn d r.mem := by
  induction n generalizing vpn d r with
  | zero => rfl
  | succ n ih =>
    rw [allocLoop, PageTables.allocLoop]
    obtain ⟨o,m⟩ := kalloc r.mem
    cases o with
    | none => exact map_map_erase deallocuvm_mem fun _ => rfl
    | some mem =>
      refine map_bind_erase mappages_mem ?_
      rintro ⟨b,d,r⟩
      cases b with
      | true => exact ih
      | false => exact map_map_erase deallocuvm_mem fun _ => rfl

theorem allocuvm_mem {oldsz newsz : ℕ} :
    (allocuvm d oldsz newsz r).map (fun t => (t.1,t.2.1,t.2.2.mem)) =
      PageTables.allocuvm d oldsz newsz r.mem := by
  rw [allocuvm, PageTables.allocuvm]
  split
  · rfl
  · split
    · rfl
    · exact allocLoop_mem

theorem copyLoop_mem {src : Pgdir} {n vpn : ℕ} :
    (copyLoop src n vpn d r).map (fun t => (t.1,t.2.1,t.2.2.mem)) =
      PageTables.copyLoop src n vpn d r.mem := by
  induction n generalizing vpn d r with
  | zero => rfl
  | succ n ih =>
    rw [copyLoop, PageTables.copyLoop]
    cases walkpgdir src vpn with
    | none => rfl
    | some o => cases o with
      | none => rfl
      | some e =>
        dsimp only
        obtain ⟨o,m⟩ := kalloc r.mem
        cases o with
        | none => rfl
        | some mem =>
          refine map_bind_erase mappages_mem ?_
          rintro ⟨b,d,r⟩
          cases b with
          | true => exact ih
          | false => rfl

end Erasure

open Inventory PageLedger TransitionRun

variable {d d' : Pgdir} {r r' : Ram} {p : Page}

structure Spare (d : Pgdir) (m : Mem) : Prop where
  nodup : m.freelist.Nodup
  apart : ∀ v, v < kernPage → ∀ p, d.ptePage v = some p → p ∉ m.freelist
  zero : freeCount 0 m+uses false 0 d = 0

section Addresses

theorem page_of_byte {a b : ℕ} (h : a < b) : a/PGSIZE < pages b := by
  simp only [pages, PGSIZE]
  omega

theorem page_below {a k : ℕ} (h : a < k*PGSIZE) : a/PGSIZE < k := by
  simp only [PGSIZE] at *
  omega

theorem page_above {a k : ℕ} (h : k*PGSIZE ≤ a) : k ≤ a/PGSIZE := by
  simp only [PGSIZE] at *
  omega

theorem byteAt_congr {a : ℕ} (hp : d'.pte (a/PGSIZE) = d.pte (a/PGSIZE))
    (hb : ∀ p, d.ptePage (a/PGSIZE) = some p → r'.bytes p = r.bytes p) :
    byteAt d' r' a = byteAt d r a := by
  have hpage : d'.ptePage (a/PGSIZE) = d.ptePage (a/PGSIZE) := congrArg (Option.map Pte.page) hp
  rw [byteAt, byteAt, hpage]
  cases he : d.ptePage (a/PGSIZE) with
  | none => rfl
  | some p => rw [Option.map_some, Option.map_some, hb p he]

end Addresses

section Freeing

def kfreeAll : List Page → Ram → Ram
  | [], r => r
  | v::vs, r => kfreeAll vs (kfree v r)

theorem kfree_other {v : Page} (h : p ≠ v) : (kfree v r).bytes p = r.bytes p :=
  update_of_ne h _ _

theorem kfreeAll_other {vs : List Page} (h : p ∉ vs) : (kfreeAll vs r).bytes p = r.bytes p := by
  induction vs generalizing r with
  | nil => rfl
  | cons v vs ih =>
    rw [List.mem_cons, not_or] at h
    rw [kfreeAll, ih h.2, kfree_other h.1]

def pagesFrom (d : Pgdir) (lo n : ℕ) : List Page := (List.range' lo n).filterMap d.ptePage

theorem mem_pagesFrom {lo n : ℕ} :
    p ∈ pagesFrom d lo n ↔ ∃ v, lo ≤ v ∧ v < lo+n ∧ d.ptePage v = some p := by
  simp only [pagesFrom, List.mem_filterMap, List.mem_range'_1, and_assoc]

theorem pagesFrom_congr {lo n : ℕ} (h : ∀ v, lo ≤ v → v < lo+n → d'.ptePage v = d.ptePage v) :
    pagesFrom d' lo n = pagesFrom d lo n := by
  apply List.filterMap_congr
  intro v hv
  rw [List.mem_range'_1] at hv
  exact h v hv.1 hv.2

theorem pagesFrom_add (d : Pgdir) (lo a b : ℕ) :
    pagesFrom d lo (a+b) = pagesFrom d lo a++pagesFrom d (lo+a) b := by
  rw [pagesFrom, ← List.range'_append_1, List.filterMap_append]
  rfl

theorem pagesFrom_none {lo n : ℕ} (h : ∀ v, lo ≤ v → v < lo+n → d.pte v = none) :
    pagesFrom d lo n = [] := by
  rw [List.eq_nil_iff_forall_not_mem]
  intro p hp
  obtain ⟨v,h1,h2,hv⟩ := mem_pagesFrom.mp hp
  rw [Pgdir.ptePage, h v h1 h2] at hv
  cases hv

/-- Entries without pages may be skipped. -/
theorem pagesFrom_skip {vpn next last : ℕ} (hn : vpn ≤ next)
    (h : ∀ v, vpn ≤ v → v < next → d.pte v = none) :
    pagesFrom d vpn (last-vpn) = pagesFrom d next (last-next) := by
  rcases Nat.le_total last next with hl | hl
  · rw [pagesFrom_none fun v h1 h2 => h v h1 (by omega), pagesFrom_none fun v h1 h2 => by omega]
  · rw [show last-vpn = (next-vpn)+(last-next) by omega, pagesFrom_add,
      pagesFrom_none fun v h1 h2 => h v h1 (by omega), show vpn+(next-vpn) = next by omega,
      List.nil_append]

theorem deallocLoop_ram {fuel vpn last : ℕ} (hf : last-vpn ≤ fuel)
    (h : deallocLoop fuel vpn last d r = .ok (d',r')) :
    r' = kfreeAll (pagesFrom d vpn (last-vpn)) r := by
  induction fuel generalizing vpn d r with
  | zero =>
    cases h
    rw [show last-vpn = 0 by omega]
    rfl
  | succ fuel ih =>
    rw [deallocLoop] at h
    split at h
    · rename_i hlt
      split at h
      · rename_i hw
        have hnext : vpn < (vpn/NPTENTRIES+1)*NPTENTRIES := by
          have := Nat.lt_div_mul_add (a := vpn) (b := NPTENTRIES) (by decide)
          rw [Nat.add_mul, Nat.one_mul]
          exact this
        rw [ih (by omega) h, pagesFrom_skip hnext.le]
        intro v h1 h2
        exact walkpgdir_none hw v (Nat.div_eq_of_lt_le
          ((Nat.div_mul_le_self vpn NPTENTRIES).trans h1) h2)
      · rename_i hw
        rw [ih (by omega) h, pagesFrom_skip (Nat.le_succ vpn)]
        intro v h1 h2
        obtain rfl : v = vpn := by omega
        exact (walkpgdir_some hw).2
      · rename_i e hw
        obtain ⟨ht,hp⟩ := walkpgdir_some hw
        split at h
        · cases h
        · have hone : pagesFrom d vpn 1 = [e.page] := by
            simp [pagesFrom, Pgdir.ptePage, hp]
          rw [ih (by omega) h, show last-vpn = 1+(last-(vpn+1)) by omega, pagesFrom_add, hone]
          refine congrArg (fun vs => kfreeAll vs (kfree e.page r)) (pagesFrom_congr ?_)
          intro v h1 h2
          rw [Pgdir.ptePage, pte_setPte ht, update_of_ne (by omega), Pgdir.ptePage]
    · cases h
      rw [show last-vpn = 0 by omega]
      rfl

theorem deallocuvm_ram {oldsz newsz k : ℕ} (h : deallocuvm d oldsz newsz r = .ok (k,d',r')) :
    r' = kfreeAll (pagesFrom d (pages newsz) (pages oldsz-pages newsz)) r := by
  rw [deallocuvm] at h
  split at h
  · rename_i hle
    obtain ⟨-,hr⟩ := Prod.mk.inj (Except.ok.inj h)
    obtain ⟨-,rfl⟩ := Prod.mk.inj hr
    rw [Nat.sub_eq_zero_of_le (pages_mono hle)]
    rfl
  · obtain ⟨t,ht,he⟩ := map_ok h
    obtain ⟨-,rfl⟩ := Prod.mk.inj he
    exact deallocLoop_ram le_rfl ht

theorem deallocuvm_other {oldsz newsz k : ℕ} (h : deallocuvm d oldsz newsz r = .ok (k,d',r'))
    (hp : ∀ v, pages newsz ≤ v → v < pages oldsz → d.ptePage v ≠ some p) :
    r'.bytes p = r.bytes p := by
  rw [deallocuvm_ram h]
  apply kfreeAll_other
  intro hm
  obtain ⟨v,h1,h2,hv⟩ := mem_pagesFrom.mp hm
  exact hp v h1 (by omega) hv

theorem freeTables_other {n : ℕ} (h : ∀ i, i < n → d.tablePage i ≠ some p) :
    (freeTables d n r).bytes p = r.bytes p := by
  induction n with
  | zero => rfl
  | succ n ih =>
    rw [freeTables]
    split
    · exact ih fun i hi => h i (by omega)
    · rename_i t ht
      rw [kfree_other, ih fun i hi => h i (by omega)]
      rintro rfl
      exact h n (by omega) ht

theorem ptePage_ne_of_uses (h : uses false p d = 0) {v : ℕ} (hv : v < kernPage) :
    d.ptePage v ≠ some p := by
  intro he
  have hle := weight_le_total (Finset.mem_range.mpr hv) (hit p) d.ptePage
  have hu := mapped_le_uses p d
  rw [he, hit_self] at hle
  rw [mapped] at hu
  omega

theorem tablePage_ne_of_uses (h : uses false p d = 0) {i : ℕ} (hi : i < NPDENTRIES) :
    d.tablePage i ≠ some p := by
  intro he
  have hle := weight_le_total (Finset.mem_range.mpr hi) (hit p) d.tablePage
  rw [he, hit_self] at hle
  simp only [uses, frames] at h
  omega

theorem page_ne_of_uses (h : uses false p d = 0) : p ≠ d.page := by
  rintro rfl
  simp [uses, frames] at h

theorem deallocuvm_pagetables {oldsz newsz k : ℕ} (h : deallocuvm d oldsz newsz r = .ok (k,d',r')) :
    PageTables.deallocuvm d oldsz newsz r.mem = .ok (k,d',r'.mem) := by
  rw [← deallocuvm_mem, h]
  rfl

theorem freevm_other (h : freevm d r = .ok r') (hp : uses false p d = 0) :
    r'.bytes p = r.bytes p := by
  obtain ⟨⟨k,d1,r1⟩,hd,rfl⟩ := map_ok h
  obtain ⟨ht,hpage⟩ := deallocuvm_frames (deallocuvm_pagetables hd)
  show (kfree d1.page (freeTables d1 NPDENTRIES r1)).bytes p = r.bytes p
  rw [kfree_other, freeTables_other, deallocuvm_other hd]
  · intro v _ hv
    exact ptePage_ne_of_uses hp (pages_KERNBASE ▸ hv)
  · intro i hi
    rw [ht]
    exact tablePage_ne_of_uses hp hi
  · rw [hpage]
    exact page_ne_of_uses hp

end Freeing

section Allocation

theorem mappages_ram {w u b : Bool} {n vpn : ℕ} {pa : Page}
    (h : mappages w u n vpn pa d r = .ok (b,d',r')) :
    PageTables.mappages w u n vpn pa d r.mem = .ok (b,d',r'.mem) ∧ r'.bytes = r.bytes ∧
      r'.mem.freelist <:+ r.mem.freelist := by
  obtain ⟨⟨b1,d1,m1⟩,hm,he⟩ := map_ok h
  obtain ⟨rfl,hr⟩ := Prod.mk.inj he
  obtain ⟨rfl,rfl⟩ := Prod.mk.inj hr
  exact ⟨hm,rfl,mappages_suffix hm⟩

/-- The page `q` is taken off the list, filled with `v` and mapped, or not when
there is no page for its table. -/
structure Filled (w u : Bool) (vpn : ℕ) (q : Page) (v : Bytes) (d : Pgdir) (r : Ram) (b : Bool)
    (d' : Pgdir) (r' : Ram) : Prop where
  took : ∃ m, kalloc r.mem = (some q,m) ∧ PageTables.mappages w u 1 vpn q d m = .ok (b,d',r'.mem)
  bytes : r'.bytes = update r.bytes q v

section
variable {w u b : Bool} {vpn : ℕ} {q : Page} {v : Bytes} (h : Filled w u vpn q v d r b d' r')
include h

theorem Filled.mem : q ∈ r.mem.freelist := by
  obtain ⟨m,hk,-⟩ := h.took
  exact kalloc_some hk ▸ List.mem_cons_self

theorem Filled.suffix : r'.mem.freelist <:+ r.mem.freelist := by
  obtain ⟨m,hk,hm⟩ := h.took
  exact (mappages_suffix hm).trans (kalloc_suffix hk)

theorem Filled.gone (hnd : r.mem.freelist.Nodup) : q ∉ r'.mem.freelist := by
  obtain ⟨m,hk,hm⟩ := h.took
  rw [kalloc_some hk] at hnd
  exact fun hin => (List.nodup_cons.mp hnd).1 ((mappages_suffix hm).subset hin)

theorem Filled.ne (hp : p ∉ r.mem.freelist) : p ≠ q := fun e => hp (e ▸ h.mem)

theorem Filled.other (hp : p ∉ r.mem.freelist) : r'.bytes p = r.bytes p := by
  rw [h.bytes]
  exact update_of_ne (h.ne hp) _ _

theorem Filled.self : r'.bytes q = v := by
  rw [h.bytes]
  exact update_self _ _ _

end

theorem Filled.pte {w u : Bool} {vpn : ℕ} {q : Page} {v : Bytes}
    (h : Filled w u vpn q v d r true d' r') : d'.pte = update d.pte vpn (some ⟨q,w,u⟩) :=
  (mappages_true h.took.choose_spec.2).2

theorem Filled.refused {w u : Bool} {vpn : ℕ} {q : Page} {v : Bytes}
    (h : Filled w u vpn q v d r false d' r') : d'.pte = d.pte :=
  mappages_false h.took.choose_spec.2

theorem allocLoop_succ {oldsz newsz n vpn k : ℕ}
    (h : allocLoop oldsz newsz (n+1) vpn d r = .ok (k,d',r')) :
    (∃ m i, kalloc r.mem = (none,m) ∧
      deallocuvm d newsz oldsz { r with mem := m } = .ok (i,d',r') ∧ k = 0) ∨
    ∃ q b d1 r1, Filled true true vpn q (fun _ => 0) d r b d1 r1 ∧
      (b = true ∧ allocLoop oldsz newsz n (vpn+1) d1 r1 = .ok (k,d',r') ∨
        b = false ∧ k = 0 ∧ ∃ i r2, deallocuvm d1 newsz oldsz r1 = .ok (i,d',r2) ∧
          r' = kfree q r2) := by
  rw [allocLoop] at h
  split at h
  · rename_i m1 hk
    obtain ⟨⟨i,d1,r1⟩,hd,he⟩ := map_ok h
    cases he
    exact .inl ⟨m1,i,hk,hd,rfl⟩
  · rename_i q m1 hk
    obtain ⟨⟨b,d1,r1⟩,hm,h⟩ := bind_ok h
    obtain ⟨hpt,hb,-⟩ := mappages_ram hm
    refine .inr ⟨q,b,d1,r1,⟨⟨m1,hk,hpt⟩,hb⟩,?_⟩
    cases b with
    | true => exact .inl ⟨rfl,h⟩
    | false =>
      obtain ⟨⟨i,d2,r2⟩,hd,he⟩ := map_ok h
      cases he
      exact .inr ⟨rfl,rfl,i,r2,hd,rfl⟩

structure Extended (lo hi : ℕ) (d : Pgdir) (r : Ram) (d' : Pgdir) (r' : Ram) : Prop where
  suffix : r'.mem.freelist <:+ r.mem.freelist
  other : ∀ p, p ∉ r.mem.freelist → r'.bytes p = r.bytes p
  outside : ∀ v, v < lo ∨ hi ≤ v → d'.pte v = d.pte v
  inside : ∀ v, lo ≤ v → v < hi → ∃ p, d'.pte v = some ⟨p,true,true⟩ ∧
    p ∈ r.mem.freelist ∧ p ∉ r'.mem.freelist ∧ r'.bytes p = fun _ => 0

theorem allocLoop_extended {oldsz newsz n vpn k : ℕ} (hnd : r.mem.freelist.Nodup)
    (h : allocLoop oldsz newsz n vpn d r = .ok (k,d',r')) (hk : k ≠ 0) :
    k = newsz ∧ Extended vpn (vpn+n) d r d' r' := by
  induction n generalizing vpn d r with
  | zero =>
    cases h
    exact ⟨rfl,List.suffix_rfl,fun _ _ => rfl,fun _ _ => rfl,fun v h1 h2 => by omega⟩
  | succ n ih =>
    obtain ⟨-,-,-,-,rfl⟩ | ⟨q,b,d1,r1,hf,⟨rfl,h⟩ | ⟨-,rfl,-⟩⟩ := allocLoop_succ h
    · exact absurd rfl hk
    · obtain ⟨rfl,hi⟩ := ih (hf.suffix.sublist.nodup hnd) h
      have hgone := hf.gone hnd
      refine ⟨rfl,hi.suffix.trans hf.suffix,?_,?_,?_⟩
      · intro p hp
        rw [hi.other p (fun hin => hp (hf.suffix.subset hin)), hf.other hp]
      · intro v hv
        rw [hi.outside v (by omega), hf.pte, update_of_ne (by omega)]
      · intro v h1 h2
        by_cases hv : v = vpn
        · subst hv
          refine ⟨q,?_,hf.mem,fun hin => hgone (hi.suffix.subset hin),?_⟩
          · rw [hi.outside v (by omega), hf.pte, update_self]
          · rw [hi.other q hgone, hf.self]
        · obtain ⟨p,hp,hin,hout,hz⟩ := hi.inside v (by omega) (by omega)
          exact ⟨p,hp,hf.suffix.subset hin,hout,hz⟩
    · exact absurd rfl hk

/-- Growing that fails leaves the pages alone that were neither free nor
mapped in the new part. -/
theorem allocLoop_failed {oldsz newsz n vpn k : ℕ} (hk : k ≠ newsz)
    (h : allocLoop oldsz newsz n vpn d r = .ok (k,d',r')) (hp : p ∉ r.mem.freelist)
    (hc : ∀ v, pages oldsz ≤ v → v < pages newsz → d.ptePage v ≠ some p) :
    r'.bytes p = r.bytes p := by
  induction n generalizing vpn d r with
  | zero => exact absurd (Prod.mk.inj (Except.ok.inj h)).1.symm hk
  | succ n ih =>
    obtain ⟨m,i,-,hd,-⟩ | ⟨q,b,d1,r1,hf,⟨rfl,h⟩ | ⟨rfl,-,i,r2,hd,rfl⟩⟩ := allocLoop_succ h
    · rw [deallocuvm_other hd hc]
    · rw [ih h (fun hin => hp (hf.suffix.subset hin)), hf.other hp]
      intro v h1 h2
      rw [ptePage_update hf.pte]
      by_cases hv : v = vpn
      · subst hv
        rw [update_self]
        simpa using (hf.ne hp).symm
      · rw [update_of_ne hv]
        exact hc v h1 h2
    · rw [kfree_other (hf.ne hp), deallocuvm_other hd, hf.other hp]
      intro v h1 h2
      rw [Pgdir.ptePage, hf.refused]
      exact hc v h1 h2

theorem allocLoop_pagetables {oldsz newsz n vpn k : ℕ}
    (h : allocLoop oldsz newsz n vpn d r = .ok (k,d',r')) :
    PageTables.allocLoop oldsz newsz n vpn d r.mem = .ok (k,d',r'.mem) := by
  rw [← allocLoop_mem, h]
  rfl

theorem allocuvm_pagetables {oldsz newsz k : ℕ} (h : allocuvm d oldsz newsz r = .ok (k,d',r')) :
    PageTables.allocuvm d oldsz newsz r.mem = .ok (k,d',r'.mem) := by
  rw [← allocuvm_mem, h]
  rfl

/-- The three ways `allocuvm` ends for a larger size: at once, grown, or with
the new part taken down again. -/
theorem allocuvm_cases {oldsz newsz k : ℕ} (hle : oldsz ≤ newsz) (hpos : 0 < newsz)
    (hnd : r.mem.freelist.Nodup) (h : allocuvm d oldsz newsz r = .ok (k,d',r')) :
    (k = 0 ∧ d' = d ∧ r' = r) ∨
      (k = newsz ∧ newsz < KERNBASE ∧ Extended (pages oldsz) (pages newsz) d r d' r') ∨
      k = 0 ∧ newsz < KERNBASE ∧
        (∀ v, d'.pte v = if pages oldsz ≤ v ∧ v < pages newsz then none else d.pte v) ∧
        ∀ p, p ∉ r.mem.freelist →
          (∀ v, pages oldsz ≤ v → v < pages newsz → d.ptePage v ≠ some p) →
          r'.bytes p = r.bytes p := by
  unfold allocuvm at h
  split at h
  · cases h
    exact .inl ⟨rfl,rfl,rfl⟩
  · rename_i hn
    rw [if_neg (by omega)] at h
    have hm := pages_mono hle
    have hsum : pages oldsz+(pages newsz-pages oldsz) = pages newsz := by omega
    by_cases hk : k = 0
    · obtain ⟨hout,hin⟩ := allocLoop_pte le_rfl hsum (allocLoop_pagetables h)
      have hin' : ∀ v, pages oldsz ≤ v → v < pages newsz → d'.pte v = none := by
        rcases hin with he | ⟨-,hin⟩
        · omega
        · exact hin
      refine .inr (.inr ⟨hk,by omega,?_,fun p hp hc => allocLoop_failed (by omega) h hp hc⟩)
      intro v
      split
      · rename_i hv
        exact hin' v hv.1 hv.2
      · exact hout v (by omega)
    · obtain ⟨he,hx⟩ := allocLoop_extended hnd h hk
      rw [hsum] at hx
      exact .inr (.inl ⟨he,by omega,hx⟩)

end Allocation

end Xv6.UserMemory
