import Mathlib.Data.Nat.Notation
import Mathlib.Logic.Function.Basic

/-!
# Page allocator and page tables

The free list of `kalloc.c` and the functions of `vm.c` on page tables. A page
directory is a page together with its present page tables, each in a page of its
own; the contents of data pages are left out. The allocator may refuse any call;
a function that panics returns the message.
-/

set_option autoImplicit false

namespace Xv6.PageTables
open Function

abbrev Page := ℕ

abbrev PGSIZE : ℕ := 4096
abbrev NPDENTRIES : ℕ := 1024
abbrev NPTENTRIES : ℕ := 1024

def kernPage : ℕ := 0x80000

def KERNBASE : ℕ := 0x80000000

structure Mem where
  freelist : List Page
  refuse : ℕ → Bool
  calls : ℕ

def kalloc (m : Mem) : Option Page × Mem :=
  if m.refuse m.calls then (none,{ m with calls := m.calls+1 }) else
    match m.freelist with
    | [] => (none,{ m with calls := m.calls+1 })
    | r::rest => (some r,{ m with calls := m.calls+1, freelist := rest })

def kfree (v : Page) (m : Mem) : Mem := { m with freelist := v::m.freelist }

def freerange (first last : Page) (m : Mem) : Mem :=
  (List.range' first (last-first)).foldl (fun m v => kfree v m) m

structure Pte where
  page : Page
  writable : Bool
  user : Bool
  deriving DecidableEq, Repr

structure Table where
  page : Page
  ptes : ℕ → Option Pte

structure Pgdir where
  page : Page
  tables : ℕ → Option Table

namespace Pgdir

def tablePage (d : Pgdir) (i : ℕ) : Option Page := (d.tables i).map Table.page

def pte (d : Pgdir) (vpn : ℕ) : Option Pte :=
  (d.tables (vpn/NPTENTRIES)).bind fun t => t.ptes (vpn%NPTENTRIES)

def ptePage (d : Pgdir) (vpn : ℕ) : Option Page := (d.pte vpn).map Pte.page

def setPte (d : Pgdir) (vpn : ℕ) (e : Option Pte) : Pgdir :=
  { d with
    tables := update d.tables (vpn/NPTENTRIES)
      ((d.tables (vpn/NPTENTRIES)).map fun t =>
        { t with ptes := update t.ptes (vpn%NPTENTRIES) e }) }

def setTable (d : Pgdir) (vpn : ℕ) (t : Page) : Pgdir :=
  { d with tables := update d.tables (vpn/NPTENTRIES) (some ⟨t,fun _ => none⟩) }

end Pgdir

def pages (n : ℕ) : ℕ := (n+(PGSIZE-1))/PGSIZE

def walkpgdir (d : Pgdir) (vpn : ℕ) : Option (Option Pte) :=
  (d.tables (vpn/NPTENTRIES)).map fun t => t.ptes (vpn%NPTENTRIES)

def walkpgdirAlloc (d : Pgdir) (vpn : ℕ) (m : Mem) : Option Pgdir × Mem :=
  match d.tables (vpn/NPTENTRIES) with
  | some _ => (some d,m)
  | none => match kalloc m with
    | (none,m) => (none,m)
    | (some pgtab,m) => (some (d.setTable vpn pgtab),m)

def mappages (writable user : Bool) :
    ℕ → ℕ → Page → Pgdir → Mem → Except String (Bool × Pgdir × Mem)
  | 0, _, _, d, m => .ok (true,d,m)
  | n+1, vpn, pa, d, m => match walkpgdirAlloc d vpn m with
    | (none,m) => .ok (false,d,m)
    | (some d,m) => match d.pte vpn with
      | some _ => .error "remap"
      | none => mappages writable user n (vpn+1) (pa+1) (d.setPte vpn (some ⟨pa,writable,user⟩)) m

def deallocLoop : ℕ → ℕ → ℕ → Pgdir → Mem → Except String (Pgdir × Mem)
  | 0, _, _, d, m => .ok (d,m)
  | fuel+1, vpn, last, d, m =>
    if vpn < last then
      match walkpgdir d vpn with
      | none => deallocLoop fuel ((vpn/NPTENTRIES+1)*NPTENTRIES) last d m
      | some none => deallocLoop fuel (vpn+1) last d m
      | some (some e) =>
        if e.page = 0 then .error "kfree"
        else deallocLoop fuel (vpn+1) last (d.setPte vpn none) (kfree e.page m)
    else .ok (d,m)

def deallocuvm (d : Pgdir) (oldsz newsz : ℕ) (m : Mem) : Except String (ℕ × Pgdir × Mem) :=
  if oldsz ≤ newsz then .ok (oldsz,d,m)
  else (deallocLoop (pages oldsz-pages newsz) (pages newsz) (pages oldsz) d m).map
    fun r => (newsz,r)

def freeTables (d : Pgdir) : ℕ → Mem → Mem
  | 0, m => m
  | n+1, m => match d.tablePage n with
    | none => freeTables d n m
    | some t => kfree t (freeTables d n m)

def freevm (d : Pgdir) (m : Mem) : Except String Mem :=
  (deallocuvm d KERNBASE 0 m).map fun r => kfree r.2.1.page (freeTables r.2.1 NPDENTRIES r.2.2)

structure Kmap where
  virt : ℕ
  phys : Page
  size : ℕ
  writable : Bool
  deriving DecidableEq, Repr

structure Layout where
  first : Kmap
  rest : List Kmap
  first_virt : first.virt = kernPage
  first_size : 0 < first.size
  above : ∀ k ∈ rest, kernPage ≤ k.virt

def Layout.kmap (L : Layout) : List Kmap := L.first::L.rest

def vmLayout (data : Page) : Layout where
  first := { virt := kernPage, phys := 0, size := 0x100, writable := true }
  rest :=
    [{ virt := kernPage+0x100, phys := 0x100, size := data-0x100, writable := false },
     { virt := kernPage+data, phys := data, size := 0xE000-data, writable := true },
     { virt := 0xFE000, phys := 0xFE000, size := 0x2000, writable := true }]
  first_virt := rfl
  first_size := by decide
  above := by
    intro k hk
    simp only [List.mem_cons, List.not_mem_nil, or_false] at hk
    rcases hk with rfl | rfl | rfl
    · exact Nat.le_add_right _ _
    · exact Nat.le_add_right _ _
    · decide

def setupRanges : List Kmap → Pgdir → Mem → Except String (Bool × Pgdir × Mem)
  | [], d, m => .ok (true,d,m)
  | k::ks, d, m => do
    match ← mappages k.writable false k.size k.virt k.phys d m with
    | (false,d,m) => .ok (false,d,m)
    | (true,d,m) => setupRanges ks d m

def setupkvm (L : Layout) (m : Mem) : Except String (Option Pgdir × Mem) :=
  match kalloc m with
  | (none,m) => .ok (none,m)
  | (some pgdir,m) => do
    match ← setupRanges L.kmap ⟨pgdir,fun _ => none⟩ m with
    | (true,d,m) => .ok (some d,m)
    | (false,d,m) => (freevm d m).map fun m => (none,m)

def allocLoop (oldsz newsz : ℕ) : ℕ → ℕ → Pgdir → Mem → Except String (ℕ × Pgdir × Mem)
  | 0, _, d, m => .ok (newsz,d,m)
  | n+1, vpn, d, m => match kalloc m with
    | (none,m) => (deallocuvm d newsz oldsz m).map fun r => (0,r.2)
    | (some mem,m) => do
      match ← mappages true true 1 vpn mem d m with
      | (true,d,m) => allocLoop oldsz newsz n (vpn+1) d m
      | (false,d,m) => (deallocuvm d newsz oldsz m).map fun r => (0,r.2.1,kfree mem r.2.2)

def allocuvm (d : Pgdir) (oldsz newsz : ℕ) (m : Mem) : Except String (ℕ × Pgdir × Mem) :=
  if KERNBASE ≤ newsz then .ok (0,d,m)
  else if newsz < oldsz then .ok (oldsz,d,m)
  else allocLoop oldsz newsz (pages newsz-pages oldsz) (pages oldsz) d m

def copyLoop (src : Pgdir) : ℕ → ℕ → Pgdir → Mem → Except String (Bool × Pgdir × Mem)
  | 0, _, d, m => .ok (true,d,m)
  | n+1, vpn, d, m => match walkpgdir src vpn with
    | none => .error "copyuvm: pte should exist"
    | some none => .error "copyuvm: page not present"
    | some (some e) => match kalloc m with
      | (none,m) => .ok (false,d,m)
      | (some mem,m) => do
        match ← mappages e.writable e.user 1 vpn mem d m with
        | (false,d,m) => .ok (false,d,m)
        | (true,d,m) => copyLoop src n (vpn+1) d m

def copyuvm (L : Layout) (src : Pgdir) (sz : ℕ) (m : Mem) :
    Except String (Option Pgdir × Mem) := do
  match ← setupkvm L m with
  | (none,m) => .ok (none,m)
  | (some d,m) =>
    match ← copyLoop src (pages sz) 0 d m with
    | (true,d,m) => .ok (some d,m)
    | (false,d,m) => (freevm d m).map fun m => (none,m)

def clearpteu (d : Pgdir) (vpn : ℕ) : Except String Pgdir :=
  match walkpgdir d vpn with
  | none => .error "clearpteu"
  | some e => .ok (d.setPte vpn (e.map fun e => { e with user := false }))

def loaduvm (d : Pgdir) (short : Option ℕ) (vpn : ℕ) : ℕ → Except String Bool
  | 0 => .ok true
  | n+1 => do
    if ← loaduvm d short vpn n then
      match walkpgdir d (vpn+n) with
      | none => .error "loaduvm: address should exist"
      | some _ => .ok (decide (short ≠ some n))
    else .ok false

end Xv6.PageTables
