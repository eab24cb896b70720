import Xv6.UserMemory
import Xv6.PageCalls

/-!
# Growing and shrinking a process

`growproc` adds a signed number to an unsigned size, and both functions it calls
return 0 for failure although 0 is a size. So a process that asks to be shrunk
below 0 is told that it was, and one that gives all its memory away is told that
it did not.
-/

set_option autoImplicit false

namespace Xv6.GrowProcess
open Function PageTables PageLedger UserMemory TransitionRun

def Mapping (d : Pgdir) (sz : ℕ) : Prop := ∀ v, v < kernPage → ((d.pte v).isSome ↔ v < pages sz)

structure Grown (n : ℤ) (sz : ℕ) (d : Pgdir) (r : Ram) (sz' : ℕ) (d' : Pgdir) (r' : Ram) :
    Prop where
  low : 0 ≤ sz+n
  high : sz+n < KERNBASE
  size : (sz' : ℤ) = sz+n
  mapping : Mapping d' sz'
  kept : ∀ a, a < sz → a < sz' → byteAt d' r' a = byteAt d r a
  zeroed : ∀ a, pages sz*PGSIZE ≤ a → a < pages sz'*PGSIZE → byteAt d' r' a = some 0

structure Unchanged (sz : ℕ) (d : Pgdir) (r : Ram) (sz' : ℕ) (d' : Pgdir) (r' : Ram) :
    Prop where
  size : sz' = sz
  mapping : ∀ v, v < kernPage → d'.pte v = d.pte v
  kept : ∀ a, a < KERNBASE → byteAt d' r' a = byteAt d r a

def AllOrNothing (n : ℤ) (sz : ℕ) (d : Pgdir) (r : Ram) : Prop :=
  ∃ ret sz' d' r', growproc n sz d r = .ok (ret,sz',d',r') ∧
    (ret = 0 ∧ Grown n sz d r sz' d' r' ∨ ret = -1 ∧ Unchanged sz d r sz' d' r')

def CutsClean (new sz : ℕ) (d : Pgdir) (r : Ram) : Prop :=
  ∀ a, a < new → ∀ p, d.ptePage (a/PGSIZE) = some p →
    p ∈ pagesFrom d (pages new) (pages sz-pages new) →
    (kfreeAll (pagesFrom d (pages new) (pages sz-pages new)) r).bytes p (a%PGSIZE) =
      r.bytes p (a%PGSIZE)

def Regular (n : ℤ) (sz : ℕ) (d : Pgdir) (r : Ram) : Prop :=
  0 ≤ n ∨ sz = 0 ∨ 0 < sz+n ∧ CutsClean (sz+n).toNat sz d r

section Model

theorem resize_eq (k : ℕ) (d : Pgdir) (m : Mem) (p : KernelState.Slot) (s : PageCalls.System)
    (ret : ℤ × ℕ × Pgdir × Ram) (hret : ret.2.1 = if k = 0 then (s.task p).sz else k)
    (hd : ret.2.2.1 = d) (hm : ret.2.2.2.mem = m) :
    PageCalls.resize k d m p s = { s with mem := ret.2.2.2.mem }.setTask p
      { s.task p with sz := ret.2.1, pgdir := some ret.2.2.1 } := by
  rw [PageCalls.resize, hret, hd, hm]

/-- The model of the system calls is this one without bytes and return value. -/
theorem growproc_system (p : KernelState.Slot) (n : ℤ) (s : PageCalls.System) (d : Pgdir)
    (r : Ram) (hd : (s.task p).pgdir = some d) (hr : r.mem = s.mem) :
    PageCalls.growproc p n s = PageCalls.raise ((growproc n (s.task p).sz d r).map fun t =>
      { s with mem := t.2.2.2.mem }.setTask p
        { s.task p with sz := t.2.1, pgdir := some t.2.2.1 }) := by
  simp only [PageCalls.growproc, growproc, hd]
  by_cases hpos : 0 < n
  · rw [if_pos hpos, if_pos hpos, ← hr, ← allocuvm_mem]
    cases UserMemory.allocuvm d (s.task p).sz (((s.task p).sz+n)%2^32).toNat r with
    | error e => rfl
    | ok t =>
      obtain ⟨k,d',r'⟩ := t
      show Except.ok (PageCalls.resize k d' r'.mem p s) = PageCalls.raise (Except.map _
        (if k = 0 then _ else _))
      split <;> exact congrArg Except.ok (resize_eq k d' r'.mem p s _ (by simp [*]) rfl rfl)
  · rw [if_neg hpos, if_neg hpos]
    by_cases hneg : n < 0
    · rw [if_pos hneg, if_pos hneg, ← hr, ← deallocuvm_mem]
      cases UserMemory.deallocuvm d (s.task p).sz (((s.task p).sz+n)%2^32).toNat r with
      | error e => rfl
      | ok t =>
        obtain ⟨k,d',r'⟩ := t
        show Except.ok (PageCalls.resize k d' r'.mem p s) = PageCalls.raise (Except.map _
          (if k = 0 then _ else _))
        split <;> exact congrArg Except.ok (resize_eq k d' r'.mem p s _ (by simp [*]) rfl rfl)
    · rw [if_neg hneg, if_neg hneg]
      refine congrArg Except.ok ?_
      show s = { s with mem := r.mem }.setTask p { s.task p with pgdir := some d }
      rw [hr, ← hd]
      exact congrArg (fun f => { s with task := f }) (update_eq_self p s.task).symm

end Model

variable {n : ℤ} {sz : ℕ} {d d' : Pgdir} {r r' : Ram}

section Growing

theorem growproc_pos {k : ℕ} (hn : 0 < n)
    (h : allocuvm d sz ((sz+n)%2^32).toNat r = .ok (k,d',r')) :
    growproc n sz d r = .ok (if k = 0 then (-1,sz,d',r') else (0,k,d',r')) := by
  rw [growproc, if_pos hn, h]
  show (if k = 0 then _ else _) = _
  split <;> rfl

theorem growproc_neg {k : ℕ} (hn : n < 0)
    (h : deallocuvm d sz ((sz+n)%2^32).toNat r = .ok (k,d',r')) :
    growproc n sz d r = .ok (if k = 0 then (-1,sz,d',r') else (0,k,d',r')) := by
  rw [growproc, if_neg (by omega), if_pos hn, h]
  show (if k = 0 then _ else _) = _
  split <;> rfl

theorem allOrNothing_pos (hn : 0 < n) (hn' : n < 2^31) (hsz : sz < KERNBASE) (hm : Mapping d sz)
    (hs : Spare d r.mem) : AllOrNothing n sz d r := by
  have hnew : (((sz+n)%2^32).toNat : ℤ) = sz+n := by
    unfold KERNBASE at hsz
    omega
  have habove : ∀ v, pages sz ≤ v → v < kernPage → d.pte v = none := by
    intro v h1 h2
    have hv := hm v h2
    rw [← Option.not_isSome_iff_eq_none, hv]
    omega
  have ht : ∃ k d' m', PageTables.allocuvm d sz ((sz+n)%2^32).toNat r.mem = .ok (k,d',m') :=
    allocuvm_total habove hs.zero
  obtain ⟨k₀,d₀,m₀,ht⟩ := ht
  rw [← allocuvm_mem] at ht
  obtain ⟨⟨k,d',r'⟩,h,-⟩ := map_ok ht
  have hg := growproc_pos hn h
  generalize ((sz+n)%2^32).toNat = new at h hnew
  have hle : sz ≤ new := by omega
  have hmono := pages_mono hle
  rcases allocuvm_cases hle (by omega) hs.nodup h with
    ⟨rfl,rfl,rfl⟩ | ⟨rfl,hlt,hx⟩ | ⟨rfl,hlt,hpte,hother⟩
  · exact ⟨-1,sz,d',r',hg,.inr ⟨rfl,rfl,fun _ _ => rfl,fun _ _ => rfl⟩⟩
  · rw [if_neg (by omega)] at hg
    refine ⟨0,k,d',r',hg,.inl ⟨rfl,by omega,by omega,hnew,?_,?_,?_⟩⟩
    · intro v hv
      by_cases hin : pages sz ≤ v ∧ v < pages k
      · obtain ⟨p,hp,-⟩ := hx.inside v hin.1 hin.2
        simp [hp, hin.2]
      · rw [hx.outside v (by omega), hm v hv]
        omega
    · intro a ha _
      have hv := page_of_byte ha
      have hb := pages_le_kernPage hsz.le
      apply byteAt_congr (hx.outside _ (.inl hv))
      intro p hp
      exact hx.other p (hs.apart _ (by omega) p hp)
    · intro a h1 h2
      obtain ⟨p,hp,-,-,hz⟩ := hx.inside (a/PGSIZE) (page_above h1) (page_below h2)
      simp [byteAt, Pgdir.ptePage, hp, hz]
  · have hsame : ∀ v, v < kernPage → d'.pte v = d.pte v := by
      intro v hv
      rw [hpte v]
      split
      · rename_i hin
        rw [habove v hin.1 hv]
      · rfl
    refine ⟨-1,sz,d',r',hg,.inr ⟨rfl,rfl,hsame,?_⟩⟩
    intro a ha
    have hv : a/PGSIZE < kernPage := (page_of_byte ha).trans_eq pages_KERNBASE
    apply byteAt_congr (hsame _ hv)
    intro p hp
    apply hother p (hs.apart _ hv p hp)
    intro v h1 h2
    have hb := pages_le_kernPage hlt.le
    rw [Pgdir.ptePage, habove v h1 (by omega)]
    simp

end Growing

section Shrinking

theorem growproc_wrapped (hn : -2^31 ≤ n) (hlow : sz+n < 0) :
    growproc n sz d r = .ok (if sz = 0 then (-1,sz,d,r) else (0,sz,d,r)) := by
  apply growproc_neg (by omega)
  exact if_pos (by omega)

theorem growproc_cut (hs : Spare d r.mem) (hsz : sz < KERNBASE) (hn : n < 0) (hlow : 0 ≤ sz+n) :
    ∃ d', growproc n sz d r = .ok (if (sz+n).toNat = 0
        then (-1,sz,d',kfreeAll (pagesFrom d (pages (sz+n).toNat) (pages sz-pages (sz+n).toNat)) r)
        else (0,(sz+n).toNat,d',
          kfreeAll (pagesFrom d (pages (sz+n).toNat) (pages sz-pages (sz+n).toNat)) r)) ∧
      ∀ v, d'.pte v = if pages (sz+n).toNat ≤ v ∧ v < pages sz then none else d.pte v := by
  have hnew : ((sz+n)%2^32).toNat = (sz+n).toNat := by
    unfold KERNBASE at hsz
    omega
  have hb := pages_le_kernPage hsz.le
  have ht : ∃ k d' m', PageTables.deallocuvm d sz (sz+n).toNat r.mem = .ok (k,d',m') := by
    apply deallocuvm_total
    intro v _ hv e he
    have hle := mapped_le_uses 0 d
    have hz := hs.zero
    have hmap : mapped 0 d = 0 := by omega
    exact page_ne_zero hmap (by omega) he
  obtain ⟨k₀,d₀,m₀,ht⟩ := ht
  rw [← deallocuvm_mem] at ht
  obtain ⟨⟨k,d',r'⟩,h,-⟩ := map_ok ht
  obtain ⟨hk,hpte⟩ := deallocuvm_pte (deallocuvm_pagetables h)
  obtain rfl : k = (sz+n).toNat := by omega
  obtain rfl := deallocuvm_ram h
  exact ⟨d',growproc_neg hn (hnew ▸ h),hpte⟩

theorem told_shrunk (hn : -2^31 ≤ n) (hpos : 0 < sz) (hlow : sz+n < 0) :
    ¬AllOrNothing n sz d r := by
  rintro ⟨ret,sz',d',r',hg,hout⟩
  rw [growproc_wrapped hn hlow, if_neg (by omega)] at hg
  cases hg
  rcases hout with ⟨-,hgrown⟩ | ⟨hret,-⟩
  · have hbound := hgrown.low
    omega
  · cases hret

theorem told_kept (hs : Spare d r.mem) (hsz : sz < KERNBASE) (hm : Mapping d sz) (hpos : 0 < sz)
    (hn : sz+n = 0) : ¬AllOrNothing n sz d r := by
  rintro ⟨ret,sz',d',r',hg,hout⟩
  obtain ⟨d1,hcut,hpte⟩ := growproc_cut hs hsz (by omega) hn.ge
  rw [hcut, if_pos (by omega)] at hg
  obtain ⟨rfl,hr⟩ := Prod.mk.inj (Except.ok.inj hg)
  obtain ⟨-,hr⟩ := Prod.mk.inj hr
  obtain ⟨rfl,-⟩ := Prod.mk.inj hr
  rcases hout with ⟨hret,-⟩ | ⟨-,hsame⟩
  · cases hret
  · have hfirst : 0 < pages sz := page_of_byte hpos
    have hv := hsame.mapping 0 (by decide)
    have hsome := (hm 0 (by decide)).mpr hfirst
    have hnone : pages (sz+n).toNat = 0 := by
      rw [hn]
      rfl
    rw [← hv, hpte, if_pos (by omega)] at hsome
    cases hsome

theorem shrunk_iff (hs : Spare d r.mem) (hsz : sz < KERNBASE) (hm : Mapping d sz) (hn : n < 0)
    (hpos : 0 < sz+n) : AllOrNothing n sz d r ↔ CutsClean (sz+n).toNat sz d r := by
  obtain ⟨d1,hcut,hpte⟩ := growproc_cut hs hsz hn hpos.le
  rw [if_neg (by omega)] at hcut
  have hmono : pages (sz+n).toNat ≤ pages sz := pages_mono (by omega)
  have hkeep : ∀ a, a < (sz+n).toNat → d1.pte (a/PGSIZE) = d.pte (a/PGSIZE) := by
    intro a ha
    have hv := page_of_byte ha
    rw [hpte, if_neg (by omega)]
  constructor
  · rintro ⟨ret,sz',d',r',hg,hout⟩ a ha p hp -
    rw [hcut] at hg
    obtain ⟨rfl,hr⟩ := Prod.mk.inj (Except.ok.inj hg)
    obtain ⟨rfl,hr'⟩ := Prod.mk.inj hr
    obtain ⟨rfl,rfl⟩ := Prod.mk.inj hr'
    rcases hout with ⟨-,hgrown⟩ | ⟨hret,-⟩
    · have hbyte := hgrown.kept a (by omega) ha
      have hpage : d1.ptePage (a/PGSIZE) = some p := by
        rw [← hp, Pgdir.ptePage, hkeep a ha, Pgdir.ptePage]
      rw [byteAt, byteAt, hp, hpage] at hbyte
      exact Option.some.inj hbyte
    · cases hret
  · intro hc
    refine ⟨_,_,_,_,hcut,.inl ⟨rfl,hpos.le,by omega,by omega,?_,?_,?_⟩⟩
    · intro v hv
      rw [hpte]
      split
      · rename_i hin
        simp
        omega
      · rw [hm v hv]
        omega
    · intro a _ ha
      have hpage : d1.ptePage (a/PGSIZE) = d.ptePage (a/PGSIZE) :=
        congrArg (Option.map Pte.page) (hkeep a ha)
      rw [byteAt, byteAt, hpage]
      cases hp : d.ptePage (a/PGSIZE) with
      | none => rfl
      | some p =>
        by_cases hin : p ∈ pagesFrom d (pages (sz+n).toNat) (pages sz-pages (sz+n).toNat)
        · exact congrArg some (hc a ha p hp hin)
        · rw [Option.map_some, Option.map_some, kfreeAll_other hin]
    · intro a h1 h2
      have h3 := page_above h1
      have h4 := page_below h2
      omega

end Shrinking

/-- `growproc` does all or nothing exactly when it is not asked to take away
all of the process's memory or more. -/
theorem growproc_all_or_nothing_iff (n : ℤ) (hlo : -2^31 ≤ n) (hhi : n < 2^31) (sz : ℕ)
    (hsz : sz < KERNBASE) (d : Pgdir) (r : Ram) (hm : Mapping d sz) (hs : Spare d r.mem) :
    AllOrNothing n sz d r ↔ Regular n sz d r := by
  rcases lt_trichotomy n 0 with hn | rfl | hn
  · rcases Nat.eq_zero_or_pos sz with rfl | hpos
    · refine iff_of_true ⟨-1,0,d,r,?_,.inr ⟨rfl,rfl,fun _ _ => rfl,fun _ _ => rfl⟩⟩
        (.inr (.inl rfl))
      rw [growproc_wrapped hlo (by omega), if_pos rfl]
    · rcases lt_trichotomy (sz+n) 0 with hsum | hsum | hsum
      · refine iff_of_false (told_shrunk hlo hpos hsum) ?_
        rintro (h | h | ⟨h,-⟩) <;> omega
      · refine iff_of_false (told_kept hs hsz hm hpos hsum) ?_
        rintro (h | h | ⟨h,-⟩) <;> omega
      · rw [shrunk_iff hs hsz hm hn hsum]
        constructor
        · exact fun hc => .inr (.inr ⟨hsum,hc⟩)
        · rintro (h | h | ⟨-,hc⟩)
          · omega
          · omega
          · exact hc
  · refine iff_of_true ⟨0,sz,d,r,rfl,.inl ⟨rfl,by omega,by omega,by omega,hm,fun _ _ _ => rfl,?_⟩⟩
      (.inl le_rfl)
    intro a h₁ h₂
    omega
  · exact iff_of_true (allOrNothing_pos hn hhi hsz hm hs) (.inl hn.le)

section OnePage

def onePage : Pgdir where
  page := 2
  tables := fun i => if i = 0 then some ⟨3,fun j => if j = 0 then some ⟨4,true,true⟩ else none⟩
    else none

def spareRam : Ram where
  mem := { freelist := [5,6], refuse := fun _ => false, calls := 0 }
  bytes := fun _ _ => 7

theorem onePage_pte (v : ℕ) : onePage.pte v = if v = 0 then some ⟨4,true,true⟩ else none := by
  have hsplit : v = 0 ↔ v/1024 = 0 ∧ v%1024 = 0 := by omega
  by_cases hi : v/1024 = 0
  · by_cases hj : v%1024 = 0
    · simp [Pgdir.pte, onePage, hsplit, hi, hj]
    · simp [Pgdir.pte, onePage, hsplit, hi, hj]
  · simp [Pgdir.pte, onePage, hsplit, hi]

theorem onePage_ptePage {v p : ℕ} (h : onePage.ptePage v = some p) : p = 4 := by
  rw [Pgdir.ptePage, onePage_pte] at h
  split at h
  · exact (Option.some.inj h).symm
  · cases h

theorem onePage_mapping : Mapping onePage 4096 := by
  intro v _
  have hone : pages 4096 = 1 := by decide
  rw [onePage_pte, hone]
  split <;> simp <;> omega

theorem onePage_uses_zero : uses false 0 onePage = 0 := by
  refine uses_eq_zero (by decide) ?_ ?_
  · intro i _ hi
    simp only [Pgdir.tablePage, onePage] at hi
    split at hi <;> cases hi
  · intro v _ hv
    exact absurd (onePage_ptePage hv) (by decide)

theorem onePage_spare {m : Mem} (hnd : m.freelist.Nodup) (h₀ : 0 ∉ m.freelist)
    (h4 : 4 ∉ m.freelist) : Spare onePage m := by
  refine ⟨hnd,?_,?_⟩
  · intro v _ p hp
    rw [onePage_ptePage hp]
    exact h4
  · rw [onePage_uses_zero, Nat.add_zero]
    exact List.count_eq_zero.mpr h₀

theorem spareRam_spare : Spare onePage spareRam.mem :=
  onePage_spare (by decide) (by decide) (by decide)

/-- One more page. -/
theorem growproc_all_or_nothing_grow : Regular 4096 4096 onePage spareRam ∧
    AllOrNothing 4096 4096 onePage spareRam := by
  have hr : Regular 4096 4096 onePage spareRam := .inl (by decide)
  exact ⟨hr,(growproc_all_or_nothing_iff 4096 (by decide) (by decide) 4096 (by decide) onePage
    spareRam onePage_mapping spareRam_spare).mpr hr⟩

/-- A process of one page is told that it shrank by two pages, and another that
its page was kept. -/
theorem growproc_told_wrong : Mapping onePage 4096 ∧ Spare onePage spareRam.mem ∧
    ¬AllOrNothing (-8192) 4096 onePage spareRam ∧ ¬AllOrNothing (-4096) 4096 onePage spareRam :=
  ⟨onePage_mapping,spareRam_spare,told_shrunk (by decide) (by decide) (by decide),
    told_kept spareRam_spare (by decide) onePage_mapping (by decide) (by decide)⟩

end OnePage

end Xv6.GrowProcess
