import Xv6.SpaceLedger

/-!
# Exact accounts and calls that cannot panic

Inside the virtual address space the accounts of pages balance exactly: a page
taken for a table is a table, a freed directory gives every page back. With no
mapping in the way and no entry for page 0 none of the functions panics.
-/

set_option autoImplicit false

namespace Xv6.PageLedger
open Function Finset Inventory PageTables TransitionRun

def vpnCount : ℕ := 0x100000

variable {d d' : Pgdir} {m m' : Mem} {x : Page} {L : Layout}

theorem uses_eq_zero (hpage : d.page ≠ x) (htable : ∀ i, i < NPDENTRIES → d.tablePage i ≠ some x)
    (hpte : ∀ v, v < kernPage → d.ptePage v ≠ some x) : uses false x d = 0 := by
  have h1 : hit x (some d.page) = 0 := hit_of_ne (by simpa using hpage)
  have h2 : total (range NPDENTRIES) (hit x) d.tablePage = 0 :=
    total_eq_zero fun i hi => hit_of_ne (htable i (mem_range.mp hi))
  have h3 : mapped x d = 0 := total_eq_zero fun v hv => hit_of_ne (hpte v (mem_range.mp hv))
  simp only [uses, frames, h1, h2, h3, Bool.false_eq_true, if_false]

section Tables

theorem frames_setTable_exact {vpn : ℕ} (h : d.tables (vpn/NPTENTRIES) = none)
    (hv : vpn < vpnCount) (x t : Page) :
    frames x (d.setTable vpn t) = frames x d+hit x (some t) := by
  have hi : vpn/NPTENTRIES ∈ range NPDENTRIES :=
    mem_range.mpr (Nat.div_lt_of_lt_mul (show vpn < NPTENTRIES*NPDENTRIES from hv))
  have hx := total_update hi (hit x) d.tablePage (some t)
  have hz : hit x (d.tablePage (vpn/NPTENTRIES)) = 0 := by simp [Pgdir.tablePage, h]
  have hp : (d.setTable vpn t).page = d.page := rfl
  rw [frames, frames, tablePage_setTable, hp]
  omega

theorem walkpgdirAlloc_exact {vpn : ℕ} (hv : vpn < vpnCount)
    (h : walkpgdirAlloc d vpn m = (some d',m')) (x : Page) :
    freeCount x m'+frames x d' = freeCount x m+frames x d := by
  rcases walkpgdirAlloc_ok h with ⟨-,hd,rfl⟩ | ⟨ht,t,hk,hd⟩
  · cases hd
    rfl
  · obtain ⟨pgtab,rfl,rfl⟩ := Option.map_eq_some_iff.mp hd
    have hc := kalloc_count hk x
    have hf := frames_setTable_exact ht hv x pgtab
    omega

theorem walkpgdirAlloc_refused {vpn : ℕ} (h : walkpgdirAlloc d vpn m = (none,m')) (x : Page) :
    freeCount x m' = freeCount x m := by
  rcases walkpgdirAlloc_ok h with ⟨-,hd,-⟩ | ⟨-,t,hk,hd⟩
  · cases hd
  · obtain rfl := Option.map_eq_none_iff.mp hd
    exact kalloc_count hk x

theorem mappages_exact {w u b : Bool} {n vpn : ℕ} {pa : Page} (hv : vpn+n ≤ vpnCount)
    (h : mappages w u n vpn pa d m = .ok (b,d',m')) (x : Page) :
    freeCount x m'+frames x d' = freeCount x m+frames x d := by
  induction n generalizing vpn pa d m with
  | zero =>
    cases h
    rfl
  | succ n ih =>
    rcases mappages_succ h with ⟨hw,-,rfl⟩ | ⟨d1,m1,hw,-,h⟩
    · rw [walkpgdirAlloc_refused hw]
    · have hi := ih (by omega) h
      rw [frames_setPte] at hi
      exact hi.trans (walkpgdirAlloc_exact (by omega) hw x)

/-- Nothing is mapped in the range: no panic. -/
theorem mappages_total {n vpn : ℕ} (w u : Bool) (pa : Page) (m : Mem)
    (hn : ∀ i, i < n → d.pte (vpn+i) = none) :
    ∃ b d' m', mappages w u n vpn pa d m = .ok (b,d',m') := by
  induction n generalizing vpn pa d m with
  | zero => exact ⟨true,d,m,rfl⟩
  | succ n ih =>
    rw [mappages]
    split
    · exact ⟨_,_,_,rfl⟩
    · rename_i d1 m1 hw
      obtain ⟨-,hp,ht⟩ := walkpgdirAlloc_some hw
      split
      · rename_i e he
        rw [hp, show vpn = vpn+0 from rfl, hn 0 (by omega)] at he
        cases he
      · apply ih
        intro i hi
        rw [pte_setPte ht, hp, update_of_ne (by omega), Nat.add_right_comm]
        exact hn (i+1) (by omega)

end Tables

section Teardown

theorem deallocLoop_total {fuel vpn last : ℕ} (m : Mem)
    (hz : ∀ v, vpn ≤ v → v < last → ∀ e, d.pte v = some e → e.page ≠ 0) :
    ∃ d' m', deallocLoop fuel vpn last d m = .ok (d',m') := by
  induction fuel generalizing vpn d m with
  | zero => exact ⟨d,m,rfl⟩
  | succ fuel ih =>
    rw [deallocLoop]
    split
    · rename_i hlt
      split
      · exact ih m fun v h1 => hz v ((next_table_le vpn).trans h1)
      · exact ih m fun v h1 => hz v (Nat.le_of_succ_le h1)
      · rename_i e hw
        obtain ⟨ht,hp⟩ := walkpgdir_some hw
        rw [if_neg (hz vpn le_rfl hlt e hp)]
        apply ih
        intro v h1 h2 e' he
        rw [pte_setPte ht, update_of_ne (by omega)] at he
        exact hz v (by omega) h2 e' he
    · exact ⟨d,m,rfl⟩

theorem deallocLoop_frames {fuel vpn last : ℕ} (h : deallocLoop fuel vpn last d m = .ok (d',m')) :
    d'.tablePage = d.tablePage ∧ d'.page = d.page := by
  induction fuel generalizing vpn d m with
  | zero =>
    cases h
    exact ⟨rfl,rfl⟩
  | succ fuel ih =>
    rw [deallocLoop] at h
    split at h
    · split at h
      · exact ih h
      · exact ih h
      · split at h
        · cases h
        · obtain ⟨ht,hp⟩ := ih h
          exact ⟨ht.trans (tablePage_setPte none),hp⟩
    · cases h
      exact ⟨rfl,rfl⟩

theorem deallocuvm_frames {oldsz newsz k : ℕ} (h : deallocuvm d oldsz newsz m = .ok (k,d',m')) :
    d'.tablePage = d.tablePage ∧ d'.page = d.page := by
  unfold deallocuvm at h
  split at h
  · obtain ⟨-,hr⟩ := Prod.mk.inj (Except.ok.inj h)
    obtain ⟨rfl,-⟩ := Prod.mk.inj hr
    exact ⟨rfl,rfl⟩
  · obtain ⟨t,ht,he⟩ := map_ok h
    obtain ⟨-,rfl⟩ := Prod.mk.inj he
    exact deallocLoop_frames ht

theorem deallocuvm_total {oldsz newsz : ℕ} (m : Mem)
    (hz : ∀ v, pages newsz ≤ v → v < pages oldsz → ∀ e, d.pte v = some e → e.page ≠ 0) :
    ∃ k d' m', deallocuvm d oldsz newsz m = .ok (k,d',m') := by
  rw [deallocuvm]
  split
  · exact ⟨_,_,_,rfl⟩
  · obtain ⟨d',m',h⟩ := deallocLoop_total m hz
    rw [h]
    exact ⟨_,_,_,rfl⟩

theorem page_ne_zero (h : mapped 0 d = 0) {v : ℕ} (hv : v < kernPage) {e : Pte}
    (he : d.pte v = some e) : e.page ≠ 0 := by
  intro hz
  have hle := weight_le_total (mem_range.mpr hv) (hit 0) d.ptePage
  rw [← mapped, h, Pgdir.ptePage, he, Option.map_some, hz, hit_self] at hle
  omega

theorem pages_KERNBASE : pages KERNBASE = kernPage := by decide

theorem freevm_total (m : Mem) (hz : mapped 0 d = 0) : ∃ m', freevm d m = .ok m' := by
  have ht : ∃ k d' m', deallocuvm d KERNBASE 0 m = .ok (k,d',m') :=
    deallocuvm_total m fun v _ hv e he => page_ne_zero hz (pages_KERNBASE ▸ hv) he
  obtain ⟨k,d',m',h⟩ := ht
  rw [freevm, h]
  exact ⟨_,rfl⟩

theorem freevm_exact (h : freevm d m = .ok m') (x : Page) :
    freeCount x m' = freeCount x m+uses false x d := by
  obtain ⟨⟨k,d1,m1⟩,hd,rfl⟩ := map_ok h
  have hu : freeCount x m1+uses false x d1 = freeCount x m+uses false x d :=
    deallocuvm_uses le_rfl (by simp) hd
  have hp := (deallocuvm_pte hd).2
  have hm : mapped x d1 = 0 := by
    apply mapped_eq_zero
    intro v hv
    rw [hp, if_pos ⟨Nat.zero_le v,pages_KERNBASE ▸ hv⟩]
  show freeCount x (kfree d1.page (freeTables d1 NPDENTRIES m1)) = _
  rw [kfree_count, freeTables_count, ← hu]
  simp only [uses, hm, frames, Bool.false_eq_true, if_false]
  omega

end Teardown

section Kernel

structure Placed (L : Layout) : Prop where
  within : ∀ k ∈ L.kmap, k.virt+k.size ≤ vpnCount
  apart : L.kmap.Pairwise fun k k' => k.virt+k.size ≤ k'.virt ∨ k'.virt+k'.size ≤ k.virt

theorem vmLayout_placed {data : ℕ} (hlo : 0x100 ≤ data) (hhi : data ≤ 0xE000) :
    Placed (vmLayout data) := by
  constructor
  · intro k hk
    simp only [Layout.kmap, vmLayout, List.mem_cons, List.not_mem_nil, or_false] at hk
    rcases hk with rfl | rfl | rfl | rfl <;> simp only [vpnCount, kernPage] <;> omega
  · simp only [Layout.kmap, vmLayout, List.pairwise_cons, List.mem_cons, List.not_mem_nil,
      or_false, kernPage, List.Pairwise.nil, and_true, forall_eq_or_imp, forall_eq]
    refine ⟨⟨?_,?_,?_⟩,⟨?_,?_⟩,?_⟩ <;> simp <;> omega

theorem setupRanges_exact {b : Bool} {ks : List Kmap} (hw : ∀ k ∈ ks, k.virt+k.size ≤ vpnCount)
    (h : setupRanges ks d m = .ok (b,d',m')) (x : Page) :
    freeCount x m'+frames x d' = freeCount x m+frames x d := by
  induction ks generalizing d m with
  | nil =>
    cases h
    rfl
  | cons k ks ih =>
    rw [setupRanges] at h
    obtain ⟨⟨b1,d1,m1⟩,hm,h⟩ := bind_ok h
    have hc := mappages_exact (hw k (by simp)) hm x
    cases b1 with
    | false =>
      cases h
      exact hc
    | true => exact (ih (fun k hk => hw k (by simp [hk])) h).trans hc

theorem setupRanges_total {ks : List Kmap} (m : Mem)
    (ha : ks.Pairwise fun k k' => k.virt+k.size ≤ k'.virt ∨ k'.virt+k'.size ≤ k.virt)
    (hn : ∀ k ∈ ks, ∀ i, i < k.size → d.pte (k.virt+i) = none) :
    ∃ b d' m', setupRanges ks d m = .ok (b,d',m') := by
  induction ks generalizing d m with
  | nil => exact ⟨true,d,m,rfl⟩
  | cons k ks ih =>
    obtain ⟨ha1,ha2⟩ := List.pairwise_cons.mp ha
    obtain ⟨b1,d1,m1,hm⟩ := mappages_total k.writable false k.phys m (hn k (by simp))
    rw [setupRanges, hm]
    cases b1 with
    | false => exact ⟨false,d1,m1,rfl⟩
    | true =>
      apply ih m1 ha2
      intro k' hk' i hi
      obtain ⟨-,c,hc,-,-,hp⟩ := mappages_spec hm
      have hapart := ha1 k' hk'
      rw [hp, if_neg (by omega)]
      exact hn k' (by simp [hk']) i hi

theorem setupkvm_total (m : Mem) (hL : Placed L) :
    ∃ o m', setupkvm L m = .ok (o,m') := by
  rw [setupkvm]
  split
  · exact ⟨_,_,rfl⟩
  · rename_i pgdir m1 hk
    have hr : ∃ b d' m', setupRanges L.kmap ⟨pgdir,fun _ => none⟩ m1 = .ok (b,d',m') :=
      setupRanges_total m1 hL.apart fun k _ i _ => rfl
    obtain ⟨b,d,m2,hr⟩ := hr
    rw [hr]
    cases b with
    | true => exact ⟨_,_,rfl⟩
    | false =>
      have hu := (setupRanges_spec (kmap_above L) hr).2.1
      obtain ⟨m3,hf⟩ := freevm_total m2 (mapped_eq_zero fun v hv => (hu v hv).trans rfl)
      exact ⟨none,m3,by show (freevm d m2).map _ = _; rw [hf]; rfl⟩

theorem setupkvm_some_exact (hL : Placed L) (h : setupkvm L m = .ok (some d,m')) (x : Page) :
    freeCount x m'+frames x d = freeCount x m := by
  obtain ⟨-,ho⟩ | ⟨pgdir,m1,b,d1,m2,hk,hr,⟨rfl,ho,rfl⟩ | ⟨-,ho,-⟩⟩ := setupkvm_ok h <;> cases ho
  have h1 := setupRanges_exact hL.within hr x
  have h2 := kalloc_count hk x
  have h3 := frames_bare x pgdir
  omega

theorem setupkvm_none_exact (hL : Placed L) (h : setupkvm L m = .ok (none,m')) (x : Page) :
    freeCount x m' = freeCount x m := by
  obtain ⟨hk,-⟩ | ⟨pgdir,m1,b,d1,m2,hk,hr,⟨-,ho,-⟩ | ⟨-,-,hf⟩⟩ := setupkvm_ok h
  · exact kalloc_count hk x
  · cases ho
  · have hu := (setupRanges_spec (kmap_above L) hr).2.1
    have h1 := setupRanges_exact hL.within hr x
    have h2 := kalloc_count hk x
    have h3 := frames_bare x pgdir
    have h4 : mapped x d1 = 0 := mapped_eq_zero fun v hv => (hu v hv).trans rfl
    have h5 := freevm_exact hf x
    simp only [uses, Bool.false_eq_true, if_false] at h5
    omega

end Kernel

section Growth

theorem mappages_uses_exact {w u b : Bool} {vpn : ℕ} {pa : Page} (hv : vpn < kernPage)
    (h : mappages w u 1 vpn pa d m = .ok (b,d',m')) (x : Page) :
    freeCount x m'+uses false x d' =
      freeCount x m+uses false x d+if b then hit x (some pa) else 0 := by
  have hk : vpn+1 ≤ vpnCount := by
    unfold kernPage at hv
    unfold vpnCount
    omega
  have hc := mappages_exact hk h x
  cases b with
  | false =>
    have hm : mapped x d' = mapped x d := mapped_congr (fun v _ => by rw [mappages_false h]) x
    simp only [uses, Bool.false_eq_true, if_false]
    omega
  | true =>
    have hm := mapped_update (mappages_true h).2 hv x
    simp only [Pgdir.ptePage, (mappages_true h).1, Option.map_none, Option.map_some, hit_none] at hm
    simp only [uses, Bool.false_eq_true, if_false, if_true]
    omega

theorem allocLoop_exact {oldsz newsz n vpn k : ℕ} (hn : newsz ≤ KERNBASE) (hv : vpn+n ≤ kernPage)
    (h : allocLoop oldsz newsz n vpn d m = .ok (k,d',m')) (x : Page) :
    freeCount x m'+uses false x d' = freeCount x m+uses false x d := by
  induction n generalizing vpn d m with
  | zero =>
    cases h
    rfl
  | succ n ih =>
    rcases allocLoop_succ h with ⟨m1,i,hk,hd,-⟩ | ⟨q,m1,b,d1,m2,hk,hm,h⟩
    · rw [deallocuvm_uses hn (by simp) hd, ← kalloc_count hk x, hit_none, Nat.add_zero]
    · have hc := kalloc_count hk x
      have hu := mappages_uses_exact (by omega) hm x
      obtain ⟨rfl,h⟩ | ⟨rfl,-,i,m3,hd,rfl⟩ := h
      · have hi := ih (by omega) h
        rw [if_pos rfl] at hu
        omega
      · have hd' : freeCount x m3+uses false x d' = freeCount x m2+uses false x d1 :=
          deallocuvm_uses hn (by simp) hd
        rw [kfree_count]
        rw [if_neg (by simp)] at hu
        omega

theorem allocuvm_exact {oldsz newsz k : ℕ} (h : allocuvm d oldsz newsz m = .ok (k,d',m'))
    (x : Page) : freeCount x m'+uses false x d' = freeCount x m+uses false x d := by
  unfold allocuvm at h
  split at h
  · cases h
    rfl
  · rename_i hn
    split at h
    · cases h
      rfl
    · rename_i hle
      have hb := pages_le_kernPage (Nat.le_of_not_ge hn)
      have hm := pages_mono (Nat.le_of_not_lt hle)
      exact allocLoop_exact (Nat.le_of_not_ge hn) (by omega) h x

theorem mapped_le_uses (x : Page) (d : Pgdir) : mapped x d ≤ uses false x d := by
  simp [uses]

/-- Page 0 is neither free nor used: its account stays empty. -/
theorem allocLoop_total {oldsz newsz n vpn : ℕ} (hn : newsz ≤ KERNBASE) (hv : vpn+n ≤ kernPage)
    (hfree : ∀ i, i < n → d.pte (vpn+i) = none) (hz : freeCount 0 m+uses false 0 d = 0) :
    ∃ k d' m', allocLoop oldsz newsz n vpn d m = .ok (k,d',m') := by
  induction n generalizing vpn d m with
  | zero => exact ⟨_,_,_,rfl⟩
  | succ n ih =>
    have hfail : ∀ (d : Pgdir) (m : Mem), uses false 0 d = 0 →
        ∃ k d' m', deallocuvm d newsz oldsz m = .ok (k,d',m') := by
      intro d m hd
      apply deallocuvm_total
      intro v _ h2 e he
      have hle := mapped_le_uses 0 d
      have hmap : mapped 0 d = 0 := by omega
      exact page_ne_zero hmap (h2.trans_le (pages_le_kernPage hn)) he
    rw [allocLoop]
    split
    · rename_i m1 hk
      obtain ⟨k,d',m',h⟩ := hfail d m1 (by omega)
      rw [h]
      exact ⟨_,_,_,rfl⟩
    · rename_i mem m1 hk
      have hc := kalloc_count hk 0
      have ht : ∃ b d' m', mappages true true 1 vpn mem d m1 = .ok (b,d',m') :=
        mappages_total true true mem m1 fun i hi => hfree i (by omega)
      obtain ⟨b,d1,m2,hm⟩ := ht
      have hu := mappages_uses_exact (by omega) hm 0
      have h1 : freeCount 0 m2+uses false 0 d1 = 0 := by
        split at hu <;> omega
      rw [hm]
      cases b with
      | true =>
        apply ih (by omega) _ h1
        intro i hi
        rw [(mappages_true hm).2, update_of_ne (by omega), Nat.add_right_comm]
        exact hfree (i+1) (by omega)
      | false =>
        obtain ⟨k,d',m',h⟩ := hfail d1 m2 (by omega)
        show ∃ k d' m', (deallocuvm d1 newsz oldsz m2).map _ = _
        rw [h]
        exact ⟨_,_,_,rfl⟩

theorem allocuvm_total {oldsz newsz : ℕ}
    (hfree : ∀ v, pages oldsz ≤ v → v < kernPage → d.pte v = none)
    (hz : freeCount 0 m+uses false 0 d = 0) :
    ∃ k d' m', allocuvm d oldsz newsz m = .ok (k,d',m') := by
  rw [allocuvm]
  split
  · exact ⟨_,_,_,rfl⟩
  · rename_i hn
    split
    · exact ⟨_,_,_,rfl⟩
    · rename_i hle
      have hb := pages_le_kernPage (Nat.le_of_not_ge hn)
      have hm := pages_mono (Nat.le_of_not_lt hle)
      exact allocLoop_total (Nat.le_of_not_ge hn) (by omega)
        (fun i hi => hfree _ (by omega) (by omega)) hz

end Growth

end Xv6.PageLedger
