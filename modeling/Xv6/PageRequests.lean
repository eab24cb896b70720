import Xv6.UserMemory
import Mathlib.Order.Interval.Finset.Nat

/-!
# Which request for a page fails

The requests a call makes to the allocator are numbered from the state it
starts in. As long as none fails they take the pages of the free list in
order, so the number of the first request that fails says how far the call
came. Page tables are requested once each.
-/

set_option autoImplicit false

namespace Xv6.PageRequests
open Function Finset PageTables PageLedger TransitionRun

def Granted (m : Mem) (k : ℕ) : Prop := m.refuse (m.calls+k) = false ∧ k < m.freelist.length

instance (m : Mem) (k : ℕ) : Decidable (Granted m k) := by
  unfold Granted
  infer_instance

def after (m : Mem) (k : ℕ) : Mem :=
  { m with calls := m.calls+k, freelist := m.freelist.drop k }

def Took (k : ℕ) (m m' : Mem) : Prop := (∀ j, j < k → Granted m j) ∧ m' = after m k

def FirstRefused (m : Mem) (k : ℕ) : Prop := (∀ j, j < k → Granted m j) ∧ ¬Granted m k

variable {m m' m'' : Mem} {d d' : Pgdir}

theorem granted_after {k j : ℕ} : Granted (after m k) j ↔ Granted m (k+j) := by
  simp only [Granted, after, List.length_drop, Nat.add_assoc]
  refine and_congr_right fun _ => ?_
  omega

theorem took_refl (m : Mem) : Took 0 m m := ⟨fun j hj => absurd hj (Nat.not_lt_zero j),rfl⟩

theorem granted_append {a b : ℕ} (ha : ∀ j, j < a → Granted m j)
    (hb : ∀ j, j < b → Granted (after m a) j) : ∀ j, j < a+b → Granted m j := by
  intro j hj
  by_cases hlt : j < a
  · exact ha j hlt
  · have hg := granted_after.mp (hb (j-a) (by omega))
    rwa [show a+(j-a) = j by omega] at hg

theorem Took.trans {a b : ℕ} (h : Took a m m') (h' : Took b m' m'') : Took (a+b) m m'' := by
  obtain ⟨ha,rfl⟩ := h
  obtain ⟨hb,rfl⟩ := h'
  refine ⟨granted_append ha hb,?_⟩
  simp only [after, List.drop_drop, Nat.add_assoc]

theorem Took.refused {a k : ℕ} (h : Took a m m') (hk : FirstRefused m' k) :
    FirstRefused m (a+k) := by
  obtain ⟨ha,rfl⟩ := h
  exact ⟨granted_append ha hk.1,fun hg => hk.2 (granted_after.mpr hg)⟩

theorem FirstRefused.unique {j k : ℕ} (h : FirstRefused m j) (h' : FirstRefused m k) : j = k := by
  rcases lt_trichotomy j k with hlt | heq | hgt
  · exact absurd (h'.1 j hlt) h.2
  · exact heq
  · exact absurd (h.1 k hgt) h'.2

theorem kalloc_took {p : Page} (h : kalloc m = (some p,m')) : Took 1 m m' := by
  unfold kalloc at h
  split at h
  · exact absurd (Prod.mk.inj h).1 (by simp)
  · rename_i hr
    split at h
    · exact absurd (Prod.mk.inj h).1 (by simp)
    · rename_i hl
      obtain ⟨-,rfl⟩ := Prod.mk.inj h
      refine ⟨fun j hj => ?_,by simp [after, hl]⟩
      obtain rfl : j = 0 := by omega
      exact ⟨by simpa using hr,by simp [hl]⟩

theorem kalloc_refused (h : kalloc m = (none,m')) : FirstRefused m 0 := by
  refine ⟨fun j hj => absurd hj (Nat.not_lt_zero j),?_⟩
  rintro ⟨hr,hl⟩
  rw [kalloc, if_neg (by simpa using hr)] at h
  split at h
  · rename_i hn
    simp [hn] at hl
  · exact absurd (Prod.mk.inj h).1 (by simp)

section Tables

def tableSet (d : Pgdir) : Finset ℕ := (range NPDENTRIES).filter fun i => (d.tables i).isSome

def tablesOf (vpn n : ℕ) : Finset ℕ := (Ico vpn (vpn+n)).image (·/NPTENTRIES)

theorem mem_tableSet {i : ℕ} : i ∈ tableSet d ↔ i < NPDENTRIES ∧ (d.tables i).isSome := by
  rw [tableSet, mem_filter, mem_range]

theorem tableSet_setPte (vpn : ℕ) (e : Option Pte) : tableSet (d.setPte vpn e) = tableSet d := by
  apply filter_congr
  intro i _
  by_cases hi : i = vpn/NPTENTRIES
  · subst hi
    simp [Pgdir.setPte]
  · simp [Pgdir.setPte, hi]

variable {vpn : ℕ} {pa : Page}

theorem tableSet_setTable (hv : vpn < vpnCount) (t : Page) :
    tableSet (d.setTable vpn t) = insert (vpn/NPTENTRIES) (tableSet d) := by
  have hlt : vpn/NPTENTRIES < NPDENTRIES :=
    Nat.div_lt_of_lt_mul (show vpn < NPTENTRIES*NPDENTRIES from hv)
  ext i
  rw [mem_insert, mem_tableSet, mem_tableSet]
  by_cases hi : i = vpn/NPTENTRIES
  · subst hi
    simp [Pgdir.setTable, hlt]
  · simp [Pgdir.setTable, hi]

theorem tablesOf_succ (vpn n : ℕ) :
    tablesOf vpn (n+1) = insert (vpn/NPTENTRIES) (tablesOf (vpn+1) n) := by
  have hi : Ico vpn (vpn+(n+1)) = insert vpn (Ico (vpn+1) (vpn+1+n)) := by
    ext v
    simp only [mem_Ico, mem_insert]
    omega
  rw [tablesOf, tablesOf, hi, image_insert]

theorem walkpgdirAlloc_took (hv : vpn < vpnCount) (h : walkpgdirAlloc d vpn m = (some d',m')) :
    tableSet d' = insert (vpn/NPTENTRIES) (tableSet d) ∧
      Took (if vpn/NPTENTRIES ∈ tableSet d then 0 else 1) m m' := by
  have hlt : vpn/NPTENTRIES < NPDENTRIES :=
    Nat.div_lt_of_lt_mul (show vpn < NPTENTRIES*NPDENTRIES from hv)
  rcases walkpgdirAlloc_ok h with ⟨ht,hd,rfl⟩ | ⟨ht,t,hk,hd⟩
  · cases hd
    have hin : vpn/NPTENTRIES ∈ tableSet d := mem_tableSet.mpr ⟨hlt,ht⟩
    rw [if_pos hin, insert_eq_of_mem hin]
    exact ⟨rfl,took_refl _⟩
  · obtain ⟨pgtab,rfl,rfl⟩ := Option.map_eq_some_iff.mp hd
    rw [if_neg (by simp [mem_tableSet, ht]), tableSet_setTable hv]
    exact ⟨rfl,kalloc_took hk⟩

theorem walkpgdirAlloc_none (h : walkpgdirAlloc d vpn m = (none,m')) :
    vpn/NPTENTRIES ∉ tableSet d ∧ FirstRefused m 0 := by
  rcases walkpgdirAlloc_ok h with ⟨-,hd,-⟩ | ⟨ht,t,hk,hd⟩
  · cases hd
  · obtain rfl := Option.map_eq_none_iff.mp hd
    exact ⟨by simp [mem_tableSet, ht],kalloc_refused hk⟩

/-- `mappages` requests the missing tables of its range, in order. -/
theorem mappages_requests {w u b : Bool} {n : ℕ} (hv : vpn+n ≤ vpnCount)
    (h : mappages w u n vpn pa d m = .ok (b,d',m')) :
    if b then tableSet d' = tableSet d ∪ tablesOf vpn n ∧
        Took ((tableSet d').card-(tableSet d).card) m m'
      else ∃ k, k < (tableSet d ∪ tablesOf vpn n).card-(tableSet d).card ∧ FirstRefused m k := by
  induction n generalizing vpn pa d m with
  | zero =>
    obtain ⟨rfl,hr⟩ := Prod.mk.inj (Except.ok.inj h)
    obtain ⟨rfl,rfl⟩ := Prod.mk.inj hr
    rw [if_pos rfl, Nat.sub_self]
    exact ⟨by simp [tablesOf],took_refl m⟩
  | succ n ih =>
    rw [tablesOf_succ]
    rcases mappages_succ h with ⟨hw,rfl,rfl⟩ | ⟨d1,m1,hw,-,h⟩
    · obtain ⟨hnot,href⟩ := walkpgdirAlloc_none hw
      rw [if_neg (by simp)]
      refine ⟨0,?_,href⟩
      rw [Nat.sub_pos_iff_lt]
      apply card_lt_card
      refine (Finset.ssubset_iff_of_subset subset_union_left).mpr ⟨_,?_,hnot⟩
      simp
    · obtain ⟨htab,htook⟩ := walkpgdirAlloc_took (by omega) hw
      have hi := ih (by omega) h
      rw [tableSet_setPte, htab, insert_union_comm] at hi
      have hcard : (insert (vpn/NPTENTRIES) (tableSet d)).card =
          (tableSet d).card+if vpn/NPTENTRIES ∈ tableSet d then 0 else 1 := by
        split
        · rename_i hin
          rw [insert_eq_of_mem hin, Nat.add_zero]
        · rename_i hin
          exact card_insert_of_notMem hin
      have hsub : (insert (vpn/NPTENTRIES) (tableSet d)).card ≤
          (tableSet d ∪ insert (vpn/NPTENTRIES) (tablesOf (vpn+1) n)).card := by
        apply card_le_card
        rw [← insert_union_comm]
        exact subset_union_left
      cases b with
      | true =>
        rw [if_pos rfl] at hi ⊢
        obtain ⟨he,ht⟩ := hi
        refine ⟨he,?_⟩
        rw [← he] at hsub
        have hsum := htook.trans ht
        rwa [show _+((tableSet d').card-(insert (vpn/NPTENTRIES) (tableSet d)).card) =
          (tableSet d').card-(tableSet d).card by omega] at hsum
      | false =>
        rw [if_neg (by simp)] at hi ⊢
        obtain ⟨k,hk,href⟩ := hi
        exact ⟨_,by omega,htook.refused href⟩

theorem mappages_one {w u b : Bool} (hv : vpn < kernPage)
    (h : mappages w u 1 vpn pa d m = .ok (b,d',m')) :
    if b then tableSet d' = insert (vpn/NPTENTRIES) (tableSet d) ∧
        Took (if vpn/NPTENTRIES ∈ tableSet d then 0 else 1) m m'
      else vpn/NPTENTRIES ∉ tableSet d ∧ FirstRefused m 0 := by
  have hlt : vpn < vpnCount := by
    unfold kernPage at hv
    unfold vpnCount
    omega
  rcases mappages_succ h with ⟨hw,rfl,-⟩ | ⟨d1,m1,hw,-,h⟩
  · rw [if_neg (by simp)]
    exact walkpgdirAlloc_none hw
  · cases h
    rw [if_pos rfl, tableSet_setPte]
    exact walkpgdirAlloc_took hlt hw

theorem mappages_one_iff {w u b : Bool} (hv : vpn < kernPage)
    (h : mappages w u 1 vpn pa d m = .ok (b,d',m')) :
    b = true ↔ vpn/NPTENTRIES ∈ tableSet d ∨ Granted m 0 := by
  have hone := mappages_one hv h
  cases b with
  | true =>
    refine iff_of_true rfl ?_
    rw [if_pos rfl] at hone
    by_cases hin : vpn/NPTENTRIES ∈ tableSet d
    · exact .inl hin
    · have htook := hone.2.1
      rw [if_neg hin] at htook
      exact .inr (htook 0 (by omega))
  | false =>
    rw [if_neg (by simp)] at hone
    refine iff_of_false (by simp) ?_
    rintro (hin | hg)
    · exact hone.1 hin
    · exact hone.2.2 hg

theorem allocLoop_refused {oldsz newsz n k : ℕ} {r r' : UserMemory.Ram} (hv : vpn+n ≤ kernPage)
    (hk : k ≠ newsz) (h : UserMemory.allocLoop oldsz newsz n vpn d r = .ok (k,d',r')) :
    ∃ j < 2*n, ¬Granted r.mem j := by
  induction n generalizing vpn d r with
  | zero => exact absurd (Prod.mk.inj (Except.ok.inj h)).1.symm hk
  | succ n ih =>
    obtain ⟨m1,i,hm,-⟩ | ⟨q,b,d1,r1,⟨⟨m1,hm,hmap⟩,-⟩,h⟩ := UserMemory.allocLoop_succ h
    · exact ⟨0,by omega,(kalloc_refused hm).2⟩
    · have htook := kalloc_took hm
      have hone := mappages_one (by omega) hmap
      obtain ⟨rfl,h⟩ | ⟨rfl,-⟩ := h
      · obtain ⟨j,hj,hno⟩ := ih (by omega) h
        rw [if_pos rfl] at hone
        rw [(htook.trans hone.2).2, granted_after] at hno
        refine ⟨_,?_,hno⟩
        split <;> omega
      · rw [if_neg (by simp)] at hone
        exact ⟨1,by omega,(htook.refused hone.2).2⟩

end Tables

section Kernel

def kernelTables : List Kmap → Finset ℕ
  | [] => ∅
  | k::ks => tablesOf k.virt k.size ∪ kernelTables ks

theorem setupRanges_requests {b : Bool} {ks : List Kmap} (hw : ∀ k ∈ ks, k.virt+k.size ≤ vpnCount)
    (h : setupRanges ks d m = .ok (b,d',m')) :
    if b then tableSet d' = tableSet d ∪ kernelTables ks ∧
        Took ((tableSet d').card-(tableSet d).card) m m'
      else ∃ k, k < (tableSet d ∪ kernelTables ks).card-(tableSet d).card ∧ FirstRefused m k := by
  induction ks generalizing d m with
  | nil =>
    obtain ⟨rfl,hr⟩ := Prod.mk.inj (Except.ok.inj h)
    obtain ⟨rfl,rfl⟩ := Prod.mk.inj hr
    rw [if_pos rfl, Nat.sub_self]
    exact ⟨(union_empty _).symm,took_refl m⟩
  | cons k ks ih =>
    rw [setupRanges] at h
    obtain ⟨⟨b1,d1,m1⟩,hm,h⟩ := bind_ok h
    have hmap := mappages_requests (hw k (by simp)) hm
    have hle : (tableSet d ∪ tablesOf k.virt k.size).card ≤
        (tableSet d ∪ kernelTables (k::ks)).card := by
      apply card_le_card
      exact union_subset_union_right subset_union_left
    cases b1 with
    | false =>
      rw [if_neg (by simp)] at hmap
      cases h
      rw [if_neg (by simp)]
      obtain ⟨j,hj,href⟩ := hmap
      exact ⟨j,by omega,href⟩
    | true =>
      rw [if_pos rfl] at hmap
      obtain ⟨htab,htook⟩ := hmap
      have hi := ih (fun k hk => hw k (by simp [hk])) h
      have hsub : (tableSet d).card ≤ (tableSet d1).card := by
        rw [htab]
        exact card_le_card subset_union_left
      have hunion : tableSet d1 ∪ kernelTables ks = tableSet d ∪ kernelTables (k::ks) := by
        rw [htab, union_assoc]
        rfl
      rw [hunion] at hi
      rw [← htab] at hle
      cases b with
      | true =>
        rw [if_pos rfl] at hi ⊢
        obtain ⟨he,ht⟩ := hi
        refine ⟨he,?_⟩
        rw [← he] at hle
        have hsum := htook.trans ht
        rwa [show (tableSet d1).card-(tableSet d).card+((tableSet d').card-(tableSet d1).card) =
          (tableSet d').card-(tableSet d).card by omega] at hsum
      | false =>
        rw [if_neg (by simp)] at hi ⊢
        obtain ⟨j,hj,href⟩ := hi
        exact ⟨_,by omega,htook.refused href⟩

/-- `setupkvm` requests the directory and the kernel's tables. -/
theorem setupkvm_requests {L : Layout} (hL : Placed L) {o : Option Pgdir}
    (h : setupkvm L m = .ok (o,m')) :
    match o with
    | some d => tableSet d = kernelTables L.kmap ∧ Took (1+(kernelTables L.kmap).card) m m'
    | none => ∃ k, k < 1+(kernelTables L.kmap).card ∧ FirstRefused m k := by
  have hbare : ∀ p, tableSet ⟨p,fun _ => none⟩ = ∅ := fun p => by simp [tableSet]
  obtain ⟨hk,rfl⟩ | ⟨pgdir,m1,b,d1,m2,hk,hr,h⟩ := setupkvm_ok h
  · exact ⟨0,by omega,kalloc_refused hk⟩
  · have hreq := setupRanges_requests hL.within hr
    rw [hbare, empty_union, card_empty, Nat.sub_zero] at hreq
    obtain ⟨rfl,rfl,rfl⟩ | ⟨rfl,rfl,-⟩ := h
    · rw [if_pos rfl] at hreq
      refine ⟨hreq.1,?_⟩
      rw [← hreq.1]
      exact (kalloc_took hk).trans hreq.2
    · rw [if_neg (by simp)] at hreq
      obtain ⟨j,hj,href⟩ := hreq
      exact ⟨1+j,by omega,(kalloc_took hk).refused href⟩

theorem kernelTables_vm {data : ℕ} (hlo : 0x100 ≤ data) (hhi : data ≤ 0xE000) :
    kernelTables (vmLayout data).kmap = Ico 512 568 ∪ Ico 1016 1024 := by
  ext i
  simp only [Layout.kmap, vmLayout, kernelTables, tablesOf, mem_union, mem_image, mem_Ico,
    kernPage, notMem_empty, or_false]
  constructor
  · rintro (⟨v,hv,rfl⟩ | ⟨v,hv,rfl⟩ | ⟨v,hv,rfl⟩ | ⟨v,hv,rfl⟩) <;> simp only [NPTENTRIES] <;> omega
  · intro hi
    have hdiv : i*1024/1024 = i := Nat.mul_div_cancel i (by decide)
    rcases hi with hi | hi
    · by_cases h1 : i*1024 < 0x80100
      · exact .inl ⟨i*1024,by omega,hdiv⟩
      · by_cases h2 : i*1024 < 0x80000+data
        · exact .inr (.inl ⟨i*1024,by omega,hdiv⟩)
        · exact .inr (.inr (.inl ⟨i*1024,by omega,hdiv⟩))
    · exact .inr (.inr (.inr ⟨i*1024,by omega,hdiv⟩))

end Kernel

end Xv6.PageRequests
