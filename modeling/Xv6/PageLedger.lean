import Xv6.Inventory
import Xv6.PageTables
import Xv6.TransitionRun

/-!
# Accounts of pages

For one page, how often it is on the free list and how often a page directory
uses it: as the directory, as a page table or through a present user entry. No
function of the virtual memory system makes the sum larger. A page that is also
recorded elsewhere is followed with its user entries left out.
-/

set_option autoImplicit false

namespace Xv6.PageLedger
open Function Finset Inventory PageTables TransitionRun

def freeCount (x : Page) (m : Mem) : ℕ := m.freelist.count x

def frames (x : Page) (d : Pgdir) : ℕ :=
  hit x (some d.page)+total (range NPDENTRIES) (hit x) d.tablePage

def mapped (x : Page) (d : Pgdir) : ℕ := total (range kernPage) (hit x) d.ptePage

def uses (sh : Bool) (x : Page) (d : Pgdir) : ℕ := frames x d+if sh then 0 else mapped x d

def Clear (x : Page) (d : Pgdir) (lo hi : ℕ) : Prop :=
  ∀ v, lo ≤ v → v < hi → ∀ e, d.pte v = some e → e.page ≠ x

section Views

variable {d : Pgdir} {vpn : ℕ}

theorem pte_setPte (h : (d.tables (vpn/NPTENTRIES)).isSome) (e : Option Pte) :
    (d.setPte vpn e).pte = update d.pte vpn e := by
  obtain ⟨t,ht⟩ := Option.isSome_iff_exists.mp h
  funext v
  by_cases hi : v/NPTENTRIES = vpn/NPTENTRIES
  · by_cases hv : v = vpn
    · subst hv
      simp [Pgdir.pte, Pgdir.setPte, ht]
    · have hj : v%NPTENTRIES ≠ vpn%NPTENTRIES := by
        intro hj
        apply hv
        rw [← Nat.div_add_mod v NPTENTRIES, ← Nat.div_add_mod vpn NPTENTRIES, hi, hj]
      simp [Pgdir.pte, Pgdir.setPte, hi, ht, hv, hj]
  · have hv : v ≠ vpn := fun e => hi (e ▸ rfl)
    simp [Pgdir.pte, Pgdir.setPte, hi, hv]

theorem tablePage_setPte (e : Option Pte) : (d.setPte vpn e).tablePage = d.tablePage := by
  funext i
  by_cases hi : i = vpn/NPTENTRIES
  · subst hi
    cases ht : d.tables (vpn/NPTENTRIES) <;> simp [Pgdir.tablePage, Pgdir.setPte, ht]
  · simp [Pgdir.tablePage, Pgdir.setPte, hi]

theorem frames_setPte (x : Page) (e : Option Pte) : frames x (d.setPte vpn e) = frames x d := by
  rw [frames, frames, tablePage_setPte]
  rfl

theorem pte_setTable (h : d.tables (vpn/NPTENTRIES) = none) (t : Page) :
    (d.setTable vpn t).pte = d.pte := by
  funext v
  by_cases hi : v/NPTENTRIES = vpn/NPTENTRIES
  · simp [Pgdir.pte, Pgdir.setTable, hi, h]
  · simp [Pgdir.pte, Pgdir.setTable, hi]

theorem tablePage_setTable (t : Page) :
    (d.setTable vpn t).tablePage = update d.tablePage (vpn/NPTENTRIES) (some t) := by
  funext i
  by_cases hi : i = vpn/NPTENTRIES
  · subst hi
    simp [Pgdir.tablePage, Pgdir.setTable]
  · simp [Pgdir.tablePage, Pgdir.setTable, hi]

theorem frames_setTable (x : Page) (t : Page) :
    frames x (d.setTable vpn t) ≤ frames x d+hit x (some t) := by
  have hp : (d.setTable vpn t).page = d.page := rfl
  rw [frames, frames, tablePage_setTable, hp]
  by_cases hi : vpn/NPTENTRIES ∈ range NPDENTRIES
  · have hx := total_update hi (hit x) d.tablePage (some t)
    omega
  · rw [total_update_outside hi]
    omega

theorem ptePage_update {d' : Pgdir} {e : Option Pte} (h : d'.pte = update d.pte vpn e) :
    d'.ptePage = update d.ptePage vpn (e.map Pte.page) := by
  funext v
  by_cases hv : v = vpn
  · subst hv
    simp [Pgdir.ptePage, h]
  · simp [Pgdir.ptePage, h, hv]

theorem mapped_update {d' : Pgdir} {e : Option Pte} (h : d'.pte = update d.pte vpn e)
    (hv : vpn < kernPage) (x : Page) :
    mapped x d'+hit x (d.ptePage vpn) = mapped x d+hit x (e.map Pte.page) := by
  rw [mapped, mapped, ptePage_update h]
  exact total_update (mem_range.mpr hv) (hit x) d.ptePage _

theorem mapped_congr {d' : Pgdir} (h : ∀ v, v < kernPage → d'.pte v = d.pte v) (x : Page) :
    mapped x d' = mapped x d :=
  total_congr fun v hv => by rw [Pgdir.ptePage, h v (mem_range.mp hv), Pgdir.ptePage]

theorem walkpgdir_none (h : walkpgdir d vpn = none) (v : ℕ) (hv : v/NPTENTRIES = vpn/NPTENTRIES) :
    d.pte v = none := by
  rw [walkpgdir, Option.map_eq_none_iff] at h
  simp [Pgdir.pte, hv, h]

theorem walkpgdir_some {e : Option Pte} (h : walkpgdir d vpn = some e) :
    (d.tables (vpn/NPTENTRIES)).isSome ∧ d.pte vpn = e := by
  obtain ⟨t,ht,he⟩ := Option.map_eq_some_iff.mp h
  exact ⟨by simp [ht],by simp [Pgdir.pte, ht, he]⟩

end Views

section Allocation

variable {d d' : Pgdir} {m m' : Mem} {x pa : Page}

theorem kalloc_count {o : Option Page} (h : kalloc m = (o,m')) (x : Page) :
    freeCount x m'+hit x o = freeCount x m := by
  unfold kalloc at h
  split at h
  · obtain ⟨rfl,rfl⟩ := Prod.mk.inj h
    rfl
  · split at h
    · obtain ⟨rfl,rfl⟩ := Prod.mk.inj h
      rfl
    · rename_i r rest hl
      obtain ⟨rfl,rfl⟩ := Prod.mk.inj h
      rw [freeCount, freeCount, hl, count_cons_hit]

theorem kfree_count (x v : Page) (m : Mem) :
    freeCount x (kfree v m) = freeCount x m+hit x (some v) :=
  count_cons_hit x v m.freelist

theorem kalloc_some (h : kalloc m = (some pa,m')) : m.freelist = pa::m'.freelist := by
  unfold kalloc at h
  split at h
  · exact absurd (Prod.mk.inj h).1 (by simp)
  · split at h
    · exact absurd (Prod.mk.inj h).1 (by simp)
    · rename_i hl
      obtain ⟨hq,rfl⟩ := Prod.mk.inj h
      cases hq
      exact hl

theorem kalloc_none (h : kalloc m = (none,m')) : m'.freelist = m.freelist := by
  unfold kalloc at h
  split at h
  · obtain ⟨-,rfl⟩ := Prod.mk.inj h
    rfl
  · split at h
    · obtain ⟨-,rfl⟩ := Prod.mk.inj h
      rfl
    · exact absurd (Prod.mk.inj h).1 (by simp)

theorem kalloc_suffix {o : Option Page} (h : kalloc m = (o,m')) : m'.freelist <:+ m.freelist := by
  cases o with
  | none => rw [kalloc_none h]
  | some p => exact kalloc_some h ▸ List.suffix_cons _ _

theorem walkpgdirAlloc_ok {o : Option Pgdir} {vpn : ℕ} (h : walkpgdirAlloc d vpn m = (o,m')) :
    (d.tables (vpn/NPTENTRIES)).isSome ∧ o = some d ∧ m' = m ∨
      d.tables (vpn/NPTENTRIES) = none ∧ ∃ t, kalloc m = (t,m') ∧ t.map (d.setTable vpn) = o := by
  unfold walkpgdirAlloc at h
  cases ht : d.tables (vpn/NPTENTRIES) with
  | some t =>
    rw [ht] at h
    obtain ⟨rfl,rfl⟩ := Prod.mk.inj h
    exact .inl ⟨rfl,rfl,rfl⟩
  | none =>
    rw [ht] at h
    rcases hk : kalloc m with ⟨t,m1⟩
    rw [hk] at h
    cases t <;> obtain ⟨rfl,rfl⟩ := Prod.mk.inj h <;> exact .inr ⟨rfl,_,rfl,rfl⟩

theorem walkpgdirAlloc_some {vpn : ℕ} (h : walkpgdirAlloc d vpn m = (some d',m')) :
    (∀ x, freeCount x m'+frames x d' ≤ freeCount x m+frames x d) ∧ d'.pte = d.pte ∧
      (d'.tables (vpn/NPTENTRIES)).isSome := by
  rcases walkpgdirAlloc_ok h with ⟨ht,hd,rfl⟩ | ⟨ht,t,hk,hd⟩
  · cases hd
    exact ⟨fun _ => le_rfl,rfl,ht⟩
  · obtain ⟨pgtab,rfl,rfl⟩ := Option.map_eq_some_iff.mp hd
    refine ⟨fun x => ?_,pte_setTable ht pgtab,by simp [Pgdir.setTable]⟩
    have hc := kalloc_count hk x
    have hf : frames x (d.setTable vpn pgtab) ≤ _ := frames_setTable x pgtab
    omega

theorem walkpgdirAlloc_suffix {o : Option Pgdir} {vpn : ℕ} (h : walkpgdirAlloc d vpn m = (o,m')) :
    m'.freelist <:+ m.freelist := by
  rcases walkpgdirAlloc_ok h with ⟨-,-,rfl⟩ | ⟨-,t,hk,-⟩
  · exact List.suffix_rfl
  · exact kalloc_suffix hk

theorem mappages_succ {w u b : Bool} {n vpn : ℕ}
    (h : mappages w u (n+1) vpn pa d m = .ok (b,d',m')) :
    walkpgdirAlloc d vpn m = (none,m') ∧ b = false ∧ d' = d ∨
      ∃ d1 m1, walkpgdirAlloc d vpn m = (some d1,m1) ∧ d1.pte vpn = none ∧
        mappages w u n (vpn+1) (pa+1) (d1.setPte vpn (some ⟨pa,w,u⟩)) m1 = .ok (b,d',m') := by
  rw [mappages] at h
  split at h
  · rename_i m1 hw
    cases h
    exact .inl ⟨hw,rfl,rfl⟩
  · rename_i d1 m1 hw
    split at h
    · cases h
    · rename_i hn
      exact .inr ⟨d1,m1,hw,hn,h⟩

theorem mappages_suffix {w u b : Bool} {n vpn : ℕ} (h : mappages w u n vpn pa d m = .ok (b,d',m')) :
    m'.freelist <:+ m.freelist := by
  induction n generalizing vpn pa d m with
  | zero =>
    cases h
    exact List.suffix_rfl
  | succ n ih =>
    rcases mappages_succ h with ⟨hw,-,-⟩ | ⟨d1,m1,hw,-,h⟩
    · exact walkpgdirAlloc_suffix hw
    · exact (ih h).trans (walkpgdirAlloc_suffix hw)

theorem mappages_free {w u b : Bool} {n vpn : ℕ} (h : mappages w u n vpn pa d m = .ok (b,d',m'))
    (x : Page) : freeCount x m' ≤ freeCount x m :=
  (mappages_suffix h).sublist.count_le x

/-- What `mappages` does: the first `k` pages of the range were unmapped and
are mapped now, all of them when it succeeds, and page tables come from the
free list. -/
theorem mappages_spec {w u b : Bool} {n vpn : ℕ} (h : mappages w u n vpn pa d m = .ok (b,d',m')) :
    (∀ x, freeCount x m'+frames x d' ≤ freeCount x m+frames x d) ∧
      ∃ k, k ≤ n ∧ (b = true ↔ k = n) ∧ (∀ i, i < k → d.pte (vpn+i) = none) ∧
        ∀ v, d'.pte v = if vpn ≤ v ∧ v < vpn+k then some ⟨pa+(v-vpn),w,u⟩ else d.pte v := by
  induction n generalizing vpn pa d m with
  | zero =>
    cases h
    exact ⟨fun _ => le_rfl,0,le_rfl,by simp,by simp,fun v => by rw [if_neg (by omega)]⟩
  | succ n ih =>
    rcases mappages_succ h with ⟨hw,rfl,rfl⟩ | ⟨d1,m1,hw,hn,h⟩
    · exact ⟨fun x => Nat.add_le_add_right ((walkpgdirAlloc_suffix hw).sublist.count_le x) _,0,
        by omega,by simp,by simp,fun v => by rw [if_neg (by omega)]⟩
    · obtain ⟨hc,hp,ht⟩ := walkpgdirAlloc_some hw
      obtain ⟨hi,k,hk,hb,hfresh,hv⟩ := ih h
      rw [pte_setPte ht, hp] at hfresh hv
      rw [hp] at hn
      refine ⟨fun x => ?_,k+1,by omega,hb.trans (by omega),?_,?_⟩
      · have h1 := hc x
        have h2 := hi x
        rw [frames_setPte] at h2
        omega
      · intro i hik
        rcases Nat.eq_zero_or_pos i with rfl | hpos
        · exact hn
        · have hf := hfresh (i-1) (by omega)
          rw [show vpn+1+(i-1) = vpn+i by omega, update_of_ne (by omega)] at hf
          exact hf
      · intro v
        rw [hv v]
        by_cases hself : v = vpn
        · subst hself
          rw [if_neg (by omega), update_self, if_pos (by omega)]
          simp
        · rw [update_of_ne hself]
          by_cases hr : vpn+1 ≤ v ∧ v < vpn+1+k
          · have hpa : v-vpn = 1+(v-(vpn+1)) := by omega
            rw [if_pos hr, if_pos (by omega), hpa, Nat.add_assoc]
          · rw [if_neg hr, if_neg (by omega)]

theorem mappages_true {w u : Bool} {vpn : ℕ} (h : mappages w u 1 vpn pa d m = .ok (true,d',m')) :
    d.pte vpn = none ∧ d'.pte = update d.pte vpn (some ⟨pa,w,u⟩) := by
  obtain ⟨-,k,hk,hb,hfresh,hv⟩ := mappages_spec h
  obtain rfl : k = 1 := hb.mp rfl
  refine ⟨by simpa using hfresh 0 (by omega),?_⟩
  funext v
  by_cases hself : v = vpn
  · subst hself
    rw [hv, if_pos (by omega), update_self]
    simp
  · rw [hv, if_neg (by omega), update_of_ne hself]

theorem mappages_false {w u : Bool} {vpn : ℕ} (h : mappages w u 1 vpn pa d m = .ok (false,d',m')) :
    d'.pte = d.pte := by
  obtain ⟨-,k,hk,hb,-,hv⟩ := mappages_spec h
  obtain rfl : k = 0 := by
    have : k ≠ 1 := fun e => by simpa using hb.mpr e
    omega
  funext v
  rw [hv, if_neg (by omega)]

theorem mappages_uses {w u b : Bool} {vpn : ℕ} (sh : Bool) (hv : vpn < kernPage)
    (h : mappages w u 1 vpn pa d m = .ok (b,d',m')) (x : Page) : freeCount x m'+uses sh x d' ≤
      freeCount x m+uses sh x d+if b && !sh then hit x (some pa) else 0 := by
  have hc := (mappages_spec h).1 x
  cases b with
  | false =>
    have hm : mapped x d' = mapped x d := mapped_congr (fun v _ => by rw [mappages_false h]) x
    cases sh <;> simp [uses] <;> omega
  | true =>
    have hm := mapped_update (mappages_true h).2 hv x
    simp only [Option.map_some] at hm
    cases sh <;> simp [uses] <;> omega

end Allocation

section Teardown

variable {d d' : Pgdir} {m m' : Mem} {x : Page} {sh : Bool}

theorem pages_mono {a b : ℕ} (h : a ≤ b) : pages a ≤ pages b :=
  Nat.div_le_div_right (Nat.add_le_add_right h _)

theorem pages_le_kernPage {n : ℕ} (h : n ≤ KERNBASE) : pages n ≤ kernPage := by
  unfold pages kernPage PGSIZE
  unfold KERNBASE at h
  omega

theorem Clear.mono {lo hi lo' hi' : ℕ} (h : Clear x d lo hi) (hlo : lo ≤ lo') (hhi : hi' ≤ hi) :
    Clear x d lo' hi' :=
  fun v h1 h2 => h v (hlo.trans h1) (h2.trans_le hhi)

theorem clear_update {d : Pgdir} {vpn lo hi : ℕ} {e : Option Pte}
    (h : Clear x d lo hi) (hp : d'.pte = update d.pte vpn e)
    (he : ∀ e', e = some e' → e'.page ≠ x) :
    Clear x d' lo hi := by
  intro v h1 h2 e' hv
  by_cases hself : v = vpn
  · subst hself
    rw [hp, update_self] at hv
    exact he e' hv
  · rw [hp, update_of_ne hself] at hv
    exact h v h1 h2 e' hv

theorem next_table_le (vpn : ℕ) : vpn ≤ (vpn/NPTENTRIES+1)*NPTENTRIES := by
  have := Nat.lt_div_mul_add (a := vpn) (b := NPTENTRIES) (by decide)
  rw [Nat.add_mul, Nat.one_mul]
  omega

theorem deallocLoop_uses {fuel vpn last : ℕ} (hl : last ≤ kernPage)
    (hs : sh = true → Clear x d vpn last) (h : deallocLoop fuel vpn last d m = .ok (d',m')) :
    freeCount x m'+uses sh x d' = freeCount x m+uses sh x d := by
  induction fuel generalizing vpn d m with
  | zero =>
    cases h
    rfl
  | succ fuel ih =>
    rw [deallocLoop] at h
    split at h
    · rename_i hlt
      split at h
      · exact ih (fun hsh => (hs hsh).mono (next_table_le vpn) le_rfl) h
      · exact ih (fun hsh => (hs hsh).mono (Nat.le_succ vpn) le_rfl) h
      · rename_i e hw
        obtain ⟨ht,hp⟩ := walkpgdir_some hw
        have hp' := pte_setPte ht none
        split at h
        · cases h
        · have hi := ih (fun hsh => clear_update ((hs hsh).mono (Nat.le_succ vpn) le_rfl) hp'
            (by simp)) h
          have hm := mapped_update hp' (hlt.trans_le hl) x
          rw [kfree_count] at hi
          simp only [Pgdir.ptePage, hp, Option.map_some, Option.map_none, hit_none] at hm
          have hf : frames x (d.setPte vpn none) = frames x d := frames_setPte x none
          cases sh with
          | false =>
            simp only [uses, Bool.false_eq_true, if_false] at hi ⊢
            omega
          | true =>
            have hne : e.page ≠ x := hs rfl vpn le_rfl hlt e hp
            have hz : hit x (some e.page) = 0 := hit_of_ne (by simpa using hne)
            simp only [uses, if_true] at hi ⊢
            omega
    · cases h
      rfl

theorem deallocLoop_pte {fuel vpn last : ℕ} (hf : last-vpn ≤ fuel)
    (h : deallocLoop fuel vpn last d m = .ok (d',m')) (v : ℕ) :
    d'.pte v = if vpn ≤ v ∧ v < last then none else d.pte v := by
  induction fuel generalizing vpn d m with
  | zero =>
    cases h
    rw [if_neg (by omega)]
  | succ fuel ih =>
    rw [deallocLoop] at h
    split at h
    · rename_i hlt
      have hskip : ∀ next, vpn < next → (∀ u, vpn ≤ u → u < next → d.pte u = none) →
          deallocLoop fuel next last d m = .ok (d',m') →
          d'.pte v = if vpn ≤ v ∧ v < last then none else d.pte v := by
        intro next hnext hnone h
        rw [ih (by omega) h]
        by_cases h1 : next ≤ v ∧ v < last
        · rw [if_pos h1, if_pos (by omega)]
        · rw [if_neg h1]
          by_cases h2 : vpn ≤ v ∧ v < last
          · rw [if_pos h2, hnone v h2.1 (by omega)]
          · rw [if_neg h2]
      split at h
      · rename_i hw
        refine hskip _ ?_ ?_ h
        · have := Nat.lt_div_mul_add (a := vpn) (b := NPTENTRIES) (by decide)
          rw [Nat.add_mul, Nat.one_mul]
          exact this
        · intro u h1 h2
          exact walkpgdir_none hw u (Nat.div_eq_of_lt_le
            ((Nat.div_mul_le_self vpn NPTENTRIES).trans h1) h2)
      · rename_i hw
        refine hskip _ (Nat.lt_succ_self vpn) ?_ h
        intro u h1 h2
        obtain rfl : u = vpn := by omega
        exact (walkpgdir_some hw).2
      · rename_i e hw
        split at h
        · cases h
        · rw [ih (by omega) h, pte_setPte (walkpgdir_some hw).1]
          by_cases hself : v = vpn
          · subst hself
            rw [if_neg (by omega), update_self, if_pos (by omega)]
          · rw [update_of_ne hself]
            by_cases hr : vpn+1 ≤ v ∧ v < last
            · rw [if_pos hr, if_pos (by omega)]
            · rw [if_neg hr, if_neg (by omega)]
    · cases h
      rw [if_neg (by omega)]

theorem deallocuvm_uses {oldsz newsz r : ℕ} (hl : oldsz ≤ KERNBASE)
    (hs : sh = true → Clear x d (pages newsz) (pages oldsz))
    (h : deallocuvm d oldsz newsz m = .ok (r,d',m')) :
    freeCount x m'+uses sh x d' = freeCount x m+uses sh x d := by
  unfold deallocuvm at h
  split at h
  · cases h
    rfl
  · obtain ⟨p,hp,he⟩ := map_ok h
    obtain ⟨-,rfl⟩ := Prod.mk.inj he
    exact deallocLoop_uses (pages_le_kernPage hl) hs hp

theorem deallocuvm_pte {oldsz newsz r : ℕ} (h : deallocuvm d oldsz newsz m = .ok (r,d',m')) :
    r = min oldsz newsz ∧
      ∀ v, d'.pte v = if pages newsz ≤ v ∧ v < pages oldsz then none else d.pte v := by
  unfold deallocuvm at h
  split at h
  · rename_i hle
    cases h
    have hm := pages_mono hle
    exact ⟨by omega,fun v => by rw [if_neg (by omega)]⟩
  · obtain ⟨p,hp,he⟩ := map_ok h
    obtain ⟨rfl,rfl⟩ := Prod.mk.inj he
    exact ⟨by omega,deallocLoop_pte le_rfl hp⟩

theorem freeTables_count (x : Page) (d : Pgdir) (n : ℕ) (m : Mem) :
    freeCount x (freeTables d n m) = freeCount x m+total (range n) (hit x) d.tablePage := by
  induction n with
  | zero => simp [freeTables, total]
  | succ n ih =>
    rw [total, sum_range_succ, ← total, freeTables]
    split
    · rename_i ht
      rw [ih, ht, hit_none, Nat.add_zero]
    · rename_i t ht
      rw [kfree_count, ih, ht, Nat.add_assoc]

theorem freevm_count (sh : Bool) (x : Page) (hs : sh = true → Clear x d 0 kernPage)
    (h : freevm d m = .ok m') :
    freeCount x m' ≤ freeCount x m+uses sh x d := by
  obtain ⟨⟨r,d1,m1⟩,hd,rfl⟩ := map_ok h
  have hu := deallocuvm_uses le_rfl hs hd
  show freeCount x (kfree d1.page (freeTables d1 NPDENTRIES m1)) ≤ _
  rw [kfree_count, freeTables_count]
  have hf : frames x d1 ≤ uses sh x d1 := Nat.le_add_right _ _
  rw [frames] at hf
  omega

end Teardown

end Xv6.PageLedger
