import Xv6.GrowProcess
import Xv6.PageRequests

/-!
# The loops of `deallocuvm` and `allocuvm` over addresses

In `vm.c` the loops count in 32-bit addresses and nothing but these additions
bounds them. Here they have a number of rounds after which a run is given up; up
to `KERNBASE` they take the steps of the loops over page numbers.
-/

set_option autoImplicit false

namespace Xv6.AddressLoops
open Function PageTables PageLedger PageRequests UserMemory TransitionRun

def PGROUNDUP (a : ℕ) : ℕ := (a+(PGSIZE-1))%2^32/PGSIZE*PGSIZE

def PGROUNDDOWN (a : ℕ) : ℕ := a/PGSIZE*PGSIZE

def PDX (a : ℕ) : ℕ := a/2^22%1024

def PGADDR (d t o : ℕ) : ℕ := (d*2^22+t*2^12+o)%2^32

def topPage : Page := 0xE000

inductive Stop where
  | panic (m : String)
  | rounds

def Kalloced (first : Page) (p : Page) : Prop := first ≤ p ∧ p < topPage

section Model

variable (first : Page)

def kfree (v : Page) (r : Ram) : Except Stop Ram :=
  if v < first ∨ topPage ≤ v then .error (.panic "kfree") else .ok (UserMemory.kfree v r)

def deallocLoop (oldsz : ℕ) : ℕ → ℕ → Pgdir → Ram → Except Stop (Pgdir × Ram)
  | 0, _, _, _ => .error .rounds
  | k+1, a, d, r =>
    if a < oldsz then
      match walkpgdir d (a/PGSIZE) with
      | none =>
        deallocLoop oldsz k (((PGADDR (PDX a+1) 0 0+(2^32-PGSIZE))%2^32+PGSIZE)%2^32) d r
      | some none => deallocLoop oldsz k ((a+PGSIZE)%2^32) d r
      | some (some e) =>
        if e.page = 0 then .error (.panic "kfree")
        else match kfree first e.page r with
          | .error s => .error s
          | .ok r => deallocLoop oldsz k ((a+PGSIZE)%2^32) (d.setPte (a/PGSIZE) none) r
    else .ok (d,r)

def deallocuvm (k : ℕ) (d : Pgdir) (oldsz newsz : ℕ) (r : Ram) :
    Except Stop (ℕ × Pgdir × Ram) :=
  if oldsz ≤ newsz then .ok (oldsz,d,r)
  else (deallocLoop first oldsz k (PGROUNDUP newsz) d r).map fun t => (newsz,t)

def mappages (writable user : Bool) (va size : ℕ) (pa : Page) (d : Pgdir) (r : Ram) :
    Except Stop (Bool × Pgdir × Ram) :=
  match UserMemory.mappages writable user
      ((PGROUNDDOWN ((va+size-1)%2^32)-PGROUNDDOWN va)/PGSIZE+1) (va/PGSIZE) pa d r with
  | .error m => .error (.panic m)
  | .ok t => .ok t

def allocLoop (rounds oldsz newsz : ℕ) :
    ℕ → ℕ → Pgdir → Ram → Except Stop (ℕ × Pgdir × Ram)
  | 0, _, _, _ => .error .rounds
  | k+1, a, d, r =>
    if a < newsz then
      match kalloc r.mem with
      | (none,m) => (deallocuvm first rounds d newsz oldsz { r with mem := m }).map
          fun t => (0,t.2)
      | (some mem,m) => do
        match ← mappages true true a PGSIZE mem d (clearPage mem { r with mem := m }) with
        | (true,d,r) => allocLoop rounds oldsz newsz k ((a+PGSIZE)%2^32) d r
        | (false,d,r) => do
          let t ← deallocuvm first rounds d newsz oldsz r
          let r ← kfree first mem t.2.2
          .ok (0,t.2.1,r)
    else .ok (newsz,d,r)

def allocuvm (k : ℕ) (d : Pgdir) (oldsz newsz : ℕ) (r : Ram) :
    Except Stop (ℕ × Pgdir × Ram) :=
  if KERNBASE ≤ newsz then .ok (0,d,r)
  else if newsz < oldsz then .ok (oldsz,d,r)
  else allocLoop first k oldsz newsz k (PGROUNDUP oldsz) d r

end Model

section Arithmetic

variable {a v : ℕ}

theorem PGROUNDUP_eq (h : a ≤ KERNBASE) : PGROUNDUP a = pages a*PGSIZE := by
  unfold KERNBASE at h
  simp only [PGROUNDUP, pages, PGSIZE]
  omega

theorem page_lt_iff {n : ℕ} : v*PGSIZE < n ↔ v < pages n := by
  simp only [pages, PGSIZE]
  omega

theorem page_index : v*PGSIZE/PGSIZE = v := Nat.mul_div_cancel v (by decide)

theorem next_page (h : v < kernPage) : (v*PGSIZE+PGSIZE)%2^32 = (v+1)*PGSIZE := by
  unfold kernPage at h
  simp only [PGSIZE]
  omega

/-- The jump over an absent table ends at the first page of the next one. -/
theorem next_table (h : v < kernPage) :
    ((PGADDR (PDX (v*PGSIZE)+1) 0 0+(2^32-PGSIZE))%2^32+PGSIZE)%2^32 =
      (v/NPTENTRIES+1)*NPTENTRIES*PGSIZE := by
  unfold kernPage at h
  simp only [PGADDR, PDX, PGSIZE, NPTENTRIES]
  omega

theorem one_page (h : v < kernPage) :
    (PGROUNDDOWN ((v*PGSIZE+PGSIZE-1)%2^32)-PGROUNDDOWN (v*PGSIZE))/PGSIZE+1 = 1 := by
  unfold kernPage at h
  simp only [PGROUNDDOWN, PGSIZE]
  omega

end Arithmetic

section Freeing

variable {first : Page} {d d' : Pgdir} {r r' : Ram}

theorem kfree_ok {p : Page} (h : Kalloced first p) : kfree first p r = .ok (UserMemory.kfree p r) :=
  if_neg (not_or.mpr ⟨not_lt.mpr h.1,not_le.mpr h.2⟩)

theorem deallocLoop_eq {oldsz j k vpn : ℕ} (hb : oldsz ≤ KERNBASE) (hj : pages oldsz-vpn ≤ j)
    (hk : j < k) (hv : vpn ≤ kernPage)
    (hp : ∀ v, vpn ≤ v → v < pages oldsz → ∀ e, d.pte v = some e → Kalloced first e.page)
    (h : UserMemory.deallocLoop j vpn (pages oldsz) d r = .ok (d',r')) :
    deallocLoop first oldsz k (vpn*PGSIZE) d r = .ok (d',r') := by
  have hlast := pages_le_kernPage hb
  induction k generalizing j vpn d r with
  | zero => omega
  | succ k ih =>
    rw [deallocLoop, page_index]
    by_cases hlt : vpn < pages oldsz
    · rw [if_pos (page_lt_iff.mpr hlt)]
      obtain ⟨j,rfl⟩ : ∃ i, j = i+1 := ⟨j-1,by omega⟩
      rw [UserMemory.deallocLoop, if_pos hlt] at h
      have hnext : vpn < (vpn/NPTENTRIES+1)*NPTENTRIES := by
        simp only [NPTENTRIES]
        omega
      have hkern : (vpn/NPTENTRIES+1)*NPTENTRIES ≤ kernPage := by
        have := hlt.trans_le hlast
        unfold kernPage at this ⊢
        simp only [NPTENTRIES]
        omega
      cases hw : walkpgdir d vpn with
      | none =>
        rw [hw] at h
        simp only [next_table (hlt.trans_le hlast)]
        exact ih (by omega) (by omega) hkern (fun v hv => hp v (by omega)) h
      | some o =>
        rw [hw] at h
        simp only [next_page (hlt.trans_le hlast)]
        cases o with
        | none =>
          exact ih (by omega) (by omega) (by omega) (fun v hv => hp v (by omega)) h
        | some e =>
          obtain ⟨ht,he⟩ := walkpgdir_some hw
          have hok := hp vpn le_rfl hlt e he
          simp only [kfree_ok hok] at h ⊢
          split at h
          · cases h
          · rename_i hz
            rw [if_neg hz]
            refine ih (by omega) (by omega) (by omega) ?_ h
            intro v h1 h2 e' he'
            rw [pte_setPte ht, update_of_ne (by omega)] at he'
            exact hp v (by omega) h2 e' he'
    · rw [if_neg (fun hc => hlt (page_lt_iff.mp hc))]
      cases j with
      | zero => exact congrArg Except.ok (Except.ok.inj h)
      | succ j =>
        rw [UserMemory.deallocLoop, if_neg hlt] at h
        exact congrArg Except.ok (Except.ok.inj h)

theorem deallocuvm_ends {oldsz newsz k : ℕ} (hfirst : 0 < first) (hb : oldsz ≤ KERNBASE)
    (hk : kernPage < k) (hp : ∀ v, pages newsz ≤ v → v < pages oldsz → ∀ e, d.pte v = some e →
      Kalloced first e.page) (r : Ram) :
    ∃ d' r', UserMemory.deallocuvm d oldsz newsz r = .ok (min oldsz newsz,d',r') ∧
      deallocuvm first k d oldsz newsz r = .ok (min oldsz newsz,d',r') := by
  by_cases hle : oldsz ≤ newsz
  · refine ⟨d,r,?_,?_⟩
    · rw [UserMemory.deallocuvm, if_pos hle, Nat.min_eq_left hle]
    · rw [deallocuvm, if_pos hle, Nat.min_eq_left hle]
  · have hlast := pages_le_kernPage hb
    have hz : ∀ v, pages newsz ≤ v → v < pages oldsz → ∀ e, d.pte v = some e → e.page ≠ 0 :=
      fun v h1 h2 e he h0 => absurd (hp v h1 h2 e he).1 (by rw [h0]; exact not_le.mpr hfirst)
    have ht : ∃ d' m', PageTables.deallocLoop (pages oldsz-pages newsz) (pages newsz)
        (pages oldsz) d r.mem = .ok (d',m') := deallocLoop_total r.mem hz
    obtain ⟨d',m',ht⟩ := ht
    rw [← deallocLoop_mem] at ht
    obtain ⟨⟨d',r'⟩,hloop,-⟩ := map_ok ht
    have hmono := pages_mono (Nat.le_of_not_le hle)
    refine ⟨d',r',?_,?_⟩
    · rw [UserMemory.deallocuvm, if_neg hle, hloop, Nat.min_eq_right (Nat.le_of_not_le hle)]
      rfl
    · rw [deallocuvm, if_neg hle, PGROUNDUP_eq (Nat.le_of_not_le hle |>.trans hb),
        deallocLoop_eq hb le_rfl (by omega) (by omega) hp hloop,
        Nat.min_eq_right (Nat.le_of_not_le hle)]
      rfl

theorem pagesFrom_nodup {lo n : ℕ} (h : ∀ v w p, lo ≤ v → v < lo+n → lo ≤ w → w < lo+n →
    d.ptePage v = some p → d.ptePage w = some p → v = w) : (pagesFrom d lo n).Nodup := by
  rw [pagesFrom, List.Nodup, List.pairwise_filterMap]
  have hnd : (List.range' lo n).Nodup := List.nodup_range'
  refine List.Pairwise.imp_of_mem ?_ hnd
  intro v w hv hw hne p hp q hq hpq
  rw [List.mem_range'_1] at hv hw
  exact hne (h v w p hv.1 hv.2 hw.1 hw.2 hp (hpq ▸ hq))

end Freeing

def Dropped (oldsz newsz v : ℕ) : Prop := PGROUNDUP newsz ≤ v*PGSIZE ∧ v*PGSIZE < oldsz

instance (oldsz newsz v : ℕ) : Decidable (Dropped oldsz newsz v) :=
  inferInstanceAs (Decidable (_ ∧ _))

/-- `deallocuvm` clears the entries of exactly the pages it gives up, hands each
of their pages to `kfree` once and leaves every other entry. -/
theorem deallocuvm_frees_range (first : Page) (hfirst : 0 < first) (d : Pgdir) (r : Ram)
    (hk : ∀ v, v < kernPage → ∀ p, d.ptePage v = some p → Kalloced first p)
    (hinj : ∀ v w p, v < kernPage → w < kernPage → d.ptePage v = some p →
      d.ptePage w = some p → v = w) (oldsz newsz : ℕ) (hb : oldsz ≤ KERNBASE) :
    ∃ d' r', (∀ k, kernPage < k →
        deallocuvm first k d oldsz newsz r = .ok (min oldsz newsz,d',r')) ∧
      (oldsz ≤ newsz → d' = d ∧ r' = r) ∧
      (newsz < oldsz →
        (∀ v, d'.pte v = if Dropped oldsz newsz v then none else d.pte v) ∧
        d'.tablePage = d.tablePage ∧
        ∃ l : List Page, l.Nodup ∧
          (∀ p, p ∈ l ↔ ∃ v, Dropped oldsz newsz v ∧ d.ptePage v = some p) ∧
          r' = kfreeAll l r) := by
  have hlast := pages_le_kernPage hb
  have hp : ∀ v, pages newsz ≤ v → v < pages oldsz → ∀ e, d.pte v = some e →
      Kalloced first e.page := by
    intro v _ hv e he
    exact hk v (by omega) e.page (by rw [Pgdir.ptePage, he]; rfl)
  obtain ⟨d',r',hpage,-⟩ := deallocuvm_ends hfirst hb (Nat.lt_succ_self kernPage) hp r
  refine ⟨d',r',fun k hk => ?_,fun hle => ?_,fun hlt => ?_⟩
  · obtain ⟨d₂,r₂,h₂,h₃⟩ := deallocuvm_ends hfirst hb hk hp r
    rw [hpage] at h₂
    obtain ⟨rfl,rfl⟩ := Prod.mk.inj (Prod.mk.inj (Except.ok.inj h₂)).2
    exact h₃
  · rw [UserMemory.deallocuvm, if_pos hle] at hpage
    obtain ⟨rfl,rfl⟩ := Prod.mk.inj (Prod.mk.inj (Except.ok.inj hpage)).2
    exact ⟨rfl,rfl⟩
  · have hd : ∀ v, Dropped oldsz newsz v ↔ pages newsz ≤ v ∧ v < pages oldsz := by
      intro v
      rw [Dropped, PGROUNDUP_eq (hlt.le.trans hb), page_lt_iff]
      exact and_congr_left fun _ => Nat.mul_le_mul_right_iff (by decide)
    have hmono := pages_mono hlt.le
    have hsum : pages newsz+(pages oldsz-pages newsz) = pages oldsz := by omega
    refine ⟨fun v => ?_,(deallocuvm_frames (deallocuvm_pagetables hpage)).1,
      pagesFrom d (pages newsz) (pages oldsz-pages newsz),?_,fun p => ?_,deallocuvm_ram hpage⟩
    · rw [(deallocuvm_pte (deallocuvm_pagetables hpage)).2 v]
      simp only [hd]
    · exact pagesFrom_nodup fun v w p _ h₂ _ h₄ => hinj v w p (by omega) (by omega)
    · simp only [mem_pagesFrom, hsum, hd, and_assoc]

section Growing

variable {first : Page} {d d' : Pgdir} {r r' : Ram} {m m' : Mem}

def KeepsTables (d d' : Pgdir) : Prop :=
  d'.page = d.page ∧ ∀ i t, d.tablePage i = some t → d'.tablePage i = some t

theorem KeepsTables.refl (d : Pgdir) : KeepsTables d d := ⟨rfl,fun _ _ h => h⟩

theorem KeepsTables.trans {d1 d2 d3 : Pgdir} (h : KeepsTables d1 d2) (h' : KeepsTables d2 d3) :
    KeepsTables d1 d3 := ⟨h'.1.trans h.1,fun i t ht => h'.2 i t (h.2 i t ht)⟩

theorem walkpgdirAlloc_keeps {vpn : ℕ} (h : walkpgdirAlloc d vpn m = (some d',m')) :
    KeepsTables d d' := by
  rcases walkpgdirAlloc_ok h with ⟨-,hd,-⟩ | ⟨ht,t,-,hd⟩
  · cases hd
    exact .refl d
  · obtain ⟨pgtab,-,rfl⟩ := Option.map_eq_some_iff.mp hd
    refine ⟨rfl,fun i t hi => ?_⟩
    rw [tablePage_setTable, update_of_ne, hi]
    rintro rfl
    rw [Pgdir.tablePage, ht] at hi
    cases hi

theorem mappages_keeps {w u b : Bool} {vpn : ℕ} {pa : Page}
    (h : PageTables.mappages w u 1 vpn pa d m = .ok (b,d',m')) : KeepsTables d d' := by
  rcases mappages_succ h with ⟨-,-,rfl⟩ | ⟨d1,m1,hw,-,h⟩
  · exact .refl _
  · cases h
    refine (walkpgdirAlloc_keeps hw).trans ⟨rfl,fun i t hi => ?_⟩
    rwa [tablePage_setPte]

theorem deallocuvm_keeps {oldsz newsz k : ℕ}
    (h : PageTables.deallocuvm d oldsz newsz m = .ok (k,d',m')) : KeepsTables d d' := by
  obtain ⟨ht,hp⟩ := deallocuvm_frames h
  exact ⟨hp,fun i t hi => by rw [ht, hi]⟩

theorem allocLoop_keeps {oldsz newsz n vpn k : ℕ}
    (h : PageTables.allocLoop oldsz newsz n vpn d m = .ok (k,d',m')) : KeepsTables d d' := by
  induction n generalizing vpn d m with
  | zero =>
    cases h
    exact .refl _
  | succ n ih =>
    obtain ⟨m1,i,-,hd,-⟩ | ⟨q,m1,b,d1,m2,-,hm,⟨-,h⟩ | ⟨-,-,i,m3,hd,-⟩⟩ :=
      PageLedger.allocLoop_succ h
    · exact deallocuvm_keeps hd
    · exact (mappages_keeps hm).trans (ih h)
    · exact (mappages_keeps hm).trans (deallocuvm_keeps hd)

/-- The new pages differ: each was taken off the list before the next. -/
theorem allocLoop_distinct {oldsz newsz n vpn k : ℕ} (hnd : r.mem.freelist.Nodup)
    (h : UserMemory.allocLoop oldsz newsz n vpn d r = .ok (k,d',r')) (hk : k ≠ 0) :
    ∀ v w, vpn ≤ v → v < vpn+n → vpn ≤ w → w < vpn+n → d'.ptePage v = d'.ptePage w → v = w := by
  induction n generalizing vpn d r with
  | zero => intros; omega
  | succ n ih =>
    obtain ⟨-,-,-,-,rfl⟩ | ⟨q,b,d1,r1,hf,⟨rfl,h⟩ | ⟨-,rfl,-⟩⟩ := UserMemory.allocLoop_succ h
    · exact absurd rfl hk
    · have hnd1 := hf.suffix.sublist.nodup hnd
      have hx := (allocLoop_extended hnd1 h hk).2
      have hvpn : d'.ptePage vpn = some q := by
        rw [Pgdir.ptePage, hx.outside vpn (by omega), hf.pte, update_self]
        rfl
      have hrest : ∀ v, vpn+1 ≤ v → v < vpn+1+n → d'.ptePage v ≠ some q := by
        intro v h1 h2 he
        obtain ⟨p,hp,hin,-⟩ := hx.inside v h1 h2
        rw [Pgdir.ptePage, hp] at he
        obtain rfl : p = q := Option.some.inj he
        exact hf.gone hnd hin
      intro v w hv hv' hw hw' he
      by_cases h1 : v = vpn
      · by_cases h2 : w = vpn
        · omega
        · exact absurd (he.symm.trans (h1 ▸ hvpn)) (hrest w (by omega) (by omega))
      · by_cases h2 : w = vpn
        · exact absurd (he.trans (h2 ▸ hvpn)) (hrest v (by omega) (by omega))
        · exact ih hnd1 h v w (by omega) (by omega) (by omega) (by omega) he
    · exact absurd rfl hk

theorem allocLoop_ends {rounds oldsz newsz n k vpn : ℕ} (hfirst : 0 < first)
    (hb : newsz ≤ KERNBASE) (hr : kernPage < rounds) (hlo : pages oldsz ≤ vpn)
    (hn : vpn+n = pages newsz) (hk : n < k)
    (hdone : ∀ v, pages oldsz ≤ v → v < vpn → ∀ e, d.pte v = some e → Kalloced first e.page)
    (hahead : ∀ v, vpn ≤ v → v < pages newsz → d.pte v = none)
    (hfree : ∀ p ∈ r.mem.freelist, Kalloced first p) :
    ∃ t, UserMemory.allocLoop oldsz newsz n vpn d r = .ok t ∧
      allocLoop first rounds oldsz newsz k (vpn*PGSIZE) d r = .ok t := by
  have hlast := pages_le_kernPage hb
  obtain ⟨k,rfl⟩ : ∃ i, k = i+1 := ⟨k-1,by omega⟩
  induction n generalizing vpn d r k with
  | zero =>
    refine ⟨(newsz,d,r),rfl,?_⟩
    rw [allocLoop, if_neg (fun hc => by have := page_lt_iff.mp hc; omega)]
  | succ n ih =>
    have hlt : vpn < kernPage := by omega
    rw [UserMemory.allocLoop, allocLoop, if_pos (page_lt_iff.mpr (by omega))]
    have hrange : ∀ v, pages oldsz ≤ v → v < pages newsz → ∀ e, d.pte v = some e →
        Kalloced first e.page := by
      intro v h1 h2 e he
      by_cases hv : v < vpn
      · exact hdone v h1 hv e he
      · rw [hahead v (by omega) h2] at he
        cases he
    cases hm : kalloc r.mem with
    | mk o m1 =>
      cases o with
      | none =>
        obtain ⟨d1,r1,h1,h2⟩ := deallocuvm_ends hfirst hb hr hrange { r with mem := m1 }
        refine ⟨(0,d1,r1),?_,?_⟩
        · show (UserMemory.deallocuvm d newsz oldsz _).map _ = _
          rw [h1]
          rfl
        · show (deallocuvm first rounds d newsz oldsz _).map _ = _
          rw [h2]
          rfl
      | some mem =>
        have hlist := kalloc_some hm
        have hmem : Kalloced first mem := hfree mem (by rw [hlist]; exact List.mem_cons_self)
        have ht : ∃ b d1 m2, PageTables.mappages true true 1 vpn mem d m1 = .ok (b,d1,m2) :=
          mappages_total true true mem m1 fun i hi => hahead _ (by omega) (by omega)
        obtain ⟨b,d1,m2,hpt⟩ := ht
        have hmap : UserMemory.mappages true true 1 vpn mem d
            (clearPage mem { r with mem := m1 }) =
            .ok (b,d1,{ clearPage mem { r with mem := m1 } with mem := m2 }) := by
          rw [UserMemory.mappages]
          show (PageTables.mappages true true 1 vpn mem d m1).map _ = _
          rw [hpt]
          rfl
        have hmap' : mappages true true (vpn*PGSIZE) PGSIZE mem d
            (clearPage mem { r with mem := m1 }) =
            .ok (b,d1,{ clearPage mem { r with mem := m1 } with mem := m2 }) := by
          rw [mappages, one_page hlt, page_index, hmap]
        have hfree₂ : ∀ p ∈ m2.freelist, Kalloced first p := fun p hp =>
          hfree p (by
            rw [hlist]
            exact List.mem_cons_of_mem _ ((mappages_suffix hpt).subset hp))
        show ∃ t, (UserMemory.mappages true true 1 vpn mem d _ >>= _) = _ ∧
          (mappages true true (vpn*PGSIZE) PGSIZE mem d _ >>= _) = _
        rw [hmap, hmap']
        cases b with
        | true =>
          have hset := (mappages_true hpt).2
          show ∃ t, UserMemory.allocLoop oldsz newsz n (vpn+1) d1 _ = _ ∧
            allocLoop first rounds oldsz newsz k ((vpn*PGSIZE+PGSIZE)%2^32) d1 _ = _
          rw [next_page hlt]
          obtain ⟨k,rfl⟩ : ∃ i, k = i+1 := ⟨k-1,by omega⟩
          refine ih (by omega) (by omega) ?_ ?_ hfree₂ k (by omega)
          · intro v h1 h2 e he
            rw [hset] at he
            by_cases hv : v = vpn
            · rw [hv, update_self] at he
              cases he
              exact hmem
            · rw [update_of_ne hv] at he
              exact hdone v h1 (by omega) e he
          · intro v h1 h2
            rw [hset, update_of_ne (by omega)]
            exact hahead v (by omega) h2
        | false =>
          have hset := mappages_false hpt
          obtain ⟨d2,r2,h1,h2⟩ := deallocuvm_ends hfirst hb hr
            (fun v h1 h2 e he => hrange v h1 h2 e (hset ▸ he))
            { clearPage mem { r with mem := m1 } with mem := m2 }
          refine ⟨(0,d2,UserMemory.kfree mem r2),?_,?_⟩
          · show (UserMemory.deallocuvm d1 newsz oldsz _).map _ = _
            rw [h1]
            rfl
          · show (deallocuvm first rounds d1 newsz oldsz _ >>= _) = _
            rw [h2]
            show (kfree first mem r2 >>= _) = _
            rw [kfree_ok hmem]
            rfl

theorem allocuvm_ends {oldsz newsz : ℕ} (hfirst : 0 < first) (hle : oldsz ≤ newsz)
    (hnone : ∀ v, PGROUNDUP oldsz ≤ v*PGSIZE → v*PGSIZE < newsz → d.pte v = none)
    (hfree : ∀ p ∈ r.mem.freelist, Kalloced first p) :
    ∃ k d' r', UserMemory.allocuvm d oldsz newsz r = .ok (k,d',r') ∧
      ∀ rounds, kernPage < rounds → allocuvm first rounds d oldsz newsz r = .ok (k,d',r') := by
  by_cases hb : KERNBASE ≤ newsz
  · exact ⟨0,d,r,if_pos hb,fun _ _ => if_pos hb⟩
  · have hround := PGROUNDUP_eq (hle.trans (Nat.le_of_not_le hb))
    have hmono := pages_mono hle
    have hlast := pages_le_kernPage (Nat.le_of_not_le hb)
    have hahead : ∀ v, pages oldsz ≤ v → v < pages newsz → d.pte v = none := by
      intro v h1 h2
      apply hnone v _ (page_lt_iff.mpr h2)
      rw [hround]
      exact Nat.mul_le_mul_right PGSIZE h1
    have hrun : ∀ rounds, kernPage < rounds → ∃ t,
        UserMemory.allocLoop oldsz newsz (pages newsz-pages oldsz) (pages oldsz) d r = .ok t ∧
        allocLoop first rounds oldsz newsz rounds (pages oldsz*PGSIZE) d r = .ok t :=
      fun rounds hr => allocLoop_ends hfirst (Nat.le_of_not_le hb) hr le_rfl (by omega) (by omega)
        (fun v h1 h2 => by omega) hahead hfree
    obtain ⟨⟨k,d',r'⟩,hpage,-⟩ := hrun _ (Nat.lt_succ_self kernPage)
    refine ⟨k,d',r',?_,fun rounds hr => ?_⟩
    · rw [UserMemory.allocuvm, if_neg hb, if_neg (by omega), hpage]
    · obtain ⟨t,h1,h2⟩ := hrun rounds hr
      rw [hpage] at h1
      cases h1
      rw [allocuvm, if_neg hb, if_neg (by omega), hround, h2]

def Added (oldsz newsz v : ℕ) : Prop := PGROUNDUP oldsz ≤ v*PGSIZE ∧ v*PGSIZE < PGROUNDUP newsz

structure Grown (oldsz newsz : ℕ) (d : Pgdir) (r : Ram) (d' : Pgdir) (r' : Ram) : Prop where
  inside : ∀ v, Added oldsz newsz v → ∃ p, d'.pte v = some ⟨p,true,true⟩ ∧
    p ∈ r.mem.freelist ∧ p ∉ r'.mem.freelist ∧ r'.bytes p = fun _ => 0
  distinct : ∀ v w, Added oldsz newsz v → Added oldsz newsz w → d'.ptePage v = d'.ptePage w → v = w
  outside : ∀ v, ¬Added oldsz newsz v → d'.pte v = d.pte v

structure Undone (d : Pgdir) (r : Ram) (d' : Pgdir) (r' : Ram) : Prop where
  entries : ∀ v, d'.pte v = d.pte v
  tables : KeepsTables d d'
  pages : ∀ p ∈ r.mem.freelist, p ∈ r'.mem.freelist ∨
    ∃ i, i < NPDENTRIES ∧ d.tables i = none ∧ d'.tablePage i = some p
  empty : ∀ i t, d.tables i = none → d'.tables i = some t → ∀ j < NPTENTRIES, t.ptes j = none

/-- With the entries and the tables kept, the account of the pages says where a
page that was free is now. -/
theorem undone_of_account (hpte : ∀ v, d'.pte v = d.pte v) (htab : KeepsTables d d')
    (hx : ∀ x, freeCount x r'.mem+uses false x d' = freeCount x r.mem+uses false x d) :
    Undone d r d' r' := by
  refine ⟨hpte,htab,fun p hp => ?_,fun i t hi ht j hj => ?_⟩
  · by_contra hno
    rw [not_or, not_exists] at hno
    have hmapped : mapped p d' = mapped p d := by
      unfold mapped
      congr 1
      funext v
      rw [Pgdir.ptePage, Pgdir.ptePage, hpte]
    have hin : 0 < freeCount p r.mem := List.count_pos_iff.mpr hp
    have hout : freeCount p r'.mem = 0 := List.count_eq_zero.mpr hno.1
    have hframes := hx p
    simp only [uses, frames, htab.1, hmapped, Bool.false_eq_true, if_false] at hframes
    have hlt : Inventory.total (Finset.range NPDENTRIES) (Inventory.hit p) d.tablePage <
        Inventory.total (Finset.range NPDENTRIES) (Inventory.hit p) d'.tablePage := by omega
    obtain ⟨i,hi,hhit⟩ := Finset.exists_lt_of_sum_lt hlt
    have hnew : d'.tablePage i = some p := by
      by_contra hne
      rw [Inventory.hit_of_ne hne] at hhit
      omega
    refine hno.2 i ⟨Finset.mem_range.mp hi,?_,hnew⟩
    cases ht : d.tables i with
    | none => rfl
    | some t =>
      have hpage : d.tablePage i = some t.page := by rw [Pgdir.tablePage, ht]; rfl
      rw [hpage, ← htab.2 i t.page hpage] at hhit
      exact absurd hhit (lt_irrefl _)
  · have hv := hpte (i*NPTENTRIES+j)
    have hdiv : (i*NPTENTRIES+j)/NPTENTRIES = i := by
      simp only [NPTENTRIES] at hj ⊢
      omega
    have hmod : (i*NPTENTRIES+j)%NPTENTRIES = j := by
      simp only [NPTENTRIES] at hj ⊢
      omega
    rw [Pgdir.pte, Pgdir.pte, hdiv, hmod, hi, ht] at hv
    exact hv

end Growing

section AllOrNothing

variable {d d' : Pgdir} {r r' : Ram} {oldsz newsz k : ℕ}

section
variable (hle : oldsz ≤ newsz) (hb : newsz < KERNBASE)
include hle hb

theorem added_iff (v : ℕ) : Added oldsz newsz v ↔ pages oldsz ≤ v ∧ v < pages newsz := by
  rw [Added, PGROUNDUP_eq (hle.trans hb.le), PGROUNDUP_eq hb.le]
  exact and_congr (Nat.mul_le_mul_right_iff (by decide)) (Nat.mul_lt_mul_right (by decide))

theorem grown_of_extended (hnd : r.mem.freelist.Nodup) (hk : k ≠ 0)
    (h : UserMemory.allocuvm d oldsz newsz r = .ok (k,d',r'))
    (hx : Extended (pages oldsz) (pages newsz) d r d' r') : Grown oldsz newsz d r d' r' := by
  have hadd := added_iff hle hb
  rw [UserMemory.allocuvm, if_neg (by omega), if_neg (by omega)] at h
  refine ⟨fun v hv => ?_,fun v w hv hw he => ?_,fun v hv => ?_⟩
  · rw [hadd] at hv
    exact hx.inside v hv.1 hv.2
  · rw [hadd] at hv hw
    exact allocLoop_distinct hnd h hk v w hv.1 (by omega) hw.1 (by omega) he
  · rw [hadd] at hv
    exact hx.outside v (by omega)

theorem undone_of_taken_down
    (hnone : ∀ v, PGROUNDUP oldsz ≤ v*PGSIZE → v*PGSIZE < newsz → d.pte v = none)
    (h : UserMemory.allocuvm d oldsz newsz r = .ok (k,d',r'))
    (hp : ∀ v, d'.pte v = if pages oldsz ≤ v ∧ v < pages newsz then none else d.pte v) :
    Undone d r d' r' := by
  have hpt := allocuvm_pagetables h
  have hx := allocuvm_exact hpt
  rw [PageTables.allocuvm, if_neg (by omega), if_neg (by omega)] at hpt
  apply undone_of_account _ (allocLoop_keeps hpt) hx
  intro v
  rw [hp]
  split
  · rename_i hv
    refine (hnone v ?_ (page_lt_iff.mpr hv.2)).symm
    rw [PGROUNDUP_eq (hle.trans hb.le)]
    exact Nat.mul_le_mul_right PGSIZE hv.1
  · rfl

end

end AllOrNothing

/-- `allocuvm` grows by exactly the pages asked for or leaves every translation as
it was; it never grows from `KERNBASE` on, and below it only fails when one of the
requests for the pages and their tables is refused. -/
theorem allocuvm_all_or_nothing (first : Page) (hfirst : 0 < first) (d : Pgdir) (r : Ram)
    (oldsz newsz : ℕ) (hle : oldsz ≤ newsz)
    (hnone : ∀ v, PGROUNDUP oldsz ≤ v*PGSIZE → v*PGSIZE < newsz → d.pte v = none)
    (hfree : ∀ p ∈ r.mem.freelist, Kalloced first p) (hnd : r.mem.freelist.Nodup) :
    ∃ k d' r', (∀ rounds, kernPage < rounds →
        allocuvm first rounds d oldsz newsz r = .ok (k,d',r')) ∧
      (k = newsz ∧ newsz < KERNBASE ∧ Grown oldsz newsz d r d' r' ∨
        k = 0 ∧ Undone d r d' r' ∧
          (KERNBASE ≤ newsz ∨ ∃ j < 2*(pages newsz-pages oldsz), ¬Granted r.mem j)) := by
  obtain ⟨k,d',r',hpage,hrun⟩ := allocuvm_ends hfirst hle hnone hfree
  refine ⟨k,d',r',hrun,?_⟩
  rcases Nat.eq_zero_or_pos newsz with rfl | hpos
  · obtain rfl : oldsz = 0 := by omega
    cases hpage
    have hno : ∀ v, ¬Added 0 0 v := fun v hv => absurd hv.2 (Nat.not_lt_zero _)
    exact .inl ⟨rfl,by decide,fun v hv => absurd hv (hno v),fun v w hv => absurd hv (hno v),
      fun _ _ => rfl⟩
  · by_cases hb : KERNBASE ≤ newsz
    · rw [UserMemory.allocuvm, if_pos hb] at hpage
      cases hpage
      exact .inr ⟨rfl,undone_of_account (fun _ => rfl) (.refl d) fun _ => rfl,.inl hb⟩
    have href : k ≠ newsz → ∃ j < 2*(pages newsz-pages oldsz), ¬Granted r.mem j := by
      intro hk
      have h := hpage
      rw [UserMemory.allocuvm, if_neg hb, if_neg (by omega)] at h
      have hlast := pages_le_kernPage (Nat.le_of_not_le hb)
      have hmono : pages oldsz ≤ pages newsz := by
        simp only [pages, PGSIZE]
        omega
      exact allocLoop_refused (by omega) hk h
    rcases allocuvm_cases hle hpos hnd hpage with ⟨rfl,rfl,rfl⟩ | ⟨rfl,hlt,hx⟩ | ⟨rfl,hlt,hp,-⟩
    · exact .inr ⟨rfl,undone_of_account (fun _ => rfl) (.refl _) fun _ => rfl,.inr (href hpos.ne)⟩
    · exact .inl ⟨rfl,hlt,grown_of_extended hle hlt hnd hpos.ne' hpage hx⟩
    · exact .inr ⟨rfl,undone_of_taken_down hle hlt hnone hpage hp,.inr (href hpos.ne)⟩

section Witnesses

open GrowProcess

/-- Freeing the one page of a process. -/
theorem deallocuvm_frees_one_page : ∃ d' r',
    deallocuvm 1 (kernPage+1) onePage 4096 0 spareRam = .ok (0,d',r') ∧ d'.pte 0 = none := by
  have hk : ∀ v, v < kernPage → ∀ p, onePage.ptePage v = some p → Kalloced 1 p := by
    intro v _ p hp
    rw [onePage_ptePage hp]
    exact ⟨by decide,by decide⟩
  have hinj : ∀ v w p, v < kernPage → w < kernPage → onePage.ptePage v = some p →
      onePage.ptePage w = some p → v = w := by
    intro v w p _ _ hv hw
    rw [Pgdir.ptePage, onePage_pte] at hv hw
    split at hv
    · split at hw
      · omega
      · cases hw
    · cases hv
  obtain ⟨d',r',hrun,-,hlt⟩ := deallocuvm_frees_range 1 (by decide) onePage spareRam hk hinj 4096 0
    (by decide)
  refine ⟨d',r',hrun _ (Nat.lt_succ_self _),?_⟩
  rw [(hlt (by decide)).1 0, if_pos (by decide)]

/-- One more page, from a free list of two. -/
theorem allocuvm_one_more_page : ∃ d' r',
    allocuvm 1 (kernPage+1) onePage 4096 8192 spareRam = .ok (8192,d',r') ∧
      Grown 4096 8192 onePage spareRam d' r' := by
  have hnone : ∀ v, PGROUNDUP 4096 ≤ v*PGSIZE → v*PGSIZE < 8192 → onePage.pte v = none := by
    intro v hv _
    rw [onePage_pte, if_neg]
    rintro rfl
    exact absurd hv (by decide)
  have hfree : ∀ p ∈ spareRam.mem.freelist, Kalloced 1 p := by
    intro p hp
    simp only [spareRam, List.mem_cons, List.not_mem_nil, or_false] at hp
    rcases hp with rfl | rfl <;> exact ⟨by decide,by decide⟩
  obtain ⟨k,d',r',hrun,⟨rfl,-,hg⟩ | ⟨-,-,hb | ⟨j,hj,hno⟩⟩⟩ := allocuvm_all_or_nothing 1 (by decide)
    onePage spareRam 4096 8192 (by decide) hnone hfree (by decide)
  · exact ⟨d',r',hrun _ (Nat.lt_succ_self _),hg⟩
  · exact absurd hb (by decide)
  · exact absurd ⟨rfl,hj⟩ hno

end Witnesses

end Xv6.AddressLoops
