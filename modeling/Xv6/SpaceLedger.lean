import Xv6.PageLedger

/-!
# Accounts of address spaces

The functions that build or resize a whole address space, with their failure
paths; the sum of free and used pages never grows. `Fit` is the shape every
process's directory has: the user entries lie below its size, and the kernel's
first page is mapped.
-/

set_option autoImplicit false

namespace Xv6.PageLedger
open Function Finset Inventory PageTables TransitionRun

structure Fit (d : Pgdir) (sz : ℕ) : Prop where
  bound : sz ≤ KERNBASE
  above : ∀ v, pages sz ≤ v → v < kernPage → d.pte v = none
  kernel : (d.pte kernPage).isSome

variable {d d' : Pgdir} {m m' : Mem} {x : Page} {sh : Bool} {L : Layout}

theorem mapped_eq_zero (h : ∀ v, v < kernPage → d.pte v = none) : mapped x d = 0 :=
  total_eq_zero fun v hv => by simp [Pgdir.ptePage, h v (mem_range.mp hv)]

theorem uses_le (sh : Bool) (x : Page) (d : Pgdir) : uses sh x d ≤ uses false x d := by
  cases sh <;> simp [uses]

theorem frames_bare (x pgdir : Page) : frames x ⟨pgdir,fun _ => none⟩ = hit x (some pgdir) := by
  rw [frames, total_eq_zero fun i _ => by simp [Pgdir.tablePage], Nat.add_zero]

section Setup

theorem mappages_kernel {w u b : Bool} {n vpn : ℕ} {pa : Page} (hv : kernPage ≤ vpn)
    (h : mappages w u n vpn pa d m = .ok (b,d',m')) :
    (∀ v, v < kernPage → d'.pte v = d.pte v) ∧ ∀ v, (d.pte v).isSome → (d'.pte v).isSome := by
  obtain ⟨-,k,hk,-,-,hp⟩ := mappages_spec h
  refine ⟨fun v hlt => by rw [hp, if_neg (by omega)],fun v hs => ?_⟩
  rw [hp]
  split
  · rfl
  · exact hs

theorem setupRanges_spec {b : Bool} {ks : List Kmap} (hk : ∀ k ∈ ks, kernPage ≤ k.virt)
    (h : setupRanges ks d m = .ok (b,d',m')) :
    (∀ x, freeCount x m'+frames x d' ≤ freeCount x m+frames x d) ∧
      (∀ v, v < kernPage → d'.pte v = d.pte v) ∧ ∀ v, (d.pte v).isSome → (d'.pte v).isSome := by
  induction ks generalizing d m with
  | nil =>
    cases h
    exact ⟨fun _ => le_rfl,fun _ _ => rfl,fun _ h => h⟩
  | cons k ks ih =>
    rw [setupRanges] at h
    obtain ⟨⟨b1,d1,m1⟩,hm,h⟩ := bind_ok h
    have hc := (mappages_spec hm).1
    obtain ⟨hu,hs⟩ := mappages_kernel (hk k (by simp)) hm
    cases b1 with
    | false =>
      cases h
      exact ⟨hc,hu,hs⟩
    | true =>
      obtain ⟨hc',hu',hs'⟩ := ih (fun k hk' => hk k (by simp [hk'])) h
      exact ⟨fun x => (hc' x).trans (hc x),fun v hv => (hu' v hv).trans (hu v hv),
        fun v hv => hs' v (hs v hv)⟩

theorem kmap_above (L : Layout) : ∀ k ∈ L.kmap, kernPage ≤ k.virt := by
  intro k hk
  rcases List.mem_cons.mp hk with rfl | hk
  · exact L.first_virt.ge
  · exact L.above k hk

theorem setupRanges_kernel (h : setupRanges L.kmap d m = .ok (true,d',m')) :
    (d'.pte kernPage).isSome := by
  rw [Layout.kmap, setupRanges] at h
  obtain ⟨⟨b1,d1,m1⟩,hm,h⟩ := bind_ok h
  cases b1 with
  | false => cases h
  | true =>
    obtain ⟨-,k,-,hb,-,hp⟩ := mappages_spec hm
    have hk : k = L.first.size := hb.mp rfl
    have hpos := L.first_size
    refine (setupRanges_spec L.above h).2.2 _ ?_
    rw [hp, L.first_virt, if_pos (by omega)]
    rfl

theorem setupkvm_ok {o : Option Pgdir} (h : setupkvm L m = .ok (o,m')) :
    kalloc m = (none,m') ∧ o = none ∨ ∃ pgdir m1 b d m2, kalloc m = (some pgdir,m1) ∧
      setupRanges L.kmap ⟨pgdir,fun _ => none⟩ m1 = .ok (b,d,m2) ∧
      (b = true ∧ o = some d ∧ m' = m2 ∨ b = false ∧ o = none ∧ freevm d m2 = .ok m') := by
  unfold setupkvm at h
  split at h
  · rename_i m1 hk
    cases h
    exact .inl ⟨hk,rfl⟩
  · rename_i pgdir m1 hk
    obtain ⟨⟨b,d,m2⟩,hr,h⟩ := bind_ok h
    refine .inr ⟨pgdir,m1,b,d,m2,hk,hr,?_⟩
    cases b with
    | true =>
      cases h
      exact .inl ⟨rfl,rfl,rfl⟩
    | false =>
      obtain ⟨m3,hf,he⟩ := map_ok h
      cases he
      exact .inr ⟨rfl,rfl,hf⟩

theorem setupkvm_some (h : setupkvm L m = .ok (some d,m')) :
    (∀ x, freeCount x m'+frames x d ≤ freeCount x m) ∧ (∀ v, v < kernPage → d.pte v = none) ∧
      (d.pte kernPage).isSome := by
  obtain ⟨-,ho⟩ | ⟨pgdir,m1,b,d1,m2,hk,hr,⟨rfl,ho,rfl⟩ | ⟨-,ho,-⟩⟩ := setupkvm_ok h <;> cases ho
  obtain ⟨hc,hu,-⟩ := setupRanges_spec (kmap_above L) hr
  refine ⟨fun x => ?_,fun v hv => (hu v hv).trans rfl,setupRanges_kernel hr⟩
  have h1 := hc x
  have h2 := kalloc_count hk x
  have h3 := frames_bare x pgdir
  omega

theorem setupkvm_none (h : setupkvm L m = .ok (none,m')) (x : Page) :
    freeCount x m' ≤ freeCount x m := by
  obtain ⟨hk,-⟩ | ⟨pgdir,m1,b,d1,m2,hk,hr,⟨-,ho,-⟩ | ⟨-,-,hf⟩⟩ := setupkvm_ok h
  · exact (kalloc_count hk x).le
  · cases ho
  · obtain ⟨hc,hu,-⟩ := setupRanges_spec (kmap_above L) hr
    have h1 := hc x
    have h2 := kalloc_count hk x
    have h3 := frames_bare x pgdir
    have h4 : mapped x d1 = 0 := mapped_eq_zero fun v hv => (hu v hv).trans rfl
    have h5 := freevm_count false x (by simp) hf
    simp only [uses, Bool.false_eq_true, if_false] at h5
    omega

end Setup

section Resize

theorem allocLoop_succ {oldsz newsz n vpn k : ℕ}
    (h : allocLoop oldsz newsz (n+1) vpn d m = .ok (k,d',m')) :
    (∃ m1 i, kalloc m = (none,m1) ∧ deallocuvm d newsz oldsz m1 = .ok (i,d',m') ∧ k = 0) ∨
      ∃ q m1 b d1 m2, kalloc m = (some q,m1) ∧ mappages true true 1 vpn q d m1 = .ok (b,d1,m2) ∧
        (b = true ∧ allocLoop oldsz newsz n (vpn+1) d1 m2 = .ok (k,d',m') ∨
          b = false ∧ k = 0 ∧ ∃ i m3, deallocuvm d1 newsz oldsz m2 = .ok (i,d',m3) ∧
            m' = kfree q m3) := by
  rw [allocLoop] at h
  split at h
  · rename_i m1 hk
    obtain ⟨⟨i,d1,m2⟩,hd,he⟩ := map_ok h
    cases he
    exact .inl ⟨m1,i,hk,hd,rfl⟩
  · rename_i q m1 hk
    obtain ⟨⟨b,d1,m2⟩,hm,h⟩ := bind_ok h
    refine .inr ⟨q,m1,b,d1,m2,hk,hm,?_⟩
    cases b with
    | true => exact .inl ⟨rfl,h⟩
    | false =>
      obtain ⟨⟨i,d2,m3⟩,hd,he⟩ := map_ok h
      cases he
      exact .inr ⟨rfl,rfl,i,m3,hd,rfl⟩

theorem allocLoop_uses {oldsz newsz n vpn r : ℕ} (hn : newsz ≤ KERNBASE) (hv : vpn+n ≤ kernPage)
    (hs : sh = true → freeCount x m = 0 ∧ Clear x d (pages oldsz) (pages newsz))
    (h : allocLoop oldsz newsz n vpn d m = .ok (r,d',m')) :
    freeCount x m'+uses sh x d' ≤ freeCount x m+uses sh x d := by
  induction n generalizing vpn d m with
  | zero =>
    cases h
    exact le_rfl
  | succ n ih =>
    rcases allocLoop_succ h with ⟨m1,i,hk,hd,-⟩ | ⟨q,m1,b,d1,m2,hk,hm,h⟩
    · have hc := kalloc_count hk x
      have hu := deallocuvm_uses hn (fun e => (hs e).2) hd
      rw [hit_none] at hc
      omega
    · have hc := kalloc_count hk x
      have hu := mappages_uses sh (by omega) hm x
      rcases h with ⟨rfl,h⟩ | ⟨rfl,-,i,m3,hd,rfl⟩
      · have hnew : sh = true → q ≠ x := by
          rintro e rfl
          have hz := (hs e).1
          rw [hit_self] at hc
          omega
        have hz : sh = true → freeCount x m2 = 0 := by
          intro e
          have h₀ := (hs e).1
          have h1 := mappages_free hm x
          omega
        have hi := ih (by omega) (fun e => ⟨hz e,clear_update (hs e).2 (mappages_true hm).2
          (fun e' he => Option.some.inj he ▸ hnew e)⟩) h
        cases sh with
        | false =>
          simp only [Bool.not_false, Bool.and_true, if_true] at hu
          omega
        | true =>
          simp only [Bool.not_true, Bool.and_false, Bool.false_eq_true, if_false] at hu
          omega
      · have hclear : sh = true → Clear x d1 (pages oldsz) (pages newsz) := by
          intro e v h1 h2 e' hp
          rw [mappages_false hm] at hp
          exact (hs e).2 v h1 h2 e' hp
        have hd' := deallocuvm_uses hn hclear hd
        rw [kfree_count]
        simp only [Bool.false_and, Bool.false_eq_true, if_false] at hu
        omega

theorem allocuvm_uses {oldsz newsz r : ℕ}
    (hs : sh = true → freeCount x m = 0 ∧ Clear x d (pages oldsz) kernPage)
    (h : allocuvm d oldsz newsz m = .ok (r,d',m')) :
    freeCount x m'+uses sh x d' ≤ freeCount x m+uses sh x d := by
  unfold allocuvm at h
  split at h
  · cases h
    exact le_rfl
  · split at h
    · cases h
      exact le_rfl
    · rename_i hn hle
      have hb := pages_le_kernPage (Nat.le_of_not_ge hn)
      have hm := pages_mono (Nat.le_of_not_lt hle)
      exact allocLoop_uses (Nat.le_of_not_ge hn) (by omega)
        (fun e => ⟨(hs e).1,(hs e).2.mono le_rfl hb⟩) h

theorem allocLoop_pte {oldsz newsz n vpn r : ℕ} (hlo : pages oldsz ≤ vpn)
    (hn : vpn+n = pages newsz) (h : allocLoop oldsz newsz n vpn d m = .ok (r,d',m')) :
    (∀ v, v < pages oldsz ∨ pages newsz ≤ v → d'.pte v = d.pte v) ∧
      (r = newsz ∨ r = 0 ∧ ∀ v, pages oldsz ≤ v → v < pages newsz → d'.pte v = none) := by
  induction n generalizing vpn d m with
  | zero =>
    cases h
    exact ⟨fun _ _ => rfl,.inl rfl⟩
  | succ n ih =>
    have hfail : ∀ (d1 d2 : Pgdir) (m1 m2 : Mem) (r1 : ℕ), d1.pte = d.pte →
        deallocuvm d1 newsz oldsz m1 = .ok (r1,d2,m2) →
        (∀ v, v < pages oldsz ∨ pages newsz ≤ v → d2.pte v = d.pte v) ∧
          ∀ v, pages oldsz ≤ v → v < pages newsz → d2.pte v = none := by
      intro d1 d2 m1 m2 r1 hsame hd
      have hp := (deallocuvm_pte hd).2
      exact ⟨fun v hv => by rw [hp, if_neg (by omega), hsame],fun v h1 h2 =>
        by rw [hp, if_pos ⟨h1,h2⟩]⟩
    obtain ⟨m1,i,-,hd,rfl⟩ | ⟨q,m1,b,d1,m2,-,hm,⟨rfl,h⟩ | ⟨rfl,rfl,i,m3,hd,-⟩⟩ :=
      allocLoop_succ h
    · obtain ⟨hout,hin⟩ := hfail d d' m1 m' i rfl hd
      exact ⟨hout,.inr ⟨rfl,hin⟩⟩
    · obtain ⟨hout,hin⟩ := ih (by omega) (by omega) h
      refine ⟨fun v hv => ?_,hin⟩
      rw [hout v hv, (mappages_true hm).2, update_of_ne (by omega)]
    · obtain ⟨hout,hin⟩ := hfail d1 d' m2 m3 i (mappages_false hm) hd
      exact ⟨hout,.inr ⟨rfl,hin⟩⟩

theorem Fit.of_pte {sz sz' : ℕ} (h : Fit d sz) (hb : sz' ≤ KERNBASE)
    (habove : ∀ v, pages sz' ≤ v → v < kernPage → d'.pte v = none)
    (hkern : d'.pte kernPage = d.pte kernPage) : Fit d' sz' :=
  ⟨hb,habove,hkern ▸ h.kernel⟩

theorem allocuvm_fit {oldsz newsz r : ℕ} (hf : Fit d oldsz)
    (h : allocuvm d oldsz newsz m = .ok (r,d',m')) : Fit d' (if r = 0 then oldsz else r) := by
  unfold allocuvm at h
  split at h
  · cases h
    exact hf
  · rename_i hn
    split at h
    · cases h
      rw [ite_self]
      exact hf
    · rename_i hle
      have hb := pages_le_kernPage (Nat.le_of_not_ge hn)
      have hm := pages_mono (Nat.le_of_not_lt hle)
      obtain ⟨hout,hr⟩ := allocLoop_pte le_rfl (by omega) h
      have hkern := hout kernPage (.inr hb)
      rcases hr with rfl | ⟨rfl,hnone⟩
      · split
        · rename_i hz
          subst hz
          exact hf.of_pte hf.bound (fun v h1 h2 => by
            rw [hout v (.inr ((pages_mono (Nat.zero_le _)).trans h1)), hf.above v h1 h2]) hkern
        · exact hf.of_pte (Nat.le_of_not_ge hn) (fun v h1 h2 => by
            rw [hout v (.inr h1), hf.above v (hm.trans h1) h2]) hkern
      · rw [if_pos rfl]
        refine hf.of_pte hf.bound (fun v h1 h2 => ?_) hkern
        by_cases hv : v < pages newsz
        · exact hnone v h1 hv
        · rw [hout v (.inr (Nat.le_of_not_lt hv)), hf.above v h1 h2]

theorem deallocuvm_fit {sz newsz r : ℕ} (hf : Fit d sz)
    (h : deallocuvm d sz newsz m = .ok (r,d',m')) : Fit d' sz ∧ Fit d' r := by
  obtain ⟨rfl,hp⟩ := deallocuvm_pte h
  have hb := pages_le_kernPage hf.bound
  have hkern : d'.pte kernPage = d.pte kernPage := by rw [hp, if_neg (by omega)]
  refine ⟨hf.of_pte hf.bound (fun v h1 h2 => ?_) hkern,
    hf.of_pte ((min_le_left _ _).trans hf.bound) (fun v h1 h2 => ?_) hkern⟩
  · rw [hp]
    split
    · rfl
    · exact hf.above v h1 h2
  · rw [hp]
    split
    · rfl
    · rename_i hn
      refine hf.above v ?_ h2
      rcases le_total sz newsz with hle | hle
      · rwa [min_eq_left hle] at h1
      · rw [min_eq_right hle] at h1
        omega

end Resize

section Copy

variable {src : Pgdir}

theorem copyLoop_succ {b : Bool} {n vpn : ℕ} (h : copyLoop src (n+1) vpn d m = .ok (b,d',m')) :
    ∃ e, walkpgdir src vpn = some (some e) ∧ (kalloc m = (none,m') ∧ b = false ∧ d' = d ∨
      ∃ q m1 b1 d1 m2, kalloc m = (some q,m1) ∧
        mappages e.writable e.user 1 vpn q d m1 = .ok (b1,d1,m2) ∧
        (b1 = true ∧ copyLoop src n (vpn+1) d1 m2 = .ok (b,d',m') ∨
          b1 = false ∧ b = false ∧ d' = d1 ∧ m' = m2)) := by
  rw [copyLoop] at h
  split at h
  · cases h
  · cases h
  · rename_i e hw
    refine ⟨e,hw,?_⟩
    split at h
    · rename_i m1 hk
      cases h
      exact .inl ⟨hk,rfl,rfl⟩
    · rename_i q m1 hk
      obtain ⟨⟨b1,d1,m2⟩,hm,h⟩ := bind_ok h
      refine .inr ⟨q,m1,b1,d1,m2,hk,hm,?_⟩
      cases b1 with
      | true => exact .inl ⟨rfl,h⟩
      | false =>
        cases h
        exact .inr ⟨rfl,rfl,rfl,rfl⟩

theorem copyLoop_uses {b : Bool} {n vpn : ℕ} (hv : vpn+n ≤ kernPage)
    (h : copyLoop src n vpn d m = .ok (b,d',m')) (x : Page) :
    freeCount x m'+uses false x d' ≤ freeCount x m+uses false x d := by
  induction n generalizing vpn d m with
  | zero =>
    cases h
    exact le_rfl
  | succ n ih =>
    obtain ⟨e,-,⟨hk,-,rfl⟩ | ⟨q,m1,b1,d1,m2,hk,hm,h⟩⟩ := copyLoop_succ h
    · exact Nat.add_le_add_right (kalloc_count hk x).le _
    · have hc := kalloc_count hk x
      have hu := mappages_uses false (by omega) hm x
      obtain ⟨rfl,h⟩ | ⟨rfl,-,rfl,rfl⟩ := h
      · have hi := ih (by omega) h
        simp only [Bool.not_false, Bool.and_true, if_true] at hu
        omega
      · simp only [Bool.false_and, Bool.false_eq_true, if_false] at hu
        omega

theorem copyLoop_pte {b : Bool} {n vpn : ℕ} (h : copyLoop src n vpn d m = .ok (b,d',m')) (v : ℕ)
    (hv : v < vpn ∨ vpn+n ≤ v) : d'.pte v = d.pte v := by
  induction n generalizing vpn d m with
  | zero =>
    cases h
    rfl
  | succ n ih =>
    obtain ⟨e,-,⟨-,-,rfl⟩ | ⟨q,m1,b1,d1,m2,-,hm,⟨rfl,h⟩ | ⟨rfl,-,rfl,-⟩⟩⟩ := copyLoop_succ h
    · rfl
    · rw [ih h (by omega), (mappages_true hm).2, update_of_ne (by omega)]
    · rw [mappages_false hm]

theorem copyuvm_some {sz : ℕ} (hb : sz ≤ KERNBASE) (h : copyuvm L src sz m = .ok (some d,m')) :
    (∀ x, freeCount x m'+uses false x d ≤ freeCount x m) ∧ Fit d sz := by
  unfold copyuvm at h
  obtain ⟨⟨o,m1⟩,hs,h⟩ := bind_ok h
  cases o with
  | none => exact absurd (Prod.mk.inj (Except.ok.inj h)).1 (by simp)
  | some d₀ =>
    obtain ⟨⟨b,d1,m2⟩,hc,h⟩ := bind_ok h
    obtain ⟨hsetup,hu,hkern⟩ := setupkvm_some hs
    cases b with
    | false =>
      obtain ⟨m3,-,he⟩ := map_ok h
      exact absurd (Prod.mk.inj he).1 (by simp)
    | true =>
      obtain ⟨hd,rfl⟩ := Prod.mk.inj (Except.ok.inj h)
      cases hd
      have hle := pages_le_kernPage hb
      refine ⟨fun x => ?_,hb,fun v h1 h2 => ?_,?_⟩
      · have h1 := copyLoop_uses (by omega) hc x
        have h2 := hsetup x
        have h3 : uses false x d₀ = frames x d₀ := by simp [uses, mapped_eq_zero hu]
        omega
      · rw [copyLoop_pte hc v (by omega), hu v h2]
      · rw [copyLoop_pte hc kernPage (by omega)]
        exact hkern

theorem copyuvm_none {sz : ℕ} (hb : sz ≤ KERNBASE) (h : copyuvm L src sz m = .ok (none,m'))
    (x : Page) : freeCount x m' ≤ freeCount x m := by
  unfold copyuvm at h
  obtain ⟨⟨o,m1⟩,hs,h⟩ := bind_ok h
  cases o with
  | none =>
    cases h
    exact setupkvm_none hs x
  | some d₀ =>
    obtain ⟨⟨b,d1,m2⟩,hc,h⟩ := bind_ok h
    obtain ⟨hsetup,hu,-⟩ := setupkvm_some hs
    cases b with
    | true => exact absurd (Prod.mk.inj (Except.ok.inj h)).1 (by simp)
    | false =>
      obtain ⟨m3,hf,he⟩ := map_ok h
      obtain ⟨-,rfl⟩ := Prod.mk.inj he
      have hle := pages_le_kernPage hb
      have h1 := copyLoop_uses (by omega) hc x
      have h2 := hsetup x
      have h3 : uses false x d₀ = frames x d₀ := by simp [uses, mapped_eq_zero hu]
      have h4 := freevm_count false x (by simp) hf
      omega

theorem clearpteu_spec {vpn : ℕ} (h : clearpteu d vpn = .ok d') :
    (∀ sh x, uses sh x d' = uses sh x d) ∧ ∀ v, (d'.pte v).isSome = (d.pte v).isSome := by
  unfold clearpteu at h
  split at h
  · cases h
  · rename_i e hw
    cases h
    obtain ⟨ht,he⟩ := walkpgdir_some hw
    have hp := pte_setPte ht (e.map fun e => { e with user := false })
    have hpage : (d.setPte vpn (e.map fun e => { e with user := false })).ptePage = d.ptePage := by
      rw [ptePage_update hp, Option.map_map]
      exact update_eq_self_iff.mpr (by simp [Pgdir.ptePage, he, Function.comp_def])
    refine ⟨fun sh x => ?_,fun v => ?_⟩
    · rw [uses, uses, frames_setPte, mapped, mapped, hpage]
    · rw [hp]
      by_cases hv : v = vpn
      · subst hv
        rw [update_self, he, Option.isSome_map]
      · rw [update_of_ne hv]

end Copy

end Xv6.PageLedger
