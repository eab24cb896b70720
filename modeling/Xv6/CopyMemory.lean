import Xv6.GrowProcess
import Xv6.PageRequests

/-!
# Copying an address space

`copyuvm` requests a directory with the kernel's tables, then for every page of
the parent a page, and before the first page of each table is mapped the table.
When the request for a user table fails, the page that was to be mapped is lost;
every other failure gives all pages back.
-/

set_option autoImplicit false

namespace Xv6.CopyMemory
open Function Inventory PageTables PageLedger PageRequests UserMemory TransitionRun

section Requests

variable {src d d' : Pgdir} {m m' : Mem}

def requests (v : ℕ) : ℕ := v+(v+1023)/1024

def TablesBelow (d : Pgdir) (v : ℕ) : Prop := ∀ i, i < 512 → (i ∈ tableSet d ↔ i*1024 < v)

theorem tablesBelow_next {vpn : ℕ} (h : TablesBelow d vpn)
    (ht : tableSet d' = insert (vpn/NPTENTRIES) (tableSet d)) : TablesBelow d' (vpn+1) := by
  intro i hi
  rw [ht, Finset.mem_insert, h i hi]
  simp only [NPTENTRIES]
  omega

theorem requests_next {vpn : ℕ} (hv : vpn < kernPage) (h : TablesBelow d vpn) :
    requests (vpn+1) = requests vpn+1+if vpn/NPTENTRIES ∈ tableSet d then 0 else 1 := by
  unfold kernPage at hv
  have hin := h (vpn/NPTENTRIES) (by simp only [NPTENTRIES]; omega)
  simp only [NPTENTRIES] at hin ⊢
  unfold requests
  split
  · rename_i hm
    have hlt := hin.mp hm
    omega
  · rename_i hm
    have hlt := mt hin.mpr hm
    omega

theorem requests_mono {a b : ℕ} (h : a ≤ b) : requests a ≤ requests b := by
  unfold requests
  omega

/-- The pages that are neither free nor in the directory after a failure: the
one in hand, if the request that failed was for its table. -/
theorem copyLoop_refused {n vpn : ℕ} (hv : vpn+n ≤ kernPage) (ht : TablesBelow d vpn)
    (h : PageTables.copyLoop src n vpn d m = .ok (false,d',m')) :
    ∃ f q, FirstRefused m f ∧ requests vpn+f < requests (vpn+n) ∧
      ∀ x, freeCount x m'+uses false x d'+
        (if (requests vpn+f)%1025 = 1 then hit x (some q) else 0) =
        freeCount x m+uses false x d := by
  induction n generalizing vpn d m with
  | zero => cases h
  | succ n ih =>
    have hmono : requests (vpn+1) ≤ requests (vpn+(n+1)) := requests_mono (by omega)
    have hnext := requests_next (by omega) ht
    obtain ⟨e,-,⟨hk,-,rfl⟩ | ⟨mem,m1,b,d1,m2,hk,hm,h⟩⟩ := PageLedger.copyLoop_succ h
    · refine ⟨0,0,kalloc_refused hk,by omega,fun x => ?_⟩
      have hc := kalloc_count hk x
      rw [if_neg (by unfold requests; omega)]
      rw [hit_none] at hc
      omega
    · have hone := mappages_one (by omega) hm
      have hu := mappages_uses_exact (by omega) hm
      obtain ⟨rfl,h⟩ | ⟨rfl,-,rfl,rfl⟩ := h
      · rw [if_pos rfl] at hone
        obtain ⟨f,q,href,hlt,hx⟩ := ih (by omega) (tablesBelow_next ht hone.1) h
        refine ⟨_,q,((kalloc_took hk).trans hone.2).refused href,?_,fun x => ?_⟩
        · rw [Nat.add_right_comm vpn 1 n] at hlt
          rw [show vpn+(n+1) = vpn+n+1 from rfl]
          omega
        · have hc := kalloc_count hk x
          have h1 := hu x
          have h2 := hx x
          rw [if_pos rfl] at h1
          rw [hnext] at h2
          rw [show requests vpn+(1+(if vpn/NPTENTRIES ∈ tableSet d then 0 else 1)+f) =
            requests vpn+1+(if vpn/NPTENTRIES ∈ tableSet d then 0 else 1)+f by omega]
          omega
      · rw [if_neg (by simp)] at hone
        rw [if_neg hone.1] at hnext
        refine ⟨1,mem,(kalloc_took hk).refused hone.2,by omega,fun x => ?_⟩
        have hc := kalloc_count hk x
        have hx := hu x
        have htable : (requests vpn+1)%1025 = 1 := by
          unfold requests at hnext ⊢
          omega
        rw [if_neg (by simp)] at hx
        rw [if_pos htable]
        omega

theorem copyLoop_took {n vpn : ℕ} (hv : vpn+n ≤ kernPage) (ht : TablesBelow d vpn)
    (h : PageTables.copyLoop src n vpn d m = .ok (true,d',m')) :
    Took (requests (vpn+n)-requests vpn) m m' ∧
      ∀ x, freeCount x m'+uses false x d' = freeCount x m+uses false x d := by
  induction n generalizing vpn d m with
  | zero =>
    cases h
    rw [Nat.add_zero, Nat.sub_self]
    exact ⟨took_refl _,fun _ => rfl⟩
  | succ n ih =>
    have hmono : requests (vpn+1) ≤ requests (vpn+(n+1)) := requests_mono (by omega)
    have hnext := requests_next (by omega) ht
    obtain ⟨e,-,⟨-,hb,-⟩ | ⟨mem,m1,b,d1,m2,hk,hm,⟨rfl,h⟩ | ⟨-,hb,-⟩⟩⟩ := PageLedger.copyLoop_succ h
    · cases hb
    · have hone := mappages_one (by omega) hm
      rw [if_pos rfl] at hone
      obtain ⟨htook,hx⟩ := ih (by omega) (tablesBelow_next ht hone.1) h
      rw [Nat.add_right_comm vpn 1 n] at htook
      constructor
      · have hsum := ((kalloc_took hk).trans hone.2).trans htook
        rwa [show 1+(if vpn/NPTENTRIES ∈ tableSet d then 0 else 1)+
            (requests (vpn+n+1)-requests (vpn+1)) = requests (vpn+(n+1))-requests vpn by
          rw [show vpn+(n+1) = vpn+n+1 from rfl] at hmono ⊢
          omega] at hsum
      · intro x
        have h1 := mappages_uses_exact (by omega) hm x
        have h2 := hx x
        have hc := kalloc_count hk x
        rw [if_pos rfl] at h1
        omega
    · cases hb

theorem copyLoop_total {n vpn : ℕ} (hsrc : ∀ v, vpn ≤ v → v < vpn+n → (src.pte v).isSome)
    (hd : ∀ v, vpn ≤ v → v < vpn+n → d.pte v = none) :
    ∃ b d' m', PageTables.copyLoop src n vpn d m = .ok (b,d',m') := by
  induction n generalizing vpn d m with
  | zero => exact ⟨_,_,_,rfl⟩
  | succ n ih =>
    obtain ⟨e,he⟩ := Option.isSome_iff_exists.mp (hsrc vpn le_rfl (by omega))
    have hw : walkpgdir src vpn = some (some e) := by
      rw [Pgdir.pte, Option.bind_eq_some_iff] at he
      obtain ⟨t,ht,he⟩ := he
      rw [walkpgdir, ht, Option.map_some, he]
    rw [PageTables.copyLoop, hw]
    dsimp only
    split
    · exact ⟨_,_,_,rfl⟩
    · rename_i mem m1 hk
      have hm : ∃ b d' m', PageTables.mappages e.writable e.user 1 vpn mem d m1 =
        .ok (b,d',m') := by
        apply mappages_total
        intro i hi
        exact hd _ (by omega) (by omega)
      obtain ⟨b,d1,m2,hm⟩ := hm
      rw [hm]
      cases b with
      | false => exact ⟨_,_,_,rfl⟩
      | true =>
        apply ih
        · exact fun v h1 h2 => hsrc v (by omega) (by omega)
        · intro v h1 h2
          rw [(mappages_true hm).2, update_of_ne (by omega)]
          exact hd v (by omega) (by omega)

end Requests

section Contents

variable {src d d' : Pgdir} {r r' : Ram}

theorem copyLoop_pagetables {b : Bool} {n vpn : ℕ}
    (h : copyLoop src n vpn d r = .ok (b,d',r')) :
    PageTables.copyLoop src n vpn d r.mem = .ok (b,d',r'.mem) := by
  rw [← copyLoop_mem, h]
  rfl

theorem copyLoop_succ {b : Bool} {n vpn : ℕ} (h : copyLoop src (n+1) vpn d r = .ok (b,d',r')) :
    ∃ e, walkpgdir src vpn = some (some e) ∧
      ((∃ m, kalloc r.mem = (none,m) ∧ b = false ∧ r' = { r with mem := m }) ∨
        ∃ q b1 d1 r1, Filled e.writable e.user vpn q (r.bytes e.page) d r b1 d1 r1 ∧
          (b1 = true ∧ copyLoop src n (vpn+1) d1 r1 = .ok (b,d',r') ∨
            b1 = false ∧ b = false ∧ r' = r1)) := by
  rw [UserMemory.copyLoop] at h
  split at h
  · cases h
  · cases h
  · rename_i e hw
    refine ⟨e,hw,?_⟩
    split at h
    · rename_i m hk
      cases h
      exact .inl ⟨m,hk,rfl,rfl⟩
    · rename_i q m hk
      obtain ⟨⟨b1,d1,r1⟩,hm,h⟩ := bind_ok h
      obtain ⟨hpt,hb,-⟩ := mappages_ram hm
      refine .inr ⟨q,b1,d1,r1,⟨⟨m,hk,hpt⟩,hb⟩,?_⟩
      cases b1 with
      | true => exact .inl ⟨rfl,h⟩
      | false =>
        cases h
        exact .inr ⟨rfl,rfl,rfl⟩

theorem copyLoop_other {b : Bool} {n vpn : ℕ} (h : copyLoop src n vpn d r = .ok (b,d',r')) :
    r'.mem.freelist <:+ r.mem.freelist ∧ ∀ p, p ∉ r.mem.freelist → r'.bytes p = r.bytes p := by
  induction n generalizing vpn d r with
  | zero =>
    cases h
    exact ⟨List.suffix_rfl,fun _ _ => rfl⟩
  | succ n ih =>
    obtain ⟨e,-,⟨m,hk,-,rfl⟩ | ⟨q,b1,d1,r1,hf,⟨-,h⟩ | ⟨-,-,rfl⟩⟩⟩ := copyLoop_succ h
    · exact ⟨kalloc_suffix hk,fun _ _ => rfl⟩
    · obtain ⟨hs,ho⟩ := ih h
      exact ⟨hs.trans hf.suffix,fun p hp =>
        (ho p fun hin => hp (hf.suffix.subset hin)).trans (hf.other hp)⟩
    · exact ⟨hf.suffix,fun p hp => hf.other hp⟩

def Copied (src : Pgdir) (lo hi : ℕ) (r : Ram) (d' : Pgdir) (r' : Ram) : Prop :=
  ∀ v, lo ≤ v → v < hi → ∃ e p, src.pte v = some e ∧ d'.pte v = some { e with page := p } ∧
    p ∈ r.mem.freelist ∧ p ∉ r'.mem.freelist ∧ r'.bytes p = r.bytes e.page

theorem copyLoop_copied {n vpn : ℕ} (hnd : r.mem.freelist.Nodup)
    (hsrc : ∀ v, vpn ≤ v → v < vpn+n → ∀ p, src.ptePage v = some p → p ∉ r.mem.freelist)
    (h : copyLoop src n vpn d r = .ok (true,d',r')) : Copied src vpn (vpn+n) r d' r' := by
  induction n generalizing vpn d r with
  | zero => exact fun v h1 h2 => by omega
  | succ n ih =>
    obtain ⟨e,hw,⟨-,-,hb,-⟩ | ⟨q,b1,d1,r1,hf,⟨rfl,h⟩ | ⟨-,hb,-⟩⟩⟩ := copyLoop_succ h
    · cases hb
    · have hi := ih (hf.suffix.sublist.nodup hnd) (fun v h1 h2 p hp hin =>
        hsrc v (by omega) (by omega) p hp (hf.suffix.subset hin)) h
      obtain ⟨hs,ho⟩ := copyLoop_other h
      have hgone := hf.gone hnd
      intro v h1 h2
      by_cases hv : v = vpn
      · subst hv
        refine ⟨e,q,(walkpgdir_some hw).2,?_,hf.mem,fun hin => hgone (hs.subset hin),?_⟩
        · rw [copyLoop_pte (copyLoop_pagetables h) v (by omega), hf.pte, update_self]
        · rw [ho q hgone, hf.self]
      · obtain ⟨e',p,he,hp,hin,hout,hb⟩ := hi v (by omega) (by omega)
        refine ⟨e',p,he,hp,hf.suffix.subset hin,hout,hb.trans (hf.other ?_)⟩
        exact hsrc v h1 h2 e'.page (by rw [Pgdir.ptePage, he]; rfl)
    · cases hb

theorem setupkvm_pagetables {L : Layout} {o : Option Pgdir} (h : setupkvm L r = .ok (o,r')) :
    PageTables.setupkvm L r.mem = .ok (o,r'.mem) := by
  rw [← setupkvm_mem, h]
  rfl

/-- A new directory is made of pages of the free list. -/
theorem setupkvm_other {L : Layout} (hL : Placed L) {o : Option Pgdir} {p : Page}
    (h : setupkvm L r = .ok (o,r')) (hp : p ∉ r.mem.freelist) : r'.bytes p = r.bytes p := by
  unfold UserMemory.setupkvm at h
  split at h
  · cases h
    rfl
  · rename_i pgdir m1 hk
    obtain ⟨⟨b,d,m2⟩,hr,h⟩ := bind_ok h
    cases b with
    | true =>
      cases h
      rfl
    | false =>
      obtain ⟨r3,hf,he⟩ := map_ok h
      obtain ⟨-,rfl⟩ := Prod.mk.inj he
      rw [freevm_other hf]
      have hu := (setupRanges_spec (kmap_above L) hr).2.1
      have h₀ : freeCount p r.mem = 0 := List.count_eq_zero.mpr hp
      have h1 := setupRanges_exact hL.within hr p
      have h2 := kalloc_count hk p
      have h3 := frames_bare p pgdir
      have h4 : mapped p d = 0 := mapped_eq_zero fun v hv => (hu v hv).trans rfl
      simp only [uses, h4, Bool.false_eq_true, if_false]
      omega

end Contents

structure ExactCopy (src : Pgdir) (sz : ℕ) (r : Ram) (d : Pgdir) (r' : Ram) : Prop where
  copied : Copied src 0 (pages sz) r d r'
  once : ∀ v w, v < kernPage → w < kernPage → v ≠ w → ∀ p, d.ptePage v = some p →
    d.ptePage w ≠ some p
  only : ∀ v, pages sz ≤ v → v < kernPage → d.pte v = none
  unshared : ∀ v w, v < kernPage → w < kernPage → ∀ p, d.ptePage v = some p →
    src.ptePage w ≠ some p

def CopiesOrRestores (L : Layout) (src : Pgdir) (sz : ℕ) (r : Ram) : Prop :=
  ∃ o r', copyuvm L src sz r = .ok (o,r') ∧
    (∀ a, a < KERNBASE → byteAt src r' a = byteAt src r a) ∧
    match o with
    | some d => ExactCopy src sz r d r'
    | none => ∀ p, p ∈ r'.mem.freelist ↔ p ∈ r.mem.freelist

def TablesGranted (sz : ℕ) (m : Mem) : Prop :=
  ∀ j, 1024*j < pages sz → ¬FirstRefused m (66+1025*j)

section Outcome

variable {src d d₀ : Pgdir} {sz data : ℕ} {r r₁ r₂ : Ram}

def Ends (src : Pgdir) (sz : ℕ) (r : Ram) (o : Option Pgdir) (r' : Ram) : Prop :=
  (∀ p, p ∉ r.mem.freelist → r'.bytes p = r.bytes p) ∧
    match o with
    | some d => ExactCopy src sz r d r' ∧ ∀ j, j < 65+requests (pages sz) → Granted r.mem j
    | none => ∃ f q, FirstRefused r.mem f ∧ f < 65+requests (pages sz) ∧
        ∀ x, freeCount x r'.mem+(if 65 ≤ f ∧ (f-65)%1025 = 1 then hit x (some q) else 0) =
          freeCount x r.mem

theorem mapped_once (h : ∀ x, uses false x d ≤ 1) {v w : ℕ} (hv : v < kernPage)
    (hw : w < kernPage) (hne : v ≠ w) {p : Page} (h1 : d.ptePage v = some p) :
    d.ptePage w ≠ some p := by
  intro h2
  have hpair := pair_le_total (Finset.mem_range.mpr hv) (Finset.mem_range.mpr hw) hne (hit p)
    d.ptePage
  have hle := mapped_le_uses p d
  have hone := h p
  rw [h1, h2, hit_self] at hpair
  rw [mapped] at hle
  omega

/-- The copy succeeded, from a fresh directory `d₀` and memory `r₁`. -/
theorem exactCopy_of_loop (hb : sz ≤ KERNBASE) (hs : Spare src r.mem)
    (hfree : r₁.mem.freelist <:+ r.mem.freelist)
    (hbytes : ∀ p, p ∉ r.mem.freelist → r₁.bytes p = r.bytes p)
    (hcount : ∀ x, freeCount x r₁.mem+uses false x d₀ = freeCount x r.mem)
    (hempty : ∀ v, v < kernPage → d₀.pte v = none) (htab : TablesBelow d₀ 0)
    (h : copyLoop src (pages sz) 0 d₀ r₁ = .ok (true,d,r₂)) : ExactCopy src sz r d r₂ := by
  have hle := pages_le_kernPage hb
  have hsrc : ∀ v, v < kernPage → ∀ p, src.ptePage v = some p → p ∉ r₁.mem.freelist :=
    fun v hv p hp hin => hs.apart v hv p hp (hfree.subset hin)
  have honly : ∀ v, pages sz ≤ v → v < kernPage → d.pte v = none := fun v h1 h2 =>
    (copyLoop_pte (copyLoop_pagetables h) v (by omega)).trans (hempty v h2)
  have hcopied := copyLoop_copied (hfree.sublist.nodup hs.nodup)
    (fun v _ hv => hsrc v (by omega)) h
  rw [Nat.zero_add] at hcopied
  obtain ⟨-,hx⟩ := copyLoop_took (by omega) htab (copyLoop_pagetables h)
  refine ⟨?_,?_,honly,?_⟩
  · intro v h1 h2
    obtain ⟨e,p,he,hp,hin,hout,hb⟩ := hcopied v h1 h2
    refine ⟨e,p,he,hp,hfree.subset hin,hout,hb.trans (hbytes e.page ?_)⟩
    exact hs.apart v (by omega) e.page (by rw [Pgdir.ptePage, he]; rfl)
  · intro v w hv hw hne p hp
    refine mapped_once (fun x => ?_) hv hw hne hp
    have h1 := hx x
    have h2 := hcount x
    have h3 : freeCount x r.mem ≤ 1 := List.nodup_iff_count_le_one.mp hs.nodup x
    omega
  · intro v w hv hw p hp hpar
    by_cases hin : v < pages sz
    · obtain ⟨e,q,-,hq,hmem,-⟩ := hcopied v (Nat.zero_le v) hin
      rw [Pgdir.ptePage, hq] at hp
      cases hp
      exact hsrc w hw _ hpar hmem
    · rw [Pgdir.ptePage, honly v (by omega) hv] at hp
      cases hp

theorem kernelTables_card (hlo : 0x100 ≤ data) (hhi : data ≤ 0xE000) :
    (kernelTables (vmLayout data).kmap).card = 64 := by
  have hd : Disjoint (Finset.Ico 512 568) (Finset.Ico 1016 1024) := by
    rw [Finset.disjoint_left]
    intro i h1 h2
    rw [Finset.mem_Ico] at h1 h2
    omega
  rw [kernelTables_vm hlo hhi, Finset.card_union_of_disjoint hd, Nat.card_Ico, Nat.card_Ico]

theorem copyuvm_ends (hlo : 0x100 ≤ data) (hhi : data ≤ 0xE000) (hb : sz ≤ KERNBASE)
    (hsrc : ∀ v, v < pages sz → (src.pte v).isSome) (hs : Spare src r.mem) :
    ∃ o r', copyuvm (vmLayout data) src sz r = .ok (o,r') ∧ Ends src sz r o r' := by
  have hL := vmLayout_placed hlo hhi
  have hle := pages_le_kernPage hb
  obtain ⟨o1,m1,ht⟩ := setupkvm_total r.mem hL
  rw [← setupkvm_mem] at ht
  obtain ⟨⟨o1,r₁⟩,hset,-⟩ := map_ok ht
  have hpt := setupkvm_pagetables hset
  have hreq := setupkvm_requests hL hpt
  have hbytes : ∀ p, p ∉ r.mem.freelist → r₁.bytes p = r.bytes p := fun _ => setupkvm_other hL hset
  rw [kernelTables_card hlo hhi] at hreq
  cases o1 with
  | none =>
    refine ⟨none,r₁,by rw [UserMemory.copyuvm, hset]; rfl,hbytes,?_⟩
    obtain ⟨k,hk,href⟩ := hreq
    refine ⟨k,0,href,by omega,fun x => ?_⟩
    rw [if_neg (by omega), Nat.add_zero, setupkvm_none_exact hL hpt x]
  | some d₀ =>
    obtain ⟨htab,htook⟩ := hreq
    obtain ⟨-,hempty,-⟩ := setupkvm_some hpt
    have hcount : ∀ x, freeCount x r₁.mem+uses false x d₀ = freeCount x r.mem := by
      intro x
      have hc := setupkvm_some_exact hL hpt x
      have hu : uses false x d₀ = frames x d₀ := by simp [uses, mapped_eq_zero hempty]
      omega
    have hfree : r₁.mem.freelist <:+ r.mem.freelist := by
      rw [htook.2, after]
      exact List.drop_suffix (1+64) r.mem.freelist
    have hbelow : TablesBelow d₀ 0 := by
      intro i hi
      rw [htab, kernelTables_vm hlo hhi, Finset.mem_union, Finset.mem_Ico, Finset.mem_Ico]
      omega
    have hl : ∃ b d' m', PageTables.copyLoop src (pages sz) 0 d₀ r₁.mem = .ok (b,d',m') :=
      copyLoop_total (fun v _ hv => hsrc v (by omega)) fun v _ hv => hempty v (by omega)
    obtain ⟨b,d',m',hl⟩ := hl
    rw [← copyLoop_mem] at hl
    obtain ⟨⟨b,d,r₂⟩,hloop,-⟩ := map_ok hl
    obtain ⟨-,hother⟩ := copyLoop_other hloop
    have hkeep : ∀ p, p ∉ r.mem.freelist → r₂.bytes p = r.bytes p := fun p hp =>
      (hother p fun hin => hp (hfree.subset hin)).trans (hbytes p hp)
    cases b with
    | true =>
      have heq : copyuvm (vmLayout data) src sz r = .ok (some d,r₂) := by
        rw [UserMemory.copyuvm, hset]
        show (copyLoop src (pages sz) 0 d₀ r₁ >>= _) = _
        rw [hloop]
        rfl
      refine ⟨some d,r₂,heq,hkeep,
        exactCopy_of_loop hb hs hfree hbytes hcount hempty hbelow hloop,?_⟩
      have hall := (htook.trans (copyLoop_took (by omega) hbelow (copyLoop_pagetables hloop)).1).1
      intro j hj
      apply hall
      rw [Nat.zero_add]
      have hz : requests 0 = 0 := rfl
      omega
    | false =>
      obtain ⟨f,q,href,hlt,hx⟩ := copyLoop_refused (by omega) hbelow (copyLoop_pagetables hloop)
      have hz : requests 0 = 0 := rfl
      simp only [hz, Nat.zero_add] at hlt hx
      have huse : ∀ p, p ∉ r.mem.freelist → uses false p d = 0 := by
        intro p hp
        have h1 := hx p
        have h2 := hcount p
        have h3 : freeCount p r.mem = 0 := List.count_eq_zero.mpr hp
        omega
      have hzero : (0 : Page) ∉ r.mem.freelist := by
        have h₀ := hs.zero
        exact List.count_eq_zero.mp (show freeCount 0 r.mem = 0 by omega)
      have hmap : mapped 0 d = 0 := Nat.le_zero.mp ((mapped_le_uses 0 d).trans (huse 0 hzero).le)
      obtain ⟨m3,hf⟩ := freevm_total r₂.mem hmap
      rw [← freevm_mem] at hf
      obtain ⟨r3,hf,-⟩ := map_ok hf
      have hpf : PageTables.freevm d r₂.mem = .ok r3.mem := by
        rw [← freevm_mem, hf]
        rfl
      refine ⟨none,r3,?_,fun p hp => (freevm_other hf (huse p hp)).trans (hkeep p hp),65+f,q,
        htook.refused href,by omega,fun x => ?_⟩
      · rw [UserMemory.copyuvm, hset]
        show (copyLoop src (pages sz) 0 d₀ r₁ >>= _) = _
        rw [hloop]
        show (freevm d r₂).map _ = _
        rw [hf]
        rfl
      · have h1 := hx x
        have h2 := hcount x
        have h3 := freevm_exact hpf x
        rw [Nat.add_sub_cancel_left]
        by_cases hr : f%1025 = 1
        · rw [if_pos hr] at h1
          rw [if_pos ⟨by omega,hr⟩]
          omega
        · rw [if_neg hr] at h1
          rw [if_neg (fun h => hr h.2)]
          omega

end Outcome

theorem copyuvm_loses_page {data : ℕ} (hlo : 0x100 ≤ data) (hhi : data ≤ 0xE000) {src : Pgdir}
    {sz : ℕ} {r : Ram} (hb : sz ≤ KERNBASE) (hsrc : ∀ v, v < pages sz → (src.pte v).isSome)
    (hs : Spare src r.mem) {j : ℕ} (hj : 1024*j < pages sz)
    (href : FirstRefused r.mem (66+1025*j)) : ¬CopiesOrRestores (vmLayout data) src sz r := by
  obtain ⟨o,r',h,-,hend⟩ := copyuvm_ends hlo hhi hb hsrc hs
  rintro ⟨o2,r₂,h2,-,hset⟩
  rw [h] at h2
  cases h2
  cases o with
  | some d =>
    refine href.2 (hend.2 _ ?_)
    unfold requests
    omega
  | none =>
    obtain ⟨f,q,hf,-,hcount⟩ := hend
    obtain rfl := hf.unique href
    have hq := hcount q
    rw [if_pos (by omega), hit_self] at hq
    have hle : freeCount q r.mem ≤ 1 := List.nodup_iff_count_le_one.mp hs.nodup q
    have hin : q ∈ r.mem.freelist := List.count_pos_iff.mp (by rw [← freeCount]; omega)
    have hout : q ∉ r'.mem.freelist := List.count_eq_zero.mp (by rw [← freeCount]; omega)
    exact hout ((hset q).mpr hin)

/-- `copyuvm` copies exactly or leaves nothing behind, exactly when the request
for a user table is not the first that fails. -/
theorem copyuvm_exact_iff (data : ℕ) (hlo : 0x100 ≤ data) (hhi : data ≤ 0xE000) (src : Pgdir)
    (sz : ℕ) (r : Ram) (hb : sz ≤ KERNBASE) (hsrc : ∀ v, v < pages sz → (src.pte v).isSome)
    (hs : Spare src r.mem) :
    CopiesOrRestores (vmLayout data) src sz r ↔ TablesGranted sz r.mem := by
  constructor
  · intro hc j hj href
    exact copyuvm_loses_page hlo hhi hb hsrc hs hj href hc
  · intro hg
    obtain ⟨o,r',h,hbytes,hend⟩ := copyuvm_ends hlo hhi hb hsrc hs
    have hparent : ∀ a, a < KERNBASE → byteAt src r' a = byteAt src r a := by
      intro a ha
      apply byteAt_congr rfl
      intro p hp
      exact hbytes p (hs.apart _ ((page_of_byte ha).trans_eq pages_KERNBASE) p hp)
    refine ⟨o,r',h,hparent,?_⟩
    cases o with
    | some d => exact hend.1
    | none =>
      obtain ⟨f,q,href,hlt,hcount⟩ := hend
      have hkept : ¬(65 ≤ f ∧ (f-65)%1025 = 1) := by
        rintro ⟨h₁,h₂⟩
        unfold requests at hlt
        refine hg ((f-65)/1025) (by omega) ?_
        rwa [show 66+1025*((f-65)/1025) = f by omega]
      intro p
      have hp := hcount p
      rw [if_neg hkept, Nat.add_zero] at hp
      rw [← List.count_pos_iff, ← List.count_pos_iff, ← freeCount, ← freeCount, hp]

section OnePage

open GrowProcess (onePage onePage_pte onePage_spare)

def freePages (n : ℕ) : Ram where
  mem := { freelist := List.range' 100 n, refuse := fun _ => false, calls := 0 }
  bytes := fun _ _ => 7

theorem freePages_refused (n : ℕ) : FirstRefused (freePages n).mem n := by
  constructor
  · intro j hj
    exact ⟨rfl,by simpa [freePages] using hj⟩
  · rintro ⟨-,hlt⟩
    simp [freePages] at hlt

theorem freePages_spare (n : ℕ) : Spare onePage (freePages n).mem := by
  apply onePage_spare
  · exact List.nodup_range'
  · simp [freePages, List.mem_range'_1]
  · simp [freePages, List.mem_range'_1]

theorem onePage_present : ∀ v, v < pages 4096 → (onePage.pte v).isSome := by
  intro v hv
  have hone : pages 4096 = 1 := by decide
  rw [onePage_pte, if_pos (by omega)]
  rfl

/-- One page of 67: the copy is made. -/
theorem copyuvm_exact_enough : CopiesOrRestores (vmLayout 0x110) onePage 4096 (freePages 67) := by
  refine (copyuvm_exact_iff 0x110 (by decide) (by decide) onePage 4096 (freePages 67) (by decide)
    onePage_present (freePages_spare 67)).mpr fun j _ href => ?_
  have he := href.unique (freePages_refused 67)
  omega

/-- With 66 free pages the request for the child's table fails, and one page is
lost. -/
theorem copyuvm_page_lost : (∀ v, v < pages 4096 → (onePage.pte v).isSome) ∧
    Spare onePage (freePages 66).mem ∧
    ¬CopiesOrRestores (vmLayout 0x110) onePage 4096 (freePages 66) :=
  ⟨onePage_present,freePages_spare 66,copyuvm_loses_page (by decide) (by decide) (by decide)
    onePage_present (freePages_spare 66) (j := 0) (by decide) (freePages_refused 66)⟩

end OnePage

end Xv6.CopyMemory
