import Xv6.CopyMemory
import Xv6.FsState

/-!
# Copying to a user address

`copyout` of `vm.c` for any directory, address and length; addresses wrap at `2
^ 32`. `walkpgdir` returns the null pointer when a table is missing, and
`uva2ka` reads through it all the same: it then looks at the first word of the
directory the processor runs on.
-/

set_option autoImplicit false

namespace Xv6.CopyOut
open Function ByteStore FsState PageTables PageLedger UserMemory TransitionRun

abbrev Memory := Page → Bytes

section Model

variable (cur d : Pgdir)

def uva2ka (b : Memory) (vpn : ℕ) : Except Halt (Option Page) :=
  match walkpgdir d vpn with
  | some e => .ok (e.bind fun e => if e.user then some e.page else none)
  | none => match cur.ptePage 0 with
    | none => .error (.panic "trap")
    | some p =>
      if (b p 0).toNat%2 = 1 ∧ (b p 0).toNat/4%2 = 1 then .error .wild else .ok none

structure Outcome where
  looked : List ℕ
  result : Except Halt (Bool × Memory)

def copyout : ℕ → ℕ → List UInt8 → Memory → Outcome
  | 0, _, _, b => ⟨[],.ok (true,b)⟩
  | k+1, va, buf, b =>
    if buf = [] then ⟨[],.ok (true,b)⟩
    else match uva2ka cur d b (va/PGSIZE) with
      | .error e => ⟨[va/PGSIZE],.error e⟩
      | .ok none => ⟨[va/PGSIZE],.ok (false,b)⟩
      | .ok (some p) =>
        let rest := copyout k ((va/PGSIZE+1)*PGSIZE%2^32) (buf.drop (PGSIZE-va%PGSIZE))
          (update b p (paste (b p) (va%PGSIZE) (buf.take (PGSIZE-va%PGSIZE))))
        ⟨va/PGSIZE::rest.looked,rest.result⟩

end Model

def addr (va i : ℕ) : ℕ := (va+i)%2^32

def phys (d : Pgdir) (a : ℕ) : Option (Page × ℕ) :=
  (d.pte (a/PGSIZE)).map fun e => (e.page,a%PGSIZE)

def Accessible (d : Pgdir) (a : ℕ) : Prop := ∃ e, d.pte (a/PGSIZE) = some e ∧ e.user = true

structure Copied (d : Pgdir) (va : ℕ) (buf : List UInt8) (b b' : Memory) : Prop where
  written : ∀ i, i < buf.length → ∀ p o, phys d (addr va i) = some (p,o) →
    (∀ j, i < j → j < buf.length → phys d (addr va j) ≠ some (p,o)) → b' p o = buf.getD i 0
  kept : ∀ p o, (∀ i, i < buf.length → phys d (addr va i) ≠ some (p,o)) → b' p o = b p o

def WithinRange (d : Pgdir) (va n : ℕ) (b b' : Memory) : Prop :=
  ∀ p o, b' p o ≠ b p o → ∃ i e, i < n ∧ d.pte (addr va i/PGSIZE) = some e ∧ e.user = true ∧
    e.page = p

def Respects (cur d : Pgdir) (va : ℕ) (buf : List UInt8) (b : Memory) : Prop :=
  (∃ ret b', (copyout cur d buf.length va buf b).result = .ok (ret,b') ∧
    (ret = true ↔ ∀ i, i < buf.length → Accessible d (addr va i)) ∧
    (ret = true → Copied d va buf b b') ∧ WithinRange d va buf.length b b') ∧
  ∀ v ∈ (copyout cur d buf.length va buf b).looked, (d.tables (v/NPTENTRIES)).isSome

def Tabled (d : Pgdir) (va n : ℕ) : Prop :=
  ∀ i, i < n → (∀ j, j < i → Accessible d (addr va j)) →
    (d.tables (addr va i/PGSIZE/NPTENTRIES)).isSome

section Rounds

variable {cur d : Pgdir} {va i n : ℕ} {buf : List UInt8} {b b' : Memory}

theorem addr_zero (hva : va < 2^32) : addr va 0 = va := Nat.mod_eq_of_lt hva

/-- The addresses of the first round lie in one page. -/
theorem addr_page (hva : va < 2^32) (hi : i < PGSIZE-va%PGSIZE) :
    addr va i/PGSIZE = va/PGSIZE ∧ addr va i%PGSIZE = va%PGSIZE+i := by
  simp only [addr, PGSIZE] at *
  omega

theorem addr_next : addr va (PGSIZE-va%PGSIZE+i) = addr ((va/PGSIZE+1)*PGSIZE%2^32) i := by
  simp only [addr, PGSIZE]
  omega

theorem addr_rest (h : PGSIZE-va%PGSIZE ≤ i) :
    addr va i = addr ((va/PGSIZE+1)*PGSIZE%2^32) (i-(PGSIZE-va%PGSIZE)) := by
  rw [← addr_next, Nat.add_sub_cancel' h]

theorem accessible_first (hva : va < 2^32) (hi : i < PGSIZE-va%PGSIZE) :
    Accessible d (addr va i) ↔ Accessible d va := by
  rw [Accessible, Accessible, (addr_page hva hi).1]

theorem tabled_rest (h : Tabled d va n) (ha : Accessible d va) (hva : va < 2^32) :
    Tabled d ((va/PGSIZE+1)*PGSIZE%2^32) (n-(PGSIZE-va%PGSIZE)) := by
  intro i hi hall
  rw [← addr_next]
  refine h _ (by omega) fun j hj => ?_
  by_cases hfirst : j < PGSIZE-va%PGSIZE
  · exact (accessible_first hva hfirst).mpr ha
  · rw [addr_rest (Nat.le_of_not_lt hfirst)]
    exact hall _ (by omega)

theorem tabled_of_rest (ha : Accessible d va) (hva : va < 2^32)
    (h : Tabled d ((va/PGSIZE+1)*PGSIZE%2^32) (n-(PGSIZE-va%PGSIZE))) : Tabled d va n := by
  intro i hi hall
  by_cases hfirst : i < PGSIZE-va%PGSIZE
  · obtain ⟨e,he,-⟩ := ha
    rw [(addr_page hva hfirst).1]
    rw [Pgdir.pte] at he
    cases ht : d.tables (va/PGSIZE/NPTENTRIES) with
    | none => rw [ht] at he; cases he
    | some t => rfl
  · have hle := Nat.le_of_not_lt hfirst
    rw [addr_rest hle]
    refine h _ (by omega) fun j hj => ?_
    rw [← addr_next]
    exact hall _ (by omega)

theorem accessible_all (ha : Accessible d va) (hva : va < 2^32) :
    (∀ i, i < n → Accessible d (addr va i)) ↔
      ∀ i, i < n-(PGSIZE-va%PGSIZE) → Accessible d (addr ((va/PGSIZE+1)*PGSIZE%2^32) i) := by
  constructor
  · intro h i hi
    rw [← addr_next]
    exact h _ (by omega)
  · intro h i hi
    by_cases hfirst : i < PGSIZE-va%PGSIZE
    · exact (accessible_first hva hfirst).mpr ha
    · rw [addr_rest (Nat.le_of_not_lt hfirst)]
      exact h _ (by omega)

theorem stored_at {p q : Page} {o : ℕ} (hva : va < 2^32) (e : Pte)
    (he : d.pte (va/PGSIZE) = some e) (hp : e.page = p) :
    update b p (paste (b p) (va%PGSIZE) (buf.take (PGSIZE-va%PGSIZE))) q o =
      if ∃ i, i < buf.length ∧ i < PGSIZE-va%PGSIZE ∧ phys d (addr va i) = some (q,o) then
        buf.getD (o-va%PGSIZE) 0 else b q o := by
  have hphys : ∀ i, i < PGSIZE-va%PGSIZE → (phys d (addr va i) = some (q,o) ↔
      q = p ∧ o = va%PGSIZE+i) := by
    intro i hi
    obtain ⟨h1,h2⟩ := addr_page hva hi
    rw [phys, h1, h2, he, Option.map_some, Option.some.injEq, Prod.mk.injEq, hp]
    exact and_congr eq_comm eq_comm
  by_cases hq : q = p
  · subst hq
    rw [update_self]
    by_cases ho : va%PGSIZE ≤ o ∧ o < va%PGSIZE+(buf.take (PGSIZE-va%PGSIZE)).length
    · have hlen := ho.2
      rw [List.length_take] at hlen
      rw [paste_in ho.1 ho.2, if_pos ⟨o-va%PGSIZE,by omega,by omega,(hphys _ (by omega)).mpr
        ⟨rfl,by omega⟩⟩]
      simp only [List.getD_eq_getElem?_getD]
      rw [List.getElem?_take_of_lt (by omega)]
    · rw [paste_out (by omega), if_neg]
      rintro ⟨i,h1,h2,h3⟩
      obtain ⟨-,rfl⟩ := (hphys i h2).mp h3
      rw [List.length_take] at ho
      omega
  · rw [update_of_ne hq, if_neg]
    rintro ⟨i,-,h2,h3⟩
    exact hq ((hphys i h2).mp h3).1

theorem copied_round {e : Pte} (hva : va < 2^32) (he : d.pte (va/PGSIZE) = some e)
    (hrest : Copied d ((va/PGSIZE+1)*PGSIZE%2^32) (buf.drop (PGSIZE-va%PGSIZE))
      (update b e.page (paste (b e.page) (va%PGSIZE) (buf.take (PGSIZE-va%PGSIZE)))) b') :
    Copied d va buf b b' := by
  have hlen : (buf.drop (PGSIZE-va%PGSIZE)).length = buf.length-(PGSIZE-va%PGSIZE) :=
    List.length_drop
  constructor
  · intro i hi p o hp hlast
    by_cases hfirst : i < PGSIZE-va%PGSIZE
    · rw [hrest.kept p o, stored_at hva e he rfl, if_pos ⟨i,hi,hfirst,hp⟩]
      · obtain ⟨h1,h2⟩ := addr_page hva hfirst
        rw [phys, h1, h2, he] at hp
        cases hp
        rw [Nat.add_sub_cancel_left]
      · intro j hj
        rw [← addr_next]
        exact hlast _ (by omega) (by omega)
    · have hle := Nat.le_of_not_lt hfirst
      rw [addr_rest hle] at hp
      rw [hrest.written (i-(PGSIZE-va%PGSIZE)) (by omega) p o hp]
      · simp only [List.getD_eq_getElem?_getD, List.getElem?_drop, Nat.add_sub_cancel' hle]
      · intro j hj hj'
        rw [← addr_next]
        exact hlast _ (by omega) (by omega)
  · intro p o hp
    rw [hrest.kept p o, stored_at hva e he rfl, if_neg]
    · rintro ⟨i,h1,-,h2⟩
      exact hp i h1 h2
    · intro j hj
      rw [← addr_next]
      exact hp _ (by omega)

theorem withinRange_round {e : Pte} (hva : va < 2^32) (hne : buf ≠ [])
    (he : d.pte (va/PGSIZE) = some e) (hu : e.user = true)
    (hrest : WithinRange d ((va/PGSIZE+1)*PGSIZE%2^32) (buf.length-(PGSIZE-va%PGSIZE))
      (update b e.page (paste (b e.page) (va%PGSIZE) (buf.take (PGSIZE-va%PGSIZE)))) b') :
    WithinRange d va buf.length b b' := by
  intro p o hch
  by_cases hmid : b' p o =
      update b e.page (paste (b e.page) (va%PGSIZE) (buf.take (PGSIZE-va%PGSIZE))) p o
  · refine ⟨0,e,List.length_pos_iff.mpr hne,by rw [addr_zero hva, he],hu,?_⟩
    by_contra hp
    rw [update_of_ne (Ne.symm hp)] at hmid
    exact hch hmid
  · obtain ⟨i,e',hi,he',hu',hp⟩ := hrest p o hmid
    exact ⟨PGSIZE-va%PGSIZE+i,e',by omega,by rw [addr_next, he'],hu',hp⟩

theorem walkpgdir_accessible {vpn : ℕ} {o : Option Pte} (h : walkpgdir d vpn = some o) :
    (o.bind fun e => if e.user then some e.page else none) = none ∧
        (¬∃ e, d.pte vpn = some e ∧ e.user = true) ∨
      ∃ e, d.pte vpn = some e ∧ e.user = true ∧
        (o.bind fun e => if e.user then some e.page else none) = some e.page := by
  have hp := (walkpgdir_some h).2
  cases o with
  | none => exact .inl ⟨rfl,by simp [hp]⟩
  | some e =>
    cases hu : e.user with
    | false => exact .inl ⟨by simp [hu],by simp [hp, hu]⟩
    | true => exact .inr ⟨e,hp,hu,by simp [hu]⟩

/-- The tables are there as far as they are needed: the call does what it
should. The induction is on the rounds. -/
theorem copyout_tabled {k : ℕ} (hva : va < 2^32) (hk : buf.length ≤ k)
    (ht : Tabled d va buf.length) :
    (∃ ret b', (copyout cur d k va buf b).result = .ok (ret,b') ∧
      (ret = true ↔ ∀ i, i < buf.length → Accessible d (addr va i)) ∧
      (ret = true → Copied d va buf b b') ∧ WithinRange d va buf.length b b') ∧
    ∀ v ∈ (copyout cur d k va buf b).looked, (d.tables (v/NPTENTRIES)).isSome := by
  induction k generalizing va buf b with
  | zero =>
    obtain rfl := List.length_eq_zero_iff.mp (Nat.le_zero.mp hk)
    exact ⟨⟨true,b,rfl,by simp,fun _ => ⟨by simp,fun _ _ _ => rfl⟩,fun _ _ h => absurd rfl h⟩,
      by simp [copyout]⟩
  | succ k ih =>
    rw [copyout]
    by_cases hne : buf = []
    · subst hne
      rw [if_pos rfl]
      exact ⟨⟨true,b,rfl,by simp,fun _ => ⟨by simp,fun _ _ _ => rfl⟩,fun _ _ h => absurd rfl h⟩,
        by simp⟩
    · have hpos := List.length_pos_iff.mpr hne
      have htab := ht 0 hpos (fun j hj => absurd hj (Nat.not_lt_zero j))
      rw [addr_zero hva] at htab
      have hw : ∃ o, walkpgdir d (va/PGSIZE) = some o := by
        obtain ⟨t,h⟩ := Option.isSome_iff_exists.mp htab
        exact ⟨_,by rw [walkpgdir, h]; rfl⟩
      obtain ⟨o,hw⟩ := hw
      have hku : uva2ka cur d b (va/PGSIZE) =
          .ok (o.bind fun e => if e.user then some e.page else none) := by
        rw [uva2ka, hw]
      rw [if_neg hne, hku]
      rcases walkpgdir_accessible hw with ⟨hno,hacc⟩ | ⟨e,he,hu,hyes⟩
      · rw [hno]
        refine ⟨⟨false,b,rfl,?_,by simp,fun _ _ h => absurd rfl h⟩,by simpa using htab⟩
        refine iff_of_false (by simp) fun hall => hacc ?_
        have h0 := hall 0 hpos
        rwa [addr_zero hva] at h0
      · rw [hyes]
        have hacc : Accessible d va := ⟨e,he,hu⟩
        have hnext : (va/PGSIZE+1)*PGSIZE%2^32 < 2^32 := Nat.mod_lt _ (by decide)
        have hlen : (buf.drop (PGSIZE-va%PGSIZE)).length = buf.length-(PGSIZE-va%PGSIZE) :=
          List.length_drop
        have hshort : buf.length-(PGSIZE-va%PGSIZE) ≤ k := by
          have := Nat.mod_lt va (show 0 < PGSIZE by decide)
          omega
        have htab' := tabled_rest ht hacc hva
        rw [← hlen] at htab' hshort
        obtain ⟨⟨ret,b',hres,hret,hcop,hwith⟩,hlook⟩ := ih
          (b := update b e.page (paste (b e.page) (va%PGSIZE) (buf.take (PGSIZE-va%PGSIZE))))
          hnext hshort htab'
        refine ⟨⟨ret,b',hres,?_,fun h => copied_round hva he (hcop h),?_⟩,fun v hv => ?_⟩
        · rw [hret, hlen, accessible_all hacc hva]
        · rw [hlen] at hwith
          exact withinRange_round hva hne he hu hwith
        · rcases List.mem_cons.mp hv with rfl | hv
          · exact htab
          · exact hlook v hv

theorem copyout_looks {k : ℕ} (hva : va < 2^32) (hk : buf.length ≤ k)
    (ht : ¬Tabled d va buf.length) :
    ∃ v ∈ (copyout cur d k va buf b).looked, d.tables (v/NPTENTRIES) = none := by
  induction k generalizing va buf b with
  | zero =>
    refine absurd (fun i hi => ?_) ht
    omega
  | succ k ih =>
    rw [copyout]
    by_cases hne : buf = []
    · subst hne
      exact absurd (fun i hi => absurd hi (Nat.not_lt_zero i)) ht
    · rw [if_neg hne]
      cases hw : walkpgdir d (va/PGSIZE) with
      | none =>
        have hnone : d.tables (va/PGSIZE/NPTENTRIES) = none := by
          rwa [walkpgdir, Option.map_eq_none_iff] at hw
        refine ⟨va/PGSIZE,?_,hnone⟩
        cases uva2ka cur d b (va/PGSIZE) with
        | error e => simp
        | ok o => cases o <;> simp
      | some o =>
        have hku : uva2ka cur d b (va/PGSIZE) =
            .ok (o.bind fun e => if e.user then some e.page else none) := by
          rw [uva2ka, hw]
        rw [hku]
        rcases walkpgdir_accessible hw with ⟨hno,hacc⟩ | ⟨e,he,hu,hyes⟩
        · refine absurd (fun i hi hall => ?_) ht
          rcases Nat.eq_zero_or_pos i with rfl | hi0
          · rw [addr_zero hva]
            exact (walkpgdir_some hw).1
          · have h0 := hall 0 hi0
            rw [addr_zero hva] at h0
            exact absurd h0 hacc
        · rw [hyes]
          have hnext : (va/PGSIZE+1)*PGSIZE%2^32 < 2^32 := Nat.mod_lt _ (by decide)
          have hlen : (buf.drop (PGSIZE-va%PGSIZE)).length = buf.length-(PGSIZE-va%PGSIZE) :=
            List.length_drop
          have hshort : (buf.drop (PGSIZE-va%PGSIZE)).length ≤ k := by
            have := Nat.mod_lt va (show 0 < PGSIZE by decide)
            have := List.length_pos_iff.mpr hne
            omega
          obtain ⟨v,hv,hnone⟩ := ih
            (b := update b e.page (paste (b e.page) (va%PGSIZE) (buf.take (PGSIZE-va%PGSIZE))))
            hnext hshort fun h => ht (tabled_of_rest ⟨e,he,hu⟩ hva (hlen ▸ h))
          exact ⟨v,List.mem_cons_of_mem _ hv,hnone⟩

end Rounds

/-- `copyout` does what it should exactly when no table is missing on the way to
the first address that is not the user's. -/
theorem copyout_respects_iff (cur d : Pgdir) (va : ℕ) (hva : va < 2^32) (buf : List UInt8)
    (b : Memory) : Respects cur d va buf b ↔ Tabled d va buf.length := by
  constructor
  · intro h
    by_contra ht
    have hlook : ∃ v ∈ (copyout cur d buf.length va buf b).looked,
        d.tables (v/NPTENTRIES) = none := copyout_looks hva le_rfl ht
    obtain ⟨v,hv,hnone⟩ := hlook
    have := h.2 v hv
    rw [hnone] at this
    cases this
  · exact fun ht => copyout_tabled hva le_rfl ht

section Witnesses

open CopyMemory GrowProcess PageRequests

/-- Four bytes across the end of the only page of a process. -/
theorem copyout_respects_page_end : Respects onePage onePage 4094 [97,98,99,100] spareRam.bytes ∧
    Accessible onePage (addr 4094 1) ∧ ¬Accessible onePage (addr 4094 2) := by
  refine ⟨(copyout_respects_iff _ _ 4094 (by decide) _ _).mpr fun i hi _ => ?_,
    by simp [Accessible, onePage_pte, addr],by simp [Accessible, onePage_pte, addr]⟩
  have hi : i < 4 := hi
  obtain rfl | rfl | rfl | rfl : i = 0 ∨ i = 1 ∨ i = 2 ∨ i = 3 := by omega
  all_goals decide

/-- A new directory without user pages, while a process runs whose first byte is
7: copying to address 0 reads an entry that is not there, and the byte goes to
whatever page that entry names. -/
theorem copyout_reads_absent_entry : ∃ d r',
    setupkvm (vmLayout 0x110) (freePages 65) = .ok (some d,r') ∧
      (copyout onePage d 1 0 [97] r'.bytes).result = .error .wild ∧
      ¬Respects onePage d 0 [97] r'.bytes := by
  have hL := vmLayout_placed (show 0x100 ≤ 0x110 by decide) (show 0x110 ≤ 0xE000 by decide)
  obtain ⟨o,m',ht⟩ := setupkvm_total (freePages 65).mem hL
  rw [← setupkvm_mem] at ht
  obtain ⟨⟨o,r'⟩,hset,-⟩ := map_ok ht
  have hreq := setupkvm_requests hL (setupkvm_pagetables hset)
  rw [kernelTables_card (by decide) (by decide)] at hreq
  cases o with
  | none =>
    obtain ⟨k,hk,href⟩ := hreq
    have := href.unique (freePages_refused 65)
    omega
  | some d =>
    have hnone : d.tables 0 = none := by
      by_contra hne
      have hin : 0 ∈ tableSet d := mem_tableSet.mpr ⟨by decide,Option.isSome_iff_ne_none.mpr hne⟩
      rw [hreq.1, kernelTables_vm (by decide) (by decide), Finset.mem_union, Finset.mem_Ico,
        Finset.mem_Ico] at hin
      omega
    have hw : walkpgdir d (0/PGSIZE) = none := by
      show (d.tables 0).map _ = none
      rw [hnone]
      rfl
    have hbyte : r'.bytes 4 = fun _ => 7 :=
      setupkvm_other hL hset (by simp [freePages, List.mem_range'_1])
    refine ⟨d,r',hset,?_,?_⟩
    · have hku : uva2ka onePage d r'.bytes (0/PGSIZE) = .error .wild := by
        rw [uva2ka, hw]
        show (if (r'.bytes 4 0).toNat%2 = 1 ∧ (r'.bytes 4 0).toNat/4%2 = 1 then _ else _) = _
        rw [hbyte]
        rfl
      rw [copyout, if_neg (by simp), hku]
    · rw [copyout_respects_iff onePage d 0 (by decide)]
      intro h
      have h0 := h 0 (by simp) (fun j hj => absurd hj (Nat.not_lt_zero j))
      rw [show addr 0 0/PGSIZE/NPTENTRIES = 0 from rfl, hnone] at h0
      cases h0

end Witnesses

end Xv6.CopyOut
