import Xv6.AddressLoops
import Xv6.HeapRuns

/-!
# The allocator over `sbrk`

`malloc` computes its units and `morecore` its bytes modulo 2^32, and `sbrk`
reads them as an `int`: from 2^31-15 bytes on the number is negative or 0, the
process is not grown and perhaps made smaller, and `sbrk` reports success. The
last seven sizes wrap to a single unit.
-/

set_option autoImplicit false

namespace Xv6.HeapLimits
open Function NodePath BlockTiling Malloc HeapRuns PageTables PageLedger
open UserMemory GrowProcess AddressLoops TransitionRun

structure Proc where
  sz : ℕ
  d : Pgdir
  r : Ram
  got : List Block

def toInt (n : ℕ) : ℤ := if n < 2^31 then n else n-2^32

def sysSbrk (n : ℕ) (s : Proc) : Except Malloc.Stop (Option ℕ × Proc) :=
  match growproc (toInt n) s.sz s.d s.r with
  | .error e => .error (.halt e)
  | .ok (ret,sz,d,r) =>
    if ret < 0 then .ok (none,⟨sz,d,r,s.got⟩)
    else .ok (some s.sz,⟨sz,d,r,if 0 < toInt n then ⟨s.sz,n⟩::s.got else s.got⟩)

def Open (d : Pgdir) (a : ℕ) : Prop :=
  ∃ e, d.pte (a/PGSIZE) = some e ∧ e.user = true ∧ e.writable = true

instance (d : Pgdir) (a : ℕ) : Decidable (Open d a) :=
  decidable_of_iff ((d.pte (a/PGSIZE)).any fun e => e.user && e.writable) (by
    cases h : d.pte (a/PGSIZE) with
    | none => simp [Open, h]
    | some e => simp [Open, h])

def procSys : Sys Proc where
  sbrk := sysSbrk
  present s a := (List.range 8).all fun i => Open s.d (a+i)

structure Inv (base : ℕ) (s : Proc) : Prop where
  size : s.sz < KERNBASE
  mapping : Mapping s.d s.sz
  spare : Spare s.d s.r.mem
  low : base+8 ≤ s.sz
  anchor : ∀ i < 8, Open s.d (base+i)
  top : ∀ a, s.sz ≤ a → a < pages s.sz*PGSIZE → Open s.d a
  regions : ∀ q ∈ s.got, base+8 ≤ q.start ∧ q.stop ≤ s.sz
  held : ∀ q ∈ s.got, ∀ a, q.start ≤ a → a < q.stop → Open s.d a

def Kept (s s' : Proc) : Prop :=
  s.sz ≤ s'.sz ∧ ∀ v, v < kernPage → (s.d.pte v).isSome → (s'.d.pte v).isSome

def Recorded (base : ℕ) (st : State Proc) : Prop :=
  ∃ F, Path st.heap.ptr base (starts F) base ∧
    ∀ f ∈ F, 8*st.heap.size f.start = f.len ∧ Within st.os.got f

def Right (base n : ℕ) (st : State Proc) : Prop :=
  ∃ ap st', Returns (fun k => malloc procSys base k n st) (ap,st') ∧
    (ap = 0 ∨ ap+n ≤ st'.os.sz ∧ n+8 ≤ (block st'.heap ⟨ap,n⟩).len) ∧
    Kept st.os st'.os ∧ Recorded base st'

def Fits (base n : ℕ) (st : State Proc) : Prop :=
  Ordinary n ∨ 2^32-7 ≤ n ∧ (start base st.heap).ptr base = base ∧
    ∃ s', sysSbrk 32768 st.os = .ok (none,s')

variable {base n a : ℕ} {s s' : Proc} {st : State Proc} {live : List Grant}

theorem procSys_sbrk : procSys.sbrk = sysSbrk := rfl

theorem present_iff : procSys.present s a ↔ ∀ i < 8, Open s.d (a+i) := by
  simp [procSys]

section Growing

variable {d d' : Pgdir} {r r' : Ram}

theorem frames_le (hk : KeepsTables d d') (x : Page) : frames x d ≤ frames x d' := by
  rw [frames, frames, hk.1]
  refine Nat.add_le_add_left (Finset.sum_le_sum fun i _ => ?_) _
  rw [Inventory.hit]
  split
  · rename_i hx
    rw [hk.2 i x hx, Inventory.hit_self]
  · exact Nat.zero_le _

/-- Where entries are as before and tables were only added, the free list has
only lost pages. -/
theorem spare_undone (hs : Spare d r.mem) (hk : KeepsTables d d')
    (hpte : ∀ v, v < kernPage → d'.pte v = d.pte v)
    (hx : ∀ x, freeCount x r'.mem+uses false x d' = freeCount x r.mem+uses false x d) :
    Spare d' r'.mem := by
  have hmapped : ∀ x, mapped x d' = mapped x d := by
    intro x
    refine Inventory.total_congr fun v hv => ?_
    rw [Pgdir.ptePage, Pgdir.ptePage, hpte v (Finset.mem_range.mp hv)]
  have hle : ∀ x, freeCount x r'.mem ≤ freeCount x r.mem := by
    intro x
    have h1 := hx x
    have h2 := frames_le hk x
    simp only [uses, hmapped, Bool.false_eq_true, if_false] at h1
    omega
  refine ⟨List.nodup_iff_count_le_one.mpr fun x => ?_,fun v hv p hp hmem => ?_,?_⟩
  · exact (hle x).trans (List.nodup_iff_count_le_one.mp hs.nodup x)
  · rw [Pgdir.ptePage, hpte v hv] at hp
    have h1 := List.count_eq_zero.mpr (hs.apart v hv p hp)
    have h2 := List.count_pos_iff.mpr hmem
    have h3 := hle p
    simp only [freeCount] at h3
    omega
  · rw [hx 0]
    exact hs.zero

theorem spare_extended {lo hi : ℕ} (hs : Spare d r.mem) (he : Extended lo hi d r d' r')
    (hx : ∀ x, freeCount x r'.mem+uses false x d' = freeCount x r.mem+uses false x d) :
    Spare d' r'.mem := by
  refine ⟨he.suffix.sublist.nodup hs.nodup,fun v hv p hp => ?_,by rw [hx 0]; exact hs.zero⟩
  by_cases hin : lo ≤ v ∧ v < hi
  · obtain ⟨q,hq,-,hout,-⟩ := he.inside v hin.1 hin.2
    rw [Pgdir.ptePage, hq] at hp
    cases hp
    exact hout
  · rw [Pgdir.ptePage, he.outside v (by omega)] at hp
    exact fun hmem => hs.apart v hv p hp (he.suffix.mem hmem)

theorem sbrk_positive (hI : Inv base s) {m : ℕ} (h0 : 0 < m) (hm : m < 2^31) :
    (∃ d' r', sysSbrk m s = .ok (none,⟨s.sz,d',r',s.got⟩) ∧
      (∀ v, v < kernPage → d'.pte v = s.d.pte v) ∧ Spare d' r'.mem) ∨
    ∃ d' r', sysSbrk m s = .ok (some s.sz,⟨s.sz+m,d',r',⟨s.sz,m⟩::s.got⟩) ∧
      s.sz+m < KERNBASE ∧ Extended (pages s.sz) (pages (s.sz+m)) s.d s.r d' r' ∧
      Spare d' r'.mem := by
  have hsz := hI.size
  have hint : toInt m = m := if_pos hm
  have hnew : (((s.sz : ℤ)+m)%2^32).toNat = s.sz+m := by
    unfold KERNBASE at hsz
    omega
  have habove : ∀ v, pages s.sz ≤ v → v < kernPage → s.d.pte v = none := by
    intro v h1 h2
    have hv := hI.mapping v h2
    rw [← Option.not_isSome_iff_eq_none, hv]
    omega
  obtain ⟨k₀,d₀,m₀,ht⟩ : ∃ k d' m', PageTables.allocuvm s.d s.sz (s.sz+m) s.r.mem = .ok (k,d',m') :=
    allocuvm_total habove hI.spare.zero
  rw [← allocuvm_mem] at ht
  obtain ⟨⟨k,d',r'⟩,h,-⟩ := map_ok ht
  have hx := PageLedger.allocuvm_exact (allocuvm_pagetables h)
  have hg := growproc_pos (n := (m : ℤ)) (by omega) (hnew ▸ h)
  have hpos : (0 : ℤ) < m := by omega
  rcases allocuvm_cases (by omega) (by omega) hI.spare.nodup h with
    ⟨rfl,rfl,rfl⟩ | ⟨rfl,hlt,he⟩ | ⟨rfl,hlt,hpte,-⟩
  · left
    refine ⟨s.d,s.r,?_,fun _ _ => rfl,hI.spare⟩
    rw [sysSbrk, hint, hg]
    rfl
  · right
    refine ⟨d',r',?_,hlt,he,spare_extended hI.spare he hx⟩
    rw [sysSbrk, hint, hg, if_neg (by omega)]
    show (if (0 : ℤ) < 0 then _ else _) = _
    rw [if_neg (by decide), if_pos hpos]
  · left
    have hsame : ∀ v, v < kernPage → d'.pte v = s.d.pte v := by
      intro v hv
      rw [hpte v]
      split
      · rename_i hin
        rw [habove v hin.1 hv]
      · rfl
    have hk : KeepsTables s.d d' := by
      have hpt := allocuvm_pagetables h
      rw [PageTables.allocuvm, if_neg (by omega), if_neg (by omega)] at hpt
      exact allocLoop_keeps hpt
    refine ⟨d',r',?_,hsame,spare_undone hI.spare hk hsame hx⟩
    rw [sysSbrk, hint, hg]
    rfl

theorem open_congr (h : d'.pte (a/PGSIZE) = d.pte (a/PGSIZE)) (ha : Open d a) : Open d' a := by
  rw [Open, h]
  exact ha

theorem user_page {b : ℕ} (hb : b < KERNBASE) (ha : a < pages b*PGSIZE) : a/PGSIZE < kernPage :=
  (page_below ha).trans_le (pages_le_kernPage hb.le)

theorem lt_rounded {b : ℕ} (h : a < b) : a < pages b*PGSIZE :=
  (Nat.div_lt_iff_lt_mul (by decide)).mp (page_of_byte h)

theorem inv_refused (hI : Inv base s) (hpte : ∀ v, v < kernPage → d'.pte v = s.d.pte v)
    (hs : Spare d' r'.mem) : Inv base ⟨s.sz,d',r',s.got⟩ := by
  have hopen : ∀ a, a < pages s.sz*PGSIZE → Open s.d a → Open d' a :=
    fun a ha => open_congr (hpte _ (user_page hI.size ha))
  have hlow := hI.low
  refine ⟨hI.size,fun v hv => ?_,hs,hI.low,fun i hi => ?_,fun a h1 h2 => ?_,hI.regions,
    fun q hq a h1 h2 => ?_⟩
  · rw [hpte v hv]
    exact hI.mapping v hv
  · exact hopen _ (lt_rounded (by omega)) (hI.anchor i hi)
  · exact hopen a h2 (hI.top a h1 h2)
  · exact hopen a (lt_rounded (h2.trans_le (hI.regions q hq).2)) (hI.held q hq a h1 h2)

theorem inv_granted {m : ℕ} (hI : Inv base s) (hlt : s.sz+m < KERNBASE)
    (he : Extended (pages s.sz) (pages (s.sz+m)) s.d s.r d' r') (hs : Spare d' r'.mem) :
    Inv base ⟨s.sz+m,d',r',⟨s.sz,m⟩::s.got⟩ := by
  have hmono : pages s.sz ≤ pages (s.sz+m) := pages_mono (Nat.le_add_right ..)
  have hopen : ∀ a, a < pages s.sz*PGSIZE → Open s.d a → Open d' a :=
    fun a ha => open_congr (he.outside _ (.inl (page_below ha)))
  have hnew : ∀ a, s.sz ≤ a → a < pages (s.sz+m)*PGSIZE → Open d' a := by
    intro a h1 h2
    by_cases hin : pages s.sz ≤ a/PGSIZE
    · obtain ⟨p,hp,-⟩ := he.inside _ hin (page_below h2)
      exact ⟨_,hp,rfl,rfl⟩
    · have ha : a < pages s.sz*PGSIZE :=
        (Nat.div_lt_iff_lt_mul (by decide)).mp (Nat.not_le.mp hin)
      exact hopen a ha (hI.top a h1 ha)
  have hlow := hI.low
  refine ⟨hlt,fun v hv => ?_,hs,?_,fun i hi => ?_,fun a h1 h2 => ?_,fun q hq => ?_,
    fun q hq a h1 h2 => ?_⟩
  · show (d'.pte v).isSome ↔ v < pages (s.sz+m)
    by_cases hin : pages s.sz ≤ v ∧ v < pages (s.sz+m)
    · obtain ⟨p,hp,-⟩ := he.inside v hin.1 hin.2
      simp [hp, hin.2]
    · rw [he.outside v (by omega), hI.mapping v hv]
      omega
  · show base+8 ≤ s.sz+m
    omega
  · exact hopen _ (lt_rounded (by omega)) (hI.anchor i hi)
  · exact hnew a (le_trans (Nat.le_add_right ..) h1) h2
  · rcases List.mem_cons.mp hq with rfl | hq
    · exact ⟨hlow,le_rfl⟩
    · exact ⟨(hI.regions q hq).1,(hI.regions q hq).2.trans (Nat.le_add_right ..)⟩
  · rcases List.mem_cons.mp hq with rfl | hq
    · exact hnew a h1 (lt_rounded h2)
    · exact hopen a (lt_rounded (h2.trans_le (hI.regions q hq).2)) (hI.held q hq a h1 h2)

theorem proc_fresh (hb : 0 < base) : Fresh procSys base Proc.got (Inv base) := by
  refine ⟨hb,fun s hI => present_iff.mpr hI.anchor,fun s hI a hw => ?_,fun s hI q hq => ?_,
    fun s hI m h0 hm => ?_⟩
  · refine present_iff.mpr fun i hi => ?_
    obtain ⟨q,hq,h1,h2⟩ := hw (a+i) (Nat.le_add_right ..) (by simp only [Block.stop]; omega)
    exact hI.held q hq (a+i) h1 h2
  · have h1 := hI.regions q hq
    have h2 := hI.size
    unfold KERNBASE at h2
    omega
  · rcases sbrk_positive hI h0 hm with ⟨d',r',hs,hpte,hsp⟩ | ⟨d',r',hs,hlt,he,hsp⟩
    · exact ⟨_,inv_refused hI hpte hsp,.inl ⟨hs,rfl⟩⟩
    · exact ⟨_,inv_granted hI hlt he hsp,.inr ⟨s.sz,hs,rfl,fun q hq => (hI.regions q hq).2⟩⟩

theorem Kept.refl (s : Proc) : Kept s s := ⟨le_rfl,fun _ _ h => h⟩

theorem kept_positive (hI : Inv base s) {m : ℕ} {o : Option ℕ} (h0 : 0 < m) (hm : m < 2^31)
    (h : sysSbrk m s = .ok (o,s')) : Kept s s' := by
  rcases sbrk_positive hI h0 hm with ⟨d',r',hs,hpte,-⟩ | ⟨d',r',hs,-,he,-⟩
  · rw [hs] at h
    cases h
    refine ⟨le_rfl,fun v hv hsome => ?_⟩
    rw [hpte v hv]
    exact hsome
  · rw [hs] at h
    cases h
    refine ⟨Nat.le_add_right ..,fun v hv hsome => ?_⟩
    rw [he.outside v (.inl ((hI.mapping v hv).mp hsome))]
    exact hsome

end Growing

section Served

theorem recorded_of {F B : List Block} (ht : Tiling F B st.os.got) (hr : Ring base st.heap F B) :
    Recorded base st :=
  ⟨F,hr.ring,fun f hf => ⟨hr.sizes f (.inl hf),ht.within f (.inl hf)⟩⟩

theorem right_ordinary (hb : 0 < base) (hI : Inv base st.os)
    (hc : Consistent base st.os.got st.heap live) (hn : Ordinary n) : Right base n st := by
  obtain ⟨ap,st',hret,hI',hos,⟨F,hF⟩,hwant⟩ := malloc_step (proc_fresh hb) hI hc hn
  refine ⟨ap,st',hret,?_,?_,recorded_of hF.tiling hF.ring⟩
  · by_cases h0 : ap = 0
    · exact .inl h0
    · rw [if_neg h0] at hF hwant
      have hmem : block st'.heap ⟨ap,n⟩ ∈ (Grant.mk ap n::live).map (block st'.heap) :=
        List.mem_map_of_mem List.mem_cons_self
      have hlen := hwant ⟨ap,n⟩ List.mem_cons_self
      have hlow := hF.above _ (.inr hmem)
      have hstop := (hF.tiling.within _ (.inr hmem)).stop_le (hF.tiling.pos _ (.inr hmem))
        fun q hq => (hI'.regions q hq).2
      refine .inr ⟨?_,hlen⟩
      simp only [block, Block.stop] at hlen hlow hstop
      omega
  · rcases hos with he | ⟨o,ho⟩
    · rw [he]
      exact .refl _
    · exact kept_positive hI (Nat.mul_pos (by decide) request_pos) (request_ordinary hn) ho

theorem nunits_wrapped (hn : n < 2^32) (hw : 2^32-7 ≤ n) : nunits n = 1 := by
  rw [nunits]
  omega

theorem request_wrapped (hn : n < 2^32) (hw : 2^32-7 ≤ n) : 8*request (nunits n) = 32768 := by
  rw [nunits_wrapped hn hw, request, if_pos (by decide)]

theorem ring_empty {h : Heap} {R F B : List Block} (hF : Sound base R h F B) :
    h.ptr base = base ↔ F = [] := by
  have hring := hF.ring.ring
  constructor
  · intro he
    cases F with
    | nil => rfl
    | cons f F =>
      have h1 : h.ptr base = f.start := hring.1
      have h2 := hF.above f (.inl List.mem_cons_self)
      omega
  · rintro rfl
    exact hring

section
variable (hb : 0 < base) (hI : Inv base st.os) (hc : Consistent base st.os.got st.heap live)
    (hn : n < 2^32)
include hb hI hc hn

theorem malloc_wrapped (hw : 2^32-7 ≤ n) (hempty : (start base st.heap).ptr base = base)
    (hno : ∃ s', sysSbrk 32768 st.os = .ok (none,s')) :
    ∃ st', Returns (fun k => malloc procSys base k n st) (0,st') ∧ Inv base st'.os ∧
      Kept st.os st'.os ∧ Begun base st'.os.got st'.heap live := by
  have hs := proc_fresh hb
  obtain ⟨F,hF⟩ := start_sound hc hb
  obtain rfl := (ring_empty hF).mp hempty
  have hu := request_wrapped hn hw
  obtain ⟨ap,st',hret,hout⟩ := malloc_spec hs hI hF (n := n) (by rw [hu]; decide)
  rw [hu, procSys_sbrk] at hout
  obtain ⟨s',hno⟩ := hno
  rcases hout with ⟨-,⟨-,c,hc',-⟩ | ⟨p,hp⟩⟩ | ⟨rfl,href,hsb⟩
  · cases hc'
  · exact absurd (hno.symm.trans hp) (by simp)
  · exact ⟨st',hret,href.inv,kept_positive hI (by decide) (by decide) hsb,
      begun_of hs href.inv href.tiling href.ring (want_le hc)⟩

theorem right_wrapped (hw : 2^32-7 ≤ n) (hempty : (start base st.heap).ptr base = base)
    (hno : ∃ s', sysSbrk 32768 st.os = .ok (none,s')) : Right base n st := by
  obtain ⟨st',hret,-,hk,⟨F,hF⟩,-⟩ := malloc_wrapped hb hI hc hn hw hempty hno
  exact ⟨0,st',hret,.inl rfl,hk,recorded_of hF.tiling hF.ring⟩

theorem fits_of_wrapped (hw : 2^32-7 ≤ n) (h : Right base n st) : Fits base n st := by
  have hs := proc_fresh hb
  obtain ⟨F,hF⟩ := start_sound hc hb
  have hu := request_wrapped hn hw
  obtain ⟨ap,st',hret,hout⟩ := malloc_spec hs hI hF (n := n) (by rw [hu]; decide)
  obtain ⟨ap',st'',hret',hres,-⟩ := h
  obtain ⟨rfl,rfl⟩ := Prod.mk.inj (hret.unique hret')
  rw [hu, procSys_sbrk] at hout
  rcases hout with ⟨⟨hI',t,F',rfl,-⟩,-⟩ | ⟨rfl,href,hsb⟩
  · have hsz := hI'.size
    unfold KERNBASE at hsz
    omega
  · refine .inr ⟨hw,(ring_empty hF).mpr ?_,_,hsb⟩
    cases F with
    | nil => rfl
    | cons f F =>
      have h1 := href.small f List.mem_cons_self
      have h2 := hF.tiling.pos f (.inl List.mem_cons_self)
      have h3 := hF.ring.sizes f (.inl List.mem_cons_self)
      have h4 := nunits_wrapped hn hw
      omega

end

end Served

section Large

variable {u N : ℕ}

def Large (u : ℕ) : Prop := 2^28 ≤ u ∧ u ≤ 2^29

theorem nunits_large (hn : n < 2^32-7) (ho : ¬Ordinary n) : Large (nunits n) ∧ 2^31-15 ≤ n := by
  simp only [Ordinary] at ho
  simp only [Large, nunits]
  omega

theorem toInt_large (hu : Large u) : toInt (u*8%2^32) = 8*u-2^32 := by
  obtain ⟨h1,h2⟩ := hu
  rw [toInt]
  split <;> omega

theorem growproc_le {m : ℤ} {sz sz' : ℕ} {d d' : Pgdir} {r r' : Ram} {ret : ℤ} (hm : m ≤ 0)
    (h : growproc m sz d r = .ok (ret,sz',d',r')) : sz' ≤ sz := by
  rw [growproc, if_neg (by omega)] at h
  split at h
  · obtain ⟨⟨k,d1,r1⟩,hd,h⟩ := bind_ok h
    have hk : k ≤ sz := by
      rw [UserMemory.deallocuvm] at hd
      split at hd
      · exact (Prod.mk.inj (Except.ok.inj hd)).1.ge
      · obtain ⟨t,-,ht⟩ := map_ok hd
        have := (Prod.mk.inj ht).1
        omega
    simp only at h
    split at h
    · exact (Prod.mk.inj (Prod.mk.inj (Except.ok.inj h)).2).1.ge
    · exact (Prod.mk.inj (Prod.mk.inj (Except.ok.inj h)).2).1 ▸ hk
  · exact (Prod.mk.inj (Prod.mk.inj (Except.ok.inj h)).2).1.ge

/-- Such a request leaves the process as it is and reports success, or it takes
memory away. -/
theorem sbrk_large (hI : Inv base s) (hu : Large u) :
    (sysSbrk (u*8%2^32) s = .ok (some s.sz,s) ∧ (s.sz+8*u < 2^32 ∨ u = 2^29)) ∨
    ∃ o s', sysSbrk (u*8%2^32) s = .ok (o,s') ∧
      (s'.sz < s.sz ∨ o = none ∧ s'.d.pte 0 = none) := by
  have hsz := hI.size
  have hlow := hI.low
  have hint := toInt_large hu
  have hnot : ¬(0 : ℤ) < 8*u-2^32 := by
    have := hu.2
    omega
  have hsame : growproc (8*u-2^32) s.sz s.d s.r = .ok (0,s.sz,s.d,s.r) →
      sysSbrk (u*8%2^32) s = .ok (some s.sz,s) := by
    intro hg
    rw [sysSbrk, hint, hg]
    show (if (0 : ℤ) < 0 then _ else _) = _
    rw [if_neg (by decide), if_neg hnot]
  rcases Nat.eq_or_lt_of_le hu.2 with rfl | hlt
  · refine .inl ⟨hsame ?_,.inr rfl⟩
    rw [growproc, if_neg (by omega), if_neg (by omega)]
  · rcases Int.lt_or_le ((s.sz : ℤ)+(8*u-2^32)) 0 with hneg | hpos
    · refine .inl ⟨hsame ?_,.inl (by omega)⟩
      have := hu.1
      rw [growproc_wrapped (by omega) hneg, if_neg (by omega)]
    · right
      obtain ⟨d',hg,hpte⟩ := growproc_cut hI.spare hsz (by omega) hpos
      by_cases h0 : ((s.sz : ℤ)+(8*u-2^32)).toNat = 0
      · rw [if_pos h0] at hg
        refine ⟨none,_,by rw [sysSbrk, hint, hg]; rfl,.inr ⟨rfl,?_⟩⟩
        have hpages : 0 < pages s.sz := page_of_byte (a := 0) (by omega)
        show d'.pte 0 = none
        rw [hpte, h0, if_pos ⟨le_rfl,hpages⟩]
      · rw [if_neg h0] at hg
        refine ⟨some s.sz,_,by rw [sysSbrk, hint, hg]; rfl,.inl ?_⟩
        show ((s.sz : ℤ)+(8*u-2^32)).toNat < s.sz
        omega

theorem sbrk_large_le {o : Option ℕ} (hu : Large u) (h : sysSbrk (u*8%2^32) s = .ok (o,s')) :
    s'.sz ≤ s.sz := by
  have hm : toInt (u*8%2^32) ≤ 0 := by
    have := hu.2
    rw [toInt_large hu]
    omega
  rw [sysSbrk] at h
  split at h
  · cases h
  · rename_i hg
    split at h <;>
    · cases h
      exact growproc_le hm hg

theorem request_large (hu : Large u) : request u = u := by
  have := hu.1
  rw [request, if_neg (by omega)]

theorem morecore_os {q : ℕ} {st' : State Proc} (hu : Large u)
    (h : morecore procSys N u st = .ok (q,st')) :
    ∃ o, sysSbrk (u*8%2^32) st.os = .ok (o,st'.os) := by
  rw [morecore, request_large hu, procSys_sbrk] at h
  split at h
  · cases h
  · rename_i hs
    cases h
    exact ⟨none,hs⟩
  · rename_i p _ hs
    split at h
    · obtain ⟨h',-,he⟩ := map_ok h
      obtain ⟨-,rfl⟩ := Prod.mk.inj he
      exact ⟨some p,hs⟩
    · cases h

theorem search_large_le {k prevp p ap : ℕ} {st' : State Proc} (hu : Large u)
    (h : search procSys N u k prevp p st = .ok (ap,st')) : st'.os.sz ≤ st.os.sz := by
  induction k generalizing prevp p st with
  | zero => cases h
  | succ k ih =>
    rw [search] at h
    split at h
    · split at h
      · rw [take] at h
        split at h
        · cases h
          exact le_rfl
        · cases h
      · split at h
        · obtain ⟨⟨q,st1⟩,hm,h⟩ := bind_ok h
          obtain ⟨o,ho⟩ := morecore_os hu hm
          have hle := sbrk_large_le hu ho
          split at h
          · cases h
            exact hle
          · exact (ih h).trans hle
        · exact ih h
    · cases h

theorem room_bogus {F B : List Block} (hI : Inv base s) {h : Heap} (hu : Large u)
    (hF : Sound base s.got h F B) (hend : s.sz+8*u < 2^32 ∨ u = 2^29) :
    Room base F ⟨s.sz,8*u⟩ := by
  have hsz := hI.size
  have hlow := hI.low
  have hu2 := hu.2
  unfold KERNBASE at hsz
  have hstop : ∀ f ∈ F, f.stop ≤ s.sz := fun f hf =>
    (hF.tiling.within f (.inl hf)).stop_le (hF.tiling.pos f (.inl hf))
      fun q hq => (hI.regions q hq).2
  have hbelow : ∀ z ∈ base::starts F, z < s.sz := by
    intro z hz
    rcases List.mem_cons.mp hz with rfl | hz
    · omega
    · obtain ⟨f,hf,rfl⟩ := mem_starts.mp hz
      have h1 := hstop f hf
      have h2 := hF.tiling.pos f (.inl hf)
      simp only [Block.stop] at h1
      omega
  refine ⟨fun f hf => ?_,fun f hf => ?_,?_,?_,fun z hz he => ?_⟩
  · rcases hf with hf | rfl
    · exact hF.above f (.inl hf)
    · exact hlow
  · have := hstop f hf
    omega
  · simp only
    omega
  · simp only [Block.stop]
    omega
  · have := hbelow z hz
    simp only [Block.stop] at he ⊢
    omega

/-- Where `sbrk` has done nothing, what it returned is put on the ring and found
there: the result lies above the process, unless the header is not in memory. -/
theorem search_bogus (st : State Proc) {F B : List Block} (hb : 0 < base) (hI : Inv base st.os)
    (hu : Large u)
    (hF : Sound base st.os.got st.heap F B)
    (hsb : sysSbrk (u*8%2^32) st.os = .ok (some st.os.sz,st.os))
    (hend : st.os.sz+8*u < 2^32 ∨ u = 2^29) (hsmall : ∀ f ∈ F, f.len < 8*u) :
    ∃ K, ∀ k, K ≤ k → ∀ ap st',
      search procSys k u k st.heap.freep (st.heap.ptr st.heap.freep) st = .ok (ap,st') →
        base+16 ≤ ap ∧ st'.os = st.os := by
  have hs := proc_fresh hb
  have hsz := hI.size
  have hlow := hI.low
  have h0 : 0 < u := by
    have := hu.1
    omega
  have hpres := node_present hs hI hF.tiling hF.ring
  have hmore := round_more procSys st hF.tiling hF.ring
    (fun f hf => (node_bounds hs hI hF.tiling f hf).1) h0 hpres hsmall
  have hrestart : ∀ k, F.length < k → ∃ i, k = i+1+F.length := fun k hk => ⟨k-1-F.length,by omega⟩
  unfold KERNBASE at hsz
  by_cases hp : procSys.present st.os st.os.sz
  · obtain ⟨h',F',hfree,ht',hr',⟨c,hc,hle,hge⟩,hnodes⟩ := refill_spec (procSys.present st.os)
      hF.tiling hF.ring (room_bogus hI hu hF hend) h0 (fun q hq => (hI.regions q hq).2)
      ⟨hs.anchor _ hI,hp,fun f hf => block_present hs hI hF.tiling hF.ring (.inl hf)⟩
    have hF' : ∀ f ∈ F', base+8 ≤ f.start ∧ f.stop ≤ st.os.sz+8*u := by
      intro f hf
      have hw := ht'.within f (.inl hf)
      have hpos := ht'.pos f (.inl hf)
      refine ⟨hw.le_start hpos fun q hq => ?_,hw.stop_le hpos fun q hq => ?_⟩
      · rcases List.mem_cons.mp hq with rfl | hq
        · exact hlow
        · exact (hI.regions q hq).1
      · rcases List.mem_cons.mp hq with rfl | hq
        · exact le_rfl
        · have := (hI.regions q hq).2
          omega
    have hok : ∀ z ∈ base::starts F', procSys.present st.os z := by
      intro z hz
      rcases List.mem_cons.mp hz with rfl | hz
      · exact hs.anchor _ hI
      · obtain ⟨f,hf,rfl⟩ := mem_starts.mp hz
        rcases hnodes f hf with he | hm
        · exact he ▸ hp
        · exact hpres _ (List.mem_cons_of_mem base hm)
    have hfreep : h'.freep ≠ 0 := by
      rcases List.mem_cons.mp hr'.freep with he | hm
      · omega
      · obtain ⟨f,hf,he⟩ := mem_starts.mp hm
        have := (hF' f hf).1
        omega
    obtain ⟨t,-,h'',hlen,⟨f,hf,hft,hstop⟩,-,-,hrun⟩ := round_taken procSys ⟨h',st.os⟩ ht'
      hr' (fun f hf => by have := (hF' f hf).1; omega) h0
      (fun f hf => by have := (hF' f hf).2; omega) hok hc
      (by simp only [Block.stop] at hge; omega)
    have hbt := hF' f hf
    refine ⟨F.length+1+F'.length+1,fun k hk ap st' h => ?_⟩
    obtain ⟨i,rfl⟩ := hrestart k (by omega)
    rw [hmore, morecore, request_large hu, procSys_sbrk, hsb] at h
    simp only [hp, if_true, hfree _ (show F.length < i+1+F.length by omega)] at h
    change (if h'.freep = 0 then _ else search procSys _ u i h'.freep (h'.ptr h'.freep)
      ⟨h',st.os⟩) = _ at h
    rw [if_neg hfreep, hrun _ i (by omega)] at h
    split at h
    · cases h
      refine ⟨?_,rfl⟩
      simp only [Block.stop] at hstop hbt
      rw [plus_small (by omega)]
      omega
    · cases h
  · refine ⟨F.length+1,fun k hk ap st' h => ?_⟩
    obtain ⟨i,rfl⟩ := hrestart k (by omega)
    rw [hmore, morecore, request_large hu, procSys_sbrk, hsb] at h
    simp only [hp] at h
    cases h

theorem not_right_large (hb : 0 < base) (hI : Inv base st.os)
    (hc : Consistent base st.os.got st.heap live) (hn : n < 2^32-7) (ho : ¬Ordinary n) :
    ¬Right base n st := by
  rintro ⟨ap,st',⟨K,hK⟩,hres,hk,-⟩
  have hs := proc_fresh hb
  have hsz := hI.size
  have hlow := hI.low
  obtain ⟨hu,hbig⟩ := nunits_large hn ho
  obtain ⟨F,hF⟩ := start_sound hc hb
  have hu1 := hu.1
  unfold KERNBASE at hsz
  have hsmall : ∀ f ∈ F, f.len < 8*nunits n := by
    intro f hf
    have := (hF.tiling.within f (.inl hf)).stop_le (hF.tiling.pos f (.inl hf))
      fun q hq => (hI.regions q hq).2
    simp only [Block.stop] at this
    omega
  have hpres := node_present hs hI hF.tiling hF.ring
  have hfp : procSys.present st.os (start base st.heap).freep := hpres _ hF.ring.freep
  have hsearch : ∀ k, K ≤ k → search procSys k (nunits n) k (start base st.heap).freep
      ((start base st.heap).ptr (start base st.heap).freep) ⟨start base st.heap,st.os⟩ =
        .ok (ap,st') := by
    intro k hk
    have h := hK k hk
    simp only [malloc, hfp, if_true] at h
    exact h
  rcases sbrk_large hI hu with ⟨hsb,hend⟩ | ⟨o,s',hsb,hout⟩
  · obtain ⟨K',hbogus⟩ := search_bogus ⟨start base st.heap,st.os⟩ hb hI hu hF hsb hend hsmall
    obtain ⟨hap,hos⟩ := hbogus (K+K') (by omega) ap st' (hsearch (K+K') (by omega))
    simp only [hos] at hres
    omega
  · have hmore := round_more procSys ⟨start base st.heap,st.os⟩ hF.tiling hF.ring
      (fun f hf => (node_bounds hs hI hF.tiling f hf).1) (by omega) hpres hsmall
    have hrun := hsearch (K+1+F.length) (by omega)
    rw [hmore] at hrun
    obtain ⟨⟨q,st1⟩,hm,hrun⟩ := bind_ok hrun
    obtain ⟨o',ho'⟩ := morecore_os hu hm
    obtain ⟨rfl,rfl⟩ := Prod.mk.inj (Except.ok.inj (hsb.symm.trans ho'))
    rcases hout with hlt | ⟨rfl,hgone⟩
    · have hle : st'.os.sz ≤ st1.os.sz := by
        split at hrun
        · cases hrun
          exact le_rfl
        · exact search_large_le hu hrun
      have := hk.1
      omega
    · rw [morecore, request_large hu, procSys_sbrk, hsb] at hm
      obtain ⟨rfl,-⟩ := Prod.mk.inj (Except.ok.inj hm)
      rw [if_pos rfl] at hrun
      cases hrun
      have hsome := (hI.mapping 0 (by decide)).mpr (page_of_byte (a := 0) (by omega))
      have := hk.2 0 (by decide) hsome
      rw [hgone] at this
      cases this

end Large

def Allowed (base n : ℕ) (st : State Proc) : Prop := n < 2^32 ∧ Fits base n st

theorem serves_allowed (hb : 0 < base) :
    Serves procSys base Proc.got (Inv base) (Allowed base) := by
  rintro st live n hI hc ⟨hn,hfit⟩
  rcases hfit with ho | ⟨hw,hempty,hno⟩
  · exact serves_ordinary (proc_fresh hb) st live n hI hc ho
  · obtain ⟨st',hret,hI',-,hc'⟩ := malloc_wrapped hb hI hc hn hw hempty hno
    exact ⟨0,st',hret,hI',.inr hc'⟩

/-- In every state reached by such calls, `malloc` is right exactly for the sizes
that fit. -/
theorem malloc_right_iff (hb : 0 < base)
    (hr : Reach procSys base Proc.got (Inv base) (Allowed base) st live) (hn : n < 2^32) :
    Right base n st ↔ Fits base n st := by
  obtain ⟨hI,hc⟩ := reach_consistent (proc_fresh hb) (serves_allowed hb) hr
  constructor
  · intro h
    by_cases ho : Ordinary n
    · exact .inl ho
    · by_cases hw : 2^32-7 ≤ n
      · exact fits_of_wrapped hb hI hc hn hw h
      · exact absurd h (not_right_large hb hI hc (by omega) ho)
  · rintro (ho | ⟨hw,hempty,hno⟩)
    · exact right_ordinary hb hI hc ho
    · exact right_wrapped hb hI hc hn hw hempty hno

section Instance

def small : Proc := ⟨4000,onePage,spareRam,[]⟩

def untouched : State Proc := ⟨⟨fun _ => 0,fun _ => 0,0⟩,small⟩

theorem small_open (ha : a < 4096) : Open onePage a := by
  have hpage : a/PGSIZE = 0 := Nat.div_eq_of_lt ha
  refine ⟨⟨4,true,true⟩,?_,rfl,rfl⟩
  rw [hpage, onePage_pte, if_pos rfl]

theorem small_inv : Inv 64 small := by
  have hpages : pages 4000 = pages 4096 := by decide
  refine ⟨by decide,fun v hv => ?_,spareRam_spare,by decide,fun i hi => small_open (by omega),
    fun a _ ha => small_open ?_,by simp [small],by simp [small]⟩
  · show _ ↔ v < pages 4000
    rw [hpages]
    exact onePage_mapping v hv
  · exact ha

theorem small_reach : Reach procSys 64 Proc.got (Inv 64) (Allowed 64) untouched [] :=
  .start rfl small_inv rfl

/-- 100 bytes fit. -/
theorem malloc_right_hundred : Reach procSys 64 Proc.got (Inv 64) (Allowed 64) untouched [] ∧
    Right 64 100 untouched := by
  refine ⟨small_reach,(malloc_right_iff (by decide) small_reach (by decide)).mpr (.inl ?_)⟩
  unfold Ordinary
  decide

theorem sbrk_small : sysSbrk 2147483656 small = .ok (some 4000,small) := by
  have hint : toInt 2147483656 = -2147483640 := rfl
  have hg : growproc (-2147483640) small.sz small.d small.r = .ok (0,4000,onePage,spareRam) := by
    rw [growproc_wrapped (by decide) (by decide), if_neg (by decide)]
    rfl
  rw [sysSbrk, hint, hg]
  rfl

/-- For 2^31 bytes `sbrk` is asked for a negative number of bytes and reports
success; the result is above the process. -/
theorem malloc_beyond_process : Inv 64 small ∧ (∀ k, 4 ≤ k → ∃ st',
    malloc procSys 64 k (2^31) untouched = .ok (4008,st') ∧ st'.os.sz = 4000) ∧
    ¬Right 64 (2^31) untouched := by
  refine ⟨small_inv,fun k hk => ?_,not_right_large (by decide) small_inv (.inl ⟨rfl,rfl,rfl⟩)
    (by decide) (by unfold Ordinary; decide)⟩
  obtain ⟨i,rfl⟩ : ∃ i, k = i+4 := ⟨k-4,by omega⟩
  have h₁ : procSys.present small 64 := present_iff.mpr fun i hi => small_open (by omega)
  have h₂ : procSys.present small 4000 := present_iff.mpr fun i hi => small_open (by omega)
  simp [malloc, start, untouched, h₁, h₂, procSys_sbrk, sbrk_small, nunits, search, morecore,
    request, free, walk, joinUp, joinDown, minus, plus, Slot, Heap.setPtr, Heap.setSize,
    Except.map, Except.bind, take, carve]
  rfl

end Instance

end Xv6.HeapLimits
