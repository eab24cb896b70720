import Mathlib.Data.List.Chain
import Mathlib.Tactic.Linarith

/-!
# Families of processes

Slots of a table hold processes with fresh ids, each under a parent; a process
that exits waits as a zombie for its parent, its children pass to the root. With
a rank that falls along the parent links they form a forest. The family keeps
the books: who forked whom, who exited, and which id was returned to which
process.
-/

set_option autoImplicit false

namespace Xv6.FamilyTree

section
variable {α : Type*} {parent : α → Option α}

inductive Climb (parent : α → Option α) : α → List α → α → Prop
  | here (x : α) : Climb parent x [x] x
  | up {x y r : α} {l : List α} (link : parent x = some y) (rest : Climb parent y l r) :
      Climb parent x (x::l) r

theorem climb_exists (rank : α → ℤ) (good : α → Prop) (root : α)
    (hpos : ∀ x, good x → 0 < rank x)
    (hup : ∀ x, good x → x ≠ root → ∃ y, parent x = some y ∧ good y ∧ rank y < rank x)
    (x : α) (hx : good x) : ∃ l, Climb parent x l root ∧ l.Nodup ∧ ∀ y ∈ l, good y := by
  have hall : ∀ (n : ℕ) (x : α), good x → (rank x).toNat ≤ n → ∃ l, Climb parent x l root ∧
      l.Nodup ∧ ∀ y ∈ l, good y ∧ rank y ≤ rank x := by
    intro n
    induction n with
    | zero =>
      intro x hx hn
      have hp := hpos x hx
      omega
    | succ n ih =>
      intro x hx hn
      by_cases hr : x = root
      · subst hr
        exact ⟨[x],Climb.here x,by simp,fun y hy => by simp [List.mem_singleton.mp hy, hx]⟩
      · obtain ⟨y,hy,hg,hlt⟩ := hup x hx hr
        have hp := hpos y hg
        obtain ⟨l,hc,hl,hm⟩ := ih y hg (by omega)
        refine ⟨x::l,Climb.up hy hc,List.nodup_cons.mpr ⟨fun hxl => ?_,hl⟩,fun z hz => ?_⟩
        · have hle := (hm x hxl).2
          omega
        · rcases List.mem_cons.mp hz with rfl | hz
          · exact ⟨hx,le_refl _⟩
          · exact ⟨(hm z hz).1,le_trans (hm z hz).2 hlt.le⟩
  obtain ⟨l,hc,hl,hm⟩ := hall (rank x).toNat x hx (le_refl _)
  exact ⟨l,hc,hl,fun y hy => (hm y hy).1⟩

end

open Function

inductive Phase where
  | unused
  | embryo
  | live
  | zombie
  deriving DecidableEq, Repr

@[ext]
structure Family (α : Type*) where
  phase : α → Phase
  pid : α → ℤ
  parent : α → Option α
  next : ℤ
  root : Option α
  origin : ℤ → Option ℤ
  exited : List ℤ
  reaped : List (ℤ × ℤ)

variable {α : Type*} [DecidableEq α]

inductive Step (s : Family α) : Family α → Prop
  | found (i : α) (first : s.root = none) : Step s { s with
      phase := update s.phase i .embryo, pid := update s.pid i s.next, next := s.next+1,
      root := some i }
  | start (i : α) (root : s.root = some i) (embryo : s.phase i = .embryo) :
      Step s { s with phase := update s.phase i .live }
  | alloc (p np : α) (live : s.phase p = .live) (unused : s.phase np = .unused) : Step s { s with
      phase := update s.phase np .embryo, pid := update s.pid np s.next, next := s.next+1 }
  | fail (p np : α) (live : s.phase p = .live) (embryo : s.phase np = .embryo)
      (orphan : s.parent np = none) : Step s { s with phase := update s.phase np .unused }
  | link (p np : α) (live : s.phase p = .live) (embryo : s.phase np = .embryo)
      (older : s.pid p < s.pid np) : Step s { s with parent := update s.parent np (some p) }
  | publish (p np : α) (embryo : s.phase np = .embryo) (parent : s.parent np = some p) :
      Step s { s with
        phase := update s.phase np .live, origin := update s.origin (s.pid np) (some (s.pid p)) }
  | exit (p : α) (live : s.phase p = .live) (other : s.root ≠ some p) : Step s { s with
      phase := update s.phase p .zombie
      parent := fun q => if s.parent q = some p then s.root else s.parent q
      exited := s.pid p::s.exited }
  | reap (p q : α) (zombie : s.phase q = .zombie) (parent : s.parent q = some p) : Step s { s with
      phase := update s.phase q .unused, pid := update s.pid q 0,
      parent := update s.parent q none, reaped := (s.pid q,s.pid p)::s.reaped }

structure Forest (s : Family α) : Prop where
  pids : ∀ q, s.phase q ≠ .unused → 0 < s.pid q ∧ s.pid q < s.next
  unique : ∀ q r, s.phase q ≠ .unused → s.phase r ≠ .unused → s.pid q = s.pid r → q = r
  orphan : ∀ q, s.phase q = .unused → s.parent q = none
  parents : ∀ q r, s.parent q = some r → s.phase r = .live ∧ s.pid r < s.pid q
  rooted : ∀ q, s.phase q = .live ∨ s.phase q = .zombie → s.parent q = none → s.root = some q
  one : ∀ i, s.root = some i → s.pid i = 1
  top : ∀ i, s.root = some i → s.parent i = none
  empty : s.root = none → s.next = 1 ∧ ∀ q, s.phase q = .unused
  alone : ∀ i, s.root = some i → s.phase i = .live ∨
    s.phase i = .embryo ∧ ∀ q, q ≠ i → s.phase q = .unused
  positive : 0 < s.next

variable {s t : Family α}

theorem held {x : Phase} (h : x = .live ∨ x = .zombie) : x ≠ .unused := by
  rintro rfl
  simp at h

section
variable (hs : Forest s)
include hs

omit [DecidableEq α] in
theorem root_occupied {i : α} (hi : s.root = some i) : s.phase i ≠ .unused := by
  rcases hs.alone i hi with h | ⟨h,-⟩ <;> simp [h]

omit [DecidableEq α] in
/-- The root has the lowest id. -/
theorem eldest {i q : α} (hi : s.root = some i) (hq : s.phase q ≠ .unused) (hne : q ≠ i) :
    s.pid i < s.pid q := by
  have hone := hs.one i hi
  have hpos := hs.pids q hq
  have hdiff : s.pid q ≠ s.pid i := fun h => hne (hs.unique q i hq (root_occupied hs hi) h)
  omega

variable {p np : α}

theorem root_live (hp : s.phase p = .live) : ∃ i, s.root = some i ∧ s.phase i = .live := by
  cases hr : s.root with
  | none =>
    have he := (hs.empty hr).2 p
    simp [hp] at he
  | some i =>
    refine ⟨i,rfl,?_⟩
    rcases hs.alone i hr with h | ⟨h,ho⟩
    · exact h
    · by_cases hpi : p = i
      · exact hpi ▸ hp
      · simp [ho p hpi] at hp

theorem embryo_below (hp : s.phase p = .live) (he : s.phase np = .embryo) : s.root ≠ some np := by
  intro hr
  obtain ⟨i,hi,hl⟩ := root_live hs hp
  obtain rfl : i = np := Option.some.inj (hi.symm.trans hr)
  simp [he] at hl

theorem forest_found (i : α) (h : s.root = none) : Forest { s with
    phase := update s.phase i .embryo, pid := update s.pid i s.next, next := s.next+1,
    root := some i } := by
  obtain ⟨hone,he⟩ := hs.empty h
  have hpar : ∀ q, s.parent q = none := fun q => hs.orphan q (he q)
  have hph : ∀ q, update s.phase i .embryo q ≠ .unused → q = i := by
    intro q hq
    by_contra hne
    simp [hne, he q] at hq
  refine ⟨fun q hq => ?_,fun q r hq hr _ => (hph q hq).trans (hph r hr).symm,fun q _ => hpar q,
    fun q r hq => ?_,fun q hq _ => ?_,fun j hj => ?_,fun j _ => hpar j,fun hn => by simp at hn,
    fun j hj => ?_,by have := hs.positive; simp only; omega⟩
  · have hp := hs.positive
    simp only [hph q hq, update_self]
    omega
  · simp [hpar q] at hq
  · rw [hph q (held hq)]
  · cases hj
    simp [hone]
  · cases hj
    exact .inr ⟨by simp,fun q hq => by simp [hq, he q]⟩

theorem forest_start {i : α} (hr : s.root = some i) (he : s.phase i = .embryo) :
    Forest { s with phase := update s.phase i .live } := by
  have hother : ∀ q, q ≠ i → s.phase q = .unused := by
    intro q hq
    rcases hs.alone i hr with h | h
    · simp [he] at h
    · exact h.2 q hq
  have hocc : ∀ q, update s.phase i .live q ≠ .unused → q = i := by
    intro q hq
    by_contra hne
    simp [hne, hother q hne] at hq
  have hun : ∀ q, update s.phase i .live q = .unused → s.phase q = .unused := by
    intro q hq
    by_cases h : q = i
    · simp [h] at hq
    · exact hother q h
  refine ⟨fun q hq => ?_,fun q r hq hr _ => (hocc q hq).trans (hocc r hr).symm,
    fun q hq => hs.orphan q (hun q hq),fun q r hq => ?_,fun q hq _ => ?_,hs.one,hs.top,
    fun hn => ?_,fun j hj => ?_,hs.positive⟩
  · rw [hocc q hq]
    exact hs.pids i (by simp [he])
  · obtain ⟨hl,hlt⟩ := hs.parents q r hq
    have hri : r = i := by
      by_contra hne
      simp [hother r hne] at hl
    exact ⟨by simp [hri],hlt⟩
  · rw [hocc q (held hq)]
    exact hr
  · simp [hr] at hn
  · obtain rfl : i = j := Option.some.inj (hr.symm.trans hj)
    exact .inl (by simp)

theorem forest_alloc (hp : s.phase p = .live) (hu : s.phase np = .unused) : Forest { s with
    phase := update s.phase np .embryo, pid := update s.pid np s.next, next := s.next+1 } := by
  have hpos := hs.positive
  have hold : ∀ q, q ≠ np → update s.phase np .embryo q ≠ .unused →
      s.phase q ≠ .unused := by
    intro q hne hq
    simpa [hne] using hq
  obtain ⟨i,hi,hil⟩ := root_live hs hp
  have hin : i ≠ np := by
    rintro rfl
    simp [hu] at hil
  refine ⟨fun q hq => ?_,fun q r hq hr hqr => ?_,fun q hq => ?_,fun q r hq => ?_,fun q hq hn => ?_,
    fun j hj => ?_,hs.top,fun hn => ?_,fun j hj => ?_,by simp only; omega⟩
  · by_cases h : q = np
    · simp only [h, update_self]
      omega
    · have hq := hs.pids q (hold q h hq)
      simp only [update_of_ne h]
      omega
  · by_cases h : q = np <;> by_cases h' : r = np
    · exact h.trans h'.symm
    · have hlt := hs.pids r (hold r h' hr)
      simp only [h, update_self, update_of_ne h'] at hqr
      omega
    · have hlt := hs.pids q (hold q h hq)
      simp only [h', update_self, update_of_ne h] at hqr
      omega
    · simp only [update_of_ne h, update_of_ne h'] at hqr
      exact hs.unique q r (hold q h hq) (hold r h' hr) hqr
  · by_cases h : q = np
    · simp [h] at hq
    · exact hs.orphan q (by simpa [h] using hq)
  · obtain ⟨hl,hlt⟩ := hs.parents q r hq
    have hrn : r ≠ np := by
      rintro rfl
      simp [hu] at hl
    have hqn : q ≠ np := by
      rintro rfl
      simp [hs.orphan q hu] at hq
    exact ⟨by simpa [hrn] using hl,by simpa [hrn, hqn] using hlt⟩
  · have hqn : q ≠ np := by
      rintro rfl
      simp at hq
    exact hs.rooted q (by simpa [hqn] using hq) hn
  · obtain rfl : i = j := Option.some.inj (hi.symm.trans hj)
    simpa [hin] using hs.one i hi
  · simp [hi] at hn
  · obtain rfl : i = j := Option.some.inj (hi.symm.trans hj)
    exact .inl (by simpa [hin] using hil)

theorem forest_fail (hp : s.phase p = .live) (he : s.phase np = .embryo) (hn : s.parent np = none) :
    Forest { s with phase := update s.phase np .unused } := by
  have hroot := embryo_below hs hp he
  have hold : ∀ q, update s.phase np .unused q ≠ .unused → q ≠ np ∧ s.phase q ≠ .unused := by
    intro q hq
    have hne : q ≠ np := by
      rintro rfl
      simp at hq
    exact ⟨hne,by simpa [hne] using hq⟩
  obtain ⟨i,hi,hil⟩ := root_live hs hp
  have hin : i ≠ np := fun h => hroot (h ▸ hi)
  refine ⟨fun q hq => hs.pids q (hold q hq).2,
    fun q r hq hr => hs.unique q r (hold q hq).2 (hold r hr).2,fun q hq => ?_,fun q r hq => ?_,
    fun q hq => hs.rooted q ?_,hs.one,hs.top,fun h => ?_,fun j hj => ?_,hs.positive⟩
  · by_cases h : q = np
    · exact h ▸ hn
    · exact hs.orphan q (by simpa [h] using hq)
  · obtain ⟨hl,hlt⟩ := hs.parents q r hq
    have hrn : r ≠ np := by
      rintro rfl
      simp [he] at hl
    exact ⟨by simpa [hrn] using hl,hlt⟩
  · have hne := (hold q (held hq)).1
    simpa [hne] using hq
  · simp [hi] at h
  · obtain rfl : i = j := Option.some.inj (hi.symm.trans hj)
    exact .inl (by simpa [hin] using hil)

theorem forest_link (hp : s.phase p = .live) (he : s.phase np = .embryo)
    (hlt : s.pid p < s.pid np) :
    Forest { s with parent := update s.parent np (some p) } := by
  have hroot := embryo_below hs hp he
  refine ⟨hs.pids,hs.unique,fun q hq => ?_,fun q r hq => ?_,fun q hq hn => ?_,hs.one,
    fun i hi => ?_,hs.empty,hs.alone,hs.positive⟩
  · have hne : q ≠ np := by
      rintro rfl
      simp [he] at hq
    simpa [hne] using hs.orphan q hq
  · by_cases h : q = np
    · subst h
      obtain rfl : p = r := by simpa using hq
      exact ⟨hp,hlt⟩
    · exact hs.parents q r (by simpa [h] using hq)
  · have hne : q ≠ np := by
      rintro rfl
      simp [he] at hq
    exact hs.rooted q hq (by simpa [hne] using hn)
  · have hne : i ≠ np := fun h => hroot (h ▸ hi)
    simpa [hne] using hs.top i hi

theorem forest_publish (he : s.phase np = .embryo) (hp : s.parent np = some p) (o : ℤ → Option ℤ) :
    Forest { s with phase := update s.phase np .live, origin := o } := by
  have hold : ∀ q, update s.phase np .live q ≠ .unused → s.phase q ≠ .unused := by
    intro q hq
    by_cases h : q = np
    · simp [h, he]
    · simpa [h] using hq
  have hroot : s.root ≠ some np := fun h => by simp [hs.top np h] at hp
  refine ⟨fun q hq => hs.pids q (hold q hq),
    fun q r hq hr => hs.unique q r (hold q hq) (hold r hr),fun q hq => ?_,fun q r hq => ?_,
    fun q hq hn => ?_,hs.one,hs.top,fun hn => ?_,fun i hi => ?_,hs.positive⟩
  · have hne : q ≠ np := by
      rintro rfl
      simp at hq
    exact hs.orphan q (by simpa [hne] using hq)
  · obtain ⟨hl,hlt⟩ := hs.parents q r hq
    by_cases h : r = np
    · exact ⟨by simp [h],hlt⟩
    · exact ⟨by simpa [h] using hl,hlt⟩
  · have hne : q ≠ np := by
      rintro rfl
      simp only at hn
      simp [hp] at hn
    exact hs.rooted q (by simpa [hne] using hq) hn
  · have hu := (hs.empty hn).2 np
    simp [he] at hu
  · have hne : i ≠ np := fun h => hroot (h ▸ hi)
    obtain ⟨r,hr,hl⟩ := root_live hs (hs.parents np p hp).1
    obtain rfl : r = i := Option.some.inj (hr.symm.trans hi)
    exact .inl (by simpa [hne] using hl)

theorem forest_exit (hp : s.phase p = .live) (ho : s.root ≠ some p) (e : List ℤ) : Forest { s with
    phase := update s.phase p .zombie
    parent := fun q => if s.parent q = some p then s.root else s.parent q
    exited := e } := by
  obtain ⟨i,hi,hil⟩ := root_live hs hp
  have hip : i ≠ p := fun h => ho (h ▸ hi)
  have hold : ∀ q, update s.phase p .zombie q ≠ .unused → s.phase q ≠ .unused := by
    intro q hq
    by_cases h : q = p
    · simp [h, hp]
    · simpa [h] using hq
  refine ⟨fun q hq => hs.pids q (hold q hq),
    fun q r hq hr => hs.unique q r (hold q hq) (hold r hr),fun q hq => ?_,fun q r hq => ?_,
    fun q hq hn => ?_,hs.one,fun j hj => ?_,fun hn => ?_,fun j hj => ?_,hs.positive⟩
  · have hne : q ≠ p := by
      rintro rfl
      simp at hq
    have hq := hs.orphan q (by simpa [hne] using hq)
    simp [hq]
  · by_cases h : s.parent q = some p
    · obtain rfl : i = r := by simpa [h, hi] using hq
      have hu : s.phase q ≠ .unused := fun hu => by simp [hs.orphan q hu] at h
      have hqi : q ≠ i := by
        rintro rfl
        simp [hs.top q hi] at h
      exact ⟨by simpa [hip] using hil,eldest hs hi hu hqi⟩
    · have hq : s.parent q = some r := by simpa [h] using hq
      have hrp : r ≠ p := fun hr => h (hr ▸ hq)
      exact ⟨by simpa [hrp] using (hs.parents q r hq).1,(hs.parents q r hq).2⟩
  · have hn : s.parent q = none := by
      by_contra h
      by_cases hqp : s.parent q = some p
      · simp [hqp, hi] at hn
      · simp [hqp, h] at hn
    refine hs.rooted q ?_ hn
    by_cases h : q = p
    · exact .inl (h ▸ hp)
    · simpa [h] using hq
  · simp [hs.top j hj]
  · simp [hi] at hn
  · obtain rfl : i = j := Option.some.inj (hi.symm.trans hj)
    exact .inl (by simpa [hip] using hil)

theorem forest_reap {q : α} (hz : s.phase q = .zombie) (hp : s.parent q = some p)
    (l : List (ℤ × ℤ)) :
    Forest { s with
    phase := update s.phase q .unused, pid := update s.pid q 0,
    parent := update s.parent q none, reaped := l } := by
  obtain ⟨i,hi,hil⟩ := root_live hs (hs.parents q p hp).1
  have hold : ∀ x, update s.phase q .unused x ≠ .unused → x ≠ q ∧ s.phase x ≠ .unused := by
    intro x hx
    have hne : x ≠ q := by
      rintro rfl
      simp at hx
    exact ⟨hne,by simpa [hne] using hx⟩
  have hiq : i ≠ q := by
    rintro rfl
    simp [hz] at hil
  refine ⟨fun x hx => ?_,fun x y hx hy hxy => ?_,fun x hx => ?_,fun x r hx => ?_,fun x hx hn => ?_,
    fun j hj => ?_,fun j hj => ?_,fun hn => ?_,fun j hj => ?_,hs.positive⟩
  · obtain ⟨hne,hu⟩ := hold x hx
    simpa [hne] using hs.pids x hu
  · obtain ⟨hxq,hxu⟩ := hold x hx
    obtain ⟨hyq,hyu⟩ := hold y hy
    exact hs.unique x y hxu hyu (by simpa [hxq, hyq] using hxy)
  · by_cases h : x = q
    · simp [h]
    · simpa [h] using hs.orphan x (by simpa [h] using hx)
  · by_cases h : x = q
    · simp [h] at hx
    · obtain ⟨hl,hlt⟩ := hs.parents x r (by simpa [h] using hx)
      have hrq : r ≠ q := by
        rintro rfl
        simp [hz] at hl
      exact ⟨by simpa [hrq] using hl,by simpa [hrq, h] using hlt⟩
  · have hne := (hold x (held hx)).1
    exact hs.rooted x (by simpa [hne] using hx) (by simpa [hne] using hn)
  · obtain rfl : i = j := Option.some.inj (hi.symm.trans hj)
    simpa [hiq] using hs.one i hi
  · by_cases h : j = q
    · simp [h]
    · simpa [h] using hs.top j hj
  · simp [hi] at hn
  · obtain rfl : i = j := Option.some.inj (hi.symm.trans hj)
    exact .inl (by simpa [hiq] using hil)

theorem forest_step (h : Step s t) : Forest t := by
  cases h with
  | found i h => exact forest_found hs i h
  | start i hr he => exact forest_start hs hr he
  | alloc p np hp hu => exact forest_alloc hs hp hu
  | fail p np hp he hn => exact forest_fail hs hp he hn
  | link p np hp he hlt => exact forest_link hs hp he hlt
  | publish p np he hp => exact forest_publish hs he hp _
  | exit p hp ho => exact forest_exit hs hp ho _
  | reap p q hz hp => exact forest_reap hs hz hp _

end

end Xv6.FamilyTree
