import Xv6.FamilyTree

/-!
# The books of a family

Every id that was booked as exited stands at one zombie or has been returned,
once; the one it was returned to forked it, or is the root.
-/

set_option autoImplicit false

namespace Xv6.FamilyTree
open Function

variable {α : Type*} [DecidableEq α] {s t : Family α} {np p : α}

structure Booked (s : Family α) : Prop where
  alive : ∀ q, s.phase q = .embryo ∨ s.phase q = .live → s.pid q ∉ s.exited
  zombies : ∀ q, s.phase q = .zombie → s.pid q ∈ s.exited ∧ s.pid q ∉ s.reaped.map Prod.fst
  exits : ∀ v ∈ s.exited, v < s.next ∧
    (v ∈ s.reaped.map Prod.fst ∨ ∃ q, s.phase q = .zombie ∧ s.pid q = v)
  once : (s.reaped.map Prod.fst).Nodup
  returned : ∀ e ∈ s.reaped, e.1 ∈ s.exited ∧ (s.origin e.1 = some e.2 ∨
    ∃ i o, s.root = some i ∧ e.2 = s.pid i ∧ s.origin e.1 = some o ∧ o ∈ s.exited)
  forked : ∀ q r, s.phase q = .live ∨ s.phase q = .zombie → s.parent q = some r →
    s.origin (s.pid q) = some (s.pid r) ∨
      s.root = some r ∧ ∃ o, s.origin (s.pid q) = some o ∧ o ∈ s.exited

theorem booked_found (hf : Forest s) (hs : Booked s) (i : α) (h : s.root = none) : Booked { s with
    phase := update s.phase i .embryo, pid := update s.pid i s.next, next := s.next+1,
    root := some i } := by
  have he := (hf.empty h).2
  have hph : ∀ q, update s.phase i .embryo q = .embryo ∨ update s.phase i .embryo q = .unused := by
    intro q
    by_cases hq : q = i
    · simp [hq]
    · simp [hq, he q]
  have hzombie : ∀ q, update s.phase i .embryo q ≠ .zombie := by
    intro q hq
    rcases hph q with h | h <;> simp [h] at hq
  have hnone : ∀ v ∈ s.exited, v ∈ s.reaped.map Prod.fst := by
    intro v hv
    rcases (hs.exits v hv).2 with h | ⟨q,hq,-⟩
    · exact h
    · simp [he q] at hq
  refine ⟨fun q hq hx => ?_,fun q hq => absurd hq (hzombie q),fun v hv => ?_,hs.once,
    fun e hm => ?_,fun q r hq => ?_⟩
  · by_cases h : q = i
    · have hlt := (hs.exits _ hx).1
      simp [h] at hlt
    · simp [h, he q] at hq
  · have hlt := (hs.exits v hv).1
    exact ⟨by simp only; omega,.inl (hnone v hv)⟩
  · obtain ⟨hx,ho⟩ := hs.returned e hm
    refine ⟨hx,Or.imp_right ?_ ho⟩
    rintro ⟨j,-,hj,-⟩
    simp [h] at hj
  · rcases hph q with h | h <;> simp [h] at hq

/-- Nothing is booked, and the phases move only between those of a process
that has not exited. -/
theorem booked_phase (hs : Booked s) {x : Phase} (hx : x = .embryo ∨ x = .live ∨ x = .unused)
    (hz : s.phase np ≠ .zombie) (hn : x = .live → s.parent np = none)
    (ha : s.phase np = .embryo ∨ s.phase np = .live) :
    Booked { s with phase := update s.phase np x } := by
  have hzombie : ∀ q, update s.phase np x q = .zombie ↔ s.phase q = .zombie := by
    intro q
    by_cases h : q = np
    · subst h
      simp only [update_self, hz, iff_false]
      rintro rfl
      simp at hx
    · simp [h]
  refine ⟨fun q hq => ?_,fun q hq => hs.zombies q ((hzombie q).mp hq),fun v hv => ?_,hs.once,
    hs.returned,fun q r hq hr => ?_⟩
  · by_cases h : q = np
    · exact h ▸ hs.alive np ha
    · exact hs.alive q (by simpa [h] using hq)
  · refine ⟨(hs.exits v hv).1,Or.imp_right ?_ (hs.exits v hv).2⟩
    rintro ⟨q,hq,hqv⟩
    exact ⟨q,(hzombie q).mpr hq,hqv⟩
  · by_cases h : q = np
    · subst h
      rcases hq with hq | hq
      · have hpar := hn (by simpa using hq)
        simp only at hr
        simp [hpar] at hr
      · exact absurd ((hzombie q).mp hq) hz
    · exact hs.forked q r (by simpa [h] using hq) hr

theorem booked_alloc (hf : Forest s) (hs : Booked s) (hu : s.phase np = .unused) : Booked { s with
      phase := update s.phase np .embryo, pid := update s.pid np s.next, next := s.next+1 } := by
  have hroot : s.root ≠ some np := fun h => root_occupied hf h hu
  have hsame : ∀ q, s.phase q ≠ .unused → q ≠ np := by
    rintro q hq rfl
    exact hq hu
  refine ⟨fun q hq hx => ?_,fun q hq => ?_,fun v hv => ?_,hs.once,fun e hm => ?_,
    fun q r hq hr => ?_⟩
  · by_cases h : q = np
    · have hlt := (hs.exits _ hx).1
      simp [h] at hlt
    · exact hs.alive q (by simpa [h] using hq) (by simpa [h] using hx)
  · have hne : q ≠ np := by
      rintro rfl
      simp at hq
    simpa [hne] using hs.zombies q (by simpa [hne] using hq)
  · obtain ⟨hlt,hv⟩ := hs.exits v hv
    refine ⟨by simp only; omega,Or.imp_right ?_ hv⟩
    rintro ⟨q,hq,hqv⟩
    have hne := hsame q (by simp [hq])
    exact ⟨q,by simpa [hne] using hq,by simpa [hne] using hqv⟩
  · obtain ⟨hx,ho⟩ := hs.returned e hm
    refine ⟨hx,Or.imp_right ?_ ho⟩
    rintro ⟨i,o,hi,he,ho⟩
    have hne : i ≠ np := fun h => hroot (h ▸ hi)
    exact ⟨i,o,hi,by simpa [hne] using he,ho⟩
  · have hne : q ≠ np := by
      rintro rfl
      simp at hq
    have hrn := hsame r (by simp [(hf.parents q r hr).1])
    simpa [hne, hrn] using hs.forked q r (by simpa [hne] using hq) hr

theorem booked_link (hs : Booked s) (he : s.phase np = .embryo) :
    Booked { s with parent := update s.parent np (some p) } := by
  refine ⟨hs.alive,hs.zombies,hs.exits,hs.once,hs.returned,fun q r hq hr => ?_⟩
  have hne : q ≠ np := by
    rintro rfl
    simp [he] at hq
  exact hs.forked q r hq (by simpa [hne] using hr)

section
variable (hf : Forest s) (hs : Booked s)
include hf hs

theorem booked_publish (he : s.phase np = .embryo) (hp : s.parent np = some p) : Booked { s with
    phase := update s.phase np .live
    origin := update s.origin (s.pid np) (some (s.pid p)) } := by
  have hnew := hs.alive np (.inl he)
  have hzombie : ∀ q, update s.phase np .live q = .zombie ↔ s.phase q = .zombie := by
    intro q
    by_cases h : q = np <;> simp [h, he]
  refine ⟨fun q hq => ?_,fun q hq => hs.zombies q ((hzombie q).mp hq),fun v hv => ?_,hs.once,
    fun e hm => ?_,fun q r hq hr => ?_⟩
  · by_cases h : q = np
    · exact h ▸ hnew
    · exact hs.alive q (by simpa [h] using hq)
  · refine ⟨(hs.exits v hv).1,Or.imp_right ?_ (hs.exits v hv).2⟩
    rintro ⟨q,hq,hqv⟩
    exact ⟨q,(hzombie q).mpr hq,hqv⟩
  · have hne : e.1 ≠ s.pid np := fun h => hnew (h ▸ (hs.returned e hm).1)
    simpa [hne] using hs.returned e hm
  · by_cases h : q = np
    · subst h
      obtain rfl : p = r := Option.some.inj (hp.symm.trans hr)
      exact .inl (by simp)
    · have hq : s.phase q = .live ∨ s.phase q = .zombie := by simpa [h] using hq
      have hne : s.pid q ≠ s.pid np := fun hqn => h (hf.unique q np (held hq) (by simp [he]) hqn)
      simpa [hne] using hs.forked q r hq hr

theorem booked_exit (hp : s.phase p = .live) (ho : s.root ≠ some p) : Booked { s with
    phase := update s.phase p .zombie
    parent := fun q => if s.parent q = some p then s.root else s.parent q
    exited := s.pid p::s.exited } := by
  have hp' : s.phase p ≠ .unused := by simp [hp]
  refine ⟨fun q hq => ?_,fun q hq => ?_,fun v hv => ?_,hs.once,fun e hm => ?_,fun q r hq hr => ?_⟩
  · have hne : q ≠ p := by
      rintro rfl
      simp at hq
    have hq : s.phase q = .embryo ∨ s.phase q = .live := by simpa [hne] using hq
    have hu : s.phase q ≠ .unused := by rcases hq with h | h <;> simp [h]
    have hpid : s.pid q ≠ s.pid p := fun h => hne (hf.unique q p hu hp' h)
    simpa [hpid] using hs.alive q hq
  · by_cases h : q = p
    · refine ⟨by simp [h],fun hm => hs.alive p (.inr hp) ?_⟩
      obtain ⟨e,he,hep⟩ := List.mem_map.mp hm
      have hx := (hs.returned e he).1
      rwa [hep, h] at hx
    · obtain ⟨hx,hn⟩ := hs.zombies q (by simpa [h] using hq)
      exact ⟨List.mem_cons_of_mem _ hx,hn⟩
  · rcases List.mem_cons.mp hv with rfl | hv
    · exact ⟨(hf.pids p hp').2,.inr ⟨p,by simp,rfl⟩⟩
    · refine ⟨(hs.exits v hv).1,Or.imp_right ?_ (hs.exits v hv).2⟩
      rintro ⟨q,hq,hqv⟩
      have hne : q ≠ p := by
        rintro rfl
        simp [hp] at hq
      exact ⟨q,by simpa [hne] using hq,hqv⟩
  · obtain ⟨hx,hr⟩ := hs.returned e hm
    refine ⟨List.mem_cons_of_mem _ hx,Or.imp_right ?_ hr⟩
    rintro ⟨i,o,hi,he,ho,hox⟩
    exact ⟨i,o,hi,he,ho,List.mem_cons_of_mem _ hox⟩
  · have hq : s.phase q = .live ∨ s.phase q = .zombie := by
      by_cases h : q = p
      · exact .inl (h ▸ hp)
      · simpa [h] using hq
    by_cases h : s.parent q = some p
    · have hr : s.root = some r := by simpa [h] using hr
      rcases hs.forked q p hq h with ho' | ⟨hrp,-⟩
      · exact .inr ⟨hr,s.pid p,ho',by simp⟩
      · exact absurd hrp ho
    · have hr : s.parent q = some r := by simpa [h] using hr
      refine Or.imp_right ?_ (hs.forked q r hq hr)
      rintro ⟨hroot,o,ho,hox⟩
      exact ⟨hroot,o,ho,List.mem_cons_of_mem _ hox⟩

theorem booked_reap {q : α} (hz : s.phase q = .zombie) (hp : s.parent q = some p) : Booked { s with
    phase := update s.phase q .unused, pid := update s.pid q 0,
    parent := update s.parent q none, reaped := (s.pid q,s.pid p)::s.reaped } := by
  have hq' : s.phase q ≠ .unused := by simp [hz]
  obtain ⟨hx,hnew⟩ := hs.zombies q hz
  have hroot : s.root ≠ some q := by
    intro h
    rcases hf.alone q h with h | ⟨h,-⟩ <;> simp [hz] at h
  refine ⟨fun x hq => ?_,fun x hq => ?_,fun v hv => ?_,?_,fun e hm => ?_,fun x r hq hr => ?_⟩
  · have hne : x ≠ q := by
      rintro rfl
      simp at hq
    simpa [hne] using hs.alive x (by simpa [hne] using hq)
  · have hne : x ≠ q := by
      rintro rfl
      simp at hq
    have hxz : s.phase x = .zombie := by simpa [hne] using hq
    have hpid : s.pid x ≠ s.pid q := fun h => hne (hf.unique x q (by simp [hxz]) hq' h)
    obtain ⟨h1,h2⟩ := hs.zombies x hxz
    simp only [update_of_ne hne, List.map_cons, List.mem_cons, not_or]
    exact ⟨h1,hpid,h2⟩
  · obtain ⟨hlt,hv⟩ := hs.exits v hv
    refine ⟨hlt,?_⟩
    rcases hv with hv | ⟨x,hxz,hxv⟩
    · exact .inl (List.mem_cons_of_mem _ hv)
    · by_cases h : x = q
      · exact .inl (by simp [← hxv, h])
      · exact .inr ⟨x,by simpa [h] using hxz,by simpa [h] using hxv⟩
  · exact List.nodup_cons.mpr ⟨hnew,hs.once⟩
  · rcases List.mem_cons.mp hm with rfl | hm
    · refine ⟨hx,Or.imp_right ?_ (hs.forked q p (.inr hz) hp)⟩
      rintro ⟨hr,o,ho,hox⟩
      have hne : p ≠ q := fun h => hroot (h ▸ hr)
      exact ⟨p,o,hr,by simp [hne],ho,hox⟩
    · obtain ⟨hx,ho⟩ := hs.returned e hm
      refine ⟨hx,Or.imp_right ?_ ho⟩
      rintro ⟨i,o,hi,he,ho⟩
      have hne : i ≠ q := fun h => hroot (h ▸ hi)
      exact ⟨i,o,hi,by simpa [hne] using he,ho⟩
  · have hne : x ≠ q := by
      rintro rfl
      simp at hq
    have hxr : s.parent x = some r := by simpa [hne] using hr
    have hrq : r ≠ q := by
      rintro rfl
      have hl := (hf.parents x r hxr).1
      simp [hz] at hl
    simpa [hne, hrq] using hs.forked x r (by simpa [hne] using hq) hxr

theorem booked_step (h : Step s t) : Booked t := by
  cases h with
  | found i h => exact booked_found hf hs i h
  | start i hr he =>
    exact booked_phase hs (by simp) (by simp [he]) (fun _ => hf.top i hr) (.inl he)
  | alloc p np hp hu => exact booked_alloc hf hs hu
  | fail p np hp he hn => exact booked_phase hs (by simp) (by simp [he]) (by simp) (.inl he)
  | link p np hp he hlt => exact booked_link hs he
  | publish p np he hp => exact booked_publish hf hs he hp
  | exit p hp ho => exact booked_exit hf hs hp ho
  | reap p q hz hp => exact booked_reap hf hs hz hp

end

end Xv6.FamilyTree
