import Xv6.ByteStore
import Xv6.GrepPattern
import Xv6.SeparatedPieces

/-!
# The lines `grep` writes

`grep` reads into a fixed buffer, writes the matching lines found there and
moves what stands behind the last newline to the front. The chunks are what the
successive calls of `read` return; after the last of them `read` returns 0.
-/

set_option autoImplicit false

namespace Xv6.Grep

open ByteStore SeparatedPieces

abbrev NEWLINE : UInt8 := 10
abbrev BUFSIZE : ℕ := 1024

def strchr : List UInt8 → UInt8 → Option ℕ
  | [], _ => none
  | x::s, c => if x = 0 then none else if x = c then some 0 else (strchr s c).map (· + 1)

theorem strchr_lt {s : List UInt8} {c : UInt8} {k : ℕ} (h : strchr s c = some k) :
    k < s.length := by
  induction s generalizing k with
  | nil => simp [strchr] at h
  | cons x s ih =>
    rw [strchr] at h
    split_ifs at h
    · cases h
      exact Nat.succ_pos _
    · obtain ⟨j,hj,rfl⟩ := Option.map_eq_some_iff.mp h
      exact Nat.succ_lt_succ (ih hj)

def cstring (s : List UInt8) : List UInt8 := s.takeWhile (· ≠ 0)

def scan (re buf : List UInt8) (p : ℕ) (out : List UInt8) : List UInt8 × ℕ × List UInt8 :=
  match h : strchr (buf.drop p) NEWLINE with
  | none => (buf,p,out)
  | some k =>
    if matchRe re (cstring ((buf.set (p+k) 0).drop p)) then
      scan re ((buf.set (p+k) 0).set (p+k) NEWLINE) (p+k+1)
        (out++(((buf.set (p+k) 0).set (p+k) NEWLINE).drop p).take (k+1))
    else scan re (buf.set (p+k) 0) (p+k+1) out
termination_by buf.length-p
decreasing_by
  all_goals
    have hk := strchr_lt h
    simp only [List.length_drop, List.length_set] at hk ⊢
    omega

structure State where
  buf : List UInt8
  m : ℕ
  out : List UInt8

def start (buf : List UInt8) : State := ⟨buf,0,[]⟩

def request (s : State) : ℕ := BUFSIZE-s.m-1

def loaded (s : State) (chunk : List UInt8) : List UInt8 :=
  (splice s.buf s.m chunk).set (s.m+chunk.length) 0

def keep (m : ℕ) : List UInt8 × ℕ × List UInt8 → State
  | (buf,p,out) =>
    if p = 0 then ⟨buf,0,out⟩
    else if 0 < m then ⟨splice buf 0 ((buf.drop p).take (m-p)),m-p,out⟩
    else ⟨buf,m,out⟩

def round (re : List UInt8) (s : State) (chunk : List UInt8) : State :=
  keep (s.m+chunk.length) (scan re (loaded s chunk) 0 s.out)

def grep (re buf : List UInt8) (cs : List (List UInt8)) : List UInt8 :=
  (cs.foldl (round re) (start buf)).out

def Legal (re : List UInt8) : State → List (List UInt8) → Prop
  | _, [] => True
  | s, c::cs => c ≠ [] ∧ c.length ≤ request s ∧ Legal re (round re s c) cs

def lines (stream : List UInt8) : List (List UInt8) := pieces NEWLINE [] stream

def selected (re : List UInt8) (L : List (List UInt8)) : List (List UInt8) :=
  L.filter (matchRe re)

def Exact (re buf : List UInt8) (cs : List (List UInt8)) : Prop :=
  grep re buf cs = joined NEWLINE (selected re (lines cs.flatten))

def Unbroken : List (List UInt8) → Prop
  | [] => True
  | c::cs => (NEWLINE ∈ cs.flatten → NEWLINE ∈ c) ∧ Unbroken cs

def kept : List UInt8 → List (List UInt8) → List (List UInt8)
  | _, [] => []
  | held, c::cs => pieces NEWLINE held c++
      kept (if NEWLINE ∈ c then remainder NEWLINE held c else []) cs

section Scan

variable {re buf a b l junk out : List UInt8} {p : ℕ}

theorem strchr_none (h : NEWLINE ∉ l) : strchr (l++0::junk) NEWLINE = none := by
  induction l with
  | nil => simp [strchr]
  | cons x l ih =>
    have hx : x ≠ NEWLINE := fun he => h (by simp [he])
    rw [List.cons_append, strchr, if_neg hx, ih (fun he => h (by simp [he]))]
    simp

theorem strchr_some (h : NEWLINE ∉ a) (h0 : 0 ∉ a) :
    strchr (a++NEWLINE::b) NEWLINE = some a.length := by
  induction a with
  | nil => rfl
  | cons x a ih =>
    have hx : x ≠ NEWLINE := fun he => h (by simp [he])
    have hx0 : x ≠ 0 := fun he => h0 (by simp [he])
    rw [List.cons_append, strchr, if_neg hx0, if_neg hx,
      ih (fun he => h (by simp [he])) (fun he => h0 (by simp [he]))]
    rfl

theorem cstring_append (h0 : 0 ∉ a) : cstring (a++0::b) = a := by
  induction a with
  | nil => rfl
  | cons x a ih =>
    have hx0 : x ≠ 0 := fun he => h0 (by simp [he])
    rw [cstring, List.cons_append, List.takeWhile_cons, if_pos (by simpa using hx0)]
    exact congrArg (x::·) (ih fun he => h0 (by simp [he]))

/-- Storing at the separator behind `a`, seen from `p`. -/
theorem drop_set_at (v x : UInt8) (h : buf.drop p = a++x::b) :
    (buf.set (p+a.length) v).drop p = a++v::b := by
  rw [List.drop_set, if_neg (by omega), h, Nat.add_sub_cancel_left,
    List.set_append_right _ _ le_rfl, Nat.sub_self, List.set_cons_zero]

theorem drop_behind (v x : UInt8) (h : buf.drop p = a++x::b) :
    (buf.set (p+a.length) v).drop (p+a.length+1) = b := by
  rw [List.drop_set_of_lt (by omega), Nat.add_assoc, ← List.drop_drop, h]
  simp

theorem scan_none (h : strchr (buf.drop p) NEWLINE = none) : scan re buf p out = (buf,p,out) := by
  rw [scan]
  split
  · rfl
  · next hk => rw [h] at hk; cases hk

theorem scan_line (h : buf.drop p = a++NEWLINE::b) (ha : NEWLINE ∉ a) (h0 : 0 ∉ a) :
    scan re buf p out = if matchRe re a then
        scan re (buf.set (p+a.length) NEWLINE) (p+a.length+1) (out++(a++[NEWLINE]))
      else scan re (buf.set (p+a.length) 0) (p+a.length+1) out := by
  have hstr : strchr (buf.drop p) NEWLINE = some a.length := by rw [h, strchr_some ha h0]
  have htext : cstring ((buf.set (p+a.length) 0).drop p) = a := by
    rw [drop_set_at 0 NEWLINE h, cstring_append h0]
  have hwritten : ((buf.set (p+a.length) NEWLINE).drop p).take (a.length+1) = a++[NEWLINE] := by
    rw [drop_set_at NEWLINE NEWLINE h, List.append_cons, List.take_left' (by simp)]
  rw [scan]
  split
  · next hk => rw [hstr] at hk; cases hk
  · next k hk =>
    obtain rfl : a.length = k := Option.some.inj (hstr.symm.trans hk)
    rw [htext, List.set_set, hwritten]

/-- The inner loop writes the matching lines and stops behind the last newline.
The induction is on the text, one line at a time. -/
theorem scan_spec (re : List UInt8) (h : buf.drop p = l++0::junk) (h0 : 0 ∉ l) :
    ∃ buf', (∀ out, scan re buf p out = (buf',p+(joined NEWLINE (lines l)).length,
        out++joined NEWLINE (selected re (lines l)))) ∧ buf'.length = buf.length ∧
      buf'.drop (p+(joined NEWLINE (lines l)).length) = remainder NEWLINE [] l++0::junk := by
  induction hn : l.length using Nat.strong_induction_on generalizing buf p l with
  | _ n ih =>
    by_cases hm : NEWLINE ∈ l
    · obtain ⟨a,b,rfl,ha⟩ := exists_first hm
      have ha0 : 0 ∉ a := fun hc => h0 (by simp [hc])
      have hb0 : 0 ∉ b := fun hc => h0 (by simp [hc])
      have hlines : lines (a++NEWLINE::b) = a::lines b := pieces_cons ha
      have hrem : remainder NEWLINE [] (a++NEWLINE::b) = remainder NEWLINE [] b := remainder_cons ha
      have hd : buf.drop p = a++NEWLINE::(b++0::junk) := by
        rw [h, List.append_assoc, List.cons_append]
      have hlen : b.length < n := by
        rw [← hn]
        simp
        omega
      have hp : p+(joined NEWLINE (a::lines b)).length =
          p+a.length+1+(joined NEWLINE (lines b)).length := by
        rw [joined_cons, List.length_append, List.length_cons]
        omega
      rw [hlines, hrem, hp]
      by_cases hre : matchRe re a = true
      · obtain ⟨buf',hs,hl,hdr⟩ := ih b.length hlen (drop_behind NEWLINE NEWLINE hd) hb0 rfl
        refine ⟨buf',fun out => ?_,hl.trans List.length_set,hdr⟩
        rw [scan_line hd ha ha0, if_pos hre, hs, selected, selected, List.filter_cons_of_pos hre]
        simp
      · obtain ⟨buf',hs,hl,hdr⟩ := ih b.length hlen (drop_behind 0 NEWLINE hd) hb0 rfl
        refine ⟨buf',fun out => ?_,hl.trans List.length_set,hdr⟩
        rw [scan_line hd ha ha0, if_neg hre, hs, selected, selected, List.filter_cons_of_neg hre]
    · have hn : lines l = [] := pieces_eq_nil hm
      refine ⟨buf,fun out => ?_,rfl,?_⟩
      · rw [scan_none (by rw [h, strchr_none hm]), hn]
        simp [selected]
      · rw [hn, remainder_eq hm]
        simpa using h

end Scan

structure Holding (s : State) (held : List UInt8) : Prop where
  size : s.buf.length = BUFSIZE
  front : s.buf.take s.m = held
  count : s.m = held.length
  room : held.length+2 ≤ BUFSIZE

section Rounds

variable {re held c : List UInt8} {s : State} {cs : List (List UInt8)}

theorem holding_start {buf : List UInt8} (h : buf.length = BUFSIZE) : Holding (start buf) [] :=
  ⟨h,rfl,rfl,by decide⟩

/-- A read never asks for nothing, so 0 always means the end of the file. -/
theorem request_pos (h : Holding s held) : 0 < request s := by
  have hr := h.room
  rw [request, h.count]
  omega

theorem loaded_eq (h : Holding s held) (hc : c.length ≤ request s) :
    ∃ junk, loaded s c = held++c++0::junk ∧ (held++c++0::junk).length = BUFSIZE := by
  have hm := h.count
  have hs := h.size
  have hr := h.room
  rw [request] at hc
  have hne : s.buf.drop (s.m+c.length) ≠ [] := by
    rw [ne_eq, List.drop_eq_nil_iff]
    omega
  obtain ⟨x,junk,hx⟩ := List.exists_cons_of_ne_nil hne
  refine ⟨junk,?_,?_⟩
  · have hl : (held++c).length = s.m+c.length := by rw [List.length_append, hm]
    rw [loaded, splice, h.front, hx, List.set_append_right _ _ hl.le, hl, Nat.sub_self,
      List.set_cons_zero]
  · have hj := congrArg List.length hx
    simp only [List.length_drop, List.length_cons, List.length_append] at hj ⊢
    omega

theorem splice_front {buf r junk : List UInt8} {p : ℕ} (h : buf.drop p = r++junk) :
    (splice buf 0 ((buf.drop p).take r.length)).length = buf.length ∧
      (splice buf 0 ((buf.drop p).take r.length)).take r.length = r := by
  have hlen := congrArg List.length h
  simp only [List.length_drop, List.length_append] at hlen
  rw [h, List.take_left]
  refine ⟨?_,by simp [splice]⟩
  rw [splice_length (Nat.zero_le _)]
  omega

theorem round_spec (re : List UInt8) (h : Holding s held) (hn : NEWLINE ∉ held) (h0 : 0 ∉ held++c)
    (hc : c.length ≤ request s) :
    Holding (round re s c) (if NEWLINE ∈ c then remainder NEWLINE held c else []) ∧
      (round re s c).out = s.out++joined NEWLINE (selected re (pieces NEWLINE held c)) := by
  obtain ⟨junk,hload,hsize⟩ := loaded_eq h hc
  have hlines : lines (held++c) = pieces NEWLINE held c := pieces_of_notMem hn
  have hrem : remainder NEWLINE [] (held++c) = remainder NEWLINE held c := remainder_of_notMem hn
  have htotal : (joined NEWLINE (pieces NEWLINE held c)).length+(remainder NEWLINE held c).length =
      s.m+c.length := by
    rw [← List.length_append, joined_pieces, List.length_append, h.count]
  have hdrop : (loaded s c).drop 0 = held++c++0::junk := hload
  obtain ⟨buf',hs,hl,hd⟩ := scan_spec re hdrop h0
  rw [hlines, hrem, Nat.zero_add] at hd
  rw [hload, hsize] at hl
  rw [round, hs, hlines, Nat.zero_add, keep]
  by_cases hm : NEWLINE ∈ c
  · obtain ⟨a,b,rfl,ha⟩ := exists_first hm
    have hpos : 0 < (joined NEWLINE (pieces NEWLINE held (a++NEWLINE::b))).length := by
      rw [pieces_cons ha, joined_cons, List.length_append, List.length_cons]
      omega
    have hsub : s.m+(a++NEWLINE::b).length-(joined NEWLINE (pieces NEWLINE held
        (a++NEWLINE::b))).length = (remainder NEWLINE held (a++NEWLINE::b)).length := by omega
    obtain ⟨hlen,hfront⟩ := splice_front hd
    rw [if_pos hm, if_neg hpos.ne', if_pos (by omega), hsub]
    refine ⟨⟨hlen.trans hl,hfront,rfl,?_⟩,rfl⟩
    have hm' := h.count
    have hr := h.room
    rw [request] at hc
    omega
  · rw [if_neg hm, pieces_eq_nil hm, joined_nil, List.length_nil, if_pos rfl]
    exact ⟨⟨hl,rfl,rfl,by decide⟩,rfl⟩

theorem free_front (h0 : 0 ∉ held++(c::cs).flatten) : 0 ∉ held++c :=
  fun hc => h0 (by simp_all)

theorem notMem_next (hn : NEWLINE ∉ held) :
    NEWLINE ∉ (if NEWLINE ∈ c then remainder NEWLINE held c else []) := by
  split
  · exact notMem_remainder hn
  · simp

theorem free_next (h0 : 0 ∉ held++(c::cs).flatten) :
    0 ∉ (if NEWLINE ∈ c then remainder NEWLINE held c else [])++cs.flatten := by
  have hj : joined NEWLINE (pieces NEWLINE held c)++remainder NEWLINE held c = held++c :=
    joined_pieces
  rw [List.flatten_cons, ← List.append_assoc, List.mem_append, not_or] at h0
  rw [List.mem_append, not_or]
  refine ⟨?_,h0.2⟩
  split
  · exact fun hc => h0.1 (hj ▸ List.mem_append_right _ hc)
  · simp

theorem run_spec (h : Holding s held) (hn : NEWLINE ∉ held) (h0 : 0 ∉ held++cs.flatten)
    (hl : Legal re s cs) : (∃ held', Holding (cs.foldl (round re) s) held') ∧
      (cs.foldl (round re) s).out = s.out++joined NEWLINE (selected re (kept held cs)) := by
  induction cs generalizing s held with
  | nil => exact ⟨⟨held,h⟩,by simp [kept, selected]⟩
  | cons c cs ih =>
    obtain ⟨hhold,hout⟩ := round_spec re h hn (free_front h0) hl.2.1
    obtain ⟨hend,hrest⟩ := ih hhold (notMem_next hn) (free_next h0) hl.2.2
    refine ⟨hend,?_⟩
    rw [List.foldl_cons, hrest, hout, kept, selected, selected, selected, List.filter_append,
      joined_append, List.append_assoc]

def Fits : List UInt8 → List (List UInt8) → Prop
  | _, [] => True
  | held, c::cs => c ≠ [] ∧ c.length ≤ BUFSIZE-held.length-1 ∧
      Fits (if NEWLINE ∈ c then remainder NEWLINE held c else []) cs

theorem legal_of_fits (h : Holding s held) (hn : NEWLINE ∉ held) (h0 : 0 ∉ held++cs.flatten)
    (hf : Fits held cs) : Legal re s cs := by
  induction cs generalizing s held with
  | nil => trivial
  | cons c cs ih =>
    obtain ⟨hne,hle,hrest⟩ := hf
    have hreq : c.length ≤ request s := by rwa [request, h.count]
    refine ⟨hne,hreq,ih (round_spec re h hn (free_front h0) hreq).1 (notMem_next hn) ?_ hrest⟩
    exact free_next h0

end Rounds

section Loss

variable {held c g : List UInt8} {cs : List (List UInt8)}

/-- As long as no chunk without a newline stands before one, nothing is lost. -/
theorem kept_of_unbroken (h : Unbroken cs) : kept held cs = pieces NEWLINE held cs.flatten := by
  induction cs generalizing held with
  | nil => rfl
  | cons c cs ih =>
    rw [kept, List.flatten_cons, pieces_append, ih h.2]
    by_cases hc : NEWLINE ∈ c
    · rw [if_pos hc]
    · have hr : NEWLINE ∉ cs.flatten := fun hm => hc (h.1 hm)
      rw [if_neg hc, pieces_eq_nil hr, pieces_eq_nil hr]

theorem unbroken_of_notMem (h : NEWLINE ∉ cs.flatten) : Unbroken cs := by
  induction cs with
  | nil => trivial
  | cons c cs ih =>
    rw [List.flatten_cons, List.mem_append, not_or] at h
    exact ⟨fun hm => absurd hm h.2,ih h.2⟩

theorem kept_length_le (held g : List UInt8) (cs : List (List UInt8)) :
    (joined NEWLINE (kept held cs)).length+
      (if NEWLINE ∈ cs.flatten then g.length else 0) ≤
    (joined NEWLINE (pieces NEWLINE (g++held) cs.flatten)).length := by
  induction cs generalizing held g with
  | nil => simp [kept]
  | cons c cs ih =>
    rw [kept, List.flatten_cons, joined_append, List.length_append]
    by_cases hc : NEWLINE ∈ c
    · obtain ⟨a,b,rfl,ha⟩ := exists_first hc
      have hrest := ih (remainder NEWLINE [] b) []
      have hall : pieces NEWLINE (g++held) (a++NEWLINE::b++cs.flatten) =
          (g++held++a)::(pieces NEWLINE [] b++
            pieces NEWLINE (remainder NEWLINE [] b) cs.flatten) := by
        rw [List.append_assoc, List.cons_append, pieces_cons ha, pieces_append]
      rw [if_pos hc, if_pos (by simp), hall, remainder_cons ha, pieces_cons ha]
      simp only [joined_append, joined_cons, List.length_append, List.length_cons, List.nil_append,
        List.length_nil, ite_self] at hrest ⊢
      omega
    · have hrest := ih [] (g++held++c)
      rw [if_neg hc, pieces_eq_nil hc, pieces_of_notMem hc]
      simp only [List.append_nil, List.length_append, joined_nil, List.length_nil, List.mem_append,
        hc, false_or] at hrest ⊢
      split_ifs at hrest ⊢ <;> omega

theorem kept_length_lt (held : List UInt8) (hne : ∀ c ∈ cs, c ≠ []) (h : ¬Unbroken cs) :
    (joined NEWLINE (kept held cs)).length <
      (joined NEWLINE (pieces NEWLINE held cs.flatten)).length := by
  induction cs generalizing held with
  | nil => exact absurd trivial h
  | cons c cs ih =>
    have hrest : ∀ d ∈ cs, d ≠ [] := fun d hd => hne d (List.mem_cons_of_mem c hd)
    rw [kept, List.flatten_cons, joined_append, List.length_append]
    by_cases hc : NEWLINE ∈ c
    · have hu : ¬Unbroken cs := fun hu => h ⟨fun _ => hc,hu⟩
      have hlt := ih (remainder NEWLINE held c) hrest hu
      rw [if_pos hc, pieces_append, joined_append, List.length_append]
      omega
    · have hin : NEWLINE ∈ cs.flatten := by
        by_contra hno
        exact h ⟨fun hm => absurd hm hno,unbroken_of_notMem hno⟩
      have hle := kept_length_le [] (held++c) cs
      have hpos := List.length_pos_iff.mpr (hne c (by simp))
      rw [if_pos hin, List.append_nil, List.length_append] at hle
      rw [if_neg hc, pieces_eq_nil hc, pieces_of_notMem hc, joined_nil, List.length_nil]
      omega

end Loss

section Runs

variable {re buf : List UInt8} {cs : List (List UInt8)}

theorem grep_kept (hb : buf.length = BUFSIZE) (h0 : 0 ∉ cs.flatten)
    (hl : Legal re (start buf) cs) :
    grep re buf cs = joined NEWLINE (selected re (kept [] cs)) :=
  (run_spec (holding_start hb) (by simp) h0 hl).2

theorem notMem_of_mem_kept {held : List UInt8} (hn : NEWLINE ∉ held) :
    ∀ l ∈ kept held cs, NEWLINE ∉ l := by
  induction cs generalizing held with
  | nil => simp [kept]
  | cons c cs ih =>
    intro l hl
    rcases List.mem_append.mp hl with hl | hl
    · exact notMem_of_mem_pieces hn l hl
    · exact ih (notMem_next hn) l hl

theorem nonempty_of_legal {s : State} (h : Legal re s cs) : ∀ c ∈ cs, c ≠ [] := by
  induction cs generalizing s with
  | nil => simp
  | cons c cs ih =>
    intro d hd
    rcases List.mem_cons.mp hd with rfl | hd
    · exact h.1
    · exact ih h.2.2 d hd

theorem exact_iff (hb : buf.length = BUFSIZE) (h0 : 0 ∉ cs.flatten)
    (hl : Legal re (start buf) cs) :
    Exact re buf cs ↔ selected re (kept [] cs) = selected re (lines cs.flatten) := by
  rw [Exact, grep_kept hb h0 hl]
  apply joined_inj
  · intro l hm
    exact notMem_of_mem_kept (by simp) l (List.mem_filter.mp hm).1
  · intro l hm
    exact notMem_of_mem_pieces (by simp) l (List.mem_filter.mp hm).1

@[simp] theorem selected_nil (L : List (List UInt8)) : selected [] L = L := by
  apply List.filter_eq_self.mpr
  intro l _
  have hne : (0 : UInt8) ≠ CARET := by decide
  cases l <;> simp [matchRe, matchFrom, matchhere, hne]

end Runs

/-- A legal cutting of the stream never makes `read` ask for nothing. For one
pattern the output is right exactly when the pattern picks the same from what is
kept of the lines as from the lines; it is right for every pattern exactly when
no chunk without a newline stands before one. -/
theorem grep_lines_iff (buf : List UInt8) (hb : buf.length = BUFSIZE) (cs : List (List UInt8))
    (h0 : 0 ∉ cs.flatten) (hl : ∀ re, Legal re (start buf) cs) :
    (∀ re, 0 < request (cs.foldl (round re) (start buf))) ∧
    (∀ re, Exact re buf cs ↔ selected re (kept [] cs) = selected re (lines cs.flatten)) ∧
    ((∀ re, Exact re buf cs) ↔ Unbroken cs) := by
  refine ⟨fun re => ?_,fun re => exact_iff hb h0 (hl re),fun h => ?_,fun h re => ?_⟩
  · obtain ⟨held,hh⟩ := (run_spec (holding_start hb) (by simp) h0 (hl re)).1
    exact request_pos hh
  · by_contra hu
    have hall := (exact_iff hb h0 (hl [])).mp (h [])
    rw [selected_nil, selected_nil] at hall
    have hlt := kept_length_lt [] (nonempty_of_legal (hl [])) hu
    rw [hall] at hlt
    exact lt_irrefl _ hlt
  · rw [exact_iff hb h0 (hl re), kept_of_unbroken h]
    rfl

/-- Two lines that come in two chunks, cut inside the second one. -/
theorem grep_lines_two_chunks :
    Exact [98] (List.replicate BUFSIZE 0) [[97,NEWLINE,98],[99,NEWLINE]] ∧
      lines [97,NEWLINE,98,99,NEWLINE] = [[97],[98,99]] := by
  have hb : (List.replicate BUFSIZE (0 : UInt8)).length = BUFSIZE := List.length_replicate
  have hf : Fits [] [[97,NEWLINE,98],[99,NEWLINE]] :=
    ⟨by decide,by decide,by decide,by decide,trivial⟩
  have hl : ∀ re, Legal re (start (List.replicate BUFSIZE 0)) [[97,NEWLINE,98],[99,NEWLINE]] :=
    fun re => legal_of_fits (holding_start hb) (by simp) (by decide) hf
  exact ⟨(grep_lines_iff _ hb _ (by decide) hl).2.2.mpr ⟨by decide,by decide,trivial⟩ [98],rfl⟩

/-- The stream `ab` and a newline with the pattern `a`: cut behind the `a`, the
line is lost; in one chunk it is written. -/
theorem grep_loses_line :
    Legal [97] (start (List.replicate BUFSIZE 0)) [[97],[98,NEWLINE]] ∧
      grep [97] (List.replicate BUFSIZE 0) [[97],[98,NEWLINE]] = [] ∧
      Legal [97] (start (List.replicate BUFSIZE 0)) [[97,98,NEWLINE]] ∧
      grep [97] (List.replicate BUFSIZE 0) [[97,98,NEWLINE]] = [97,98,NEWLINE] := by
  have hb : (List.replicate BUFSIZE (0 : UInt8)).length = BUFSIZE := List.length_replicate
  have hcut : Fits [] [[97],[98,NEWLINE]] := ⟨by decide,by decide,by decide,by decide,trivial⟩
  have hwhole : Fits [] [[97,98,NEWLINE]] := ⟨by decide,by decide,trivial⟩
  have hl : Legal [97] (start (List.replicate BUFSIZE 0)) [[97],[98,NEWLINE]] :=
    legal_of_fits (holding_start hb) (by simp) (by decide) hcut
  have hl' : Legal [97] (start (List.replicate BUFSIZE 0)) [[97,98,NEWLINE]] :=
    legal_of_fits (holding_start hb) (by simp) (by decide) hwhole
  have hkept : kept [] [[97],[98,NEWLINE]] = [[98]] := by decide
  have hkept' : kept [] [[97,98,NEWLINE]] = [[97,98]] := by decide
  have hno : matchRe [97] [98] = false := by
    simp [matchRe, matchFrom, matchhere, CARET, STAR, DOT, DOLLAR]
  have hyes : matchRe [97] [97,98] = true := by
    simp [matchRe, matchFrom, matchhere, CARET, STAR, DOT, DOLLAR]
  refine ⟨hl,?_,hl',?_⟩
  · rw [grep_kept hb (by decide) hl, hkept]
    simp [selected, hno]
  · rw [grep_kept hb (by decide) hl', hkept']
    simp [selected, hyes]

end Xv6.Grep
