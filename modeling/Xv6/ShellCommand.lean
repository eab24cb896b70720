import Mathlib.Data.List.TakeWhile
import Xv6.ShellGrammar

/-!
# The command of a line

`parsecmd` returns the tree of the line or ends in `panic`. `nulterminate` then
puts a NUL behind every word of the tree. No word is cut by this, since what
stands behind a word is never part of one, so every word reads as it stood in
the line.
-/

set_option autoImplicit false

namespace Xv6.Shell
open TransitionRun

def words : Cmd → List Word
  | .exec argv => argv
  | .redir cmd file _ _ => words cmd++[file]
  | .pipe left right => words left++words right
  | .list left right => words left++words right
  | .back cmd => words cmd

section Words

variable {line s : List UInt8} {w : Word} {ts : List Token}

theorem words_wrap (c : Cmd) (rs : List Redirection) :
    words (wrap c rs) = words c++rs.map Redirection.file := by
  induction rs generalizing c with
  | nil => simp [wrap]
  | cons r rs ih =>
    rw [wrap, List.foldl_cons, ← wrap, ih, words]
    simp

theorem words_backs (n : ℕ) (c : Cmd) : words (Cmd.back^[n] c) = words c := by
  induction n generalizing c with
  | zero => rfl
  | succ n ih => exact ih _

def Token.toWord : Token → Option Word
  | .word w => some w
  | _ => none

def lineWords (ts : List Token) : List Word := ts.filterMap Token.toWord

@[simp] theorem lineWords_append (ts ts' : List Token) :
    lineWords (ts++ts') = lineWords ts++lineWords ts' := List.filterMap_append

@[simp] theorem lineWords_cons (t : Token) (ts : List Token) :
    lineWords (t::ts) = t.toWord.toList++lineWords ts := by
  rw [lineWords, List.filterMap_cons]
  cases t.toWord <;> rfl

@[simp] theorem lineWords_ampersands (n : ℕ) :
    lineWords (List.replicate n .ampersand) = [] := by
  induction n with
  | zero => rfl
  | succ n ih => simpa [List.replicate_succ, Token.toWord] using ih

theorem Redirs.files {a : List Token} {rs : List Redirection} (h : Redirs a rs) :
    rs.map Redirection.file = lineWords a := by
  induction h with
  | nil => rfl
  | cons hr _ ih =>
    rw [List.map_cons, ih]
    cases hr <;> rfl

theorem args_words {ws : List Word} {rs : List Redirection} (h : Args ts ws rs) :
    (ws++rs.map Redirection.file).Perm (lineWords ts) := by
  induction h with
  | nil => rfl
  | @cons a ts w ws rs rs' hr _ ih =>
    have hmove := (List.perm_append_comm_assoc ws (rs.map Redirection.file)
      (rs'.map Redirection.file)).trans (ih.append_left _)
    rw [List.map_append, lineWords_cons, lineWords_append, ← hr.files]
    exact hmove.cons w

/-- The words of the tree are the words of the line, each one once. -/
theorem derives_words {p : Part} {c : Cmd} (h : Derives p ts c) :
    (words c).Perm (lineWords ts) := by
  induction h with
  | line n _ ih => simpa [words_backs] using ih
  | lines n _ _ ih1 ih2 => simpa [words, words_backs, Token.toWord] using ih1.append ih2
  | pipe _ ih => exact ih
  | pipes _ _ ih1 ih2 => simpa [words, Token.toWord] using ih1.append ih2
  | block _ hr ih => simpa [words_wrap, hr.files, Token.toWord] using ih.append_right _
  | @words a ts ws rs rs' hr ha _ =>
    have hmove := (List.perm_append_comm_assoc ws (rs.map Redirection.file)
      (rs'.map Redirection.file)).trans ((args_words ha).append_left _)
    rw [words_wrap, words, List.map_append, lineWords_append, ← hr.files]
    exact hmove

theorem mem_lineWords : w ∈ lineWords ts ↔ .word w ∈ ts := by
  rw [lineWords, List.mem_filterMap]
  constructor
  · rintro ⟨t,ht,hw⟩
    cases t <;> cases hw
    exact ht
  · intro h
    exact ⟨_,h,rfl⟩

structure InLine (line : List UInt8) (w : Word) : Prop where
  suffix : w.q <:+ line
  stop : w.eq = wordEnd w.q

theorem tokens_inLine (hs : s <:+ line) : ∀ w, .word w ∈ tokens s → InLine line w := by
  induction hn : s.length using Nat.strong_induction_on generalizing s with
  | _ n ih =>
    subst hn
    intro w hw
    cases hg : gettoken s with
    | mk o r =>
      cases o with
      | none =>
        rw [tokens_none hg] at hw
        cases hw
      | some t =>
        obtain ⟨hr,hlt⟩ := gettoken_some hg
        rw [tokens_some hg, List.mem_cons] at hw
        rcases hw with rfl | hw
        · obtain ⟨h1,-⟩ := Prod.mk.inj hg
          obtain ⟨c,u,-,-,-,hkind⟩ :=
            scan_some (r := (scan (skip s)).2) skip_plain (Prod.ext h1 rfl)
          rcases hkind with ⟨hc,hf⟩ | ⟨-,he,hend⟩
          · rw [← hf] at hc
            exact absurd (show (97 : UInt8) ∈ symbols from hc) (by decide)
          · cases he
            exact ⟨(skip_suffix s).trans hs,hend⟩
        · exact ih _ hlt (hr.trans hs) rfl w hw

end Words

section Terminated

variable {line : List UInt8} {c : Cmd} {w : Word}

def zeroAll (ps : List ℕ) (b : List UInt8) : List UInt8 := ps.foldl (fun b p => b.set p 0) b

theorem nulterminate_eq (line : List UInt8) (c : Cmd) (b : List UInt8) :
    nulterminate line c b = zeroAll ((words c).map fun w => place line w.eq) b := by
  induction c generalizing b with
  | exec argv => rw [nulterminate, words, zeroAll, List.foldl_map]
  | redir c w mode fd ih =>
    rw [nulterminate, ih, words, List.map_append, zeroAll, zeroAll, List.foldl_append]
    rfl
  | pipe l r ihl ihr =>
    rw [nulterminate, ihl, ihr, words, List.map_append, zeroAll, zeroAll, zeroAll,
      List.foldl_append]
  | list l r ihl ihr =>
    rw [nulterminate, ihl, ihr, words, List.map_append, zeroAll, zeroAll, zeroAll,
      List.foldl_append]
  | back c ih =>
    rw [nulterminate, ih]
    rfl

theorem zeroAll_getElem? (ps : List ℕ) (b : List UInt8) (i : ℕ) :
    (zeroAll ps b)[i]? = if i ∈ ps ∧ i < b.length then some 0 else b[i]? := by
  induction ps generalizing b with
  | nil => simp [zeroAll]
  | cons p ps ih =>
    have hstep : zeroAll (p::ps) b = zeroAll ps (b.set p 0) := rfl
    rw [hstep, ih, List.length_set, List.getElem?_set]
    by_cases hip : i = p
    · subst hip
      by_cases hlt : i < b.length
      · simp [hlt]
      · simp [hlt]
    · have hne : ¬p = i := fun he => hip he.symm
      simp [hip, hne]

/-- The string that begins at a place. -/
theorem takeWhile_drop {L t : List UInt8} {a : ℕ} (h0 : 0 ∉ t)
    (ht : ∀ j < t.length, L[a+j]? = t[j]?) (hz : L[a+t.length]? = some 0) :
    (L.drop a).takeWhile (· ≠ 0) = t := by
  induction t generalizing a with
  | nil =>
    rw [List.length_nil, Nat.add_zero] at hz
    obtain ⟨hlt,he⟩ := List.getElem?_eq_some_iff.mp hz
    rw [List.drop_eq_getElem_cons hlt, List.takeWhile_cons, he]
    rfl
  | cons x t ih =>
    obtain ⟨hlt,he⟩ := List.getElem?_eq_some_iff.mp (ht 0 (by simp))
    simp only [Nat.add_zero] at he hlt
    have hx : x ≠ 0 := fun h => h0 (by simp [h])
    have hrest := ih (a := a+1) (fun h => h0 (by simp [h]))
      (fun j hj => by
        have := ht (j+1) (by simpa using hj)
        rw [List.getElem?_cons_succ] at this
        rw [← this]
        congr 1
        omega)
      (by
        rw [← hz, List.length_cons]
        congr 1
        omega)
    rw [List.drop_eq_getElem_cons hlt, List.takeWhile_cons, he, hrest]
    simp [hx]

theorem InLine.split (h : InLine line w) : ∃ pre, line = pre++(w.text++w.eq) ∧
    place line w.q = pre.length ∧ place line w.eq = pre.length+w.text.length ∧
    ∀ x ∈ w.text, Plain x := by
  obtain ⟨pre,hpre⟩ := h.suffix
  have htext : w.text = w.q.takeWhile fun c => decide (Plain c) := by
    have hq : (w.q.takeWhile fun c => decide (Plain c))++w.eq = w.q := by
      rw [h.stop]
      exact List.takeWhile_append_dropWhile
    have hlen := congrArg List.length hq
    rw [List.length_append] at hlen
    have hsub : w.q.length-w.eq.length = (w.q.takeWhile fun c => decide (Plain c)).length := by
      omega
    rw [Word.text, hsub]
    nth_rewrite 2 [← hq]
    exact List.take_left
  have hq : w.text++w.eq = w.q := by
    rw [htext, h.stop]
    exact List.takeWhile_append_dropWhile
  refine ⟨pre,by rw [hq, hpre],?_,?_,fun x hx => ?_⟩
  · rw [place, ← hpre, List.length_append]
    omega
  · rw [place, ← hpre, ← hq, List.length_append, List.length_append]
    omega
  · rw [htext] at hx
    have := List.mem_takeWhile_imp hx
    simpa using this

theorem InLine.stop_plain (h : InLine line w) {x : UInt8}
    (hx : (line)[place line w.eq]? = some x) :
    ¬Plain x := by
  obtain ⟨pre,hline,-,hplace,-⟩ := h.split
  rw [hplace, hline, List.getElem?_append_right (by omega), Nat.add_sub_cancel_left,
    List.getElem?_append_right le_rfl, Nat.sub_self, h.stop] at hx
  obtain ⟨hlt,he⟩ := List.getElem?_eq_some_iff.mp hx
  have hnot := List.dropWhile_get_zero_not (fun c => decide (Plain c)) w.q hlt
  have he' : (w.q.dropWhile fun c => decide (Plain c)).get ⟨0,hlt⟩ = x := he
  rw [he'] at hnot
  exact fun hplain => hnot (decide_eq_true hplain)

theorem nulterminate_reads (h0 : 0 ∉ line) (hc : ∀ w ∈ words c, InLine line w)
    (hw : w ∈ words c) :
    ((nulterminate line c (line++[0])).drop (place line w.q)).takeWhile (· ≠ 0) = w.text := by
  obtain ⟨pre,hline,hq,heq,hplain⟩ := (hc w hw).split
  rw [nulterminate_eq, hq]
  have hlen : line.length = pre.length+(w.text.length+w.eq.length) := by
    rw [hline, List.length_append, List.length_append]
  refine takeWhile_drop (fun hm => h0 ?_) (fun j hj => ?_) ?_
  · rw [hline]
    simp [hm]
  · have hj' : (line)[pre.length+j]? = w.text[j]? := by
      rw [hline, List.getElem?_append_right (by omega), Nat.add_sub_cancel_left,
        List.getElem?_append_left hj]
    have hnot : ¬(pre.length+j ∈ (words c).map fun w => place line w.eq) := by
      intro hm
      obtain ⟨v,hv,he⟩ := List.mem_map.mp hm
      have hx : (line)[place line v.eq]? = some w.text[j] := by
        rw [he, hj', List.getElem?_eq_getElem hj]
      exact (hc v hv).stop_plain hx (hplain _ (List.getElem_mem hj))
    rw [zeroAll_getElem?, if_neg fun h => hnot h.1, List.getElem?_append_left (by omega), hj']
  · rw [zeroAll_getElem?, if_pos]
    refine ⟨List.mem_map.mpr ⟨w,hw,heq⟩,?_⟩
    rw [List.length_append, List.length_singleton]
    omega

end Terminated

theorem skip_eq_nil {line s : List UInt8} (h0 : 0 ∉ line) (hs : s <:+ line) :
    skip s = [] ↔ tokens s = [] := by
  constructor
  · intro h
    refine tokens_none (r := []) ?_
    rw [gettoken, h]
    rfl
  · intro h
    have hz := (gettoken_nil h).2
    cases hsk : skip s with
    | nil => rfl
    | cons c u =>
      refine absurd ?_ h0
      rw [← hz c u hsk]
      exact ((skip_suffix s).trans hs).subset (hsk ▸ List.mem_cons_self)

theorem parsecmd_cases (line : List UInt8) (h0 : 0 ∉ line) :
    (∃ c, Settles (fun k => parsecmd k line) (.ok (c,nulterminate line c (line++[0]))) ∧
      Derives .line (tokens line) c ∧ ∀ c', Derives .line (tokens line) c' → c' = c) ∨
    (∃ msg, Settles (fun k => parsecmd k line) (.error (.panic msg))) ∧
      ∀ c, ¬Derives .line (tokens line) c := by
  have hfound : ∀ c, Derives .line (tokens line) c →
      ∃ s, Settles (fun k => parseline k line) (.ok (c,s)) ∧ tokens s = [] :=
    fun c hc => derives_found hc (List.append_nil _).symm (.inl rfl)
  rcases parse_reads .line line with ⟨msg,herr⟩ | ⟨c,s,hok,ts,htake,hd⟩
  · refine .inr ⟨⟨msg,herr.bind_error⟩,fun c hc => ?_⟩
    obtain ⟨s,hs,-⟩ := hfound c hc
    cases herr.unique hs
  · have hunique : ∀ c', Derives .line (tokens line) c' → c' = c ∧ tokens s = [] := by
      intro c' hc'
      obtain ⟨s',hs',hnil⟩ := hfound c' hc'
      obtain ⟨rfl,rfl⟩ := Prod.mk.inj (Except.ok.inj (hs'.unique hok))
      exact ⟨rfl,hnil⟩
    by_cases hend : tokens s = []
    · left
      have hsk := (skip_eq_nil h0 htake.suffix).mpr hend
      have hts : tokens line = ts := by
        rw [htake.tokens, hend, List.append_nil]
      rw [← hts] at hd
      refine ⟨c,hok.bind ?_,hd,fun c' hc' => (hunique c' hc').1⟩
      simp only [hsk, if_true]
      exact .const _
    · right
      have hsk : ¬skip s = [] := fun h => hend ((skip_eq_nil h0 htake.suffix).mp h)
      refine ⟨⟨"syntax",hok.bind ?_⟩,fun c' hc' => hend (hunique c' hc').2⟩
      simp only [hsk]
      exact .const _

theorem derives_inLine {line : List UInt8} {c : Cmd} (h : Derives .line (tokens line) c) :
    ∀ w ∈ words c, InLine line w := fun w hw =>
  tokens_inLine (List.suffix_refl line) w (mem_lineWords.mp ((derives_words h).mem_iff.mp hw))

/-- The parser accepts exactly the lines of the grammar and returns the tree of
the derivation, in which every word reads as it stood in the line; on every
other line it ends in `panic`. -/
theorem parsecmd_grammar (line : List UInt8) (h0 : 0 ∉ line) :
    (∃ c b, Settles (fun k => parsecmd k line) (.ok (c,b)) ∧ Derives .line (tokens line) c ∧
      (∀ c', Derives .line (tokens line) c' → c' = c) ∧
      ∀ w ∈ words c, (b.drop (place line w.q)).takeWhile (· ≠ 0) = w.text) ∨
    (∃ msg, Settles (fun k => parsecmd k line) (.error (.panic msg))) ∧
      ∀ c, ¬Derives .line (tokens line) c := by
  rcases parsecmd_cases line h0 with ⟨c,hrun,hd,hunique⟩ | hno
  · exact .inl ⟨c,_,hrun,hd,hunique,fun w hw => nulterminate_reads h0 (derives_inLine hd) hw⟩
  · exact .inr hno

/-- The line `a&` is a word in the background. -/
theorem parsecmd_background : ∃ b, Settles (fun k => parsecmd k [97,AMPERSAND])
    (.ok (.back (.exec [⟨[97,AMPERSAND],[AMPERSAND]⟩]),b)) := by
  have hts : tokens [97,AMPERSAND] =
      [.word ⟨[97,AMPERSAND],[AMPERSAND]⟩,.ampersand] := by
    rw [tokens_some (r := [AMPERSAND]) rfl, tokens_some (r := []) rfl, tokens_none (r := []) rfl]
    rfl
  have hd : Derives .line (tokens [97,AMPERSAND])
      (.back (.exec [⟨[97,AMPERSAND],[AMPERSAND]⟩])) := by
    rw [hts]
    exact .line 1 (.pipe (.words .nil (.cons .nil .nil) (by decide)))
  rcases parsecmd_grammar [97,AMPERSAND] (by decide) with ⟨c,b,hrun,-,hunique,-⟩ | ⟨-,hno⟩
  · rw [← hunique _ hd] at hrun
    exact ⟨b,hrun⟩
  · exact absurd hd (hno _)

/-- The strings of the tree are the words of the line, each one once, and each
reads as the characters that stood between its pointers. -/
theorem parsecmd_strings (line : List UInt8) (h0 : 0 ∉ line) (c : Cmd) (b : List UInt8)
    (h : Settles (fun k => parsecmd k line) (.ok (c,b))) :
    (words c).Perm (lineWords (tokens line)) ∧ ∀ w ∈ words c, ∃ before behind,
      line = before++(w.text++behind) ∧ place line w.q = before.length ∧
      place line w.eq = before.length+w.text.length ∧
      (b.drop before.length).takeWhile (· ≠ 0) = w.text := by
  rcases parsecmd_cases line h0 with ⟨c',hrun,hd,-⟩ | ⟨⟨msg,hrun⟩,-⟩
  · cases hrun.unique h
    refine ⟨derives_words hd,fun w hw => ?_⟩
    obtain ⟨pre,hline,hq,heq,-⟩ := (derives_inLine hd w hw).split
    have hreads := nulterminate_reads h0 (derives_inLine hd) hw
    rw [hq] at hreads
    exact ⟨pre,w.eq,hline,hq,heq,hreads⟩
  · cases hrun.unique h

/-- The line `a>b`, where the NUL behind the first word takes the place of `>`. -/
theorem parsecmd_strings_adjacent : ∃ c b,
    Settles (fun k => parsecmd k [97,GREATER,98]) (.ok (c,b)) ∧
    (words c).Perm (lineWords (tokens [97,GREATER,98])) ∧
    ∀ w ∈ words c, (b.drop (place [97,GREATER,98] w.q)).takeWhile (· ≠ 0) = w.text := by
  have hrun : Settles (fun k => parsecmd k [97,GREATER,98])
      (.ok (.redir (.exec [⟨[97,GREATER,98],[GREATER,98]⟩]) ⟨[98],[]⟩ 513 1,[97,0,98,0])) :=
    ⟨6,fun k hk => by
      obtain ⟨i,rfl⟩ := Nat.exists_eq_add_of_le' hk
      rfl⟩
  obtain ⟨hperm,hread⟩ := parsecmd_strings _ (by decide) _ _ hrun
  refine ⟨_,_,hrun,hperm,fun w hw => ?_⟩
  obtain ⟨before,-,-,hq,-,h⟩ := hread w hw
  rw [hq]
  exact h

end Xv6.Shell
