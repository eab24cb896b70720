import Mathlib.Data.List.Infix
import Xv6.TransitionRun

/-!
# Tokens and commands of the shell

A pointer into the line is the rest of the line from there on; the end is the
NUL. The functions of the parser call each other as in `sh.c`; each returns the
command it built and the new `*ps`. A call and a round of a loop take one from
the rounds. The command that `parseexec` returns holds the command that it fills
with words, so a word goes through the redirections around it.
-/

set_option autoImplicit false

namespace Xv6.Shell

abbrev LESS : UInt8 := 60
abbrev BAR : UInt8 := 124
abbrev GREATER : UInt8 := 62
abbrev AMPERSAND : UInt8 := 38
abbrev SEMICOLON : UInt8 := 59
abbrev LPAREN : UInt8 := 40
abbrev RPAREN : UInt8 := 41

def whitespace : List UInt8 := [32,9,13,10,11]

def symbols : List UInt8 := [LESS,BAR,GREATER,AMPERSAND,SEMICOLON,LPAREN,RPAREN]

structure Word where
  q : List UInt8
  eq : List UInt8
  deriving DecidableEq, Repr

def Word.text (w : Word) : List UInt8 := w.q.take (w.q.length-w.eq.length)

inductive Token where
  | bar
  | lparen
  | rparen
  | semicolon
  | ampersand
  | less
  | greater
  | append
  | word (w : Word)
  deriving DecidableEq, Repr

def skip (s : List UInt8) : List UInt8 := s.dropWhile (· ∈ whitespace)

def Plain (c : UInt8) : Prop := c ∉ whitespace ∧ c ∉ symbols

instance (c : UInt8) : Decidable (Plain c) := inferInstanceAs (Decidable (_ ∧ _))

def wordEnd (s : List UInt8) : List UInt8 := s.dropWhile fun c => decide (Plain c)

def symbol (c : UInt8) : Option Token :=
  if c = BAR then some .bar
  else if c = LPAREN then some .lparen
  else if c = RPAREN then some .rparen
  else if c = SEMICOLON then some .semicolon
  else if c = AMPERSAND then some .ampersand
  else if c = LESS then some .less
  else none

def scan : List UInt8 → Option Token × List UInt8
  | [] => (none,[])
  | c::t =>
    if c = 0 then (none,c::t)
    else match symbol c with
      | some k => (some k,t)
      | none =>
        if c = GREATER then
          if t.head? = some GREATER then (some .append,t.drop 1) else (some .greater,t)
        else (some (.word ⟨c::t,wordEnd (c::t)⟩),wordEnd (c::t))

def gettoken (s : List UInt8) : Option Token × List UInt8 :=
  ((scan (skip s)).1,skip (scan (skip s)).2)

def peek (s toks : List UInt8) : Bool :=
  match (skip s).head? with
  | none => false
  | some c => c ≠ 0 && c ∈ toks

theorem skip_skip (s : List UInt8) : skip (skip s) = skip s := by
  induction s with
  | nil => rfl
  | cons c s ih =>
    by_cases hc : c ∈ whitespace
    · have hs : skip (c::s) = skip s := List.dropWhile_cons_of_pos (by simpa using hc)
      rw [hs, ih]
    · have hs : skip (c::s) = c::s := List.dropWhile_cons_of_neg (by simpa using hc)
      rw [hs, hs]

theorem skip_suffix (s : List UInt8) : skip s <:+ s := List.dropWhile_suffix _

variable {s r : List UInt8} {c : UInt8}

theorem skip_head {t : List UInt8} (h : skip s = c::t) : c ∉ whitespace := by
  intro hc
  have hs : skip (c::t) = skip t := List.dropWhile_cons_of_pos (by simpa using hc)
  have hlen := (skip_suffix t).length_le
  rw [← hs, ← h, skip_skip, h, List.length_cons] at hlen
  omega

theorem gettoken_skip (s : List UInt8) : gettoken (skip s) = gettoken s := by
  rw [gettoken, skip_skip, gettoken]

theorem peek_skip (s toks : List UInt8) : peek (skip s) toks = peek s toks := by
  rw [peek, skip_skip, peek]

theorem wordEnd_suffix (s : List UInt8) : wordEnd s <:+ s := List.dropWhile_suffix _

def first : Token → UInt8
  | .bar => BAR
  | .lparen => LPAREN
  | .rparen => RPAREN
  | .semicolon => SEMICOLON
  | .ampersand => AMPERSAND
  | .less => LESS
  | .greater => GREATER
  | .append => GREATER
  | .word _ => 97

theorem symbol_some {k : Token} (h : symbol c = some k) : c ∈ symbols ∧ first k = c := by
  unfold symbol at h
  split_ifs at h with h1 h2 h3 h4 h5 h6 <;> cases h <;> subst c <;> exact ⟨by decide,rfl⟩

theorem symbol_none (h : symbol c = none) (hg : c ≠ GREATER) : c ∉ symbols := by
  unfold symbol at h
  split_ifs at h
  simp only [symbols, List.mem_cons, List.not_mem_nil, or_false]
  tauto

/-- A token takes at least one character, and a word is as long as possible. -/
theorem scan_some {t : Token} (hw : ∀ c u, s = c::u → c ∉ whitespace) (h : scan s = (some t,r)) :
    ∃ c u, s = c::u ∧ c ≠ 0 ∧ r <:+ u ∧
      (c ∈ symbols ∧ first t = c ∨ Plain c ∧ t = .word ⟨s,r⟩ ∧ r = wordEnd s) := by
  cases s with
  | nil => exact absurd (Prod.mk.inj h).1 (by simp)
  | cons c u =>
    rw [scan] at h
    by_cases h0 : c = 0
    · rw [if_pos h0] at h
      exact absurd (Prod.mk.inj h).1 (by simp)
    · refine ⟨c,u,rfl,h0,?_⟩
      rw [if_neg h0] at h
      cases hk : symbol c with
      | some k =>
        rw [hk] at h
        obtain ⟨ht,rfl⟩ := Prod.mk.inj h
        cases ht
        exact ⟨List.suffix_refl _,.inl (symbol_some hk)⟩
      | none =>
        rw [hk] at h
        by_cases hg : c = GREATER
        · have hsym : c ∈ symbols := by simp [hg, symbols]
          simp only [if_pos hg] at h
          split at h
          · obtain ⟨ht,rfl⟩ := Prod.mk.inj h
            cases ht
            exact ⟨List.drop_suffix 1 u,.inl ⟨hsym,hg.symm⟩⟩
          · obtain ⟨ht,rfl⟩ := Prod.mk.inj h
            cases ht
            exact ⟨List.suffix_refl _,.inl ⟨hsym,hg.symm⟩⟩
        · simp only [if_neg hg] at h
          obtain ⟨ht,rfl⟩ := Prod.mk.inj h
          cases ht
          have hplain : Plain c := ⟨hw c u rfl,symbol_none hk hg⟩
          have hend : wordEnd (c::u) = wordEnd u :=
            List.dropWhile_cons_of_pos (by simpa using hplain)
          exact ⟨hend ▸ wordEnd_suffix u,.inr ⟨hplain,rfl,rfl⟩⟩

theorem scan_none (h : (scan s).1 = none) : (scan s).2 = s ∧ ∀ c u, s = c::u → c = 0 := by
  cases s with
  | nil => exact ⟨rfl,fun c u he => by cases he⟩
  | cons c u =>
    by_cases h0 : c = 0
    · rw [scan, if_pos h0]
      refine ⟨rfl,fun c' u' he => ?_⟩
      obtain ⟨rfl,-⟩ := List.cons.inj he
      exact h0
    · rw [scan, if_neg h0] at h
      split at h
      · cases h
      · split at h
        · split at h <;> cases h
        · cases h

theorem skip_plain : ∀ c u, skip s = c::u → c ∉ whitespace :=
  fun _ _ h => skip_head h

theorem gettoken_some {t : Token} (h : gettoken s = (some t,r)) :
    r <:+ s ∧ r.length < s.length := by
  obtain ⟨h1,rfl⟩ := Prod.mk.inj h
  obtain ⟨c,u,hs,-,hr,-⟩ := scan_some (r := (scan (skip s)).2) skip_plain (Prod.ext h1 rfl)
  have hu : skip (scan (skip s)).2 <:+ u := (skip_suffix _).trans hr
  have hcu : c::u <:+ s := hs ▸ skip_suffix s
  refine ⟨(hu.trans (List.suffix_cons c u)).trans hcu,?_⟩
  have h2 := hu.length_le
  have h3 := hcu.length_le
  rw [List.length_cons] at h3
  omega

def tokens (s : List UInt8) : List Token :=
  match _h : gettoken s with
  | (none,_) => []
  | (some t,r) => t::tokens r
termination_by s.length
decreasing_by exact (gettoken_some _h).2

theorem tokens_none (h : gettoken s = (none,r)) : tokens s = [] := by
  rw [tokens]
  split
  · rfl
  · rename_i h'
    rw [h] at h'
    cases h'

theorem tokens_some {t : Token} (h : gettoken s = (some t,r)) : tokens s = t::tokens r := by
  rw [tokens]
  split
  · rename_i h'
    rw [h] at h'
    cases h'
  · rename_i h'
    rw [h] at h'
    obtain ⟨ht,rfl⟩ := Prod.mk.inj h'
    cases ht
    rfl

theorem tokens_skip (s : List UInt8) : tokens (skip s) = tokens s := by
  cases h : gettoken s with
  | mk o r =>
    have h' : gettoken (skip s) = (o,r) := (gettoken_skip s).trans h
    cases o with
    | none => rw [tokens_none h, tokens_none h']
    | some t => rw [tokens_some h, tokens_some h']

/-- `gettoken` returns the first token, and the others are left. -/
theorem gettoken_tokens {t : Token} {ts : List Token} (h : tokens s = t::ts) :
    ∃ r, gettoken s = (some t,r) ∧ tokens r = ts := by
  cases hg : gettoken s with
  | mk o r =>
    cases o with
    | none =>
      rw [tokens_none hg] at h
      cases h
    | some t' =>
      rw [tokens_some hg] at h
      obtain ⟨rfl,rfl⟩ := List.cons.inj h
      exact ⟨r,rfl,rfl⟩

theorem gettoken_nil (h : tokens s = []) :
    gettoken s = (none,skip s) ∧ ∀ c u, skip s = c::u → c = 0 := by
  cases hg : gettoken s with
  | mk o r =>
    cases o with
    | some t =>
      rw [tokens_some hg] at h
      cases h
    | none =>
      obtain ⟨h1,h2⟩ := Prod.mk.inj hg
      obtain ⟨h3,h4⟩ := scan_none h1
      rw [h3, skip_skip] at h2
      rw [h2]
      exact ⟨rfl,h2 ▸ h4⟩

def starts (ts : List Token) (toks : List UInt8) : Bool := ts.head?.any fun t => first t ∈ toks

/-- `peek` looks at the first token. -/
theorem peek_eq (s toks : List UInt8) (htoks : ∀ c ∈ toks, c ∈ symbols) :
    peek s toks = starts (tokens s) toks := by
  cases hts : tokens s with
  | nil =>
    obtain ⟨-,h0⟩ := gettoken_nil hts
    rw [peek]
    cases hs : skip s with
    | nil => rfl
    | cons c u => simp [starts, h0 c u hs]
  | cons t ts =>
    obtain ⟨r,hg,-⟩ := gettoken_tokens hts
    obtain ⟨h1,-⟩ := Prod.mk.inj hg
    obtain ⟨c,u,hs,h0,-,hkind⟩ := scan_some (r := (scan (skip s)).2) skip_plain (Prod.ext h1 rfl)
    rw [peek, hs]
    rcases hkind with ⟨-,hf⟩ | ⟨hplain,rfl,-⟩
    · simp [starts, hf, h0]
    · have hc : c ∉ toks := fun hm => hplain.2 (htoks c hm)
      have ha : (97 : UInt8) ∉ toks := fun hm => absurd (htoks 97 hm) (by decide)
      simp [starts, first, hc, ha]

def MAXARGS : ℕ := 10

def O_RDONLY : ℕ := 0
def O_WRONLY : ℕ := 1
def O_CREATE : ℕ := 0x200

inductive Cmd where
  | exec (argv : List Word)
  | redir (cmd : Cmd) (file : Word) (mode fd : ℕ)
  | pipe (left right : Cmd)
  | list (left right : Cmd)
  | back (cmd : Cmd)
  deriving DecidableEq, Repr

inductive Err where
  | rounds
  | panic (msg : String)
  deriving DecidableEq, Repr

abbrev Parse := Except Err (Cmd × List UInt8)

def addArg (w : Word) : Cmd → Cmd
  | .exec argv => .exec (argv++[w])
  | .redir cmd file mode fd => .redir (addArg w cmd) file mode fd
  | cmd => cmd

def redirect (cmd : Cmd) (file : Word) : Option Token → Cmd
  | some .less => .redir cmd file O_RDONLY 0
  | some .greater => .redir cmd file (O_WRONLY ||| O_CREATE) 1
  | some .append => .redir cmd file (O_WRONLY ||| O_CREATE) 1
  | _ => cmd

def parseredirs : ℕ → Cmd → List UInt8 → Parse
  | 0, _, _ => .error .rounds
  | k+1, cmd, s =>
    if peek s [LESS,GREATER] then
      match gettoken (gettoken (skip s)).2 with
      | (some (.word w),r) => parseredirs k (redirect cmd w (gettoken (skip s)).1) r
      | _ => .error (.panic "missing file for redirection")
    else .ok (cmd,skip s)

def parseargs : ℕ → ℕ → Cmd → List UInt8 → Parse
  | 0, _, _, _ => .error .rounds
  | k+1, argc, ret, s =>
    if peek s [BAR,RPAREN,AMPERSAND,SEMICOLON] then .ok (ret,skip s)
    else match gettoken (skip s) with
      | (none,r) => .ok (ret,r)
      | (some (.word w),r) =>
        if MAXARGS ≤ argc+1 then .error (.panic "too many args")
        else (parseredirs k (addArg w ret) r).bind fun t => parseargs k (argc+1) t.1 t.2
      | _ => .error (.panic "syntax")

def parsebacks : ℕ → Cmd → List UInt8 → Parse
  | 0, _, _ => .error .rounds
  | k+1, cmd, s =>
    if peek s [AMPERSAND] then parsebacks k (.back cmd) (gettoken (skip s)).2
    else .ok (cmd,skip s)

mutual

def parseline : ℕ → List UInt8 → Parse
  | 0, _ => .error .rounds
  | k+1, s =>
    (parsepipe k s).bind fun t => (parsebacks k t.1 t.2).bind fun t =>
      if peek t.2 [SEMICOLON] then
        (parseline k (gettoken (skip t.2)).2).map fun u => (.list t.1 u.1,u.2)
      else .ok (t.1,skip t.2)

def parsepipe : ℕ → List UInt8 → Parse
  | 0, _ => .error .rounds
  | k+1, s =>
    (parseexec k s).bind fun t =>
      if peek t.2 [BAR] then
        (parsepipe k (gettoken (skip t.2)).2).map fun u => (.pipe t.1 u.1,u.2)
      else .ok (t.1,skip t.2)

def parseexec : ℕ → List UInt8 → Parse
  | 0, _ => .error .rounds
  | k+1, s =>
    if peek s [LPAREN] then parseblock k (skip s)
    else (parseredirs k (.exec []) (skip s)).bind fun t => parseargs k 0 t.1 t.2

def parseblock : ℕ → List UInt8 → Parse
  | 0, _ => .error .rounds
  | k+1, s =>
    if peek s [LPAREN] then
      (parseline k (gettoken (skip s)).2).bind fun t =>
        if peek t.2 [RPAREN] then parseredirs k t.1 (gettoken (skip t.2)).2
        else .error (.panic "syntax - missing )")
    else .error (.panic "parseblock")

end

def place (line p : List UInt8) : ℕ := line.length-p.length

def nulterminate (line : List UInt8) : Cmd → List UInt8 → List UInt8
  | .exec argv, b => argv.foldl (fun b w => b.set (place line w.eq) 0) b
  | .redir cmd file _ _, b => (nulterminate line cmd b).set (place line file.eq) 0
  | .pipe left right, b => nulterminate line right (nulterminate line left b)
  | .list left right, b => nulterminate line right (nulterminate line left b)
  | .back cmd, b => nulterminate line cmd b

def parsecmd (k : ℕ) (line : List UInt8) : Except Err (Cmd × List UInt8) :=
  (parseline k line).bind fun t =>
    if skip t.2 = [] then .ok (t.1,nulterminate line t.1 (line++[0]))
    else .error (.panic "syntax")

end Xv6.Shell
