import Xv6.ShellParser

/-!
# The grammar of command lines

A line is a pipe with any number of `&` behind it, and after a `;` another line;
a pipe is one or more commands; a command is a line in parentheses with
redirections, or words and redirections. By induction over the tokens every
function ends with a command for those it has taken or in `panic`; by induction
over the derivation, it finds every command that nothing continues.
-/

set_option autoImplicit false

namespace Xv6.Shell
open TransitionRun

structure Redirection where
  file : Word
  mode : ℕ
  fd : ℕ

inductive IsRedir : List Token → Redirection → Prop
  | input (w : Word) : IsRedir [.less,.word w] ⟨w,O_RDONLY,0⟩
  | output (w : Word) : IsRedir [.greater,.word w] ⟨w,O_WRONLY ||| O_CREATE,1⟩
  | append (w : Word) : IsRedir [.append,.word w] ⟨w,O_WRONLY ||| O_CREATE,1⟩

inductive Redirs : List Token → List Redirection → Prop
  | nil : Redirs [] []
  | cons {a ts : List Token} {r : Redirection} {rs : List Redirection} : IsRedir a r →
      Redirs ts rs → Redirs (a++ts) (r::rs)

inductive Args : List Token → List Word → List Redirection → Prop
  | nil : Args [] [] []
  | cons {a ts : List Token} {w : Word} {ws : List Word} {rs rs' : List Redirection} :
      Redirs a rs → Args ts ws rs' → Args (.word w::(a++ts)) (w::ws) (rs++rs')

def wrap (c : Cmd) (rs : List Redirection) : Cmd :=
  rs.foldl (fun c r => .redir c r.file r.mode r.fd) c

inductive Part where
  | line
  | pipe
  | exec

inductive Derives : Part → List Token → Cmd → Prop
  | line {ts : List Token} {c : Cmd} (n : ℕ) : Derives .pipe ts c →
      Derives .line (ts++List.replicate n .ampersand) (Cmd.back^[n] c)
  | lines {ts ts' : List Token} {c c' : Cmd} (n : ℕ) : Derives .pipe ts c →
      Derives .line ts' c' →
      Derives .line (ts++(List.replicate n .ampersand++.semicolon::ts')) (.list (Cmd.back^[n] c) c')
  | pipe {ts : List Token} {c : Cmd} : Derives .exec ts c → Derives .pipe ts c
  | pipes {ts ts' : List Token} {c c' : Cmd} : Derives .exec ts c → Derives .pipe ts' c' →
      Derives .pipe (ts++.bar::ts') (.pipe c c')
  | block {ts a : List Token} {c : Cmd} {rs : List Redirection} : Derives .line ts c →
      Redirs a rs → Derives .exec (.lparen::(ts++.rparen::a)) (wrap c rs)
  | words {a ts : List Token} {ws : List Word} {rs rs' : List Redirection} : Redirs a rs →
      Args ts ws rs' → ws.length < MAXARGS → Derives .exec (a++ts) (wrap (.exec ws) (rs++rs'))

def parse : Part → ℕ → List UInt8 → Parse
  | .line => parseline
  | .pipe => parsepipe
  | .exec => parseexec

def Yields (call : ℕ → Parse) (P : Cmd → List UInt8 → Prop) : Prop :=
  (∃ msg, Settles call (.error (.panic msg))) ∨ ∃ c s, Settles call (.ok (c,s)) ∧ P c s

section Rules

variable {P Q : Cmd → List UInt8 → Prop} {c : Cmd} {s : List UInt8}

theorem Yields.ok (h : P c s) : Yields (fun _ => .ok (c,s)) P := .inr ⟨c,s,.const _,h⟩

theorem Yields.panic (msg : String) : Yields (fun _ => .error (.panic msg)) P :=
  .inl ⟨msg,.const _⟩

theorem Yields.succ {call : ℕ → Parse} (h : Yields (fun k => call (k+1)) P) : Yields call P := by
  rcases h with ⟨msg,h⟩ | ⟨c,s,h,hp⟩
  · exact .inl ⟨msg,h.succ⟩
  · exact .inr ⟨c,s,h.succ,hp⟩

theorem Yields.imp {call : ℕ → Parse} (h : Yields call P) (hpq : ∀ c s, P c s → Q c s) :
    Yields call Q := by
  rcases h with ⟨msg,h⟩ | ⟨c,s,h,hp⟩
  · exact .inl ⟨msg,h⟩
  · exact .inr ⟨c,s,h,hpq c s hp⟩

theorem Yields.bind {x : ℕ → Parse} {f : ℕ → Cmd × List UInt8 → Parse} (h : Yields x P)
    (h' : ∀ c s, P c s → Yields (fun k => f k (c,s)) Q) :
    Yields (fun k => (x k).bind (f k)) Q := by
  rcases h with ⟨msg,h⟩ | ⟨c,s,h,hp⟩
  · exact .inl ⟨msg,h.bind_error⟩
  · rcases h' c s hp with ⟨msg,h2⟩ | ⟨c',s',h2,hq⟩
    · exact .inl ⟨msg,h.bind h2⟩
    · exact .inr ⟨c',s',h.bind h2,hq⟩

theorem Yields.map {x : ℕ → Parse} {g : Cmd → Cmd} (h : Yields x fun c s => P (g c) s) :
    Yields (fun k => (x k).map fun u => (g u.1,u.2)) P := by
  rcases h with ⟨msg,h⟩ | ⟨c,s,h,hp⟩
  · exact .inl ⟨msg,h.map⟩
  · exact .inr ⟨g c,s,h.map,hp⟩

end Rules

theorem addArg_wrap (w : Word) (ws : List Word) (rs : List Redirection) :
    addArg w (wrap (.exec ws) rs) = wrap (.exec (ws++[w])) rs := by
  induction rs using List.reverseRecOn with
  | nil => rfl
  | append_singleton rs r ih =>
    rw [wrap, List.foldl_append, wrap, List.foldl_append]
    exact congrArg (Cmd.redir · r.file r.mode r.fd) ih

theorem wrap_append (c : Cmd) (rs rs' : List Redirection) :
    wrap c (rs++rs') = wrap (wrap c rs) rs' := List.foldl_append

section Lookahead

variable {ts : List Token} {t : Token}

theorem starts_exists {toks : List UInt8} (h : starts ts toks) :
    ∃ t ts', ts = t::ts' ∧ first t ∈ toks := by
  cases ts with
  | nil => cases h
  | cons t ts => exact ⟨t,ts,rfl,of_decide_eq_true h⟩

/-- The symbols other than `>` are known by their first character. -/
theorem first_injective {u : Token} (h : first t = first u) (hg : first u ≠ GREATER)
    (hw : first u ≠ 97) : t = u := by
  cases u with
  | word w => exact absurd rfl hw
  | greater => exact absurd rfl hg
  | append => exact absurd rfl hg
  | _ =>
    cases t with
    | word w => exact absurd (show (97 : UInt8) = _ from h) (by decide)
    | _ => first | rfl | exact absurd h (by decide)

theorem redirect_spec (cmd : Cmd) (w : Word) (h : first t ∈ [LESS,GREATER]) :
    ∃ r, IsRedir [t,.word w] r ∧
      redirect cmd w (some t) = .redir cmd r.file r.mode r.fd := by
  cases t with
  | less => exact ⟨_,.input w,rfl⟩
  | greater => exact ⟨_,.output w,rfl⟩
  | append => exact ⟨_,.append w,rfl⟩
  | word w' => exact absurd (show (97 : UInt8) ∈ _ from h) (by decide)
  | _ => exact absurd h (by decide)

structure Takes (s : List UInt8) (ts : List Token) (s' : List UInt8) : Prop where
  tokens : tokens s = ts++tokens s'
  suffix : s' <:+ s

theorem Takes.skip (s : List UInt8) : Takes s [] (skip s) := ⟨(tokens_skip s).symm,skip_suffix s⟩

theorem Takes.trans {s s1 s2 : List UInt8} {ts ts' : List Token} (h : Takes s ts s1)
    (h' : Takes s1 ts' s2) : Takes s (ts++ts') s2 := by
  refine ⟨?_,h'.suffix.trans h.suffix⟩
  rw [h.tokens, h'.tokens, List.append_assoc]

theorem Takes.one {s r : List UInt8} (h : gettoken s = (some t,r)) : Takes s [t] r :=
  ⟨tokens_some h,(gettoken_some h).1⟩

def Shorter (s' s : List UInt8) : Prop := (tokens s').length < (tokens s).length

theorem Takes.shorter {s s' : List UInt8} (h : Takes s ts s') (hne : ts ≠ []) :
    Shorter s' s := by
  have hpos := List.length_pos_iff.mpr hne
  rw [Shorter, h.tokens, List.length_append]
  omega

/-- Where `peek` sees a symbol, `gettoken` takes it. -/
theorem peek_some {s toks : List UInt8} (htoks : toks ⊆ symbols) (h : peek s toks) :
    ∃ t r, first t ∈ toks ∧ gettoken (skip s) = (some t,r) ∧ Takes s [t] r := by
  rw [peek_eq s toks htoks] at h
  obtain ⟨t,ts,hts,ht⟩ := starts_exists h
  obtain ⟨r,hg,-⟩ := gettoken_tokens hts
  exact ⟨t,r,ht,(gettoken_skip s).trans hg,.one hg⟩

end Lookahead

section Sound

theorem parseredirs_yields (cmd : Cmd) (s : List UInt8) :
    Yields (fun k => parseredirs k cmd s) fun c s' =>
      ∃ a rs, Takes s a s' ∧ Redirs a rs ∧ c = wrap cmd rs := by
  induction hn : (tokens s).length using Nat.strong_induction_on generalizing cmd s with
  | _ n ih =>
    subst hn
    apply Yields.succ
    simp only [parseredirs]
    by_cases hp : peek s [LESS,GREATER]
    · obtain ⟨t,r,ht,hg,hs⟩ := peek_some (by decide) hp
      simp only [hp, if_true, hg]
      cases hg' : gettoken r with
      | mk o r' =>
        cases o with
        | none => exact .panic _
        | some t' =>
          cases t' with
          | word w =>
            have hr := hs.trans (.one hg')
            obtain ⟨x,hx,hx'⟩ := redirect_spec cmd w ht
            refine (ih _ (hr.shorter (by simp)) (redirect cmd w (some t)) r' rfl).imp ?_
            rintro c s' ⟨a,rs,h1,h2,rfl⟩
            refine ⟨[t,.word w]++a,x::rs,hr.trans h1,.cons hx h2,?_⟩
            rw [hx']
            rfl
          | _ => exact .panic _
    · simp only [hp]
      exact .ok ⟨[],[],.skip s,.nil,rfl⟩

theorem parsebacks_yields (cmd : Cmd) (s : List UInt8) :
    Yields (fun k => parsebacks k cmd s) fun c s' =>
      ∃ n, Takes s (List.replicate n .ampersand) s' ∧ c = Cmd.back^[n] cmd := by
  induction hn : (tokens s).length using Nat.strong_induction_on generalizing cmd s with
  | _ n ih =>
    subst hn
    apply Yields.succ
    simp only [parsebacks]
    by_cases hp : peek s [AMPERSAND]
    · obtain ⟨t,r,ht,hg,hs⟩ := peek_some (by decide) hp
      obtain rfl : t = .ampersand :=
        first_injective (List.mem_singleton.mp ht) (by decide) (by decide)
      simp only [hp, if_true, hg]
      refine (ih _ (hs.shorter (by simp)) (.back cmd) r rfl).imp ?_
      rintro c s' ⟨n,h1,rfl⟩
      exact ⟨n+1,hs.trans h1,rfl⟩
    · simp only [hp]
      exact .ok ⟨0,.skip s,rfl⟩

theorem parseargs_yields (ws : List Word) (rs : List Redirection) (s : List UInt8)
    (hws : ws.length < MAXARGS) :
    Yields (fun k => parseargs k ws.length (wrap (.exec ws) rs) s) fun c s' =>
      ∃ ts ws' rs', Takes s ts s' ∧ Args ts ws' rs' ∧ (ws++ws').length < MAXARGS ∧
        c = wrap (.exec (ws++ws')) (rs++rs') := by
  induction hn : (tokens s).length using Nat.strong_induction_on generalizing ws rs s with
  | _ n ih =>
    subst hn
    apply Yields.succ
    simp only [parseargs]
    have hnil : ∃ ts ws' rs', Takes s ts (skip s) ∧ Args ts ws' rs' ∧
        (ws++ws').length < MAXARGS ∧ wrap (.exec ws) rs = wrap (.exec (ws++ws')) (rs++rs') :=
      ⟨[],[],[],.skip s,.nil,by simpa using hws,by simp⟩
    by_cases hp : peek s [BAR,RPAREN,AMPERSAND,SEMICOLON]
    · simp only [hp, if_true]
      exact .ok hnil
    · simp only [hp, gettoken_skip]
      cases hg : gettoken s with
      | mk o r =>
        cases o with
        | none =>
          have hr := (gettoken_nil (tokens_none hg)).1
          rw [hg] at hr
          obtain ⟨-,rfl⟩ := Prod.mk.inj hr
          exact .ok hnil
        | some t =>
          cases t with
          | word w =>
            have hs := Takes.one hg
            by_cases hmax : MAXARGS ≤ ws.length+1
            · simp only [hmax, if_true]
              exact .panic _
            · simp only [hmax, if_false, addArg_wrap]
              refine (parseredirs_yields (wrap (.exec (ws++[w])) rs) r).bind ?_
              rintro c s1 ⟨a,rs1,h1,h2,rfl⟩
              have hs1 := hs.trans h1
              have hlen : (ws++[w]).length = ws.length+1 := by simp
              rw [← wrap_append, ← hlen]
              refine (ih _ (hs1.shorter (by simp)) (ws++[w]) (rs++rs1) s1 (by omega) rfl).imp ?_
              rintro c s2 ⟨ts,ws',rs',h3,h4,h5,rfl⟩
              refine ⟨.word w::(a++ts),w::ws',rs1++rs',hs1.trans h3,.cons h2 h4,?_,?_⟩
              · simpa using h5
              · simp
          | _ => exact .panic _

def Reads (p : Part) (s : List UInt8) : Prop :=
  Yields (fun k => parse p k s) fun c s' => ∃ ts, Takes s ts s' ∧ Derives p ts c

variable {s : List UInt8}

theorem block_reads (hp : peek s [LPAREN]) (hline : ∀ s', Shorter s' s → Reads .line s') :
    Yields (fun k => parseblock k (skip s)) fun c s' => ∃ ts, Takes s ts s' ∧
      Derives .exec ts c := by
  obtain ⟨t,r,ht,hg,hs⟩ := peek_some (by decide) hp
  obtain rfl : t = .lparen := first_injective (List.mem_singleton.mp ht) (by decide) (by decide)
  apply Yields.succ
  simp only [parseblock, peek_skip, hp, if_true, skip_skip, hg]
  refine (hline r (hs.shorter (by simp))).bind ?_
  rintro c s1 ⟨ts,h1,h2⟩
  by_cases hp' : peek s1 [RPAREN]
  · obtain ⟨t',r',ht',hg',hs'⟩ := peek_some (by decide) hp'
    obtain rfl : t' = .rparen :=
      first_injective (List.mem_singleton.mp ht') (by decide) (by decide)
    simp only [hp', if_true, hg']
    refine (parseredirs_yields c r').imp ?_
    rintro c' s2 ⟨a,rs,h3,h4,rfl⟩
    exact ⟨.lparen::(ts++.rparen::a),hs.trans (h1.trans (hs'.trans h3)),.block h2 h4⟩
  · simp only [hp']
    exact .panic _

theorem exec_reads (hline : ∀ s', Shorter s' s → Reads .line s') : Reads .exec s := by
  apply Yields.succ
  simp only [parse, parseexec]
  by_cases hp : peek s [LPAREN]
  · simp only [hp, if_true]
    exact block_reads hp hline
  · simp only [hp]
    refine (parseredirs_yields (.exec []) (skip s)).bind ?_
    rintro c s1 ⟨a,rs,h1,h2,rfl⟩
    refine (parseargs_yields [] rs s1 (by decide)).imp ?_
    rintro c s2 ⟨ts,ws,rs',h3,h4,h5,rfl⟩
    exact ⟨a++ts,(Takes.skip s).trans (h1.trans h3),.words h2 h4 (by simpa using h5)⟩

theorem pipe_reads (hexec : Reads .exec s) (hpipe : ∀ s', Shorter s' s → Reads .pipe s') :
    Reads .pipe s := by
  apply Yields.succ
  simp only [parse, parsepipe]
  refine hexec.bind ?_
  rintro c s1 ⟨ts,h1,h2⟩
  by_cases hp : peek s1 [BAR]
  · obtain ⟨t,r,ht,hg,hs⟩ := peek_some (by decide) hp
    obtain rfl : t = .bar := first_injective (List.mem_singleton.mp ht) (by decide) (by decide)
    simp only [hp, if_true, hg]
    refine Yields.map ((hpipe r ((h1.trans hs).shorter (by simp))).imp ?_)
    rintro c' s2 ⟨ts',h3,h4⟩
    exact ⟨ts++.bar::ts',h1.trans (hs.trans h3),.pipes h2 h4⟩
  · simp only [hp]
    refine .ok ⟨ts,?_,.pipe h2⟩
    rw [← List.append_nil ts]
    exact h1.trans (.skip s1)

theorem line_reads (hpipe : Reads .pipe s) (hline : ∀ s', Shorter s' s → Reads .line s') :
    Reads .line s := by
  apply Yields.succ
  simp only [parse, parseline]
  refine hpipe.bind ?_
  rintro c s1 ⟨ts,h1,h2⟩
  refine (parsebacks_yields c s1).bind ?_
  rintro c' s2 ⟨n,h3,rfl⟩
  by_cases hp : peek s2 [SEMICOLON]
  · obtain ⟨t,r,ht,hg,hs⟩ := peek_some (by decide) hp
    obtain rfl : t = .semicolon :=
      first_injective (List.mem_singleton.mp ht) (by decide) (by decide)
    simp only [hp, if_true, hg]
    refine Yields.map ((hline r ((h1.trans (h3.trans hs)).shorter (by simp))).imp ?_)
    rintro c'' s3 ⟨ts',h4,h5⟩
    exact ⟨_,h1.trans (h3.trans (hs.trans h4)),.lines n h2 h5⟩
  · simp only [hp]
    refine .ok ⟨ts++List.replicate n .ampersand,?_,.line n h2⟩
    rw [← List.append_nil (ts++_)]
    exact (h1.trans h3).trans (.skip s2)

/-- Every part of the parser ends on every line. -/
theorem parse_reads (p : Part) (s : List UInt8) : Reads p s := by
  induction hn : (tokens s).length using Nat.strong_induction_on generalizing p s with
  | _ n ih =>
    subst hn
    have hshort : ∀ p s', Shorter s' s → Reads p s' := fun p s' hs' => ih _ hs' p s' rfl
    have hexec := exec_reads (hshort .line)
    have hpipe := pipe_reads hexec (hshort .pipe)
    cases p with
    | exec => exact hexec
    | pipe => exact hpipe
    | line => exact line_reads hpipe (hshort .line)

end Sound

section Complete

def Ends (toks : List UInt8) (ts : List Token) : Prop := ts = [] ∨ starts ts toks

def follow : Part → List UInt8
  | .line => [RPAREN]
  | .pipe => [RPAREN,AMPERSAND,SEMICOLON]
  | .exec => [RPAREN,AMPERSAND,SEMICOLON,BAR]

variable {toks toks' : List UInt8} {ts rest a : List Token} {s : List UInt8} {rs : List Redirection}

theorem Ends.mono (h : Ends toks ts) (hsub : toks ⊆ toks') : Ends toks' ts := by
  refine h.imp_right fun hs => ?_
  obtain ⟨t,ts',rfl,ht⟩ := starts_exists hs
  exact decide_eq_true (hsub ht)

theorem Ends.not_starts (h : Ends toks ts) (hd : toks.all (· ∉ toks')) :
    starts ts toks' = false := by
  rcases h with rfl | hs
  · rfl
  · obtain ⟨t,ts',rfl,ht⟩ := starts_exists hs
    exact decide_eq_false (of_decide_eq_true (List.all_eq_true.mp hd _ ht))

theorem peek_false (toks : List UInt8) (hts : tokens s = ts) (h : starts ts toks = false)
    (htoks : toks ⊆ symbols) : peek s toks = false := by
  rw [peek_eq s toks htoks, hts, h]

/-- The next token is taken where `peek` sees it. -/
theorem peek_take (toks : List UInt8) {t : Token} (hts : tokens s = t::ts) (ht : first t ∈ toks)
    (htoks : toks ⊆ symbols) :
    peek s toks = true ∧ ∃ r, gettoken (skip s) = (some t,r) ∧ tokens r = ts := by
  obtain ⟨r,hg,hr⟩ := gettoken_tokens hts
  refine ⟨?_,r,(gettoken_skip s).trans hg,hr⟩
  rw [peek_eq s toks htoks, hts]
  exact decide_eq_true ht

theorem IsRedir.tokens {r : Redirection} (h : IsRedir a r) :
    ∃ t w, a = [t,.word w] ∧ first t ∈ [LESS,GREATER] ∧
      ∀ cmd, redirect cmd w (some t) = .redir cmd r.file r.mode r.fd := by
  cases h with
  | input w => exact ⟨.less,w,rfl,by decide,fun _ => rfl⟩
  | output w => exact ⟨.greater,w,rfl,by decide,fun _ => rfl⟩
  | append w => exact ⟨.append,w,rfl,by decide,fun _ => rfl⟩

theorem redirs_found (h : Redirs a rs) (cmd : Cmd) (hs : tokens s = a++rest)
    (hrest : starts rest [LESS,GREATER] = false) :
    ∃ s', Settles (fun k => parseredirs k cmd s) (.ok (wrap cmd rs,s')) ∧ tokens s' = rest := by
  induction h generalizing cmd s with
  | nil =>
    refine ⟨skip s,Settles.succ ?_,(tokens_skip s).trans hs⟩
    simp only [parseredirs, peek_false _ hs hrest (by decide)]
    exact .const _
  | cons hr _ ih =>
    obtain ⟨t,w,rfl,ht,hcmd⟩ := hr.tokens
    obtain ⟨hp,r1,hg1,hr1⟩ := peek_take _ hs ht (by decide)
    obtain ⟨r2,hg2,hr2⟩ := gettoken_tokens hr1
    obtain ⟨s',hrun,hs'⟩ := ih (redirect cmd w (some t)) hr2
    refine ⟨s',Settles.succ ?_,hs'⟩
    simp only [parseredirs, hp, if_true, hg1, hg2]
    rw [hcmd] at hrun ⊢
    exact hrun

theorem backs_found (n : ℕ) (cmd : Cmd) (hs : tokens s = List.replicate n .ampersand++rest)
    (hrest : starts rest [AMPERSAND] = false) :
    ∃ s', Settles (fun k => parsebacks k cmd s) (.ok (Cmd.back^[n] cmd,s')) ∧
      tokens s' = rest := by
  induction n generalizing cmd s with
  | zero =>
    refine ⟨skip s,Settles.succ ?_,(tokens_skip s).trans hs⟩
    simp only [parsebacks, peek_false _ hs hrest (by decide)]
    exact .const _
  | succ n ih =>
    obtain ⟨hp,r,hg,hr⟩ := peek_take [AMPERSAND] hs (by decide) (by decide)
    obtain ⟨s',hrun,hs'⟩ := ih (.back cmd) hr
    refine ⟨s',Settles.succ ?_,hs'⟩
    simp only [parsebacks, hp, if_true, hg]
    exact hrun

theorem Args.not_starts {ws : List Word} (h : Args ts ws rs) (hrest : Ends (follow .exec) rest)
    (hd : (97::follow .exec).all (· ∉ toks)) : starts (ts++rest) toks = false := by
  rw [List.all_cons, Bool.and_eq_true] at hd
  cases h with
  | nil => exact hrest.not_starts hd.2
  | cons _ _ => exact decide_eq_false (of_decide_eq_true hd.1)

theorem Redirs.not_lparen (h : Redirs a rs) (hts : starts ts [LPAREN] = false) :
    starts (a++ts) [LPAREN] = false := by
  cases h with
  | nil => exact hts
  | cons hr _ =>
    cases hr with
    | input w => rfl
    | output w => rfl
    | append w => rfl

theorem args_found {ws' : List Word} {rs' : List Redirection} (h : Args ts ws' rs')
    (ws : List Word) (rs : List Redirection) (hs : tokens s = ts++rest)
    (hrest : Ends (follow .exec) rest) (hmax : (ws++ws').length < MAXARGS) :
    ∃ s', Settles (fun k => parseargs k ws.length (wrap (.exec ws) rs) s)
      (.ok (wrap (.exec (ws++ws')) (rs++rs'),s')) ∧ tokens s' = rest := by
  induction h generalizing ws rs s with
  | nil =>
    refine ⟨skip s,Settles.succ ?_,(tokens_skip s).trans hs⟩
    rw [List.append_nil, List.append_nil]
    rcases hrest with rfl | hst
    · have hp := peek_false [BAR,RPAREN,AMPERSAND,SEMICOLON] hs rfl (by decide)
      simp only [parseargs, hp, gettoken_skip, (gettoken_nil hs).1]
      exact .const _
    · obtain ⟨t,ts',rfl,ht⟩ := starts_exists hst
      have hsub : follow .exec ⊆ [BAR,RPAREN,AMPERSAND,SEMICOLON] := by decide
      obtain ⟨hp,-⟩ := peek_take _ hs (hsub ht) (by decide)
      simp only [parseargs, hp, if_true]
      exact .const _
  | @cons a ts w ws' rs1 rs' hr hargs ih =>
    have hs' : tokens s = .word w::(a++(ts++rest)) := by simpa using hs
    obtain ⟨r,hg,hr'⟩ := gettoken_tokens hs'
    obtain ⟨s1,hrun1,hs1⟩ := redirs_found hr (wrap (.exec (ws++[w])) rs) hr'
      (hargs.not_starts hrest (by decide))
    obtain ⟨s2,hrun2,hs2⟩ := ih (ws++[w]) (rs++rs1) hs1 (by simpa using hmax)
    refine ⟨s2,Settles.succ ?_,hs2⟩
    have hlen : ¬MAXARGS ≤ ws.length+1 := by
      rw [List.length_append, List.length_cons] at hmax
      omega
    have hnext : (ws++[w]).length = ws.length+1 := by simp
    have hp := peek_false [BAR,RPAREN,AMPERSAND,SEMICOLON] hs' rfl (by decide)
    simp only [parseargs, hp, gettoken_skip, hg, hlen, addArg_wrap]
    refine hrun1.bind ?_
    rw [wrap_append, hnext] at hrun2
    simpa using hrun2

/-- Every derivation is found where nothing continues it. -/
theorem derives_found {p : Part} {c : Cmd} (h : Derives p ts c) (hs : tokens s = ts++rest)
    (hrest : Ends (follow p) rest) :
    ∃ s', Settles (fun k => parse p k s) (.ok (c,s')) ∧ tokens s' = rest := by
  induction h generalizing s rest with
  | @line ts c n _ ih =>
    rw [List.append_assoc] at hs
    have hends : Ends (follow .pipe) (List.replicate n .ampersand++rest) := by
      cases n with
      | zero => exact hrest.mono (by decide)
      | succ n => exact .inr rfl
    obtain ⟨s1,hrun1,hs1⟩ := ih hs hends
    obtain ⟨s2,hrun2,hs2⟩ := backs_found n c hs1 (hrest.not_starts (by decide))
    refine ⟨skip s2,Settles.succ ?_,(tokens_skip s2).trans hs2⟩
    have hp := peek_false [SEMICOLON] hs2 (hrest.not_starts (by decide)) (by decide)
    simp only [parse, parseline]
    refine hrun1.bind (hrun2.bind ?_)
    simp only [hp]
    exact .const _
  | @lines ts ts' c c' n _ _ ih1 ih2 =>
    have hs' : tokens s = ts++(List.replicate n .ampersand++.semicolon::(ts'++rest)) := by
      simpa using hs
    have hends : Ends (follow .pipe) (List.replicate n .ampersand++.semicolon::(ts'++rest)) := by
      cases n with
      | zero => exact .inr rfl
      | succ n => exact .inr rfl
    obtain ⟨s1,hrun1,hs1⟩ := ih1 hs' hends
    obtain ⟨s2,hrun2,hs2⟩ := backs_found n c hs1 rfl
    obtain ⟨hp,r,hg,hr⟩ := peek_take [SEMICOLON] hs2 (by decide) (by decide)
    obtain ⟨s3,hrun3,hs3⟩ := ih2 hr hrest
    refine ⟨s3,Settles.succ ?_,hs3⟩
    simp only [parse, parseline]
    refine hrun1.bind (hrun2.bind ?_)
    simp only [hp, if_true, hg]
    exact hrun3.map
  | @pipe ts c _ ih =>
    obtain ⟨s1,hrun1,hs1⟩ := ih hs (hrest.mono (by decide))
    refine ⟨skip s1,Settles.succ ?_,(tokens_skip s1).trans hs1⟩
    have hp := peek_false [BAR] hs1 (hrest.not_starts (by decide)) (by decide)
    simp only [parse, parsepipe]
    refine hrun1.bind ?_
    simp only [hp]
    exact .const _
  | @pipes ts ts' c c' _ _ ih1 ih2 =>
    have hs' : tokens s = ts++.bar::(ts'++rest) := by simpa using hs
    obtain ⟨s1,hrun1,hs1⟩ := ih1 hs' (.inr rfl)
    obtain ⟨hp,r,hg,hr⟩ := peek_take [BAR] hs1 (by decide) (by decide)
    obtain ⟨s2,hrun2,hs2⟩ := ih2 hr hrest
    refine ⟨s2,Settles.succ ?_,hs2⟩
    simp only [parse, parsepipe]
    refine hrun1.bind ?_
    simp only [hp, if_true, hg]
    exact hrun2.map
  | @block ts a c rs _ hrs ih =>
    have hs' : tokens s = .lparen::(ts++.rparen::(a++rest)) := by simpa using hs
    obtain ⟨hp,r,hg,hr⟩ := peek_take [LPAREN] hs' (by decide) (by decide)
    obtain ⟨s1,hrun1,hs1⟩ := ih hr (.inr rfl)
    obtain ⟨hp',r',hg',hr'⟩ := peek_take [RPAREN] hs1 (by decide) (by decide)
    obtain ⟨s2,hrun2,hs2⟩ := redirs_found hrs c hr' (hrest.not_starts (by decide))
    refine ⟨s2,Settles.succ (Settles.succ ?_),hs2⟩
    simp only [parse, parseexec, hp, if_true, parseblock, peek_skip, skip_skip, hg]
    refine hrun1.bind ?_
    simp only [hp', if_true, hg']
    exact hrun2
  | @words a ts ws rs rs' hrs hargs hmax =>
    have hs' : tokens (skip s) = a++(ts++rest) := by
      rw [tokens_skip, hs, List.append_assoc]
    obtain ⟨s1,hrun1,hs1⟩ := redirs_found hrs (.exec []) hs' (hargs.not_starts hrest (by decide))
    obtain ⟨s2,hrun2,hs2⟩ := args_found hargs [] rs hs1 hrest (by simpa using hmax)
    refine ⟨s2,Settles.succ ?_,hs2⟩
    have hp := peek_false [LPAREN] (tokens_skip s ▸ hs')
      (hrs.not_lparen (hargs.not_starts hrest (by decide))) (by decide)
    simp only [parse, parseexec, hp]
    exact hrun1.bind hrun2

end Complete

end Xv6.Shell
