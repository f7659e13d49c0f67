import Reckoner.Proofs.Expr.Soundness

/-!
# Where reading stops

Tokens that are refused are refused at the first of them that nothing could follow: what stands in
front of it can be completed to tokens that are read, and together with it nothing can. The frames
that are open tell how to complete what has been read (`exists_completion`). That nothing helps
from the refused token on is seen from the answer itself, which is the same whatever stands behind
the token that decides it; so `Settles` speaks of every continuation, and one step of reading
carries it from the state behind the step to the state before.
-/

namespace Reckoner.Expr

/-- A lexeme of a kind that scanning makes, with any value of that kind; the end is none of
them. -/
def IsUsable : Lexeme → Prop
  | .operator op => op ∈ ["+", "-", "*", "/", "^"]
  | .finish | .unusableNumber .. | .unusableOperator _ => False
  | _ => True

/-- Usable lexemes in front of the only end. -/
def IsEnded (tokens : List Token) : Prop :=
  ∃ init last, tokens = init ++ [last] ∧ (∀ token ∈ init, IsUsable token.lexeme) ∧
    last.lexeme = .finish

/-- Tokens that are read as a tree. -/
def IsAccepted (tokens : List Token) : Prop := IsEnded tokens ∧ ∃ e, ofTokens tokens = .ok e

/-- Tokens that some accepted tokens start with. -/
def IsViable (tokens : List Token) : Prop := ∃ more, IsAccepted (tokens ++ more)

theorem not_isEnded_nil : ¬ IsEnded [] := by
  rintro ⟨init, last, h, -⟩
  simp at h

theorem isEnded_cons {token : Token} {rest : List Token} (h : IsEnded (token :: rest)) :
    token.lexeme = .finish ∧ rest = [] ∨ IsUsable token.lexeme ∧ IsEnded rest := by
  obtain ⟨init, last, heq, husable, hlast⟩ := h
  cases init with
  | nil =>
      cases heq
      exact .inl ⟨hlast, rfl⟩
  | cons first init =>
      cases heq
      exact .inr ⟨husable _ List.mem_cons_self, init, last, rfl,
        fun token h => husable token (List.mem_cons_of_mem _ h), hlast⟩

theorem IsEnded.exists_cons {tokens : List Token} (h : IsEnded tokens) :
    ∃ token rest, tokens = token :: rest :=
  List.exists_cons_of_ne_nil fun hnil => not_isEnded_nil (hnil ▸ h)

theorem IsEnded.cons {token : Token} {rest : List Token} (htoken : IsUsable token.lexeme)
    (h : IsEnded rest) : IsEnded (token :: rest) := by
  obtain ⟨init, last, rfl, husable, hlast⟩ := h
  refine ⟨token :: init, last, rfl, fun other hother => ?_, hlast⟩
  rcases List.mem_cons.mp hother with rfl | hother
  · exact htoken
  · exact husable other hother

theorem IsEnded.tail {token : Token} {rest : List Token} {l : Lexeme}
    (h : IsEnded (token :: rest)) (hl : token.lexeme = l) (hfinish : l ≠ .finish) :
    IsEnded rest := by
  rcases isEnded_cons h with ⟨hlast, -⟩ | ⟨-, hrest⟩
  · exact absurd (hl.symm.trans hlast) hfinish
  · exact hrest

theorem IsEnded.usable {token : Token} {rest : List Token} {l : Lexeme}
    (h : IsEnded (token :: rest)) (hl : token.lexeme = l) (hfinish : l ≠ .finish) :
    IsUsable l := by
  rcases isEnded_cons h with ⟨hlast, -⟩ | ⟨husable, -⟩
  · exact absurd (hl.symm.trans hlast) hfinish
  · exact hl ▸ husable

theorem bindingPower_of_isUsable {op : String} (h : IsUsable (.operator op)) :
    bindingPower? op ≠ none := by
  have hmem : op ∈ ["+", "-", "*", "/", "^"] := h
  simp only [List.mem_cons, List.not_mem_nil, or_false] at hmem
  rcases hmem with rfl | rfl | rfl | rfl | rfl <;> simp [bindingPower?]

/-! ## Open frames -/

/-- The operators of a stack are known. -/
def Known (stack : List Frame) : Prop :=
  ∀ op left, .binary op left ∈ stack → bindingPower? op ≠ none

theorem known_nil : Known [] := fun _ _ h => by cases h

theorem Known.cons {frame : Frame} {stack : List Frame} (h : Known stack)
    (hframe : ∀ op left, frame = .binary op left → bindingPower? op ≠ none) :
    Known (frame :: stack) := by
  intro op left hmem
  rcases List.mem_cons.mp hmem with heq | hmem
  · exact hframe op left heq.symm
  · exact h op left hmem

theorem Known.tail {frame : Frame} {stack : List Frame} (h : Known (frame :: stack)) :
    Known stack := fun op left hmem => h op left (List.mem_cons_of_mem _ hmem)

theorem reduce_suffix (m : Nat) (stack : List Frame) (e : Expr) :
    (reduce m stack e).1 <:+ stack := by
  fun_induction reduce m stack e with
  | case1 => exact List.suffix_refl _
  | case2 frame stack e hpower ih => exact ih.trans (List.suffix_cons frame stack)
  | case3 => exact List.suffix_refl _

theorem power_of_reduce {m : Nat} {stack frames : List Frame} {frame : Frame} {e whole : Expr}
    (h : reduce m stack e = (frame :: frames, whole)) : frame.power?.any (m < ·) = false := by
  fun_induction reduce m stack e with
  | case1 => cases h
  | case2 _ _ _ _ ih => exact ih h
  | case3 _ _ _ hpower =>
      cases h
      simpa using hpower

section States

variable {stack frames : List Frame} {e whole : Expr}

theorem Known.of_reduce {m : Nat} (h : Known stack) (hreduce : reduce m stack e = (frames, whole)) :
    Known frames := by
  have hsuffix := reduce_suffix m stack e
  rw [hreduce] at hsuffix
  exact fun op left hmem => h op left (hsuffix.subset hmem)

theorem length_of_reduceAll (hreduce : reduceAll stack e = (frames, whole)) :
    frames.length ≤ stack.length := by
  have hsuffix := reduce_suffix 0 stack e
  rw [show reduce 0 stack e = (frames, whole) from hreduce] at hsuffix
  exact hsuffix.length_le

/-- Closing all that can be closed leaves nothing, or a parenthesis. -/
theorem reduceAll_cases (h : Known stack) (hreduce : reduceAll stack e = (frames, whole)) :
    frames = [] ∨ (∃ opening below, frames = .group opening :: below) ∨
      ∃ name done below, frames = .call name done :: below := by
  cases frames with
  | nil => exact .inl rfl
  | cons frame below =>
      have hpower := power_of_reduce hreduce
      cases frame with
      | binary op left =>
          have hknown := (h.of_reduce hreduce) op left List.mem_cons_self
          obtain ⟨⟨l, r⟩, hop⟩ := Option.ne_none_iff_exists'.mp hknown
          have hzero : r = 0 := by simpa [Frame.power?, hop] using hpower
          unfold bindingPower? at hop
          split at hop <;> simp_all
      | minus | plus => simp [Frame.power?, signPower] at hpower
      | group opening => exact .inr (.inl ⟨opening, below, rfl⟩)
      | call name done => exact .inr (.inr ⟨name, done, below, rfl⟩)

end States

/-! ## What is decided by the tokens so far -/

section Settling

variable {stack : List Frame} {operand : Option Expr}

/-- The tokens are read as a tree, and nothing behind them is looked at. -/
def Accepts (stack : List Frame) (operand : Option Expr) (tokens : List Token) : Prop :=
  ∃ e, ∀ stop more, readFrom stop stack operand (tokens ++ more) = .ok e

/-- The token is refused behind the tokens that have been read, whatever follows. -/
def Rejects (stack : List Frame) (operand : Option Expr) (read : List Token) (token : Token) :
    Prop :=
  ∃ cause, cause.kind = .grammatical ∧ ∀ stop more,
    readFrom stop stack operand (read ++ token :: more) = .error (.located cause token.position)

/-- The tokens can be completed. -/
def Continues (stack : List Frame) (operand : Option Expr) (read : List Token) : Prop :=
  ∃ more, IsEnded more ∧ Accepts stack operand (read ++ more)

/-- The tokens are read as a tree, or one of them is refused that stands behind tokens which can be
completed. -/
def Settles (stack : List Frame) (operand : Option Expr) (tokens : List Token) : Prop :=
  Accepts stack operand tokens ∨ ∃ read token rest, tokens = read ++ token :: rest ∧
    Rejects stack operand read token ∧ Continues stack operand read

/-- The end behind so many closing parentheses. -/
def closers (n : Nat) : List Token :=
  List.replicate n ⟨.closeParen, 0, none⟩ ++ [⟨.finish, 0, none⟩]

theorem isEnded_closers (n : Nat) : IsEnded (closers n) := by
  refine ⟨_, _, rfl, fun token htoken => ?_, rfl⟩
  rw [(List.mem_replicate.mp htoken).2]
  trivial

theorem opensNothing_closers (n : Nat) : OpensNothing (closers n) := by
  cases n <;> exact opensNothing_cons (by simp)

/-- Behind an operand, what is open only has to be closed. -/
theorem exists_closers {stack : List Frame} (h : Known stack) (e : Expr) :
    ∃ n, Accepts stack (some e) (closers n) := by
  obtain ⟨frames, whole, hreduce⟩ : ∃ frames whole, reduceAll stack e = (frames, whole) :=
    ⟨_, _, rfl⟩
  have hframes : Known frames := h.of_reduce hreduce
  have hlength := length_of_reduceAll hreduce
  rcases reduceAll_cases h hreduce with rfl | ⟨opening, below, rfl⟩ | ⟨name, done, below, rfl⟩
  · exact ⟨0, whole, fun stop more => by simp [closers, readFrom, hreduce]⟩
  · have hshorter : below.length < stack.length := hlength
    obtain ⟨n, tree, hn⟩ := exists_closers hframes.tail whole
    refine ⟨n + 1, tree, fun stop more => ?_⟩
    rw [← hn stop more]
    simp [closers, List.replicate_succ, readFrom, hreduce]
  · have hshorter : below.length < stack.length := hlength
    obtain ⟨n, tree, hn⟩ := exists_closers hframes.tail (.call name (done.reverse ++ [whole]))
    refine ⟨n + 1, tree, fun stop more => ?_⟩
    rw [← hn stop more]
    simp [closers, List.replicate_succ, readFrom, hreduce]
termination_by stack.length

/-- A lexeme that may stand first behind an operand, or where one is awaited. -/
def Fits : Option Expr → Lexeme → Prop
  | none, l => l ≠ .closeParen
  | some _, l => l ≠ .openParen

/-- What has been read can be completed in every state. -/
theorem exists_completion (h : Known stack) (operand : Option Expr) :
    ∃ more, (∀ token ∈ more.head?, Fits operand token.lexeme) ∧ IsEnded more ∧
      Accepts stack operand more := by
  cases operand with
  | some e =>
      obtain ⟨n, hn⟩ := exists_closers h e
      exact ⟨closers n, opensNothing_closers n, isEnded_closers n, hn⟩
  | none =>
      obtain ⟨n, tree, hn⟩ := exists_closers h (.number 0)
      refine ⟨⟨.number 0, 0, none⟩ :: closers n, ?_, (isEnded_closers n).cons trivial, tree, ?_⟩
      · intro token htoken
        cases htoken
        exact fun h => by cases h
      · intro stop more
        rw [← hn stop more, List.cons_append, readFrom]

theorem settles_of_rejects {token : Token} {rest : List Token} (h : Known stack) (cause : Cause)
    (hkind : cause.kind = .grammatical) (hrejects : ∀ stop more,
      readFrom stop stack operand (token :: more) = .error (.located cause token.position)) :
    Settles stack operand (token :: rest) := by
  obtain ⟨more, -, hended, haccepts⟩ := exists_completion h operand
  exact .inr ⟨[], token, rest, rfl, ⟨cause, hkind, hrejects⟩, more, hended, haccepts⟩

/-- One step of reading: what is settled behind it is settled before it. The step may depend on the
token that follows, as a name depends on a parenthesis. -/
theorem Settles.step {rest : List Token} {next : Token} {stack' : List Frame}
    {operand' : Option Expr} {p : Lexeme → Prop} (h : Settles stack' operand' (next :: rest))
    (first : List Token) (hstack : Known stack') (hfits : ∀ l, Fits operand' l → p l)
    (hnext : p next.lexeme)
    (hstep : ∀ stop token more, p token.lexeme →
      readFrom stop stack operand (first ++ token :: more) =
        readFrom stop stack' operand' (token :: more)) :
    Settles stack operand (first ++ next :: rest) := by
  rcases h with ⟨e, he⟩ | ⟨read, token, rest, hsplit, ⟨cause, hkind, hcause⟩, hcontinues⟩
  · refine .inl ⟨e, fun stop more => ?_⟩
    rw [List.append_assoc, List.cons_append, hstep _ _ _ hnext]
    exact he stop more
  cases read with
  | nil =>
      cases hsplit
      refine .inr ⟨first, next, rest, rfl, ⟨cause, hkind, fun stop more => ?_⟩, ?_⟩
      · rw [hstep _ _ _ hnext]
        exact hcause stop more
      · obtain ⟨more, hmore, hended, e, he⟩ := exists_completion hstack operand'
        refine ⟨more, hended, e, fun stop behind => ?_⟩
        obtain ⟨m, ms, rfl⟩ := hended.exists_cons
        rw [List.append_assoc, List.cons_append, hstep _ _ _ (hfits _ (hmore m rfl))]
        exact he stop behind
  | cons r read =>
      cases hsplit
      refine .inr ⟨first ++ next :: read, token, rest, by simp,
        ⟨cause, hkind, fun stop more => ?_⟩, ?_⟩
      · rw [List.append_assoc, List.cons_append, hstep _ _ _ hnext]
        exact hcause stop more
      · obtain ⟨more, hended, e, he⟩ := hcontinues
        refine ⟨more, hended, e, fun stop behind => ?_⟩
        rw [List.append_assoc, List.append_assoc, List.cons_append, hstep _ _ _ hnext]
        simpa using he stop behind

/-- A step that does not depend on what follows. -/
theorem settles_append {rest : List Token} {stack' : List Frame} {operand' : Option Expr}
    (first : List Token) (hstack : Known stack') (hended : IsEnded rest)
    (h : Known stack' → IsEnded rest → Settles stack' operand' rest) (hstep : ∀ stop more,
      readFrom stop stack operand (first ++ more) = readFrom stop stack' operand' more) :
    Settles stack operand (first ++ rest) := by
  obtain ⟨next, rest, rfl⟩ := hended.exists_cons
  exact (h hstack hended).step (p := fun _ => True) first hstack (fun _ _ => trivial) trivial
    fun stop token more _ => hstep stop _

theorem settles_cons {token : Token} {rest : List Token} {stack' : List Frame}
    {operand' : Option Expr} (hstack : Known stack') (hended : IsEnded rest)
    (h : Known stack' → IsEnded rest → Settles stack' operand' rest) (hstep : ∀ stop more,
      readFrom stop stack operand (token :: more) = readFrom stop stack' operand' more) :
    Settles stack operand (token :: rest) := settles_append [token] hstack hended h hstep

end Settling

theorem kind_misplaced (stack : List Frame) (token : Token) :
    (misplaced stack token).kind = .grammatical := by
  unfold misplaced
  split <;> rfl

/-- A name that has its parenthesis leaves an open argument list. -/
theorem settles_call {stack : List Frame} {token opening : Token} {rest : List Token}
    {name : String} (hstack : Known stack) (hname : Names token.lexeme name)
    (hopening : opening.lexeme = .openParen) (hended : IsEnded rest)
    (hrest : ∀ t ∈ rest.head?, t.lexeme ≠ .closeParen)
    (h : Known (.call name [] :: stack) → IsEnded rest →
      Settles (.call name [] :: stack) none rest) :
    Settles stack none (token :: opening :: rest) := by
  have hcall : Known (.call name [] :: stack) := hstack.cons fun _ _ heq => by cases heq
  obtain ⟨next, rest, rfl⟩ := hended.exists_cons
  refine (h hcall hended).step [token, opening] hcall (fun _ hl => hl)
    (hrest next rfl) fun stop other more hother => readFrom_call hname hopening ?_
  intro t ht
  cases ht
  exact hother

theorem settles_emptyCall {stack : List Frame} {token opening closing : Token} {rest : List Token}
    {name : String} (hstack : Known stack) (hname : Names token.lexeme name)
    (hopening : opening.lexeme = .openParen) (hclosing : closing.lexeme = .closeParen)
    (hended : IsEnded rest)
    (h : Known stack → IsEnded rest → Settles stack (some (.call name [])) rest) :
    Settles stack none (token :: opening :: closing :: rest) :=
  settles_append [token, opening, closing] hstack hended h fun _ _ =>
    readFrom_emptyCall hname hopening hclosing

/-- A name of a function needs a parenthesis, and with one it can be completed. -/
theorem settles_function {stack : List Frame} {token other : Token} {rest : List Token}
    {name : String} (hstack : Known stack) (hname : token.lexeme = .function name)
    (hother : other.lexeme ≠ .openParen) : Settles stack none (token :: other :: rest) := by
  refine .inr ⟨[token], other, rest, rfl, ⟨.missingParenthesis name, rfl, fun stop more => ?_⟩, ?_⟩
  · rw [List.singleton_append, readFrom]
    obtain ⟨l, position, caption⟩ := other
    cases l <;> first | contradiction | simp only [hname]
  · obtain ⟨n, e, he⟩ := exists_closers hstack (.call name [])
    have hended : IsEnded (⟨.openParen, 0, none⟩ :: ⟨.closeParen, 0, none⟩ :: closers n) :=
      IsEnded.cons (by trivial) (.cons (by trivial) (isEnded_closers n))
    refine ⟨_, hended, e, fun stop more => ?_⟩
    rw [← he stop more]
    exact readFrom_emptyCall (hname ▸ .function name) rfl rfl

theorem ne_of_head {rest : List Token} {l : Lexeme}
    (h : ∀ position caption tail, rest = ⟨l, position, caption⟩ :: tail → False) :
    ∀ t ∈ rest.head?, t.lexeme ≠ l := by
  rintro t ht rfl
  cases rest with
  | nil => cases ht
  | cons first tail =>
      cases ht
      exact h t.position t.caption tail rfl

/-- By the steps of reading, each with what it leaves open. -/
theorem settles (stop : Int) {stack : List Frame} {operand : Option Expr}
    {tokens : List Token} (hstack : Known stack) (h : IsEnded tokens) :
    Settles stack operand tokens := by
  fun_induction readFrom stop stack operand tokens
  case case1 | case2 | case3 => exact absurd h not_isEnded_nil
  -- operands and what opens in front of them
  case case4 hl ih | case5 hl ih | case6 hl ih =>
      refine settles_cons hstack (h.tail hl (by simp)) ih fun stop more => ?_
      rw [readFrom]
      simp only [hl]
  case case14 hl ih | case15 hl ih | case16 hl ih =>
      refine settles_cons (hstack.cons fun _ _ heq => by cases heq) (h.tail hl (by simp)) ih
        fun stop more => ?_
      rw [readFrom]
      simp only [hl]
  case case7 hl _ _ _ _ _ ih =>
      have hrest := ((h.tail hl (by simp)).tail rfl (by simp)).tail rfl (by simp)
      exact settles_emptyCall hstack (hl ▸ .var _) rfl rfl hrest ih
  case case10 hl _ _ _ _ _ ih =>
      have hrest := ((h.tail hl (by simp)).tail rfl (by simp)).tail rfl (by simp)
      exact settles_emptyCall hstack (hl ▸ .function _) rfl rfl hrest ih
  case case8 hl _ _ _ hfirst ih =>
      have hrest := (h.tail hl (by simp)).tail rfl (by simp)
      exact settles_call hstack (hl ▸ .var _) rfl hrest (ne_of_head hfirst) ih
  case case11 hl _ _ _ hfirst ih =>
      have hrest := (h.tail hl (by simp)).tail rfl (by simp)
      exact settles_call hstack (hl ▸ .function _) rfl hrest (ne_of_head hfirst) ih
  case case9 hl _ _ hfirst ih =>
      obtain ⟨next, rest, rfl⟩ := (h.tail hl (by simp)).exists_cons
      refine (ih hstack (h.tail hl (by simp))).step [_] hstack (fun _ hl => hl)
        (ne_of_head hfirst next rfl) fun stop other more hother => ?_
      exact readFrom_var hl (opensNothing_cons hother)
  case case12 hl _ _ _ hother =>
      exact settles_function hstack hl fun heq => hother _ _ (by rw [← heq])
  case case13 hl => exact absurd (h.tail hl (by simp)) not_isEnded_nil
  -- what closes frames behind an operand
  case case22 hl _ _ hpower _ _ hreduce ih =>
      have hbinary : bindingPower? _ ≠ none := Option.ne_none_iff_exists'.mpr ⟨_, hpower⟩
      refine settles_cons ((hstack.of_reduce hreduce).cons fun _ _ heq => ?_)
        (h.tail hl (by simp)) ih fun stop more => readFrom_operator hl hpower hreduce
      cases heq
      exact hbinary
  case case24 hl _ _ _ hreduce ih | case25 hl _ _ _ _ hreduce ih =>
      refine settles_cons (hstack.of_reduce hreduce).tail (h.tail hl (by simp)) ih
        fun stop more => ?_
      rw [readFrom]
      simp only [hl, hreduce]
  case case27 hl _ _ _ _ hreduce ih =>
      have hbelow := (hstack.of_reduce hreduce).tail
      refine settles_cons (hbelow.cons fun _ _ heq => by cases heq) (h.tail hl (by simp)) ih
        fun stop more => ?_
      rw [readFrom]
      simp only [hl, hreduce]
  case case29 hl e hreduce =>
      refine .inl ⟨e, fun stop more => ?_⟩
      rw [List.cons_append, readFrom]
      simp only [hl, hreduce]
  -- values that scanning does not make
  case case19 hl | case23 hl => exact (h.usable hl (by simp)).elim
  case case21 hl hnone => exact absurd hnone (bindingPower_of_isUsable (h.usable hl (by simp)))
  -- the tokens that are refused
  case case17 hl =>
      refine settles_of_rejects hstack .unmatchedParenthesis rfl fun stop more => ?_
      rw [readFrom]
      simp only [hl]
  case case18 hl =>
      refine settles_of_rejects hstack .missingOperand rfl fun stop more => ?_
      rw [readFrom]
      simp only [hl]
  case case20 token _ _ _ _ _ _ _ _ _ _ _ _ _ =>
      refine settles_of_rejects hstack (.unexpectedToken token.shown) rfl fun stop more => ?_
      rw [readFrom]
      split <;> simp_all
  case case26 token _ _ _ hl frames _ _ _ hreduce | case28 token _ _ _ hl frames _ _ hreduce |
      case30 token _ _ _ hl frames _ _ hreduce =>
      refine settles_of_rejects hstack _ (kind_misplaced frames token) fun stop more => ?_
      rw [readFrom]
      simp only [hl, hreduce]
  case case31 stack token _ _ e _ _ _ _ _ =>
      refine settles_of_rejects hstack _ (kind_misplaced (reduceAll stack e).1 token)
        fun stop more => ?_
      rw [readFrom]
      split <;> simp_all

/-! ## The refused token -/

theorem IsEnded.usable_of_append {read rest : List Token} {token : Token}
    (h : IsEnded (read ++ token :: rest)) : ∀ other ∈ read, IsUsable other.lexeme := by
  induction read with
  | nil => exact fun _ hmem => by cases hmem
  | cons first read ih =>
      rcases isEnded_cons h with ⟨-, hnil⟩ | ⟨hfirst, hrest⟩
      · simp at hnil
      · exact List.forall_mem_cons.mpr ⟨hfirst, ih hrest⟩

theorem IsEnded.append {read more : List Token} (hread : ∀ token ∈ read, IsUsable token.lexeme)
    (h : IsEnded more) : IsEnded (read ++ more) := by
  induction read with
  | nil => exact h
  | cons first read ih =>
      obtain ⟨hfirst, hread⟩ := List.forall_mem_cons.mp hread
      exact .cons hfirst (ih hread)

theorem ofTokens_of_readFrom {tokens : List Token} {e : Expr}
    (h : ∀ stop more, readFrom stop [] none (tokens ++ more) = .ok e) :
    ofTokens tokens = .ok e := by
  have hread := h (endPosition tokens) []
  rwa [List.append_nil] at hread

/-- Tokens in front of the only end are read as a tree or refused as ungrammatical, whatever stands
behind the end. They are refused at the position of the first token that cannot stand where it
does: the tokens in front of it start accepted ones, and with it they start none. -/
theorem ofTokens_eq_ok_or_refused {tokens : List Token} (h : IsEnded tokens) :
    (∀ stop more, readFrom stop [] none (tokens ++ more) = ofTokens tokens) ∧
    ((∃ e, ofTokens tokens = .ok e) ∨
      ∃ read token rest cause, tokens = read ++ token :: rest ∧
        ofTokens tokens = .error (.located cause token.position) ∧ cause.kind = .grammatical ∧
        IsViable read ∧ ¬ IsViable (read ++ [token])) := by
  have hsettles : Settles [] none tokens := settles 0 known_nil h
  rcases hsettles with ⟨e, he⟩ | ⟨read, token, rest, rfl, ⟨cause, hkind, hcause⟩, hcontinues⟩
  · have hok := ofTokens_of_readFrom he
    exact ⟨fun stop more => (he stop more).trans hok.symm, .inl ⟨e, hok⟩⟩
  · have hrefused (more : List Token) :
        ofTokens (read ++ token :: more) = .error (.located cause token.position) := hcause _ more
    refine ⟨fun stop more => ?_, .inr ⟨read, token, rest, cause, rfl, hrefused rest, hkind, ?_, ?_⟩⟩
    · rw [hrefused, List.append_assoc]
      exact hcause stop _
    · obtain ⟨more, hended, e, he⟩ := hcontinues
      exact ⟨more, hended.append h.usable_of_append, e, ofTokens_of_readFrom he⟩
    · rintro ⟨more, -, e, he⟩
      rw [← List.append_cons, hrefused] at he
      cases he

/-- The tokens of `-f(x, )` and the end. -/
private def missingArgument : List Token :=
  [⟨.operator "-", 0, none⟩, ⟨.var "f", 1, none⟩, ⟨.openParen, 2, none⟩, ⟨.var "x", 3, none⟩,
    ⟨.comma, 4, none⟩, ⟨.closeParen, 6, none⟩, ⟨.finish, 7, none⟩]

theorem ofTokens_eq_ok_or_refused_missingArgument :
    IsEnded missingArgument ∧
      ofTokens missingArgument = .error (.located .unmatchedParenthesis 6) ∧
      IsViable (missingArgument.take 5) ∧ ¬ IsViable (missingArgument.take 6) := by
  have hended : IsEnded missingArgument := by
    refine ⟨missingArgument.take 6, ⟨.finish, 7, none⟩, rfl, ?_, rfl⟩
    simp [missingArgument, IsUsable]
  have herror : ofTokens missingArgument = .error (.located .unmatchedParenthesis 6) := rfl
  refine ⟨hended, herror, ?_⟩
  obtain ⟨-, ⟨e, hok⟩ | ⟨read, token, rest, cause, hsplit, hrefused, -, hviable, hnot⟩⟩ :=
    ofTokens_eq_ok_or_refused hended
  · cases herror.symm.trans hok
  have hposition : token.position = 6 := by
    have hplace := congrArg (fun outcome => match outcome with
      | Except.error err => err.position
      | .ok _ => none) (herror.symm.trans hrefused)
    simpa [Error.located] using hplace.symm
  have hlength : read.length = 5 := by
    have hget : (missingArgument[read.length]?).map Token.position = some 6 := by
      rw [hsplit, List.getElem?_append_right (Nat.le_refl _)]
      simp [hposition]
    have honly : ∀ n < 7, (missingArgument[n]?).map Token.position = some 6 → n = 5 := by decide
    refine honly _ ?_ hget
    have htotal := congrArg List.length hsplit
    simp only [missingArgument, List.length_append, List.length_cons, List.length_nil] at htotal
    omega
  have hread : missingArgument.take 5 = read := by
    rw [hsplit, ← hlength, List.take_left]
  have hnext : missingArgument.take 6 = read ++ [token] := by
    rw [hsplit, List.append_cons]
    exact List.take_left' (by simp [hlength])
  rw [hread, hnext]
  exact ⟨hviable, hnot⟩

end Reckoner.Expr
