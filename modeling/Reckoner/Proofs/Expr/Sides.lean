import Reckoner.Proofs.Expr.Position
import Reckoner.Proofs.Token.Slice

/-!
# The sides of an equation

A side is read as a part of the whole text, but nothing of what stands around it has a say: the
scanner looks at nothing else, and it and the parser only carry positions along. So a side is read
as if it were a text of its own, with all positions moved to where the side starts, in the message
about an open parenthesis too.
-/

namespace Reckoner

@[simp] theorem Misfit.moved_cause (why : Misfit) (amount : Int) :
    why.cause.moved amount = why.cause := by
  cases why <;> rfl

theorem Error.moved_zero (err : Error) : err.moved 0 = err := by
  obtain ⟨cause, position, equation⟩ := err
  cases cause <;> cases position <;> simp [moved, Cause.moved]

/-- The error is found in another text, where it stands so much further on. -/
structure Error.Recurs (amount : Int) (text : String) (err found : Error) : Prop where
  kind : found.cause.kind = err.cause.kind
  code : found.cause.code? = err.cause.code?
  position : found.position = err.position.map (· + amount)
  equation : found.equation = some text

theorem Error.IsWithin.recurs {length : Nat} {err : Error} (h : err.IsWithin length) (amount : Int)
    (text other : String) :
    (err.within other).Recurs amount text ((err.moved amount).within text) where
  kind := by rw [cause_within, cause_within, moved, Cause.kind_moved]
  code := by rw [cause_within, cause_within, moved, Cause.code_moved]
  position := by rw [position_within, position_within, moved]
  equation := by
    have htyped : (err.moved amount).isTyped = true := by
      rw [isTyped, moved, Cause.code_moved]
      exact Cause.code_of_isSyntactic h.kind
    have hnames : ((err.moved amount).isTyped && (err.moved amount).equation.isNone) = true := by
      rw [htyped, moved, h.equation]
      rfl
    rw [Error.within, if_pos hnames]

namespace Expr

/-- What is open in a text that starts so much further on. -/
def Frame.moved (amount : Int) : Frame → Frame
  | .group opening => .group (opening + amount)
  | frame => frame

theorem reduce_moved (amount : Int) (power : Nat) (stack : List Frame) (e : Expr) :
    reduce power (stack.map (Frame.moved amount)) e =
      ((reduce power stack e).1.map (Frame.moved amount), (reduce power stack e).2) := by
  induction stack generalizing e with
  | nil => rfl
  | cons frame stack ih =>
      have hpower : (frame.moved amount).power? = frame.power? := by cases frame <;> rfl
      have hclose : (frame.moved amount).close e = frame.close e := by cases frame <;> rfl
      rw [List.map_cons, reduce, reduce, hpower, hclose, ih]
      split <;> rfl

theorem reduceAll_moved {stack stack' : List Frame} {e e' : Expr}
    (h : reduceAll stack e = (stack', e')) (amount : Int) :
    reduceAll (stack.map (Frame.moved amount)) e = (stack'.map (Frame.moved amount), e') := by
  rw [reduceAll, reduce_moved, ← reduceAll, h]

theorem misplaced_moved (amount : Int) (stack : List Frame) (token : Token) :
    misplaced (stack.map (Frame.moved amount)) (token.moved amount) =
      (misplaced stack token).moved amount := by
  obtain ⟨lexeme, position, caption⟩ := token
  cases stack with
  | nil => cases lexeme <;> rfl
  | cons frame stack => cases frame <;> first | rfl | (cases lexeme <;> rfl)

theorem refused_moved (amount : Int) (stack : List Frame) (token : Token) :
    (.error (.located (misplaced (stack.map (Frame.moved amount)) (token.moved amount))
        (token.position + amount)) : Except Error Expr) =
      Except.mapError (Error.moved amount)
        (.error (.located (misplaced stack token) token.position)) := by
  rw [misplaced_moved]
  rfl

theorem head_moved {rest : List Token} {l : Lexeme} (h : ∀ t ∈ rest.head?, t.lexeme ≠ l)
    (amount : Int) : ∀ t ∈ (rest.map (Token.moved amount)).head?, t.lexeme ≠ l := by
  cases rest with
  | nil => exact fun _ ht => by cases ht
  | cons first tail => exact fun _ ht => by cases ht; exact h first rfl

/-- By the steps of reading. -/
theorem readFrom_moved (amount stop : Int) (stack : List Frame) (operand : Option Expr)
    (tokens : List Token) :
    readFrom (stop + amount) (stack.map (Frame.moved amount)) operand
        (tokens.map (Token.moved amount)) =
      (readFrom stop stack operand tokens).mapError (Error.moved amount) := by
  fun_induction readFrom stop stack operand tokens
  case case1 => rfl
  case case2 hreduce =>
      simp only [List.map_nil, readFrom, reduceAll_moved hreduce]
      rfl
  case case3 stack _ hne hreduce =>
      simp only [List.map_nil, readFrom, reduceAll_moved hreduce]
      cases stack with
      | nil => exact (hne rfl).elim
      | cons frame stack => exact refused_moved amount (frame :: stack) ⟨.finish, stop, none⟩
  -- operands and what opens in front of them
  case case4 hl ih | case5 hl ih | case6 hl ih | case14 hl ih | case15 hl ih | case16 hl ih =>
      simp only [List.map_cons, readFrom, Token.lexeme_moved, hl]
      exact ih
  case case7 hl _ _ _ _ _ ih =>
      exact (readFrom_emptyCall (hl ▸ .var _) rfl rfl).trans ih
  case case10 hl _ _ _ _ _ ih =>
      exact (readFrom_emptyCall (hl ▸ .function _) rfl rfl).trans ih
  case case8 hl _ _ _ hfirst ih =>
      exact (readFrom_call (hl ▸ .var _) rfl (head_moved (ne_of_head hfirst) amount)).trans ih
  case case11 hl _ _ _ hfirst ih =>
      exact (readFrom_call (hl ▸ .function _) rfl (head_moved (ne_of_head hfirst) amount)).trans ih
  case case9 hl _ _ hfirst ih =>
      have hmoved : (Token.moved amount _).lexeme = .var _ := hl
      exact (readFrom_var hmoved (head_moved (ne_of_head hfirst) amount)).trans ih
  case case12 hl other tail _ hother =>
      simp only [List.map_cons, readFrom, Token.lexeme_moved, hl]
      obtain ⟨l, p, c⟩ := other
      cases l <;> first | exact (hother _ _ rfl).elim | rfl
  case case13 hl =>
      simp only [List.map_cons, List.map_nil, readFrom, Token.lexeme_moved, hl]
      rfl
  -- what closes frames behind an operand
  case case22 hl _ _ hpower _ _ hreduce ih =>
      have hmoved : (Token.moved amount _).lexeme = .operator _ := hl
      refine (readFrom_operator hmoved hpower ?_).trans ih
      rw [reduce_moved, hreduce]
  case case24 hl _ _ _ hreduce ih | case25 hl _ _ _ _ hreduce ih | case27 hl _ _ _ _ hreduce ih =>
      simp only [List.map_cons, readFrom, Token.lexeme_moved, hl, reduceAll_moved hreduce]
      exact ih
  case case29 hl e hreduce =>
      simp only [List.map_cons, readFrom, Token.lexeme_moved, hl, reduceAll_moved hreduce]
      rfl
  -- values that scanning does not make
  case case19 hl | case23 hl =>
      simp only [List.map_cons, readFrom, Token.lexeme_moved, hl, Except.mapError, Error.moved,
        Error.of, Misfit.moved_cause]
      rfl
  case case21 hl hnone =>
      simp only [List.map_cons, readFrom, Token.lexeme_moved, hl, hnone]
      rfl
  -- the tokens that are refused
  case case17 hl | case18 hl =>
      simp only [List.map_cons, readFrom, Token.lexeme_moved, hl]
      rfl
  case case20 token _ _ _ _ _ _ _ _ _ _ _ _ _ =>
      simp only [List.map_cons, readFrom, Token.lexeme_moved]
      rfl
  case case26 token _ _ _ hl frames _ hgroup hcall hreduce =>
      simp only [List.map_cons, readFrom, Token.lexeme_moved, hl, reduceAll_moved hreduce]
      cases frames with
      | nil => exact refused_moved amount [] token
      | cons frame frames =>
          cases frame with
          | group => exact (hgroup _ _ rfl).elim
          | call => exact (hcall _ _ _ rfl).elim
          | _ => exact refused_moved amount (_ :: frames) token
  case case28 token _ _ _ hl frames _ hcall hreduce =>
      simp only [List.map_cons, readFrom, Token.lexeme_moved, hl, reduceAll_moved hreduce]
      cases frames with
      | nil => exact refused_moved amount [] token
      | cons frame frames =>
          cases frame with
          | call => exact (hcall _ _ _ rfl).elim
          | _ => exact refused_moved amount (_ :: frames) token
  case case30 token _ _ _ hl frames _ hne hreduce =>
      simp only [List.map_cons, readFrom, Token.lexeme_moved, hl, reduceAll_moved hreduce]
      cases frames with
      | nil => exact (hne rfl).elim
      | cons frame frames => exact refused_moved amount (frame :: frames) token
  case case31 stack token _ _ e _ _ _ _ _ =>
      simp only [List.map_cons, readFrom, Token.lexeme_moved, reduceAll_moved (Prod.eta _).symm]
      exact refused_moved amount _ token

theorem ofTokens_moved (amount : Int) {tokens : List Token} (hne : tokens ≠ []) :
    ofTokens (tokens.map (Token.moved amount)) =
      (ofTokens tokens).mapError (Error.moved amount) := by
  have hend : endPosition (tokens.map (Token.moved amount)) = endPosition tokens + amount := by
    rw [endPosition, endPosition, List.getLast?_map, List.getLast?_eq_some_getLast hne]
    exact Int.add_right_comm _ _ _
  rw [ofTokens, hend]
  exact readFrom_moved amount _ [] none tokens

/-- What the characters from a position on are read as. -/
def readAt (position : Int) (cs : List Char) : Except Error Expr := do
  ofTokens (← Token.scan position cs)

theorem readAt_add (amount position : Int) (cs : List Char) :
    readAt (position + amount) cs = (readAt position cs).mapError (Error.moved amount) := by
  rw [readAt, readAt, Token.scan_add]
  cases hscan : Token.scan position cs with
  | error err => rfl
  | ok tokens =>
      obtain ⟨first, rest, rfl⟩ := (isEnded_of_scan hscan).exists_cons
      exact ofTokens_moved amount (List.cons_ne_nil first rest)

theorem failsOnly_readAt {length : Nat} {position : Int} {cs : List Char} (hlow : 0 ≤ position)
    (hhigh : position + cs.length ≤ length) :
    FailsOnly (Error.IsWithin length) (readAt position cs) := by
  have hplaces := Token.meets_scan hlow hhigh
  refine hplaces.failsOnly.bind fun tokens hscan => ?_
  rw [hscan] at hplaces
  exact failsOnly_ofTokens hscan hplaces

theorem readAt_mapError (text : String) (position : Int) (cs : List Char) :
    (do ofTokensOf text (← Token.inText text (Token.scan position cs))) =
      (readAt position cs).mapError (·.within text) := by
  unfold readAt
  cases Token.scan position cs <;> rfl

theorem ofText_eq_readAt {text : String} (h : Latex.isMarkup text = false) :
    ofText text = (readAt 0 text.toList).mapError (·.within text) := by
  rw [← readAt_mapError, ← Token.tokenize_eq, ofText, Latex.plainOf, h]
  rfl

end Expr

namespace Equation

/-- How many brackets are opened and not closed. -/
def depth (cs : List Char) : Int :=
  cs.countP (fun c => c = '(' ∨ c = '[') - cs.countP (fun c => c = ')' ∨ c = ']')

/-- The first equals sign before which at least as many brackets are closed as opened. -/
structure IsSplit (cs : List Char) (split : Nat) : Prop where
  equals : cs[split]? = some '='
  closed : depth (cs.take split) ≤ 0
  first : ∀ i < split, cs[i]? = some '=' → 0 < depth (cs.take i)

theorem depth_cons (c : Char) (cs : List Char) : depth (c :: cs) = depth [c] + depth cs := by
  simp only [depth, List.countP_cons, List.countP_nil]
  omega

/-- By induction on the text: in front of the rest the level has gone by the first character. -/
theorem equalsSignFrom_eq {level : Int} {index split : Nat} {cs : List Char}
    (hbraces : ∀ c ∈ cs, c ≠ '\x7b' ∧ c ≠ '\x7d') (hequals : cs[split]? = some '=')
    (hclosed : level + depth (cs.take split) ≤ 0)
    (hfirst : ∀ i < split, cs[i]? = some '=' → 0 < level + depth (cs.take i)) :
    equalsSignFrom level index cs = some (index + split) := by
  induction cs generalizing level index split with
  | nil => cases hequals
  | cons c rest ih =>
      rw [List.forall_mem_cons] at hbraces
      obtain ⟨⟨hopen, hclose⟩, hbraces⟩ := hbraces
      rw [equalsSignFrom]
      cases split with
      | zero =>
          obtain rfl : c = '=' := by simpa using hequals
          have hlevel : level ≤ 0 := by simpa [depth] using hclosed
          simp [hlevel]
      | succ split =>
          -- the rest has its first split where the text has
          have hnext (next : Int) (hstep : next = level + depth [c]) :
              equalsSignFrom next (index + 1) rest = some (index + (split + 1)) := by
            rw [show index + (split + 1) = index + 1 + split by omega]
            refine ih hbraces (by simpa using hequals) ?_ fun i hi hchar => ?_
            · rw [List.take_succ_cons, depth_cons] at hclosed
              omega
            · have := hfirst (i + 1) (Nat.succ_lt_succ hi) (by simpa using hchar)
              rw [List.take_succ_cons, depth_cons] at this
              omega
          split_ifs with hopening hclosing hhere
          · exact hnext _ (by rcases hopening with rfl | rfl | rfl <;> first | rfl | contradiction)
          · exact hnext _ (by rcases hclosing with rfl | rfl | rfl <;> first | rfl | contradiction)
          · have := hfirst 0 (Nat.succ_pos split) (by rw [hhere.1]; rfl)
            have hlevel : 0 < level := by simpa [depth] using this
            omega
          · refine hnext _ ?_
            have hneutral : depth [c] = 0 := by
              simp only [not_or] at hopening hclosing
              simp [depth, hopening, hclosing]
            omega

theorem IsSplit.equalsSign {text : String} {split : Nat}
    (hbraces : ∀ c ∈ text.toList, c ≠ '\x7b' ∧ c ≠ '\x7d') (h : IsSplit text.toList split) :
    equalsSign? text = some split := by
  have hclosed : 0 + depth (text.toList.take split) ≤ 0 := by rw [Int.zero_add]; exact h.closed
  rw [equalsSign?, equalsSignFrom_eq hbraces h.equals hclosed, Nat.zero_add]
  intro i hi hchar
  rw [Int.zero_add]
  exact h.first i hi hchar

variable {text : String} {split : Nat}

theorem ofPlain_eq_readAt (hsplit : equalsSign? text = some split)
    (hblank : ((text.toList.take split).all Text.isBlank ||
      (text.toList.drop (split + 1)).all Text.isBlank) = false) :
    ofPlain text = (do
      let lhs ← (Expr.readAt 0 (text.toList.take split)).mapError (·.within text)
      let rhs ← (Expr.readAt 0 (text.toList.drop (split + 1))).mapError
        fun err => (err.moved (split + 1)).within text
      return ⟨lhs, rhs, text⟩) := by
  have hrhs : (Expr.readAt 0 (text.toList.drop (split + 1))).mapError
      (fun err => (err.moved (split + 1)).within text) = (do
        Expr.ofTokensOf text (← Token.inText text (Token.scan (split + 1 : Nat)
          (text.toList.drop (split + 1))))) := by
    have hadd := Expr.readAt_add (split + 1) 0 (text.toList.drop (split + 1))
    rw [Int.zero_add] at hadd
    rw [Expr.readAt_mapError, Int.natCast_succ, hadd]
    cases Expr.readAt 0 (text.toList.drop (split + 1)) <;> rfl
  rw [ofPlain_eq hsplit, hblank, if_neg Bool.false_ne_true, hrhs, ← Expr.readAt_mapError]
  simp only [bind_assoc]

theorem exists_of_equalsSignFrom {level : Int} {index : Nat} {cs : List Char}
    (h : equalsSignFrom level index cs = some split) :
    ∃ left right, cs = left ++ '=' :: right ∧ split = index + left.length := by
  induction cs generalizing level index with
  | nil => cases h
  | cons c rest ih =>
      have hbehind {next : Int} (h : equalsSignFrom next (index + 1) rest = some split) :
          ∃ left right, c :: rest = left ++ '=' :: right ∧ split = index + left.length := by
        obtain ⟨left, right, rfl, rfl⟩ := ih h
        exact ⟨c :: left, right, rfl, by rw [List.length_cons]; omega⟩
      rw [equalsSignFrom] at h
      split_ifs at h with hopening hclosing hhere
      · exact hbehind h
      · exact hbehind h
      · cases h
        exact ⟨[], rest, by rw [hhere.1]; rfl, rfl⟩
      · exact hbehind h

/-- Both sides of an equation are read. -/
theorem exists_sides {e : Equation} (h : ofPlain text = .ok e) :
    ∃ left right l r, text.toList = left ++ '=' :: right ∧
      Expr.readAt 0 left = .ok l ∧ Expr.readAt 0 right = .ok r ∧ e = ⟨l, r, text⟩ := by
  cases hsplit : equalsSign? text with
  | none => rw [ofPlain, hsplit] at h; cases h
  | some split =>
      obtain ⟨left, right, htext, hlength⟩ := exists_of_equalsSignFrom hsplit
      rw [Nat.zero_add] at hlength
      have hleft : text.toList.take split = left := by rw [htext, hlength, List.take_left]
      have hright : text.toList.drop (split + 1) = right := by
        rw [htext, hlength, List.drop_length_add_append]
        rfl
      cases hblank : ((text.toList.take split).all Text.isBlank ||
          (text.toList.drop (split + 1)).all Text.isBlank) with
      | true =>
          rw [ofPlain, hsplit] at h
          simp only [hblank, if_true] at h
          cases h
      | false =>
          rw [ofPlain_eq_readAt hsplit hblank, hleft, hright] at h
          obtain ⟨l, hl, h⟩ := exists_of_bind_eq_ok h
          obtain ⟨r, hr, h⟩ := exists_of_bind_eq_ok h
          cases h
          exact ⟨left, right, l, r, htext, mapError_eq_ok hl, mapError_eq_ok hr, rfl⟩

/-- A part of a text without markup is read as a text of its own. -/
theorem ofText_part {cs : List Char} (hplain : ∀ c ∈ text.toList, c ≠ '\\' ∧ c ≠ '\x7b')
    (hpart : cs ⊆ text.toList) :
    Expr.ofText (String.ofList cs) =
      (Expr.readAt 0 cs).mapError (·.within (String.ofList cs)) := by
  have hmarkup : Latex.isMarkup (String.ofList cs) = false := by
    refine Latex.isMarkup_eq_false fun c hc => hplain c (hpart ?_)
    rwa [String.toList_ofList] at hc
  rw [Expr.ofText_eq_readAt hmarkup, String.toList_ofList]

/-- An equation without markup is two readings that start anew, the second of them moved. -/
theorem ofText_eq_readAt (hplain : ∀ c ∈ text.toList, c ≠ '\\' ∧ c ≠ '\x7b' ∧ c ≠ '\x7d')
    (hsplit : IsSplit text.toList split)
    (hleft : ∃ c ∈ text.toList.take split, Text.isBlank c = false)
    (hright : ∃ c ∈ text.toList.drop (split + 1), Text.isBlank c = false) :
    ofText text = (do
      let lhs ← (Expr.readAt 0 (text.toList.take split)).mapError (·.within text)
      let rhs ← (Expr.readAt 0 (text.toList.drop (split + 1))).mapError
        fun err => (err.moved (split + 1)).within text
      return ⟨lhs, rhs, text⟩) := by
  have hmarkup : Latex.isMarkup text = false :=
    Latex.isMarkup_eq_false fun c hc => ⟨(hplain c hc).1, (hplain c hc).2.1⟩
  have hwhole : ofText text = ofPlain text := by
    rw [ofText, Latex.plainOf, hmarkup]
    rfl
  have hblank : ((text.toList.take split).all Text.isBlank ||
      (text.toList.drop (split + 1)).all Text.isBlank) = false := by
    rw [Bool.or_eq_false_iff, List.all_eq_false, List.all_eq_false]
    exact ⟨by simpa using hleft, by simpa using hright⟩
  rw [hwhole, ofPlain_eq_readAt (hsplit.equalsSign fun c hc => (hplain c hc).2) hblank]

/-- An equation without markup is read side by side: each side as if it stood alone, and if one of
them is not read, the first one that is not decides about the error, with its position moved to
where the side starts. -/
theorem ofText_sides (hplain : ∀ c ∈ text.toList, c ≠ '\\' ∧ c ≠ '\x7b' ∧ c ≠ '\x7d')
    (hsplit : IsSplit text.toList split)
    (hleft : ∃ c ∈ text.toList.take split, Text.isBlank c = false)
    (hright : ∃ c ∈ text.toList.drop (split + 1), Text.isBlank c = false) :
    let left := String.ofList (text.toList.take split)
    let right := String.ofList (text.toList.drop (split + 1))
    (∀ l r, ofText text = .ok ⟨l, r, text⟩ ↔ Expr.ofText left = .ok l ∧ Expr.ofText right = .ok r) ∧
    (∀ err, Expr.ofText left = .error err →
      ∃ found, ofText text = .error found ∧ err.Recurs 0 text found) ∧
    ∀ l err, Expr.ofText left = .ok l → Expr.ofText right = .error err →
      ∃ found, ofText text = .error found ∧ err.Recurs (split + 1) text found := by
  intro left right
  have hmarkup (c : Char) (hc : c ∈ text.toList) : c ≠ '\\' ∧ c ≠ '\x7b' :=
    ⟨(hplain c hc).1, (hplain c hc).2.1⟩
  have hlhs : Expr.ofText left = _ := ofText_part hmarkup (List.take_subset _ _)
  have hrhs : Expr.ofText right = _ := ofText_part hmarkup (List.drop_subset _ _)
  have hwithin (cs : List Char) : FailsOnly (Error.IsWithin cs.length) (Expr.readAt 0 cs) :=
    Expr.failsOnly_readAt (Int.le_refl 0) (by rw [Int.zero_add])
  rw [ofText_eq_readAt hplain hsplit hleft hright, hlhs, hrhs]
  cases hl : Expr.readAt 0 (text.toList.take split) with
  | error err =>
      have hrecurs := (hwithin _ err hl).recurs 0 text left
      rw [err.moved_zero] at hrecurs
      refine ⟨fun l r => ⟨fun h => (by cases h), fun h => (by cases h.1)⟩, ?_,
        fun _ _ h => (by cases h)⟩
      rintro _ ⟨⟩
      exact ⟨_, rfl, hrecurs⟩
  | ok l =>
      cases hr : Expr.readAt 0 (text.toList.drop (split + 1)) with
      | error err =>
          refine ⟨fun l r => ⟨fun h => (by cases h), fun h => (by cases h.2)⟩,
            fun _ h => (by cases h), ?_⟩
          rintro _ _ - ⟨⟩
          exact ⟨_, rfl, (hwithin _ err hr).recurs (split + 1) text right⟩
      | ok r =>
          refine ⟨fun l' r' => ⟨?_, ?_⟩, fun _ h => (by cases h), fun _ _ _ h => (by cases h)⟩
          · rintro ⟨⟩
            exact ⟨rfl, rfl⟩
          · rintro ⟨⟨⟩, ⟨⟩⟩
            rfl

/-- The right side is not read as a text of its own, and the equation is not either, for the same
parenthesis. -/
theorem ofText_sides_unclosed :
    ∃ found, ofText "x = 2*(3" = .error found ∧
      (⟨.unclosedParenthesis 3, some 5, some " 2*(3"⟩ : Error).Recurs 3 "x = 2*(3" found := by
  have htext : "x = 2*(3".toList = ['x', ' ', '=', ' ', '2', '*', '(', '3'] := by rfl
  have hsplit : IsSplit "x = 2*(3".toList 2 := by
    rw [htext]
    exact ⟨rfl, by decide, by decide⟩
  have hleft : Expr.ofText "x " = .ok (.var "x") := by rfl
  have hright : Expr.ofText " 2*(3" =
      .error ⟨.unclosedParenthesis 3, some 5, some " 2*(3"⟩ := by rfl
  obtain ⟨-, -, hrecurs⟩ := ofText_sides (by simp [htext]) hsplit
    ⟨'x', by simp [htext], by decide⟩ ⟨'2', by simp [htext], by decide⟩
  exact hrecurs _ _ hleft hright

end Equation

end Reckoner
