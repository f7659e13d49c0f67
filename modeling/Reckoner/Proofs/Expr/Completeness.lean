import Reckoner.Proofs.Expr.Grammar
import Mathlib.Data.List.Basic

/-!
# What the grammar allows is read

By induction on a derivation: reading the tokens of a phrase leaves an operand and frames that
close into the tree of the phrase as soon as a token asks for it. The frames are still open where
a sign, a product or a power ends, since the next token may bind tighter; so the statement is
about closing them and not about one stack. `ofTokens_of_derives` is the statement for whole texts.
-/

namespace Reckoner.Expr

/-! ## Open frames -/

theorem bindingPower_of_additive {op : String} (h : IsAdditive op) :
    bindingPower? op = some (10, 11) := by
  rcases h with rfl | rfl <;> rfl

theorem bindingPower_of_multiplicative {op : String} (h : IsMultiplicative op) :
    bindingPower? op = some (20, 21) := by
  rcases h with rfl | rfl <;> rfl

theorem bindingPower_eq_some {op : String} {left right : Nat}
    (h : bindingPower? op = some (left, right)) :
    (IsAdditive op ∧ left = 10) ∨ (IsMultiplicative op ∧ left = 20) ∨ (op = "^" ∧ left = 41) := by
  unfold bindingPower? at h
  split at h <;> simp_all [IsAdditive, IsMultiplicative]

/-- The innermost frame, if there is one, binds its operand at most so tightly. -/
def Blocked (n : Nat) (stack : List Frame) : Prop :=
  ∀ frame ∈ stack.head?, ∀ p ∈ frame.power?, p ≤ n

theorem blocked_nil (n : Nat) : Blocked n [] := fun _ h => by cases h

theorem reduce_of_blocked {n m : Nat} {stack : List Frame} (h : Blocked n stack) (hnm : n ≤ m)
    (e : Expr) : reduce m stack e = (stack, e) := by
  cases stack with
  | nil => rfl
  | cons frame stack =>
      have htop : frame.power?.any (m < ·) = false := by
        cases hp : frame.power? with
        | none => rfl
        | some p =>
            have hle : p ≤ n := h frame rfl p hp
            simp; omega
      simp [reduce, htop]

theorem reduce_cons {m p : Nat} {frame : Frame} (hp : frame.power? = some p) (hm : m < p)
    (stack : List Frame) (e : Expr) :
    reduce m (frame :: stack) e = reduce m stack (frame.close e) := by
  simp [reduce, hp, hm]

theorem power_binary {op : String} {left right : Nat} (h : bindingPower? op = some (left, right))
    (a : Expr) : (Frame.binary op a).power? = some right := by
  simp [Frame.power?, h]

theorem power_le (frame : Frame) {p : Nat} (h : frame.power? = some p) : p ≤ 40 := by
  cases frame with
  | binary op a =>
      simp only [Frame.power?, Option.map_eq_some_iff] at h
      obtain ⟨⟨left, right⟩, hop, rfl⟩ := h
      unfold bindingPower? at hop
      split at hop <;> simp_all <;> omega
  | minus | plus => cases h; decide
  | group | call => cases h

theorem blocked_forty (stack : List Frame) : Blocked 40 stack :=
  fun frame _ _ hp => power_le frame hp

/-! ## Frames and tokens -/

/-- No parenthesis opens. -/
def OpensNothing (tokens : List Token) : Prop :=
  ∀ token ∈ tokens.head?, token.lexeme ≠ .openParen

/-- Closing the frames completes the operand, whatever lies below them. -/
def Closes (n : Nat) (frames : List Frame) (e whole : Expr) : Prop :=
  ∀ m ≤ n, ∀ stack, reduce m (frames ++ stack) e = reduce m stack whole

namespace Closes

theorem refl (n : Nat) (e : Expr) : Closes n [] e e := fun _ _ _ => rfl

theorem mono {n m : Nat} {frames : List Frame} {e whole : Expr} (h : Closes n frames e whole)
    (hm : m ≤ n) : Closes m frames e whole :=
  fun k hk stack => h k (Nat.le_trans hk hm) stack

theorem concat {n p : Nat} {frames : List Frame} {frame : Frame} {e whole : Expr}
    (h : Closes n frames e whole) (hp : frame.power? = some p) (hn : n < p) :
    Closes n (frames ++ [frame]) e (frame.close whole) := by
  intro m hm stack
  rw [List.append_assoc, h m hm, List.singleton_append,
    reduce_cons hp (Nat.lt_of_le_of_lt hm hn)]

theorem reduce_eq {n m : Nat} {frames stack : List Frame} {e whole : Expr}
    (h : Closes n frames e whole) (hm : m ≤ n) (hstack : Blocked m stack) :
    reduce m (frames ++ stack) e = (stack, whole) := by
  rw [h m hm, reduce_of_blocked hstack (Nat.le_refl m)]

end Closes

/-- Reading the tokens on a stack leaves an operand on top of frames that complete it. -/
def Reads (stop : Int) (n : Nat) (e : Expr) (tokens : List Token) (stack : List Frame) : Prop :=
  ∃ frames operand, Closes n frames operand e ∧ ∀ rest, OpensNothing rest →
    readFrom stop stack none (tokens ++ rest) = readFrom stop (frames ++ stack) (some operand) rest

/-- How tokens that form a phrase are read. A sum or a product is read only where no frame on
the stack binds tighter. -/
def ReadsPhrase (stop : Int) (tokens : List Token) : Phrase → Prop
  | .sum e => ∀ stack, Blocked 10 stack → Reads stop 10 e tokens stack
  | .product e => ∀ stack, Blocked 20 stack → Reads stop 20 e tokens stack
  | .signed e | .power e => ∀ stack, Reads stop 29 e tokens stack
  | .atom e => ∀ stack rest, OpensNothing rest →
      readFrom stop stack none (tokens ++ rest) = readFrom stop stack (some e) rest
  | .arguments es => ∀ stack name, ∃ init e frames operand, es = init ++ [e] ∧
      Closes 10 frames operand e ∧ ∀ rest, OpensNothing rest →
        readFrom stop (.call name [] :: stack) none (tokens ++ rest) =
          readFrom stop (frames ++ .call name init.reverse :: stack) (some operand) rest

variable {stop : Int} {stack : List Frame} {token : Token} {rest : List Token}

-- The equations of the parser are generated here, before the proofs that all wait for them.
attribute [local simp] readFrom

theorem opensNothing_cons (h : token.lexeme ≠ .openParen) : OpensNothing (token :: rest) := by
  intro t ht
  cases ht
  exact h

theorem readFrom_operator {op : String} {left right : Nat} {e whole : Expr}
    {frames : List Frame} (hop : token.lexeme = .operator op)
    (hpower : bindingPower? op = some (left, right))
    (hreduce : reduce left stack e = (frames, whole)) :
    readFrom stop stack (some e) (token :: rest) =
      readFrom stop (.binary op whole :: frames) none rest := by
  rw [readFrom]
  simp only [hop, hpower, hreduce]

theorem readFrom_call {name : String} {opening : Token} (hname : Names token.lexeme name)
    (hopening : opening.lexeme = .openParen)
    (hrest : ∀ t ∈ rest.head?, t.lexeme ≠ .closeParen) :
    readFrom stop stack none (token :: opening :: rest) =
      readFrom stop (.call name [] :: stack) none rest := by
  obtain ⟨l, position, caption⟩ := opening
  cases hopening
  rw [readFrom]
  cases hl : token.lexeme <;> rw [hl] at hname <;> cases hname
  all_goals
    cases rest with
    | nil => rfl
    | cons t rest =>
        obtain ⟨l, p, c⟩ := t
        have hl : l ≠ .closeParen := hrest _ rfl
        cases l <;> first | rfl | contradiction

theorem readFrom_emptyCall {name : String} {opening closing : Token}
    (hname : Names token.lexeme name) (hopening : opening.lexeme = .openParen)
    (hclosing : closing.lexeme = .closeParen) :
    readFrom stop stack none (token :: opening :: closing :: rest) =
      readFrom stop stack (some (.call name [])) rest := by
  obtain ⟨l, position, caption⟩ := opening
  obtain ⟨r, p, c⟩ := closing
  cases hopening
  cases hclosing
  rw [readFrom]
  cases hl : token.lexeme <;> rw [hl] at hname <;> cases hname <;> rfl

theorem readFrom_var {name : String} (hname : token.lexeme = .var name)
    (hrest : OpensNothing rest) :
    readFrom stop stack none (token :: rest) = readFrom stop stack (some (.var name)) rest := by
  rw [readFrom]
  cases rest with
  | nil => simp only [hname]
  | cons t rest =>
      obtain ⟨l, p, c⟩ := t
      have hl : l ≠ .openParen := hrest _ rfl
      cases l <;> first | contradiction | simp only [hname]

theorem Reads.mono {n m : Nat} {e : Expr} {tokens : List Token}
    (h : Reads stop n e tokens stack) (hm : m ≤ n) : Reads stop m e tokens stack := by
  obtain ⟨frames, operand, hcloses, hread⟩ := h
  exact ⟨frames, operand, hcloses.mono hm, hread⟩

/-- The operand on the right of a frame that is pushed behind some tokens. -/
theorem Reads.behind {n p : Nat} {frame : Frame} {e : Expr} {tokens : List Token}
    (hread : Reads stop n e tokens (frame :: stack)) (hp : frame.power? = some p) (hn : n < p)
    (first : List Token) (hfirst : ∀ rest, readFrom stop stack none (first ++ rest) =
      readFrom stop (frame :: stack) none rest) :
    Reads stop n (frame.close e) (first ++ tokens) stack := by
  obtain ⟨frames, operand, hcloses, hread⟩ := hread
  refine ⟨frames ++ [frame], operand, hcloses.concat hp hn, fun rest hrest => ?_⟩
  rw [List.append_assoc, hfirst, hread rest hrest, List.append_assoc, List.singleton_append]

/-- A left operand and its operator are read into a frame. -/
theorem Reads.operator {n right : Nat} {op : String} {a : Expr} {tokens : List Token}
    (hread : Reads stop n a tokens stack) (hop : token.lexeme = .operator op)
    (hpower : bindingPower? op = some (n, right)) (hstack : Blocked n stack) (rest : List Token) :
    readFrom stop stack none (tokens ++ token :: rest) =
      readFrom stop (.binary op a :: stack) none rest := by
  obtain ⟨frames, operand, hcloses, hread⟩ := hread
  rw [hread _ (opensNothing_cons (by simp [hop]))]
  exact readFrom_operator hop hpower (hcloses.reduce_eq (Nat.le_refl n) hstack)

theorem blocked_binary {op : String} {left right : Nat} (h : bindingPower? op = some (left, right))
    {n : Nat} (hn : right ≤ n) (a : Expr) (stack : List Frame) :
    Blocked n (.binary op a :: stack) := by
  intro frame hframe p hp
  cases hframe
  rw [power_binary h] at hp
  cases hp
  exact hn

theorem blocked_of_powerless {frame : Frame} (h : frame.power? = none) (n : Nat)
    (stack : List Frame) : Blocked n (frame :: stack) := by
  intro f hf p hp
  cases hf
  rw [h] at hp
  cases hp

theorem ReadsPhrase.add {op : String} {a b : Expr} {left right : List Token}
    (hleft : ReadsPhrase stop left (.sum a)) (hop : token.lexeme = .operator op)
    (hadd : IsAdditive op) (hright : ReadsPhrase stop right (.product b)) :
    ReadsPhrase stop (left ++ token :: right) (.sum (.binary op a b)) := by
  intro stack hstack
  have hpower := bindingPower_of_additive hadd
  have hframe : Blocked 20 (.binary op a :: stack) := blocked_binary hpower (by decide) a stack
  have hread := ((hright _ hframe).mono (by decide : 10 ≤ 20)).behind
    (power_binary hpower a) (by decide) (left ++ [token]) fun rest => by
      rw [List.append_assoc, List.singleton_append]
      exact (hleft stack hstack).operator hop hpower hstack rest
  simpa [Frame.close] using hread

theorem ReadsPhrase.multiply {op : String} {a b : Expr} {left right : List Token}
    (hleft : ReadsPhrase stop left (.product a)) (hop : token.lexeme = .operator op)
    (hmultiply : IsMultiplicative op) (hright : ReadsPhrase stop right (.signed b)) :
    ReadsPhrase stop (left ++ token :: right) (.product (.binary op a b)) := by
  intro stack hstack
  have hpower := bindingPower_of_multiplicative hmultiply
  have hread := ((hright (.binary op a :: stack)).mono (by decide : 20 ≤ 29)).behind
    (power_binary hpower a) (by decide) (left ++ [token]) fun rest => by
      rw [List.append_assoc, List.singleton_append]
      exact (hleft stack hstack).operator hop hpower hstack rest
  simpa [Frame.close] using hread

theorem ReadsPhrase.raise {a b : Expr} {left right : List Token}
    (hleft : ReadsPhrase stop left (.atom a)) (hop : token.lexeme = .operator "^")
    (hright : ReadsPhrase stop right (.signed b)) :
    ReadsPhrase stop (left ++ token :: right) (.power (.binary "^" a b)) := by
  intro stack
  have hpower : bindingPower? "^" = some (41, 40) := rfl
  have hread := (hright (.binary "^" a :: stack)).behind
    (power_binary hpower a) (by decide) (left ++ [token]) fun rest => by
      rw [List.append_assoc, List.singleton_append,
        hleft stack _ (opensNothing_cons (by simp [hop]))]
      have hblocked : Blocked 41 stack := fun f hf p hp =>
        Nat.le_trans (blocked_forty stack f hf p hp) (by decide)
      exact readFrom_operator hop hpower (reduce_of_blocked hblocked (Nat.le_refl 41) a)
  simpa [Frame.close] using hread

theorem ReadsPhrase.sign {e : Expr} {tokens : List Token} (frame : Frame)
    (hp : frame.power? = some signPower)
    (hsign : ∀ stack rest, readFrom stop stack none (token :: rest) =
      readFrom stop (frame :: stack) none rest)
    (h : ReadsPhrase stop tokens (.signed e)) :
    ReadsPhrase stop (token :: tokens) (.signed (frame.close e)) := by
  intro stack
  exact (h (frame :: stack)).behind hp (by decide) [token] (hsign stack)

theorem ReadsPhrase.group {opening closing : Token} {e : Expr} {tokens : List Token}
    (hopening : opening.lexeme = .openParen) (hclosing : closing.lexeme = .closeParen)
    (h : ReadsPhrase stop tokens (.sum e)) :
    ReadsPhrase stop (opening :: (tokens ++ [closing])) (.atom e) := by
  intro stack rest hrest
  have hblocked : Blocked 0 (.group opening.position :: stack) := blocked_of_powerless rfl 0 stack
  obtain ⟨frames, operand, hcloses, hread⟩ :=
    h (.group opening.position :: stack) (blocked_of_powerless rfl 10 stack)
  rw [List.cons_append, readFrom]
  simp only [hopening, List.append_assoc, List.singleton_append]
  rw [hread _ (opensNothing_cons (by simp [hclosing])), readFrom]
  simp only [hclosing, reduceAll, hcloses.reduce_eq (by decide : 0 ≤ 10) hblocked]

theorem ReadsPhrase.argument {e : Expr} {tokens : List Token}
    (h : ReadsPhrase stop tokens (.sum e)) : ReadsPhrase stop tokens (.arguments [e]) := by
  intro stack name
  obtain ⟨frames, operand, hcloses, hread⟩ :=
    h (.call name [] :: stack) (blocked_of_powerless rfl 10 stack)
  exact ⟨[], e, frames, operand, rfl, hcloses, hread⟩

theorem ReadsPhrase.nextArgument {e : Expr} {es : List Expr} {left right : List Token}
    (hleft : ReadsPhrase stop left (.arguments es)) (hcomma : token.lexeme = .comma)
    (hright : ReadsPhrase stop right (.sum e)) :
    ReadsPhrase stop (left ++ token :: right) (.arguments (es ++ [e])) := by
  intro stack name
  obtain ⟨init, last, frames, operand, rfl, hcloses, hread⟩ := hleft stack name
  obtain ⟨frames', operand', hcloses', hread'⟩ :=
    hright (.call name (last :: init.reverse) :: stack) (blocked_of_powerless rfl 10 stack)
  refine ⟨init ++ [last], e, frames', operand', rfl, hcloses', fun rest hrest => ?_⟩
  have hblocked : Blocked 0 (.call name init.reverse :: stack) := blocked_of_powerless rfl 0 stack
  rw [List.append_assoc, List.cons_append, hread _ (opensNothing_cons (by simp [hcomma])),
    readFrom]
  simp only [hcomma, reduceAll, hcloses.reduce_eq (by decide : 0 ≤ 10) hblocked]
  rw [hread' rest hrest]
  simp

theorem ReadsPhrase.call {name : String} {opening closing : Token} {es : List Expr}
    {tokens : List Token} (hname : Names token.lexeme name)
    (hopening : opening.lexeme = .openParen) (hclosing : closing.lexeme = .closeParen)
    (hhead : ∀ t ∈ tokens.head?, t.lexeme ≠ .closeParen) (hne : tokens ≠ [])
    (h : ReadsPhrase stop tokens (.arguments es)) :
    ReadsPhrase stop (token :: opening :: (tokens ++ [closing])) (.atom (.call name es)) := by
  intro stack rest hrest
  obtain ⟨init, e, frames, operand, rfl, hcloses, hread⟩ := h stack name
  have hblocked : Blocked 0 (.call name init.reverse :: stack) := blocked_of_powerless rfl 0 stack
  have hfirst : ∀ t ∈ (tokens ++ [closing] ++ rest).head?, t.lexeme ≠ .closeParen := by
    cases tokens with
    | nil => contradiction
    | cons t tokens => exact hhead
  rw [List.cons_append, List.cons_append, readFrom_call hname hopening hfirst, List.append_assoc,
    List.singleton_append, hread _ (opensNothing_cons (by simp [hclosing])), readFrom]
  simp only [hclosing, reduceAll, hcloses.reduce_eq (by decide : 0 ≤ 10) hblocked,
    List.reverse_reverse]

/-- Tokens are cut where their lexemes are. -/
theorem exists_cut {tokens : List Token} {ls ls' : List Lexeme} {l : Lexeme}
    (h : tokens.map Token.lexeme = ls ++ l :: ls') : ∃ left token right,
      tokens = left ++ token :: right ∧ left.map Token.lexeme = ls ∧ token.lexeme = l ∧
        right.map Token.lexeme = ls' := by
  obtain ⟨left, others, rfl, hleft, hothers⟩ := List.map_eq_append_iff.mp h
  obtain ⟨token, right, rfl, htoken, hright⟩ := List.map_eq_cons_iff.mp hothers
  exact ⟨left, token, right, rfl, hleft, htoken, hright⟩

theorem readsPhrase_of_derives {ls : List Lexeme} {ph : Phrase} (h : Derives ls ph) (stop : Int) :
    ∀ tokens : List Token, tokens.map Token.lexeme = ls → ReadsPhrase stop tokens ph := by
  induction h with
  | product _ ih =>
      intro tokens htokens stack hstack
      have hblocked : Blocked 20 stack := fun f hf p hp =>
        Nat.le_trans (hstack f hf p hp) (by decide)
      exact (ih tokens htokens stack hblocked).mono (by decide)
  | signed _ ih =>
      intro tokens htokens stack _
      exact (ih tokens htokens stack).mono (by decide)
  | power _ ih => exact ih
  | atom _ ih =>
      intro tokens htokens stack
      exact ⟨[], _, .refl 29 _, ih tokens htokens stack⟩
  | argument _ ih => exact fun tokens htokens => (ih tokens htokens).argument
  | add _ hop _ ihl ihr =>
      intro tokens htokens
      obtain ⟨left, token, right, rfl, hleft, htoken, hright⟩ := exists_cut htokens
      exact (ihl left hleft).add htoken hop (ihr right hright)
  | multiply _ hop _ ihl ihr =>
      intro tokens htokens
      obtain ⟨left, token, right, rfl, hleft, htoken, hright⟩ := exists_cut htokens
      exact (ihl left hleft).multiply htoken hop (ihr right hright)
  | raise _ _ ihl ihr =>
      intro tokens htokens
      obtain ⟨left, token, right, rfl, hleft, htoken, hright⟩ := exists_cut htokens
      exact (ihl left hleft).raise htoken (ihr right hright)
  | nextArgument _ _ ihl ihr =>
      intro tokens htokens
      obtain ⟨left, token, right, rfl, hleft, htoken, hright⟩ := exists_cut htokens
      exact (ihl left hleft).nextArgument htoken (ihr right hright)
  | minus _ ih =>
      intro tokens htokens
      obtain ⟨token, others, rfl, htoken, hothers⟩ := List.map_eq_cons_iff.mp htokens
      exact (ih others hothers).sign .minus rfl fun stack rest => by
        rw [readFrom]
        simp only [htoken]
  | plus _ ih =>
      intro tokens htokens
      obtain ⟨token, others, rfl, htoken, hothers⟩ := List.map_eq_cons_iff.mp htokens
      exact (ih others hothers).sign .plus rfl fun stack rest => by
        rw [readFrom]
        simp only [htoken]
  | number | imaginary | constant =>
      intro tokens htokens stack rest _
      obtain ⟨token, rfl, htoken⟩ := List.map_eq_singleton_iff.mp htokens
      rw [List.singleton_append, readFrom]
      simp only [htoken]
  | var =>
      intro tokens htokens stack rest hrest
      obtain ⟨token, rfl, htoken⟩ := List.map_eq_singleton_iff.mp htokens
      exact readFrom_var htoken hrest
  | emptyCall hname =>
      intro tokens htokens stack rest _
      obtain ⟨token, others, rfl, rfl, hothers⟩ := List.map_eq_cons_iff.mp htokens
      obtain ⟨opening, others, rfl, hopening, hothers⟩ := List.map_eq_cons_iff.mp hothers
      obtain ⟨closing, rfl, hclosing⟩ := List.map_eq_singleton_iff.mp hothers
      exact readFrom_emptyCall hname hopening hclosing
  | call hname hargs ih =>
      intro tokens htokens
      obtain ⟨token, others, rfl, rfl, hothers⟩ := List.map_eq_cons_iff.mp htokens
      obtain ⟨opening, others, rfl, hopening, hothers⟩ := List.map_eq_cons_iff.mp hothers
      obtain ⟨args, others, rfl, hmap, hothers⟩ := List.map_eq_append_iff.mp hothers
      obtain ⟨closing, rfl, hclosing⟩ := List.map_eq_singleton_iff.mp hothers
      obtain ⟨l, rest, hhead, hl⟩ := hargs.head_ne_closeParen
      obtain ⟨first, args, rfl, rfl, _⟩ := List.map_eq_cons_iff.mp (hmap.trans hhead)
      refine ReadsPhrase.call hname hopening hclosing ?_ (by simp) (ih _ hmap)
      intro t ht
      cases ht
      exact hl
  | group _ ih =>
      intro tokens htokens
      obtain ⟨opening, others, rfl, hopening, hothers⟩ := List.map_eq_cons_iff.mp htokens
      obtain ⟨inner, others, rfl, hinner, hothers⟩ := List.map_eq_append_iff.mp hothers
      obtain ⟨closing, rfl, hclosing⟩ := List.map_eq_singleton_iff.mp hothers
      exact (ih inner hinner).group hopening hclosing

/-- Tokens that form a sum and end there are read as its tree. -/
theorem ofTokens_of_derives {tokens : List Token} {last : Token} {e : Expr}
    (h : Derives (tokens.map Token.lexeme) (.sum e)) (hlast : last.lexeme = .finish) :
    ofTokens (tokens ++ [last]) = .ok e := by
  obtain ⟨frames, operand, hcloses, hread⟩ :=
    readsPhrase_of_derives h (endPosition (tokens ++ [last])) tokens rfl [] (blocked_nil 10)
  unfold ofTokens
  rw [hread _ (opensNothing_cons (by simp [hlast])), readFrom]
  have hclosed := hcloses.reduce_eq (by decide : 0 ≤ 10) (blocked_nil 0)
  simp only [hlast, reduceAll, hclosed]

end Reckoner.Expr
