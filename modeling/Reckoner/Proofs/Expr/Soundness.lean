import Reckoner.Proofs.Expr.Completeness

/-!
# Only what the grammar allows is read

While tokens are read, the lexemes behind are the open frames spelled out (`Awaits`) and, where an
operand is complete, the lexemes of an atom. A token that closes frames turns the atom into the
phrase that the token waits for, and the lexemes stay the same. Both directions together are
`ofTokens_eq_ok_iff_derives`.
-/

namespace Reckoner.Expr

variable {stop : Int} {stack : List Frame} {token : Token}

/-- The arguments that are complete, each with the comma behind it. -/
def Collected (ls : List Lexeme) (done : List Expr) : Prop :=
  ls = [] ∧ done = [] ∨ ∃ rs, ls = rs ++ [.comma] ∧ Derives rs (.arguments done.reverse)

/-- The lexemes that have been read into open frames, when an operand is awaited. A sum or a
product on the left of an operator lies where nothing binds tighter. -/
inductive Awaits : List Lexeme → List Frame → Prop
  | start : Awaits [] []
  | add {ls xs op a stack} : Awaits ls stack → Blocked 10 stack → Derives xs (.sum a) →
      IsAdditive op → Awaits (ls ++ (xs ++ [.operator op])) (.binary op a :: stack)
  | multiply {ls xs op a stack} : Awaits ls stack → Blocked 20 stack → Derives xs (.product a) →
      IsMultiplicative op → Awaits (ls ++ (xs ++ [.operator op])) (.binary op a :: stack)
  | raise {ls xs a stack} : Awaits ls stack → Derives xs (.atom a) →
      Awaits (ls ++ (xs ++ [.operator "^"])) (.binary "^" a :: stack)
  | minus {ls stack} : Awaits ls stack → Awaits (ls ++ [.operator "-"]) (.minus :: stack)
  | plus {ls stack} : Awaits ls stack → Awaits (ls ++ [.operator "+"]) (.plus :: stack)
  | group {ls stack} (opening) : Awaits ls stack →
      Awaits (ls ++ [.openParen]) (.group opening :: stack)
  | call {ls xs l name done stack} : Awaits ls stack → Names l name → Collected xs done →
      Awaits (ls ++ l :: .openParen :: xs) (.call name done :: stack)

/-- The lexemes that have been read: into open frames, and into an operand if one is complete. -/
inductive Progress : List Lexeme → List Frame → Option Expr → Prop
  | awaiting {ls stack} : Awaits ls stack → Progress ls stack none
  | complete {ls xs stack e} : Awaits ls stack → Derives xs (.atom e) →
      Progress (ls ++ xs) stack (some e)

/-- Closing frames turns an operand into one that forms the given phrase, above frames that bind
no tighter than the second number. The lexemes are the same. -/
def ClosesTo (m n : Nat) (phrase : Expr → Phrase) (read : List Lexeme) (stack : List Frame)
    (e : Expr) : Prop :=
  ∃ ls xs frames whole, ls ++ xs = read ∧ Awaits ls frames ∧ Blocked n frames ∧
    Derives xs (phrase whole) ∧ reduce m stack e = reduce m frames whole

/-- Where nothing binds tighter than a sum, nothing but a parenthesis is open. -/
theorem Awaits.blocked_zero {ls : List Lexeme} (h : Awaits ls stack) (hblocked : Blocked 10 stack) :
    Blocked 0 stack := by
  cases h with
  | start => exact blocked_nil 0
  | @add _ _ op a _ _ _ _ hop =>
      exact absurd (hblocked _ rfl 11 (power_binary (bindingPower_of_additive hop) a)) (by decide)
  | @multiply _ _ op a _ _ _ _ hop =>
      exact absurd (hblocked _ rfl 21 (power_binary (bindingPower_of_multiplicative hop) a))
        (by decide)
  | raise _ _ => exact absurd (hblocked _ rfl 40 rfl) (by decide)
  | minus _ | plus _ => exact absurd (hblocked _ rfl signPower rfl) (by decide)
  | group opening _ | call _ _ _ => exact blocked_of_powerless rfl 0 _

variable {m : Nat} {ls xs : List Lexeme} {e : Expr}

theorem closes_signs (h : Awaits ls stack) (hm : m < 30) (he : Derives xs (.signed e)) :
    ClosesTo m 21 .signed (ls ++ xs) stack e := by
  induction h generalizing xs e with
  | start => exact ⟨[], xs, [], e, rfl, .start, blocked_nil 21, he, rfl⟩
  | @add _ _ op a _ hstack hblocked ha hop =>
      have hpower := bindingPower_of_additive hop
      exact ⟨_, xs, _, e, rfl, .add hstack hblocked ha hop,
        blocked_binary hpower (by decide) a _, he, rfl⟩
  | @multiply _ _ op a _ hstack hblocked ha hop =>
      have hpower := bindingPower_of_multiplicative hop
      exact ⟨_, xs, _, e, rfl, .multiply hstack hblocked ha hop,
        blocked_binary hpower (by decide) a _, he, rfl⟩
  | @raise ls zs a stack hstack ha ih =>
      have hpower : (Frame.binary "^" a).power? = some 40 := rfl
      obtain ⟨ls', xs', frames, whole, hls, h⟩ := ih (.power (.raise ha he))
      rw [ClosesTo, reduce_cons hpower (by omega)]
      exact ⟨ls', xs', frames, whole, by simp [hls], h⟩
  | minus hstack ih =>
      obtain ⟨ls', xs', frames, whole, hls, h⟩ := ih (.minus he)
      rw [ClosesTo, reduce_cons (rfl : Frame.minus.power? = some 30) hm]
      exact ⟨ls', xs', frames, whole, by simp [hls], h⟩
  | plus hstack ih =>
      obtain ⟨ls', xs', frames, whole, hls, h⟩ := ih (.plus he)
      rw [ClosesTo, reduce_cons (rfl : Frame.plus.power? = some 30) hm]
      exact ⟨ls', xs', frames, whole, by simp [hls], h⟩
  | group opening hstack =>
      exact ⟨_, xs, _, e, rfl, .group opening hstack, blocked_of_powerless rfl 21 _, he, rfl⟩
  | call hstack hname hdone =>
      exact ⟨_, xs, _, e, rfl, .call hstack hname hdone, blocked_of_powerless rfl 21 _, he, rfl⟩

theorem ClosesTo.product (h : ClosesTo m 21 .signed xs stack e) (hm : m < 21) :
    ClosesTo m 20 .product xs stack e := by
  obtain ⟨ls, ys, frames, whole, rfl, hawaits, hblocked, he, hreduce⟩ := h
  rw [ClosesTo, hreduce]
  cases hawaits with
  | start => exact ⟨[], ys, [], whole, rfl, .start, blocked_nil 20, .signed he, rfl⟩
  | @add _ _ op a _ hstack hbelow ha hop =>
      have hpower := bindingPower_of_additive hop
      exact ⟨_, ys, _, whole, rfl, .add hstack hbelow ha hop,
        blocked_binary hpower (by decide) a _, .signed he, rfl⟩
  | @multiply ls zs op a stack hstack hbelow ha hop =>
      have hpower := power_binary (bindingPower_of_multiplicative hop) a
      exact ⟨ls, zs ++ .operator op :: ys, stack, .binary op a whole, by simp, hstack, hbelow,
        .multiply ha hop he, reduce_cons hpower hm stack whole⟩
  | @raise _ _ a _ hstack ha => exact absurd (hblocked _ rfl 40 rfl) (by decide)
  | minus hstack => exact absurd (hblocked _ rfl signPower rfl) (by decide)
  | plus hstack => exact absurd (hblocked _ rfl signPower rfl) (by decide)
  | group opening hstack =>
      exact ⟨_, ys, _, whole, rfl, .group opening hstack, blocked_of_powerless rfl 20 _,
        .signed he, rfl⟩
  | call hstack hname hdone =>
      exact ⟨_, ys, _, whole, rfl, .call hstack hname hdone, blocked_of_powerless rfl 20 _,
        .signed he, rfl⟩

theorem ClosesTo.sum (h : ClosesTo m 20 .product xs stack e) (hm : m < 11) :
    ClosesTo m 0 .sum xs stack e := by
  obtain ⟨ls, ys, frames, whole, rfl, hawaits, hblocked, he, hreduce⟩ := h
  rw [ClosesTo, hreduce]
  cases hawaits with
  | start => exact ⟨[], ys, [], whole, rfl, .start, blocked_nil 0, .product he, rfl⟩
  | @add ls zs op a stack hstack hbelow ha hop =>
      have hpower := power_binary (bindingPower_of_additive hop) a
      exact ⟨ls, zs ++ .operator op :: ys, stack, .binary op a whole, by simp, hstack,
        hstack.blocked_zero hbelow, .add ha hop he, reduce_cons hpower hm stack whole⟩
  | @multiply ls zs op a stack hstack hbelow ha hop =>
      have hpower := power_binary (bindingPower_of_multiplicative hop) a
      exact absurd (hblocked _ rfl 21 hpower) (by decide)
  | @raise _ _ a _ hstack ha => exact absurd (hblocked _ rfl 40 rfl) (by decide)
  | minus hstack => exact absurd (hblocked _ rfl signPower rfl) (by decide)
  | plus hstack => exact absurd (hblocked _ rfl signPower rfl) (by decide)
  | group opening hstack =>
      exact ⟨_, ys, _, whole, rfl, .group opening hstack, blocked_of_powerless rfl 0 _,
        .product he, rfl⟩
  | call hstack hname hdone =>
      exact ⟨_, ys, _, whole, rfl, .call hstack hname hdone, blocked_of_powerless rfl 0 _,
        .product he, rfl⟩

theorem closes_all {frames : List Frame} {whole : Expr} (h : Awaits ls stack)
    (he : Derives xs (.atom e)) (hreduce : reduceAll stack e = (frames, whole)) :
    ∃ ls' xs', ls' ++ xs' = ls ++ xs ∧ Awaits ls' frames ∧ Derives xs' (.sum whole) := by
  have hsigned := closes_signs (m := 0) h (by decide) (.power (.atom he))
  obtain ⟨ls', xs', frames', whole', hls, hawaits, hblocked, hderives, heq⟩ :=
    (hsigned.product (by decide)).sum (by decide)
  rw [reduceAll, heq, reduce_of_blocked hblocked (Nat.le_refl 0)] at hreduce
  cases hreduce
  exact ⟨ls', xs', hls, hawaits, hderives⟩

theorem awaits_binary {op : String} {left right : Nat} {frames : List Frame} {whole : Expr}
    (h : Awaits ls stack) (he : Derives xs (.atom e))
    (hpower : bindingPower? op = some (left, right))
    (hreduce : reduce left stack e = (frames, whole)) :
    Awaits (ls ++ xs ++ [.operator op]) (.binary op whole :: frames) := by
  have hsigned : left < 30 → ClosesTo left 21 .signed (ls ++ xs) stack e :=
    fun hleft => closes_signs h hleft (.power (.atom he))
  rcases bindingPower_eq_some hpower with ⟨hop, rfl⟩ | ⟨hop, rfl⟩ | ⟨rfl, rfl⟩
  · obtain ⟨ls', xs', frames', whole', hls, hawaits, hblocked, hderives, heq⟩ :=
      ((hsigned (by decide)).product (by decide)).sum (by decide)
    rw [heq, reduce_of_blocked hblocked (by decide)] at hreduce
    cases hreduce
    rw [← hls, List.append_assoc]
    exact .add hawaits (fun f hf p hp => Nat.le_trans (hblocked f hf p hp) (by decide)) hderives hop
  · obtain ⟨ls', xs', frames', whole', hls, hawaits, hblocked, hderives, heq⟩ :=
      (hsigned (by decide)).product (by decide)
    rw [heq, reduce_of_blocked hblocked (by decide)] at hreduce
    cases hreduce
    rw [← hls, List.append_assoc]
    exact .multiply hawaits hblocked hderives hop
  · rw [reduce_of_blocked (blocked_forty stack) (by decide)] at hreduce
    cases hreduce
    rw [List.append_assoc]
    exact .raise h he

theorem Collected.next {done : List Expr} (h : Collected ls done) (he : Derives xs (.sum e)) :
    Derives (ls ++ xs) (.arguments (done.reverse ++ [e])) := by
  rcases h with ⟨rfl, rfl⟩ | ⟨rs, rfl, hdone⟩
  · exact .argument he
  · rw [List.append_assoc, List.singleton_append]
    exact .nextArgument hdone he

/-- The lexemes that reading uses form a sum, and nothing follows them but the end. -/
def ReadsSum (read : List Lexeme) (tokens : List Token) (e : Expr) : Prop :=
  ∃ used rest, tokens.map Token.lexeme = used ++ rest ∧
    (∀ l ∈ rest.head?, l = .finish) ∧ Derives (read ++ used) (.sum e)

theorem ReadsSum.cons {read : List Lexeme} {l : Lexeme} {tokens : List Token} {e : Expr}
    (hl : token.lexeme = l) (h : ReadsSum (read ++ [l]) tokens e) :
    ReadsSum read (token :: tokens) e := by
  obtain ⟨used, rest, htokens, hrest, hderives⟩ := h
  exact ⟨l :: used, rest, by simp [hl, htokens], hrest, by simpa using hderives⟩

theorem Progress.awaits {read : List Lexeme} (h : Progress read stack none) :
    Awaits read stack := by
  cases h with
  | awaiting h => exact h

theorem Progress.atom {read : List Lexeme} (h : Progress read stack none)
    (he : Derives xs (.atom e)) : Progress (read ++ xs) stack (some e) :=
  .complete h.awaits he

theorem Progress.openCall {read : List Lexeme} {l : Lexeme} {name : String}
    (h : Progress read stack none) (hname : Names l name) :
    Progress (read ++ [l] ++ [.openParen]) (.call name [] :: stack) none := by
  rw [List.append_assoc]
  exact .awaiting (.call h.awaits hname (.inl ⟨rfl, rfl⟩))

theorem Progress.emptyCall {read : List Lexeme} {l : Lexeme} {name : String} {tokens : List Token}
    {position position' : Int} {caption caption' : Option Caption} {tree : Expr}
    (h : Progress read stack none) (hl : token.lexeme = l) (hname : Names l name)
    (hrest : Progress (read ++ [l, .openParen, .closeParen]) stack (some (.call name [])) →
      ReadsSum (read ++ [l, .openParen, .closeParen]) tokens tree) :
    ReadsSum read (token :: ⟨.openParen, position, caption⟩ ::
      ⟨.closeParen, position', caption'⟩ :: tokens) tree := by
  apply ReadsSum.cons hl
  apply ReadsSum.cons rfl
  apply ReadsSum.cons rfl
  simpa using hrest (h.atom (.emptyCall hname))

theorem Progress.operator {read : List Lexeme} {op : String} {left right : Nat}
    {frames : List Frame} {whole : Expr} (h : Progress read stack (some e))
    (hpower : bindingPower? op = some (left, right))
    (hreduce : reduce left stack e = (frames, whole)) :
    Progress (read ++ [.operator op]) (.binary op whole :: frames) none := by
  cases h with
  | complete h he => exact .awaiting (awaits_binary h he hpower hreduce)

/-- What was read with an operand above all frames that bind is a sum above the others. -/
theorem Progress.closes {read : List Lexeme} {frames : List Frame} {whole : Expr}
    (h : Progress read stack (some e)) (hreduce : reduceAll stack e = (frames, whole)) :
    ∃ ls xs, ls ++ xs = read ∧ Awaits ls frames ∧ Derives xs (.sum whole) := by
  cases h with
  | complete h he => exact closes_all h he hreduce

theorem Progress.closeGroup {read : List Lexeme} {opening : Int} {frames : List Frame}
    {whole : Expr} (h : Progress read stack (some e))
    (hreduce : reduceAll stack e = (.group opening :: frames, whole)) :
    Progress (read ++ [.closeParen]) frames (some whole) := by
  obtain ⟨_, xs, rfl, hawaits, hsum⟩ := h.closes hreduce
  cases hawaits with
  | group _ hawaits =>
      rw [List.append_assoc, List.append_assoc]
      exact .complete hawaits (.group hsum)

theorem Progress.closeCall {read : List Lexeme} {name : String} {done : List Expr}
    {frames : List Frame} {whole : Expr} (h : Progress read stack (some e))
    (hreduce : reduceAll stack e = (.call name done :: frames, whole)) :
    Progress (read ++ [.closeParen]) frames (some (.call name (done.reverse ++ [whole]))) := by
  obtain ⟨_, xs, rfl, hawaits, hsum⟩ := h.closes hreduce
  cases hawaits with
  | call hawaits hname hdone =>
      rw [List.append_assoc, List.append_assoc]
      simpa using Progress.complete hawaits (.call hname (hdone.next hsum))

theorem Progress.comma {read : List Lexeme} {name : String} {done : List Expr}
    {frames : List Frame} {whole : Expr} (h : Progress read stack (some e))
    (hreduce : reduceAll stack e = (.call name done :: frames, whole)) :
    Progress (read ++ [.comma]) (.call name (whole :: done) :: frames) none := by
  obtain ⟨_, xs, rfl, hawaits, hsum⟩ := h.closes hreduce
  cases hawaits with
  | @call ls ys l _ _ _ hawaits hname hdone =>
      have hnext : Collected (ys ++ xs ++ [.comma]) (whole :: done) :=
        .inr ⟨ys ++ xs, rfl, by simpa using hdone.next hsum⟩
      simpa using Progress.awaiting (.call hawaits hname hnext)

theorem Progress.finish {read : List Lexeme} {whole : Expr} (h : Progress read stack (some e))
    (hreduce : reduceAll stack e = ([], whole)) : Derives read (.sum whole) := by
  obtain ⟨_, xs, rfl, hawaits, hsum⟩ := h.closes hreduce
  cases hawaits
  exact hsum

theorem readsSum_of_readFrom {read : List Lexeme} {operand : Option Expr} {tokens : List Token}
    {tree : Expr} (hprogress : Progress read stack operand)
    (h : readFrom stop stack operand tokens = .ok tree) : ReadsSum read tokens tree := by
  fun_induction readFrom stop stack operand tokens generalizing read
  all_goals try cases h
  case case2.refl hreduce =>
      exact ⟨[], [], rfl, by simp, by simpa using hprogress.finish hreduce⟩
  case case4 hl ih => exact .cons hl (ih (hprogress.atom (.number _)) h)
  case case5 hl ih => exact .cons hl (ih (hprogress.atom (.imaginary _)) h)
  case case6 hl ih => exact .cons hl (ih (hprogress.atom (.constant _)) h)
  case case7 hl _ _ _ _ _ ih => exact hprogress.emptyCall hl (.var _) fun hp => ih hp h
  case case8 hl _ _ _ _ ih => exact .cons hl (.cons rfl (ih (hprogress.openCall (.var _)) h))
  case case9 hl _ _ _ ih => exact .cons hl (ih (hprogress.atom (.var _)) h)
  case case10 hl _ _ _ _ _ ih => exact hprogress.emptyCall hl (.function _) fun hp => ih hp h
  case case11 hl _ _ _ _ ih => exact .cons hl (.cons rfl (ih (hprogress.openCall (.function _)) h))
  case case14 hl ih => exact .cons hl (ih (.awaiting (.group _ hprogress.awaits)) h)
  case case15 hl ih => exact .cons hl (ih (.awaiting (.minus hprogress.awaits)) h)
  case case16 hl ih => exact .cons hl (ih (.awaiting (.plus hprogress.awaits)) h)
  case case22 hl _ _ hpower _ _ hreduce ih =>
      exact .cons hl (ih (hprogress.operator hpower hreduce) h)
  case case24 hl _ _ _ hreduce ih => exact .cons hl (ih (hprogress.closeGroup hreduce) h)
  case case25 hl _ _ _ _ hreduce ih => exact .cons hl (ih (hprogress.closeCall hreduce) h)
  case case27 hl _ _ _ _ hreduce ih => exact .cons hl (ih (hprogress.comma hreduce) h)
  case case29.refl hl hreduce =>
      refine ⟨[], _, rfl, ?_, by simpa using hprogress.finish hreduce⟩
      intro l h
      cases h
      exact hl

/-- Tokens that are read as a tree derive it up to the end. -/
theorem derives_of_ofTokens {tokens : List Token} {last : Token} {e : Expr}
    (hlast : last.lexeme = .finish) (honly : ∀ token ∈ tokens, token.lexeme ≠ .finish)
    (h : ofTokens (tokens ++ [last]) = .ok e) : Derives (tokens.map Token.lexeme) (.sum e) := by
  obtain ⟨used, rest, htokens, hrest, hderives⟩ := readsSum_of_readFrom (.awaiting .start) h
  rw [List.map_append, List.map_singleton, hlast] at htokens
  have hfinish : Lexeme.finish ∉ tokens.map Token.lexeme := by simpa using honly
  cases rest with
  | nil =>
      have hmem : Lexeme.finish ∈ used := by
        rw [← List.append_nil used, ← htokens]
        simp
      exact absurd hmem hderives.finish_not_mem
  | cons l rest =>
      cases hrest l rfl
      obtain ⟨hused, -, -⟩ := (List.append_cons_inj_of_notMem hfinish List.not_mem_nil).mp htokens
      rwa [hused]

/-- No lexemes derive two trees. -/
theorem Derives.unique {ls : List Lexeme} {a b : Expr} (ha : Derives ls (.sum a))
    (hb : Derives ls (.sum b)) : a = b := by
  let tokens : List Token := ls.map fun l => { lexeme := l, position := 0 }
  have htokens : tokens.map Token.lexeme = ls := by
    simp [tokens, Function.comp_def]
  have hread {e : Expr} (h : Derives ls (.sum e)) :
      ofTokens (tokens ++ [⟨.finish, 0, none⟩]) = .ok e :=
    ofTokens_of_derives (htokens ▸ h) rfl
  exact Except.ok.inj ((hread ha).symm.trans (hread hb))

/-- Tokens in front of the only end are read as a tree just when they derive it as a sum, and
anything else is an error. -/
theorem ofTokens_eq_ok_iff_derives {tokens : List Token} {last : Token}
    (hlast : last.lexeme = .finish) (honly : ∀ token ∈ tokens, token.lexeme ≠ .finish) :
    (∀ e, ofTokens (tokens ++ [last]) = .ok e ↔ Derives (tokens.map Token.lexeme) (.sum e)) ∧
      ((¬ ∃ e, Derives (tokens.map Token.lexeme) (.sum e)) →
        ∃ error, ofTokens (tokens ++ [last]) = .error error) := by
  have hiff (e : Expr) :
      ofTokens (tokens ++ [last]) = .ok e ↔ Derives (tokens.map Token.lexeme) (.sum e) :=
    ⟨derives_of_ofTokens hlast honly, fun h => ofTokens_of_derives h hlast⟩
  refine ⟨hiff, fun hnone => ?_⟩
  cases h : ofTokens (tokens ++ [last]) with
  | ok e => exact absurd ⟨e, (hiff e).mp h⟩ hnone
  | error error => exact ⟨error, rfl⟩

/-- The tokens of `-x ^ -y * z`. -/
private def signedPower : List Token :=
  [.operator "-", .var "x", .operator "^", .operator "-", .var "y", .operator "*", .var "z"].map
    fun l => { lexeme := l, position := 0 }

theorem ofTokens_eq_ok_iff_derives_signedPower :
    (∀ token ∈ signedPower, token.lexeme ≠ .finish) ∧
      Derives (signedPower.map Token.lexeme) (.sum (.binary "*"
        (.negate (.binary "^" (.var "x") (.negate (.var "y")))) (.var "z"))) := by
  have honly : ∀ token ∈ signedPower, token.lexeme ≠ .finish := by decide
  have hlast : (⟨.finish, 7, none⟩ : Token).lexeme = .finish := rfl
  refine ⟨honly, ?_⟩
  exact ((ofTokens_eq_ok_iff_derives hlast honly).1 _).mp rfl

end Reckoner.Expr
