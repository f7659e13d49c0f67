import Reckoner.Proofs.Expr.Exact
import Reckoner.Proofs.Expr.Parenthesis

/-!
# Parentheses around an operation

A division or a power of two expressions in parentheses stands somewhere among lexemes that form a
phrase. Parentheses around it leave a phrase of the same value, unless something in front takes its
first operand away, or an exponent behind it takes the second one.
-/

namespace Reckoner.Expr

open Reckoner.Token

/-! ## What stands around an operation -/

/-- A lexeme that may be a sign. -/
def IsSign (l : Lexeme) : Prop := ∃ op, IsAdditive op ∧ l = .operator op

/-- What stands in front leaves both operands to the operation. A name takes the first one as its
argument, and a division or a power in front of a division takes it as its second operand. -/
structure Yields (op : String) (before : List Lexeme) : Prop where
  name : ∀ {front l name}, before = front ++ [l] → ¬ Names l name
  operator : op = "/" → ∀ {front signs other}, before = front ++ .operator other :: signs →
    (∀ l ∈ signs, IsSign l) → other ≠ "/" ∧ other ≠ "^"

/-- No exponent stands in front. -/
def Unraised (after : List Lexeme) : Prop := after.head? ≠ some (.operator "^")

variable {op : String} {before after more as bs ls rs : List Lexeme} {a b y : Expr}
  {l m : Lexeme} {phrase : Phrase}

theorem Yields.suffix (h : Yields op (before ++ more)) : Yields op more := by
  refine ⟨fun {front l name} heq => ?_, fun hop {front signs other} heq => ?_⟩
  · apply h.name
    rw [heq, ← List.append_assoc]
  · apply h.operator hop
    rw [heq, ← List.append_assoc]

theorem Yields.tail (h : Yields op (l :: more)) : Yields op more := by
  rw [← List.singleton_append] at h
  exact h.suffix

theorem Unraised.init (h : Unraised (after ++ more)) : Unraised after := by
  cases after with
  | nil => exact fun hhead => by cases hhead
  | cons l after => exact h

/-! ## Expressions in parentheses at an end -/

/-- An atom that ends with an expression in parentheses is that expression, or a call. -/
theorem Derives.atom_enclosed (h : Derives ls (.atom a)) (has : Shut as)
    (hls : ls = before ++ enclosed as) (hbefore : Yields op before) :
    before = [] ∧ Derives as (.sum a) := by
  have hcall {l : Lexeme} {name : String} {inner : List Lexeme} (hname : Names l name)
      (hinner : Shut inner) (heq : l :: enclosed inner = before ++ enclosed as) : False := by
    cases before with
    | nil =>
        injection heq with hl _
        rw [hl] at hname
        cases hname
    | cons m before =>
        obtain ⟨hl, heq⟩ := List.cons_eq_cons.mp heq
        obtain ⟨rfl, -⟩ := hinner.enclosed_eq has heq
        exact hbefore.name (List.nil_append [m]).symm (hl ▸ hname)
  have hsingle (l : Lexeme) (heq : [l] = before ++ enclosed as) : False := by
    have hlength := congrArg List.length heq
    simp only [List.length_append, List.length_cons, List.length_nil] at hlength
    omega
  cases h with
  | number | imaginary | constant | var => exact (hsingle _ hls).elim
  | emptyCall hname => exact (hcall hname shut_nil hls).elim
  | call hname harguments => exact (hcall hname harguments.shut hls).elim
  | group hsum =>
      obtain ⟨rfl, rfl⟩ := hsum.shut.enclosed_eq has hls
      exact ⟨rfl, hsum⟩

/-- An atom that starts with an expression in parentheses is that expression. -/
theorem Derives.atom_of_enclosed (h : Derives ls (.atom b)) (hbs : Shut bs)
    (hls : ls = enclosed bs ++ after) : after = [] ∧ Derives bs (.sum b) := by
  cases h with
  | number | imaginary | constant | var => cases hls
  | emptyCall hname | call hname _ =>
      injection hls with hl _
      rw [hl] at hname
      cases hname
  | @group inner _ hsum =>
      injection hls with _ hls
      have hclose : inner ++ [.closeParen] = bs ++ .closeParen :: after := by simpa using hls
      obtain ⟨rfl, heq⟩ := hsum.shut.unique hbs hclose
      exact ⟨heq.symm, hsum⟩

/-- An operand with signs that starts with an expression in parentheses is that expression, unless
it is raised. -/
theorem Derives.signed_of_enclosed (h : Derives ls (.signed b)) (hbs : Shut bs)
    (hls : ls = enclosed bs ++ after) (hafter : Unraised after) :
    after = [] ∧ Derives bs (.sum b) := by
  cases h with
  | minus | plus => cases hls
  | power h =>
      cases h with
      | atom h => exact h.atom_of_enclosed hbs hls
      | raise hbase hexponent =>
          obtain ⟨front, hfront, rfl⟩ := hbase.shut.cut_behind_enclosed hbs (by simp) hls
          obtain ⟨rfl, -⟩ := hbase.atom_of_enclosed hbs hfront
          exact absurd rfl hafter

/-! ## A quotient for its first operand -/

theorem Derives.quotient (ha : Derives as (.sum a)) (hb : Derives bs (.sum b)) :
    Derives (enclosed (loose "/" as bs)) (.atom (.binary "/" a b)) :=
  .group (.product (.multiply (.signed (.power (.atom (.group ha)))) (.inr rfl)
    (.power (.atom (.group hb)))))

theorem Derives.raised (ha : Derives as (.sum a)) (hb : Derives bs (.sum b)) :
    Derives (enclosed (loose "^" as bs)) (.atom (.binary "^" a b)) :=
  .group (.product (.signed (.power (.raise (.group ha) (.power (.atom (.group hb)))))))

/-- Where the row ends with an expression in parentheses, a quotient of it in its place makes the
whole a quotient. -/
def DividesLast (as bs : List Lexeme) (y : Expr) (ls : List Lexeme) : Phrase → Prop
  | .power a => ∀ before, ls = before ++ enclosed as → Yields "/" before →
      before = [] ∧ Derives as (.sum a)
  | .signed a => ∀ before, ls = before ++ enclosed as → Yields "/" before →
      (∀ l ∈ before, IsSign l) ∧ ∃ a', Derives (before ++ enclosed (loose "/" as bs)) (.signed a') ∧
        SameValue (.binary "/" a y) a'
  | .product a => ∀ before, ls = before ++ enclosed as → Yields "/" before →
      ∃ a', Derives (before ++ enclosed (loose "/" as bs)) (.product a') ∧
        SameValue (.binary "/" a y) a'
  | _ => True

/-- A row in which parentheses open further behind. -/
theorem cons_eq_append {xs : List Lexeme} (h : l :: ls = before ++ xs) (hl : l ≠ .openParen)
    (hxs : xs.head? = some .openParen) : ∃ back, before = l :: back ∧ ls = back ++ xs := by
  cases before with
  | nil =>
      rw [← show l :: ls = xs from h] at hxs
      exact absurd (Option.some.inj hxs) hl
  | cons m back =>
      obtain ⟨hm, hls⟩ := List.cons_eq_cons.mp h
      exact ⟨back, by rw [hm], hls⟩

theorem Derives.divides_last (h : Derives ls phrase) (has : Shut as) (hb : Derives bs (.sum y)) :
    DividesLast as bs y ls phrase := by
  induction h with
  | atom hatom =>
      intro before hls hbefore
      exact hatom.atom_enclosed has hls hbefore
  | raise hbase _ _ ih =>
      -- the exponent would end with the expression, behind signs
      intro before hls hbefore
      obtain ⟨back, rfl, hrs⟩ := hbase.shut.cut_enclosed has (by simp) hls
      obtain ⟨hsigns, -⟩ := ih back hrs (hbefore.suffix.tail)
      exact absurd rfl (hbefore.operator rfl rfl hsigns).2
  | power _ ih =>
      intro before hls hbefore
      obtain ⟨rfl, ha⟩ := ih before hls hbefore
      exact ⟨by simp, _, .power (.atom (ha.quotient hb)), .refl _⟩
  | minus _ ih =>
      intro before hls hbefore
      obtain ⟨back, rfl, hrs⟩ := cons_eq_append hls (by simp) rfl
      obtain ⟨hsigns, a', ha', hvalue⟩ := ih back hrs hbefore.tail
      exact ⟨List.forall_mem_cons.mpr ⟨⟨_, .inr rfl, rfl⟩, hsigns⟩, _, .minus ha',
        (SameValue.divide_negate _ y).trans hvalue.negate⟩
  | plus _ ih =>
      intro before hls hbefore
      obtain ⟨back, rfl, hrs⟩ := cons_eq_append hls (by simp) rfl
      obtain ⟨hsigns, a', ha', hvalue⟩ := ih back hrs hbefore.tail
      exact ⟨List.forall_mem_cons.mpr ⟨⟨_, .inl rfl, rfl⟩, hsigns⟩, a', .plus ha', hvalue⟩
  | signed _ ih =>
      intro before hls hbefore
      obtain ⟨-, a', ha', hvalue⟩ := ih before hls hbefore
      exact ⟨a', .signed ha', hvalue⟩
  | multiply hfirst hop _ _ ih =>
      intro before hls hbefore
      obtain ⟨back, rfl, hrs⟩ := hfirst.shut.cut_enclosed has (by simp) hls
      obtain ⟨hsigns, b', hb', hvalue⟩ := ih back hrs (hbefore.suffix.tail)
      rcases hop with rfl | rfl
      · refine ⟨_, ?_, (SameValue.divide_multiply _ _ y).trans (.binary "*" (.refl _) hvalue)⟩
        rw [List.append_assoc]
        exact .multiply hfirst (.inl rfl) hb'
      · exact absurd rfl (hbefore.operator rfl rfl hsigns).1
  | _ => trivial

/-! ## Parentheses around the operation -/

/-- The lexemes form a phrase of the same kind and value. -/
def SameMeaning (ls : List Lexeme) : Phrase → Prop
  | .sum a => ∃ b, Derives ls (.sum b) ∧ SameValue a b
  | .product a => ∃ b, Derives ls (.product b) ∧ SameValue a b
  | .signed a => ∃ b, Derives ls (.signed b) ∧ SameValue a b
  | .power a => ∃ b, Derives ls (.power b) ∧ SameValue a b
  | .atom a => ∃ b, Derives ls (.atom b) ∧ SameValue a b
  | .arguments as => ∃ bs, Derives ls (.arguments bs) ∧ SameValues as bs

/-- Parentheses around the operation do not change what the row means. -/
def Regroups (op : String) (as bs ls : List Lexeme) (phrase : Phrase) : Prop :=
  ∀ ⦃before after⦄, ls = before ++ (loose op as bs ++ after) → Yields op before → Unraised after →
    SameMeaning (before ++ (enclosed (loose op as bs) ++ after)) phrase

theorem append_row (inner front : List Lexeme) :
    before ++ (inner ++ (front ++ m :: rs)) = before ++ (inner ++ front) ++ m :: rs := by
  simp only [List.append_assoc]

theorem Derives.sameMeaning (h : Derives ls phrase) : SameMeaning ls phrase := by
  cases phrase with
  | arguments es => exact ⟨es, h, .refl es⟩
  | _ e => exact ⟨e, h, .refl e⟩

/-- A row of two phrases: the operation belongs to one of them, or it is the row. -/
theorem Regroups.row {first second : Phrase} (hfirst : Derives ls first)
    (hsecond : Derives rs second) (has : Shut as) (hbs : Shut bs) (hm : m ≠ .openParen)
    (ihfirst : Regroups op as bs ls first) (ihsecond : Regroups op as bs rs second)
    (hjoin : ∀ {ls rs}, SameMeaning ls first → SameMeaning rs second →
      SameMeaning (ls ++ m :: rs) phrase)
    (hwhole : ∀ {before after}, m = .operator op → ls = before ++ enclosed as →
      rs = enclosed bs ++ after → Yields op before → Unraised after →
      SameMeaning (before ++ (enclosed (loose op as bs) ++ after)) phrase) :
    Regroups op as bs (ls ++ m :: rs) phrase := by
  intro before after hls hbefore hafter
  rcases hfirst.shut.cut has hbs hm hls with
    ⟨back, rfl, hback⟩ | ⟨front, rfl, hfront⟩ | ⟨hop, hlast, hhead⟩
  · rw [List.append_assoc]
    exact hjoin hfirst.sameMeaning (ihsecond hback hbefore.suffix.tail hafter)
  · rw [append_row]
    exact hjoin (ihfirst hfront hbefore hafter.init) hsecond.sameMeaning
  · exact hwhole hop hlast hhead hbefore hafter

/-- An operation with something on both sides does not fit into a short row. -/
theorem length_le_of_loose (h : ls = before ++ (loose op as bs ++ after)) : 5 ≤ ls.length := by
  rw [h]
  simp only [loose, List.length_append, List.length_cons, List.length_nil]
  omega

theorem Derives.regroups (h : Derives ls phrase) (hop : op = "/" ∨ op = "^") (has : Shut as)
    (hbs : Shut bs) : Regroups op as bs ls phrase := by
  induction h with
  | product _ ih =>
      intro before after hls hbefore hafter
      obtain ⟨_, h, hvalue⟩ := ih hls hbefore hafter
      exact ⟨_, .product h, hvalue⟩
  | signed _ ih =>
      intro before after hls hbefore hafter
      obtain ⟨_, h, hvalue⟩ := ih hls hbefore hafter
      exact ⟨_, .signed h, hvalue⟩
  | power _ ih =>
      intro before after hls hbefore hafter
      obtain ⟨_, h, hvalue⟩ := ih hls hbefore hafter
      exact ⟨_, .power h, hvalue⟩
  | atom _ ih =>
      intro before after hls hbefore hafter
      obtain ⟨_, h, hvalue⟩ := ih hls hbefore hafter
      exact ⟨_, .atom h, hvalue⟩
  | argument _ ih =>
      intro before after hls hbefore hafter
      obtain ⟨_, h, hvalue⟩ := ih hls hbefore hafter
      exact ⟨_, .argument h, .cons hvalue .nil⟩
  | minus _ ih =>
      intro before after hls hbefore hafter
      obtain ⟨back, rfl, hback⟩ := cons_eq_append hls (by simp) rfl
      obtain ⟨_, h, hvalue⟩ := ih hback hbefore.tail hafter
      exact ⟨_, .minus h, hvalue.negate⟩
  | plus _ ih =>
      intro before after hls hbefore hafter
      obtain ⟨back, rfl, hback⟩ := cons_eq_append hls (by simp) rfl
      obtain ⟨_, h, hvalue⟩ := ih hback hbefore.tail hafter
      exact ⟨_, .plus h, hvalue⟩
  | number | imaginary | constant | var | emptyCall =>
      intro before after hls
      exact absurd (length_le_of_loose hls) (by simp)
  | add hfirst hadditive hsecond ihfirst ihsecond =>
      refine Regroups.row hfirst hsecond has hbs (by simp) ihfirst ihsecond ?_ ?_
      · rintro _ _ ⟨_, h, hvalue⟩ ⟨_, h', hvalue'⟩
        exact ⟨_, .add h hadditive h', .binary _ hvalue hvalue'⟩
      · intro before after hm
        cases hm
        rcases hadditive with rfl | rfl <;> exact absurd hop (by decide)
  | multiply hfirst hmultiplicative hsecond ihfirst ihsecond =>
      refine Regroups.row hfirst hsecond has hbs (by simp) ihfirst ihsecond ?_ ?_
      · rintro _ _ ⟨_, h, hvalue⟩ ⟨_, h', hvalue'⟩
        exact ⟨_, .multiply h hmultiplicative h', .binary _ hvalue hvalue'⟩
      · intro before after hm hlast hhead hbefore hafter
        cases hm
        obtain rfl : op = "/" := by
          rcases hmultiplicative with rfl | rfl
          · exact absurd hop (by decide)
          · rfl
        obtain ⟨rfl, hb⟩ := hsecond.signed_of_enclosed hbs hhead hafter
        rw [List.append_nil]
        exact hfirst.divides_last has hb before hlast hbefore
  | raise hfirst hsecond ihfirst ihsecond =>
      refine Regroups.row hfirst hsecond has hbs (by simp) ihfirst ihsecond ?_ ?_
      · rintro _ _ ⟨_, h, hvalue⟩ ⟨_, h', hvalue'⟩
        exact ⟨_, .raise h h', .binary _ hvalue hvalue'⟩
      · intro before after hm hlast hhead hbefore hafter
        cases hm
        obtain ⟨rfl, ha⟩ := hfirst.atom_enclosed has hlast hbefore
        obtain ⟨rfl, hb⟩ := hsecond.signed_of_enclosed hbs hhead hafter
        rw [List.append_nil]
        exact ⟨_, .atom (ha.raised hb), .refl _⟩
  | nextArgument hfirst hsecond ihfirst ihsecond =>
      refine Regroups.row hfirst hsecond has hbs (by simp) ihfirst ihsecond ?_ fun hm => by cases hm
      rintro _ _ ⟨_, h, hvalues⟩ ⟨_, h', hvalue⟩
      exact ⟨_, .nextArgument h h', hvalues.append (.cons hvalue .nil)⟩
  | @call l name _ _ hname harguments ih =>
      intro before after hls hbefore hafter
      have hl : l ≠ .openParen := by rintro rfl; cases hname
      obtain ⟨back, rfl, hback⟩ := cons_eq_append hls hl rfl
      obtain ⟨front, rear, rfl, rfl, hinner⟩ := harguments.shut.within has hbs hback
      obtain ⟨_, h, hvalues⟩ := ih hinner hbefore.tail.tail hafter.init
      rw [append_row]
      exact ⟨_, .call hname h, .call _ hvalues⟩
  | group hsum ih =>
      intro before after hls hbefore hafter
      obtain ⟨front, rear, rfl, rfl, hinner⟩ := hsum.shut.within has hbs hls
      obtain ⟨_, h, hvalue⟩ := ih hinner hbefore.tail hafter.init
      rw [append_row]
      exact ⟨_, .group h, hvalue⟩

end Reckoner.Expr
