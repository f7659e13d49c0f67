import Reckoner.Proofs.Expr.Everywhere
import Reckoner.Proofs.Expr.Variables

/-!
# The search for variables

The search keeps trees on a stack. It takes a tree from the top and puts its operands there, the
leftmost one on top, so it has gone through a whole tree before it comes to what lies under it: by
induction on the tree, it notes the free variables just as they stand from left to right, and it
fails where there is something that is not an expression.
-/

namespace Reckoner.Expr

/-- The operands of a node from left to right. -/
def children : Expr → Except Cause (List Expr)
  | negate e => .ok [e]
  | binary _ l r => .ok [l, r]
  | call _ args => .ok args
  | foreign type _ => .error (.notANode type "children")
  | _ => .ok []

/-- What has been noted when a node has been seen. -/
def noted (found : List String) : Expr → List String
  | var name => if Constant.isName name || found.contains name then found else found ++ [name]
  | _ => found

theorem partsAll_append (es others : List Expr) :
    partsAll (es ++ others) = partsAll es ++ partsAll others := by
  induction es with
  | nil => rfl
  | cons e es ih => rw [List.cons_append, partsAll, partsAll, ih, List.append_assoc]

theorem parts_eq_of_children {e : Expr} {operands : List Expr} (h : e.children = .ok operands) :
    e.parts = e :: partsAll operands := by
  cases e with
  | foreign => cases h
  | _ => cases h; simp [parts, partsAll]

theorem length_partsAll_lt {e : Expr} {operands : List Expr} (h : e.children = .ok operands)
    (stack : List Expr) :
    (partsAll (operands ++ stack)).length < (partsAll (e :: stack)).length := by
  rw [partsAll_append, partsAll, parts_eq_of_children h, List.cons_append, List.length_cons]
  exact Nat.lt_succ_self _

/-- The free variables of the trees on a stack, behind those that have been noted. -/
def search (found : List String) : List Expr → Except Cause (List String)
  | [] => .ok found
  | e :: stack =>
    match _h : e.children with
    | .error cause => .error cause
    | .ok operands => search (noted found e) (operands ++ stack)
termination_by stack => (partsAll stack).length
decreasing_by exact length_partsAll_lt _h stack

theorem search_of_children {e : Expr} {operands : List Expr} (h : e.children = .ok operands)
    (found : List String) (stack : List Expr) :
    search found (e :: stack) = search (noted found e) (operands ++ stack) := by
  rw [search]
  split
  case h_1 cause hcause => rw [h] at hcause; cases hcause
  case h_2 others hothers => rw [h] at hothers; cases hothers; rfl

/-- The names that are not those of constants are added where they first occur. -/
def behind (found names : List String) : List String :=
  firstOccurrences found (names.filter (!Constant.isName ·))

theorem behind_append (found xs ys : List String) :
    behind found (xs ++ ys) = behind (behind found xs) ys := by
  rw [behind, List.filter_append, firstOccurrences_append, behind, behind]

theorem noted_var (found : List String) (name : String) :
    noted found (.var name) = behind found [name] := by
  rw [noted, behind]
  cases hconstant : Constant.isName name with
  | true => simp [hconstant, firstOccurrences]
  | false => simp [hconstant, firstOccurrences]

/-- What comes of the search when trees have been gone through. -/
def proceed (foreign? : Option String) (next : Except Cause (List String)) :
    Except Cause (List String) :=
  match foreign? with
  | some type => .error (.notANode type "children")
  | none => next

theorem proceed_orElse (first second : Option String) (next : Except Cause (List String)) :
    proceed (first.orElse fun _ => second) next = proceed first (proceed second next) := by
  cases first <;> rfl

mutual

/-- By induction on the tree, for every stack that it lies on. -/
theorem search_cons : ∀ (e : Expr) (found : List String) (stack : List Expr),
    search found (e :: stack) = proceed e.firstForeign? (search (behind found e.names) stack)
  | .var name, found, stack => by
      rw [search_of_children rfl, noted_var]
      rfl
  | .negate e, found, stack => by
      rw [search_of_children rfl]
      exact search_cons e found stack
  | .binary _ l r, found, stack => by
      rw [search_of_children rfl, firstForeign?, proceed_orElse, names, behind_append,
        ← search_cons r, ← search_cons l]
      rfl
  | .call _ args, found, stack => by
      rw [search_of_children rfl]
      exact search_append args found stack
  | .number _, found, stack | .imaginary _, found, stack | .constant _, found, stack
  | .blank, found, stack => by
      rw [search_of_children rfl]
      rfl
  | .foreign .., found, stack => by
      rw [search]
      rfl

theorem search_append : ∀ (es : List Expr) (found : List String) (stack : List Expr),
    search found (es ++ stack) =
      proceed (firstForeignIn? es) (search (behind found (namesAll es)) stack)
  | [], found, stack => rfl
  | e :: rest, found, stack => by
      rw [List.cons_append, search_cons e, search_append rest, firstForeignIn?, proceed_orElse,
        namesAll, behind_append]

end

theorem search_eq_freeVariables? (e : Expr) :
    (search [] [e]).mapError Error.of = e.freeVariables? := by
  rw [search_cons, freeVariables?, search]
  cases e.firstForeign? <;> rfl

end Reckoner.Expr
