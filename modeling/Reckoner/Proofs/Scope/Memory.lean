import Reckoner.Proofs.Scope.Meaning

/-!
# Remembered values

A scope remembers values and marks the names that wait. As long as it remembers only what names
mean, a look-up gives what the name means on the path of the marked names, and afterwards the same
names are marked and only meanings are remembered, whether the look-up gave a value or failed.
-/

namespace Reckoner

open Reckoner.Action

variable {α : Type} [Arithmetic α] {bindings : Table (Binding α)}

/-- The names on the path are marked, and all values that are remembered are those that the names
mean. -/
structure Sound (bindings : Table (Binding α)) (path : List String) (m : Memory α) : Prop where
  pending : m.pending = path
  resolved : ∀ {name v}, m.resolved.find? name = some v → meaning bindings name = .ok v

theorem sound_fresh : Sound bindings [] (Memory.fresh : Memory α) :=
  ⟨rfl, fun h => by cases h⟩

theorem Sound.note {path : List String} {m : Memory α} (h : Sound bindings path m)
    (reductions : List (Reduction α)) : Sound bindings path { m with reductions } :=
  ⟨h.pending, h.resolved⟩

theorem gives_whilePending {path : List String} {name : String} {β : Type} {a : Run α β}
    {outcome : Except Error β} (hname : name ∉ path)
    (ha : Gives (Sound bindings (name :: path)) a outcome) :
    Gives (Sound bindings path) (Run.whilePending name a) outcome := by
  intro m hm
  have hmarked : Sound bindings (name :: path) { m with pending := name :: m.pending } :=
    ⟨congrArg (name :: ·) hm.pending, hm.resolved⟩
  obtain ⟨houtcome, hsound⟩ := ha _ hmarked
  have hrun : (Run.whilePending name a).runFrom m =
      ((a.runFrom { m with pending := name :: m.pending }).1,
        { (a.runFrom { m with pending := name :: m.pending }).2 with
          pending := (a.runFrom { m with pending := name :: m.pending }).2.pending.filter
            (· != name) }) := rfl
  rw [hrun]
  refine ⟨houtcome, ?_, hsound.resolved⟩
  have hfilter : path.filter (· != name) = path := by
    rw [List.filter_eq_self]
    intro p hp
    simp only [bne_iff_ne, ne_eq]
    rintro rfl
    exact hname hp
  change List.filter (· != name) _ = path
  rw [hsound.pending, List.filter_cons_of_neg (by simp), hfilter]

theorem gives_remember {path : List String} {name : String} {v : α}
    (h : meaning bindings name = .ok v) :
    Gives (Sound bindings path) (Run.remember name v) (.ok ()) := by
  refine gives_update fun m hm => ⟨hm.pending, fun {other w} hfind => ?_⟩
  rw [Table.find?_insert] at hfind
  split at hfind
  case isTrue hother =>
      cases hfind
      rw [← hother]
      exact h
  case isFalse => exact hm.resolved hfind

omit [Arithmetic α] in
theorem runFrom_resolve (name : String) (expression : Unit → Except Error Expr)
    (evaluate : Expr → Run α α) (m : Memory α) :
    (Run.resolve name expression evaluate).runFrom m =
      match m.resolved.find? name with
      | some v => (.ok v, m)
      | none =>
        if m.pending.contains name then (.error (.of (.circularDefinition name)), m)
        else (do
          let e ← Action.ofExcept (expression ())
          let v ← Run.whilePending name (evaluate e)
          Run.remember name v
          return v : Run α α).runFrom m := by
  unfold Run.resolve
  rw [runFrom_bind]
  change (match m.resolved.find? name with
    | some v => (pure v : Run α α)
    | none => _).runFrom m = _
  cases m.resolved.find? name with
  | some v => rfl
  | none =>
      dsimp only
      split <;> rfl

theorem gives_resolve {depth : Nat} {path : List String} {name : String} {binding : Binding α}
    {evaluate : Expr → Run α α} (hfind : bindings.find? name = some binding)
    (hexpression : binding.IsExpression) (hroom : Room bindings (depth + 1) path)
    (hawait : Await bindings path name)
    (hevaluate : ∀ e, binding.expression name = .ok e → name ∉ path →
      Gives (Sound bindings (name :: path)) (evaluate e)
        (e.outcomeWith (meaningWithin bindings depth (name :: path)))) :
    Gives (Sound bindings path) (Run.resolve name (fun _ => binding.expression name) evaluate)
      (meaningWithin bindings (depth + 1) path name) := by
  intro m hm
  rw [runFrom_resolve]
  cases hremembered : m.resolved.find? name with
  | some v =>
      exact ⟨(meaningWithin_of_meaning (hm.resolved hremembered) hroom hawait).symm, hm⟩
  | none =>
      rw [meaningWithin_expression hfind hexpression, hm.pending]
      by_cases hcontains : path.contains name = true
      · dsimp only
        rw [if_pos hcontains, if_pos hcontains]
        exact ⟨rfl, hm⟩
      · have hname : name ∉ path := by simpa using hcontains
        have hmeaning : ∀ e v, binding.expression name = .ok e →
            e.outcomeWith (meaningWithin bindings depth (name :: path)) = .ok v →
            meaning bindings name = .ok v := by
          intro e v he hv
          have hwithin : meaningWithin bindings (depth + 1) path name = .ok v := by
            rw [meaningWithin_expression hfind hexpression, if_neg hcontains, he]
            exact hv
          exact meaning_of_meaningWithin hwithin
        dsimp only
        rw [if_neg hcontains, if_neg hcontains]
        have hread : Gives (Sound bindings path) (Action.ofExcept (binding.expression name))
            (binding.expression name) := gives_ofExcept _
        refine (hread.bind fun e he => ?_) m hm
        have hstored := (gives_whilePending hname (hevaluate e he hname)).bind
          (f := fun v => Run.remember name v >>= fun _ => pure v) (g := pure)
          fun v hv => (gives_remember (hmeaning e v he hv)).bind fun _ _ => gives_pure v
        rwa [bind_pure] at hstored

/-- A look-up that does something else instead when the depth is used up. -/
def lookupOr (beyond : String → Run α α) (bindings : Table (Binding α)) : Nat → String → Run α α
  | 0, name => beyond name
  | depth + 1, name =>
    match bindings.find? name with
    | none => Action.fail (.undefinedVariable name)
    | some (.number value) => Action.ofCause (Arithmetic.adopt value)
    | some binding =>
      Run.resolve name (fun _ => binding.expression name)
        (Expr.evaluateWith (lookupOr beyond bindings depth) false)

theorem lookupWithin_eq_lookupOr (depth : Nat) :
    lookupWithin bindings depth =
      lookupOr (fun name => Action.fail (.circularDefinition name)) bindings depth := by
  induction depth with
  | zero => rfl
  | succ depth ih =>
      funext name
      cases hfind : bindings.find? name with
      | none => simp only [lookupWithin, lookupOr, hfind]
      | some binding => cases binding <;> simp only [lookupWithin, lookupOr, hfind, ih]

/-- A look-up gives what the name means on the path of the names that are marked. The depth is not
used up, so it does not matter what would happen then. -/
theorem gives_lookupOr (beyond : String → Run α α) {depth : Nat} {path : List String}
    {name : String} (hroom : Room bindings depth path) (hawait : Await bindings path name) :
    Gives (Sound bindings path) (lookupOr beyond bindings depth name)
      (meaningWithin bindings depth path name) := by
  induction depth generalizing path name with
  | zero =>
      obtain ⟨depth, hdepth⟩ := hroom.exists_succ
      cases hdepth
  | succ depth ih =>
      rw [lookupOr]
      cases hfind : bindings.find? name with
      | none =>
          rw [meaningWithin_none hfind]
          exact gives_ofExcept _
      | some binding =>
          have hevaluate : ∀ e, binding.expression name = .ok e → name ∉ path →
              Gives (Sound bindings (name :: path))
                (Expr.evaluateWith (lookupOr beyond bindings depth) false e)
                (e.outcomeWith (meaningWithin bindings depth (name :: path))) :=
            fun e he hname => Expr.gives_evaluateWith (fun m r hm => hm.note r) e
              fun other hmem hfree => ih (hroom.cons hname hfind)
                (hawait.cons ⟨binding, e, hfind, he, hmem, hfree⟩)
          cases binding with
          | number value =>
              rw [meaningWithin_number hfind]
              exact gives_ofExcept _
          | text | tree | other =>
              exact gives_resolve hfind trivial hroom hawait hevaluate

theorem gives_lookupWithin {depth : Nat} {path : List String} {name : String}
    (hroom : Room bindings depth path) (hawait : Await bindings path name) :
    Gives (Sound bindings path) (lookupWithin bindings depth name)
      (meaningWithin bindings depth path name) := by
  rw [lookupWithin_eq_lookupOr]
  exact gives_lookupOr _ hroom hawait

theorem gives_lookup (bindings : Table (Binding α)) (name : String) :
    Gives (Sound bindings []) (lookup bindings name) (meaning bindings name) :=
  gives_lookupWithin room_nil (await_nil name)

/-- Whatever is remembered, an expression has the outcome that its names' meanings come to. -/
theorem gives_evaluateIn (traced : Bool) (e : Expr) :
    Gives (Sound bindings []) (e.evaluateIn bindings traced)
      (e.outcomeWith (meaning bindings)) :=
  Expr.gives_evaluateWith (fun _ r hm => hm.note r) e fun name _ _ => gives_lookup bindings name

theorem Expr.evaluate_eq_outcomeWith (e : Expr) :
    e.evaluate bindings = e.outcomeWith (meaning bindings) :=
  (gives_evaluateIn false e _ sound_fresh).1

namespace Expr

/-- Evaluation ends before it has looked up a name for the value of another one more often than
there are bindings, so nothing depends on what would happen then. -/
theorem evaluateWith_lookupOr (beyond : String → Run α α) {depth : Nat}
    (hdepth : bindings.length < depth) (e : Expr) :
    ((e.evaluateWith (lookupOr beyond bindings depth) false).runFrom .fresh).1 =
      e.evaluate bindings := by
  have hroom : Room bindings depth [] := ⟨List.nodup_nil, List.nil_subset _, hdepth⟩
  have hgives : Gives (Sound bindings [])
      (e.evaluateWith (lookupOr beyond bindings depth) false)
      (e.outcomeWith (meaningWithin bindings depth [])) :=
    gives_evaluateWith (fun _ r hm => hm.note r) e fun name _ _ =>
      gives_lookupOr beyond hroom (await_nil name)
  rw [(hgives _ sound_fresh).1, evaluate_eq_outcomeWith]
  exact outcomeWith_congr e fun name _ _ =>
    meaningWithin_congr (p := fun _ => True) (fun _ _ => rfl) (fun _ _ _ _ => trivial)
      (fun _ _ => Iff.rfl) hroom room_nil trivial

/-- A value depends on nothing but what is found under names. -/
theorem evaluate_congr {others : Table (Binding α)}
    (h : ∀ name, bindings.find? name = others.find? name) (e : Expr) :
    e.evaluate bindings = e.evaluate others := by
  rw [evaluate_eq_outcomeWith, evaluate_eq_outcomeWith]
  exact outcomeWith_congr e fun name _ _ =>
    meaningWithin_congr (p := fun _ => True) (fun other _ => h other) (fun _ _ _ _ => trivial)
      (fun _ _ => Iff.rfl) room_nil room_nil trivial

theorem evaluate_var {name : String} {value v : α} (hname : Constant.isName name = false)
    (hfind : bindings.find? name = some (.number value)) (hvalue : Arithmetic.adopt value = .ok v) :
    (var name).evaluate bindings = .ok v := by
  have hconstant : Constant.ofName? name = none := by simpa [Constant.isName] using hname
  rw [evaluate_eq_outcomeWith, outcomeWith, hconstant]
  exact (meaningWithin_number hfind _ _).trans (by rw [hvalue]; rfl)

theorem outcomesWith_meaning_eq_ok_iff {es : List Expr} {values : List α} :
    outcomesWith (meaning bindings) es = .ok values ↔
      List.Forall₂ (fun e v => e.evaluate bindings = .ok v) es values := by
  constructor
  · intro h
    induction es generalizing values with
    | nil => cases h; exact .nil
    | cons e es ih =>
        rw [outcomesWith] at h
        obtain ⟨v, hv, h⟩ := exists_of_bind_eq_ok h
        obtain ⟨vs, hvs, h⟩ := exists_of_bind_eq_ok h
        cases h
        exact .cons (e.evaluate_eq_outcomeWith.trans hv) (ih hvs)
  · intro h
    induction h with
    | nil => rfl
    | cons he _ ih =>
        rw [evaluate_eq_outcomeWith] at he
        rw [outcomesWith, he, bind_ok, ih, bind_ok]

/-- Expressions that are evaluated one after another in one scope have the outcomes that they have
in scopes of their own. -/
theorem evaluateAllWith_eq_outcomesWith (es : List Expr) :
    ((evaluateAllWith (lookup bindings) false es).runFrom .fresh).1 =
      outcomesWith (meaning bindings) es :=
  (gives_evaluateAllWith (fun _ r hm => hm.note r) es (fun name _ _ => gives_lookup bindings name)
    _ sound_fresh).1

theorem evaluateAllWith_eq_ok_iff {es : List Expr} {values : List α} :
    ((evaluateAllWith (lookup bindings) false es).runFrom .fresh).1 = .ok values ↔
      List.Forall₂ (fun e v => e.evaluate bindings = .ok v) es values := by
  rw [evaluateAllWith_eq_outcomesWith, outcomesWith_meaning_eq_ok_iff]

end Expr

end Reckoner
