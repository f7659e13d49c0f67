import Reckoner.Proofs.Scope.Override
import Reckoner.Proofs.Solve.Unknown
import Reckoner.Solve.Basic
import Reckoner.Trace.Basic

/-!
# Reported residuals

Whatever solving answers with, it names the unknowns that were sought, and the residual that it
reports is the one that the equations have when they are evaluated anew with the reported values
laid over the known ones.
-/

namespace Reckoner

open Reckoner.Action

/-- Estimates by name, as a solution gives them. -/
theorem SolveEvent.mapValues_estimates (names : List String) (values : List Float) :
    (estimates names values).mapValues Datum.number =
      Table.ofPairs (names.zip (values.map fun x => .number (.real x))) := by
  rw [estimates, Table.ofPairs, Table.mapValues_insertAll, Table.mapValues_zip, List.map_map]
  rfl

namespace Solve

variable {residuals : List Expr} {known : Table Datum} {solveFor : Datum} {sought : List String}

theorem variablesOf_singleton (r : Expr) : variablesOf [r] = r.freeVariables := by
  rw [variablesOf, List.flatMap_singleton]
  exact Expr.firstOccurrences_of_nodup r.nodup_freeVariables

/-- Nothing is asked for; of a single equation also by a list without a name. -/
def Unasked (residuals : List Expr) (solveFor : Datum) : Prop :=
  solveFor = .null ∨
    residuals.length = 1 ∧ (requested solveFor = .ok [] ∨ requested solveFor = .ok [.null])

/-- The unknowns that are sought: those that are asked for, or else all variables that are not
known, in the order in which they first occur. -/
inductive Sought (residuals : List Expr) (known : Table Datum) (solveFor : Datum) :
    List String → Prop
  | all : Unasked residuals solveFor →
    Sought residuals known solveFor ((variablesOf residuals).filter (!known.holds ·))
  | asked {names : List String} : requested solveFor = .ok (names.map .text) →
    (∀ name ∈ names, name ∈ variablesOf residuals) → Sought residuals known solveFor names

/-- The residual of a solution measures the values of the residuals of the equations. -/
inductive Measures (tolerance : Float) (most : Int) : Solution Datum → List Scalar → Prop
  /-- One equation in one unknown: the absolute value. -/
  | size {name : String} {d : Datum} {method : Method} {steps : Nat} {v size : Scalar} :
    method = .linear ∨ method = .newton → v.abs = .ok size →
    Measures tolerance most ⟨[(name, d)], method, steps, .number size, none⟩ [v]
  /-- Several equations: the norm of real values, which is small enough. -/
  | norm {values : Table Datum} {steps : Nat} {xs : List Float} :
    Line.norm xs < tolerance → (steps : Int) ≤ most →
    Measures tolerance most ⟨values, .newtonSystem, steps, .number (.real (Line.norm xs)), none⟩
      (xs.map .real)
  /-- Nothing to find: the norm, and whether it is small enough. -/
  | check {values : List Scalar} {norm : Float} : Check.norm values = .ok norm →
    Measures tolerance most ⟨[], .check, 0, .number (.real norm), some (norm < tolerance)⟩ values

/-- The solution gives each of the names once, and its residual measures what the residuals come
to with its values. -/
structure Reproduces (tolerance : Float) (most : Int) (residuals : List Expr) (known : Table Datum)
    (names : List String) (s : Solution Datum) : Prop where
  names : s.values.names = Expr.firstOccurrences [] names
  measured : ∃ values, List.Forall₂
    (fun r v => r.evaluate (Binding.ofData (known.insertAll s.values)) = .ok v) residuals values ∧
    Measures tolerance most s values

/-! ## Unknowns -/

theorem checked_eq_ok {found : List String} {d : Datum} {name : String}
    (h : checked found d = .ok name) : d = .text name ∧ name ∈ found := by
  unfold checked at h
  split at h
  case h_1 other =>
      split at h
      case isTrue hmem => cases h; exact ⟨rfl, by simpa using hmem⟩
      case isFalse => cases h
  case h_2 =>
      obtain ⟨_, -, h⟩ := exists_of_bind_eq_ok h
      cases h

theorem mapM_checked_eq_ok {found names : List String} {items : List Datum}
    (h : items.mapM (checked found) = .ok names) :
    items = names.map .text ∧ ∀ name ∈ names, name ∈ found := by
  have hpairs := forall₂_of_mapM_eq_ok h
  clear h
  induction hpairs with
  | nil => exact ⟨rfl, List.forall_mem_nil _⟩
  | cons hd _ ih =>
      obtain ⟨rfl, hname⟩ := checked_eq_ok hd
      obtain ⟨rfl, hnames⟩ := ih
      exact ⟨rfl, List.forall_mem_cons.mpr ⟨hname, hnames⟩⟩

/-- The unknown of a single equation: the only one that is not known, if nothing is asked for, or
the one that is asked for. -/
theorem unknownOf_eq_ok {r : Expr} {name? : Option String}
    (h : unknownOf r known solveFor = .ok name?) :
    solveFor = .null ∧ (variablesOf [r]).filter (!known.holds ·) = name?.toList ∨
      ∃ name, solveFor = .text name ∧ name? = some name ∧ name ∈ variablesOf [r] := by
  rw [variablesOf_singleton]
  unfold unknownOf at h
  dsimp only at h
  split at h
  case h_1 =>
      refine .inl ⟨rfl, ?_⟩
      split at h
      case h_1 hfilter => cases h; exact hfilter
      case h_2 name hfilter => cases h; exact hfilter
      case h_3 => cases h
  case h_2 =>
      cases hchecked : checked r.freeVariables solveFor with
      | error err => rw [hchecked] at h; cases h
      | ok name =>
          rw [hchecked] at h
          cases h
          obtain ⟨hsolveFor, hname⟩ := checked_eq_ok hchecked
          exact .inr ⟨name, hsolveFor, rfl, hname⟩

theorem sought_of_unknownOf {r : Expr} {name? : Option String}
    (h : unknownOf r known solveFor = .ok name?) : Sought [r] known solveFor name?.toList := by
  rcases unknownOf_eq_ok h with ⟨rfl, hfilter⟩ | ⟨name, rfl, rfl, hname⟩
  · rw [← hfilter]
    exact .all (.inl rfl)
  · exact .asked rfl (by simpa using hname)

theorem sought_of_unknownsOf (h : unknownsOf residuals known solveFor = .ok sought) :
    Sought residuals known solveFor sought := by
  unfold unknownsOf at h
  dsimp only at h
  split at h
  case h_1 => cases h; exact .all (.inl rfl)
  case h_2 =>
      obtain ⟨items, hitems, h⟩ := exists_of_bind_eq_ok h
      obtain ⟨rfl, hfound⟩ := mapM_checked_eq_ok h
      exact .asked (mapError_eq_ok hitems) hfound

/-- What the only equation of a system is asked for is what the system is asked for. -/
theorem sought_of_soleOptions {options sole : Options} {r : Expr} {name? : Option String}
    (hsole : soleOptions options = .ok sole) (h : unknownOf r known sole.solveFor = .ok name?) :
    Sought [r] known options.solveFor name?.toList := by
  unfold soleOptions at hsole
  split at hsole
  case h_1 | h_2 => cases hsole; exact sought_of_unknownOf h
  case h_3 =>
      obtain ⟨items, hitems, hsole⟩ := exists_of_bind_eq_ok hsole
      split at hsole
      case h_1 =>
          cases hsole
          rcases unknownOf_eq_ok h with ⟨-, hfilter⟩ | ⟨name, hname, -, -⟩
          · rw [← hfilter]
            exact .all (.inr ⟨rfl, .inl hitems⟩)
          · cases hname
      case h_2 d =>
          cases hsole
          rcases unknownOf_eq_ok h with ⟨rfl, hfilter⟩ | ⟨name, rfl, rfl, hname⟩
          · rw [← hfilter]
            exact .all (.inr ⟨rfl, .inr hitems⟩)
          · exact .asked hitems (by simpa using hname)
      case h_3 =>
          obtain ⟨_, -, hsole⟩ := exists_of_bind_eq_ok hsole
          cases hsole

/-- The only equation of a system is solved with the same options, but for what is asked for. -/
theorem soleOptions_eq_ok {options sole : Options} (h : soleOptions options = .ok sole) :
    ∃ d, sole = { options with solveFor := d } := by
  unfold soleOptions at h
  split at h
  case h_1 | h_2 => cases h; exact ⟨_, rfl⟩
  case h_3 =>
      obtain ⟨items, -, h⟩ := exists_of_bind_eq_ok h
      split at h
      case h_1 | h_2 => cases h; exact ⟨_, rfl⟩
      case h_3 =>
          obtain ⟨_, -, h⟩ := exists_of_bind_eq_ok h
          cases h

/-! ## First estimates -/

theorem length_startValues {options : Options} {settings : Settings} {names : List String}
    {items : List Datum} (h : options.startValues settings names = .ok items) :
    items.length = names.length := by
  have hinOrder : ∀ {given : List (Except Cause Float)},
      (if given.length = names.length then
        given.mapM fun item => do return Datum.number (.real (← item))
      else .error (.guessCount names.length given.length)) = .ok items →
      items.length = names.length := by
    intro given hgiven
    split at hgiven
    case isTrue hlength => rw [← (forall₂_of_mapM_eq_ok hgiven).length_eq, hlength]
    case isFalse => cases hgiven
  unfold Options.startValues at h
  split at h
  case h_1 =>
      obtain ⟨_, -, h⟩ := exists_of_bind_eq_ok h
      obtain ⟨_, -, h⟩ := exists_of_bind_eq_ok h
      exact (forall₂_of_mapM_eq_ok h).length_eq.symm
  case h_2 => exact hinOrder h
  case h_3 => exact hinOrder h
  case h_4 => cases h; exact List.length_map _

theorem length_firstEstimates {options : Options} {settings : Settings} {names : List String}
    {first : List Float}
    (h : (do (← options.startValues settings names).mapM Datum.toFloat) = Except.ok first) :
    first.length = names.length := by
  obtain ⟨items, hitems, hfloats⟩ := exists_of_bind_eq_ok h
  rw [← (forall₂_of_mapM_eq_ok hfloats).length_eq, length_startValues hitems]

/-- An estimate binds the unknown to the number that it is, also where it is a truth value that a
caller has put in its place. -/
theorem toBinding_estimateAt (options : Options) (settings : Settings) (name : String)
    {steps : Nat} {x : Scalar} (hstart : steps = 0 → options.startValue settings name = .ok x) :
    (Datum.ofEstimate (options.estimateAt steps x)).toBinding = .number x := by
  unfold Options.estimateAt
  split
  case h_1 b hguess =>
      have hvalue := hstart rfl
      unfold Options.startValue Options.startValues at hvalue
      rw [hguess] at hvalue
      cases hvalue
      rfl
  case h_2 => rfl

/-! ## One equation -/

section Single

variable {settings : Settings} {options : Options} {s : Solution Datum}

theorem reproduces_of_check {tolerance : Float} {most : Int} {found : Solution Scalar}
    (h : Check.run (Binding.ofData known) residuals tolerance = .ok found) :
    Reproduces tolerance most residuals known [] (inData found) := by
  unfold Check.run at h
  obtain ⟨values, hvalues, h⟩ := exists_of_bind_eq_ok h
  obtain ⟨norm, hnorm, h⟩ := exists_of_bind_eq_ok h
  cases h
  exact ⟨rfl, values, Expr.evaluateAllWith_eq_ok_iff.mp hvalues, .check (mapError_eq_ok hnorm)⟩

/-- A value of the unknown, of which the residual has a size. -/
theorem reproduces_of_size {tolerance : Float} {most : Int} {r : Expr} {name : String} {d : Datum}
    {method : Method} {steps : Nat} {v size : Scalar}
    (hmethod : method = .linear ∨ method = .newton)
    (hv : r.evaluate (((Binding.ofData known).without [name]).insert name d.toBinding) = .ok v)
    (hsize : v.abs = .ok size) :
    Reproduces tolerance most [r] known [name]
      ⟨[(name, d)], method, steps, .number size, none⟩ := by
  have hoverride := Expr.evaluate_override known [(name, d)] r
  exact ⟨rfl, [v], .cons (hoverride.symm.trans hv) .nil, .size hmethod hsize⟩

theorem concluded_eq_ok {name : String} {estimate : Nat → Scalar → Estimate}
    {ending : Ending Scalar} (h : concluded name estimate ending = .ok s) :
    ∃ x steps size, ending = .converged x steps size ∧
      s = ⟨[(name, .ofEstimate (estimate steps x))], .newton, steps, .number size, none⟩ := by
  unfold concluded at h
  split at h <;> cases h
  exact ⟨_, _, _, rfl, rfl⟩

/-- The value of a residual where an unknown is bound to something. -/
def valueAt (r : Expr) (known : Table Datum) (name : String) (b : Binding Scalar) :
    Except Error Scalar :=
  r.evaluate (((Binding.ofData known).without [name]).insert name b)

/-- The ways to a solution of one equation: it has no unknown and is checked, its linear form has a
root, the expression that the unknown is bound to solves it, or the iteration converges. -/
inductive Solves (settings : Settings) (options : Options) (known : Table Datum) (r : Expr) :
    Option String → Solution Datum → Prop
  | check {found : Solution Scalar} :
    Check.run (Binding.ofData known) [r] options.tolerance = .ok found →
    Solves settings options known r none (inData found)
  | linear {name : String} {form : LinearForm Scalar} {x v size : Scalar} :
    r.collect ((Binding.ofData known).without [name]) name = .ok form →
    form.factor.isZero = false → form.root = .ok x → valueAt r known name (.number x) = .ok v →
    v.abs = .ok size →
    Solves settings options known r (some name)
      ⟨[(name, .number x)], .linear, 0, .number size, none⟩
  | opening {name : String} {start : Datum} {v size : Scalar} :
    options.opening? = some start → valueAt r known name start.toBinding = .ok v →
    v.abs = .ok size →
    Solves settings options known r (some name) ⟨[(name, start)], .newton, 0, .number size, none⟩
  | newton {name : String} {start x size : Scalar} {steps : Nat} :
    options.opening? = none → options.startValue settings name = .ok start →
    Newton.Converges (fun x => valueAt r known name (.number x)) 0 start x steps size →
    Solves settings options known r (some name)
      ⟨[(name, .ofEstimate (options.estimateAt steps x))], .newton, steps, .number size, none⟩

theorem solves_of_parsed {e : Equation} (h : Returns (parsed settings options known e) s) :
    ∃ name?, unknownOf e.residual known options.solveFor = .ok name? ∧
      Solves settings options known e.residual name? s := by
  unfold parsed at h
  obtain ⟨name?, hname, h⟩ := exists_of_returns_bind h
  refine ⟨name?, ok_of_returns hname, ?_⟩
  cases name? with
  | none =>
      obtain ⟨found, hfound, rfl⟩ := exists_of_returns_map h
      exact .check (ok_of_returns hfound)
  | some name =>
      obtain ⟨codegen, -, h⟩ := exists_of_returns_bind h
      dsimp only at h
      split at h
      case h_1 start hopening =>
          obtain ⟨answer, hanswer, rfl⟩ := exists_of_returns_map h
          obtain ⟨p, hp, ⟨found, rfl, hfound⟩ | ⟨found, rfl, hfound⟩⟩ :=
            Unknown.exists_of_returns_solveOr hanswer
          · obtain ⟨form, x, v, size, hform, hfactor, hx, hv, hsize, rfl⟩ :=
              Unknown.exists_of_returns_solveLinear hfound
            rw [Unknown.function_eq hp] at hv
            exact .linear hform hfactor hx hv hsize
          · obtain ⟨v, size, hv, hsize, rfl⟩ := Unknown.exists_of_returns_solveOpened hfound
            rw [Program.run_of_ofExpr hp] at hv
            exact .opening hopening hv hsize
      case h_2 hopening =>
          obtain ⟨answer, hanswer, h⟩ := exists_of_returns_bind h
          obtain ⟨p, hp, ⟨found, rfl, hfound⟩ | ⟨ending, rfl, hending⟩⟩ :=
            Unknown.exists_of_returns_solveOr hanswer
          · obtain ⟨form, x, v, size, hform, hfactor, hx, hv, hsize, rfl⟩ :=
              Unknown.exists_of_returns_solveLinear hfound
            rw [Unknown.function_eq hp] at hv
            cases eq_of_returns h
            exact .linear hform hfactor hx hv hsize
          · obtain ⟨x, steps, size, rfl, rfl⟩ := concluded_eq_ok (ok_of_returns_ofCause h)
            obtain ⟨start, hstart, hconverges⟩ := Unknown.exists_of_returns_solveNewton hending
            rw [funext (Unknown.function_eq hp)] at hconverges
            exact .newton hopening hstart hconverges

theorem Solves.reproduces {r : Expr} {name? : Option String}
    (h : Solves settings options known r name? s) :
    Reproduces options.tolerance options.maxIterations [r] known name?.toList s := by
  cases h with
  | check hfound => exact reproduces_of_check hfound
  | linear _ _ _ hv hsize => exact reproduces_of_size (.inl rfl) hv hsize
  | opening _ hv hsize => exact reproduces_of_size (.inr rfl) hv hsize
  | @newton name start x size steps _ hstart hconverges =>
      obtain ⟨v, hv, -, hsize⟩ := hconverges.measured
      refine reproduces_of_size (.inr rfl) ?_ hsize
      have hbinding := toBinding_estimateAt options settings name fun hsteps =>
        hstart.trans (congrArg _ (hconverges.start hsteps).symm)
      rw [hbinding]
      exact hv

theorem returns_of_within {β : Type} {text : String} {a : Solving β} {v : β}
    (h : Returns (Solving.within text a) v) : Returns a v := by
  obtain ⟨events, h⟩ := h
  exact ⟨events, mapError_eq_ok h⟩

theorem solves_of_equationWith {d : Datum}
    (h : Returns (equationWith settings options known d) s) :
    ∃ e name?, Equation.ofDatum d = .ok e ∧
      unknownOf e.residual known options.solveFor = .ok name? ∧
      Solves settings options known e.residual name? s := by
  have haction : Returns (do parsed settings options known (← Action.ofExcept (Equation.ofDatum d)))
      s := by
    unfold equationWith at h
    dsimp only at h
    split at h
    case h_1 => exact returns_of_within h
    case h_2 => exact h
  obtain ⟨e, he, hparsed⟩ := exists_of_returns_bind haction
  obtain ⟨name?, hname, hsolves⟩ := solves_of_parsed hparsed
  exact ⟨e, name?, ok_of_returns he, hname, hsolves⟩

end Single

/-! ## Several equations -/

section Several

variable {settings : Settings} {options : Options} {s : Solution Datum} {names : List String}

theorem concludedSystem_eq_ok {steps : Int} {ending : SystemEnding Float}
    (h : concludedSystem names steps ending = .ok s) :
    ∃ x iterations norm, ending = .converged x iterations norm ∧
      s = inData ⟨SolveEvent.estimates names x, .newtonSystem, iterations, .real norm, none⟩ := by
  unfold concludedSystem at h
  split at h <;> cases h
  exact ⟨_, _, _, rfl, rfl⟩

theorem reproduces_of_together (henough : names.length ≤ residuals.length)
    (h : Returns (together settings options known residuals names) s) :
    Reproduces options.tolerance options.maxIterations residuals known names s := by
  unfold together at h
  obtain ⟨codegen, -, h⟩ := exists_of_returns_bind h
  obtain ⟨ending, hending, h⟩ := exists_of_returns_bind h
  obtain ⟨x, steps, norm, rfl, rfl⟩ := concludedSystem_eq_ok (ok_of_returns_ofCause h)
  obtain ⟨xs, hxs, rfl, hsmall, hbounded, hlength⟩ :=
    Unknowns.exists_of_returns_solve length_firstEstimates henough hending
  -- the estimates by name, as the solution gives them
  have hnames : (names.zip (x.map fun entry => Datum.number (.real entry))).map Prod.fst = names :=
    List.map_fst_zip (Nat.le_of_eq ((List.length_map _).trans hlength).symm)
  have hvalues := SolveEvent.mapValues_estimates names x
  refine ⟨?_, xs.map .real, hxs.imp fun r v hv => ?_, .norm hsmall hbounded⟩
  · change ((SolveEvent.estimates names x).mapValues Datum.number).names = _
    rw [hvalues, Table.names_ofPairs, hnames]
  · change r.evaluate (Binding.ofData
      (known.insertAll ((SolveEvent.estimates names x).mapValues Datum.number))) = _
    rw [hvalues, ← Expr.evaluate_override, hnames, ← hv]
    change r.evaluate (Table.insertAll _ (Table.mapValues Datum.toBinding _)) = _
    rw [Table.mapValues_zip, List.map_map]
    rfl

end Several

/-! ## Solutions -/

/-- A solution that is answered with a trace is answered without one. -/
theorem ok_of_traced {a : Solving (Solution Datum)} {s : Solution Datum} {t : Trace}
    (h : ((Trace.solve a).runFrom t).1 = .ok s) : a.run.1 = .ok s := by
  have hreturns : Returns (Trace.solve a) s := ⟨t, h⟩
  obtain ⟨_, -, houtcome⟩ := exists_of_returns_bind hreturns
  exact ok_of_returns houtcome

/-- Whatever solving an equation or a system answers with, with a trace or without one: it gives
the unknowns that were sought, and its residual is what the equations come to when they are
evaluated with these values laid over the known ones. -/
theorem reproduces_of_solution {settings : Settings} {given overrides : Table Datum}
    {equations : List Datum} {a : Solving (Solution Datum)} {s : Solution Datum}
    (ha : (∃ d, equations = [d] ∧ a = equation settings d known given overrides) ∨
      a = system settings equations known given overrides)
    (hs : a.run.1 = .ok s ∨ ∃ t, ((Trace.solve a).runFrom t).1 = .ok s) :
    ∃ options es names, Options.build settings given overrides = .ok options ∧
      equations.mapM Equation.ofDatum = .ok es ∧
      Sought (es.map Equation.residual) known options.solveFor names ∧
      Reproduces options.tolerance options.maxIterations (es.map Equation.residual) known names
        s := by
  have hreturns : Returns a s := ⟨[], hs.elim id fun ⟨_, h⟩ => ok_of_traced h⟩
  rcases ha with ⟨d, rfl, rfl⟩ | rfl
  · obtain ⟨options, hoptions, h⟩ := exists_of_returns_bind hreturns
    obtain ⟨e, name?, he, hname, hsolves⟩ := solves_of_equationWith h
    refine ⟨options, [e], name?.toList, ok_of_returns_ofCause hoptions, ?_,
      sought_of_unknownOf hname, hsolves.reproduces⟩
    rw [List.mapM_cons, he]
    rfl
  · obtain ⟨options, hbuild, h⟩ := exists_of_returns_bind hreturns
    obtain ⟨es, hread, h⟩ := exists_of_returns_bind h
    have hoptions := ok_of_returns_ofCause hbuild
    have hes := ok_of_returns hread
    split at h
    case h_1 => exact absurd h not_returns_fail
    case h_2 e =>
        obtain ⟨sole, hmeant, h⟩ := exists_of_returns_bind h
        have hsole := ok_of_returns_ofCause hmeant
        obtain ⟨_, name?, he, hname, hsolves⟩ := solves_of_equationWith h
        cases he
        have hsought := sought_of_soleOptions hsole hname
        obtain ⟨d, rfl⟩ := soleOptions_eq_ok hsole
        exact ⟨options, [e], name?.toList, hoptions, hes, hsought, hsolves.reproduces⟩
    case h_3 =>
        obtain ⟨names, hnames, h⟩ := exists_of_returns_bind h
        have hsought := sought_of_unknownsOf (ok_of_returns hnames)
        split at h
        case h_1 =>
            obtain ⟨found, hfound, rfl⟩ := exists_of_returns_map h
            exact ⟨options, es, [], hoptions, hes, hsought,
              reproduces_of_check (ok_of_returns hfound)⟩
        case h_2 =>
            split at h
            case isTrue => exact absurd h not_returns_fail
            case isFalse henough =>
                exact ⟨options, es, names, hoptions, hes, hsought,
                  reproduces_of_together (Nat.not_lt.mp henough) h⟩

/-- A linear equation with a factor that is bound to an expression. -/
private def scaled : Equation :=
  ⟨.binary "+" (.binary "*" (.var "a") (.var "x")) (.number 5.0), .number 15.0, "a*x + 5 = 15"⟩

/-- The unknown has a value of its own already. -/
private def masked : Table Datum :=
  [("x", .number (.whole 7)), ("a", .tree (.binary "+" (.number 1.0) (.number 1.0)))]

/-- The equation is solved for the unknown. -/
private def solving : Solving (Solution Datum) :=
  equation (.ok Settings.defaults) (.equation scaled) masked [("solve_for", .text "x")] []

private theorem exists_solution : ∃ s, solving.run.1 = .ok s := by
  have hsolved : solving.run.1.toOption.isSome = true := by decide +kernel
  cases h : solving.run.1 with
  | error err => rw [h] at hsolved; cases hsolved
  | ok s => exact ⟨s, rfl⟩

theorem reproduces_of_solution_shifted :
    ∃ s options es names, solving.run.1 = .ok s ∧
      Options.build (.ok Settings.defaults) [("solve_for", .text "x")] [] = .ok options ∧
      [Datum.equation scaled].mapM Equation.ofDatum = .ok es ∧
      Sought (es.map Equation.residual) masked options.solveFor names ∧
      Reproduces options.tolerance options.maxIterations (es.map Equation.residual) masked names
        s := by
  obtain ⟨s, hs⟩ := exists_solution
  have hequation : (∃ d, [Datum.equation scaled] = [d] ∧ solving =
      equation (.ok Settings.defaults) d masked [("solve_for", .text "x")] []) ∨ solving =
      system (.ok Settings.defaults) [.equation scaled] masked [("solve_for", .text "x")] [] :=
    .inl ⟨_, rfl, rfl⟩
  obtain ⟨options, es, names, h⟩ := reproduces_of_solution hequation (.inl hs)
  exact ⟨s, options, es, names, hs, h⟩

end Solve

end Reckoner
