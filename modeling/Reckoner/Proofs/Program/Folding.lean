import Reckoner.Proofs.Expr.Accidents
import Reckoner.Proofs.Scope.Failure

/-!
# Parts that are folded

Preparing a valid expression evaluates its closed parts. Errors of evaluation are put off until the
program runs, but all other errors end the preparation. These are faults of functions, as of the
absolute value of a complex number that is too large or of the arcus tangent at its poles. So there
is a program with code exactly where no closed part has such a fault, and it then has the outcomes
of the interpreted one, errors included.

Preparing a program looks no name up. So it fails with errors of its own only, none of which is
about an undefined variable.
-/

namespace Reckoner

/-- The part is closed and fails with an error that is not put off. -/
structure Expr.Resists (α : Type) [Arithmetic α] (part : Expr) (err : Error) : Prop where
  closed : part.isClosed = true
  fails : part.evaluate ([] : Table (Binding α)) = .error err
  accident : err.cause.kind.isEvaluation = false

variable {α : Type} [Arithmetic α]

/-- No part resists, or the error is that of one that does. -/
def Reveals (α : Type) [Arithmetic α] {β : Type} (parts : List Expr) : Except Error β → Prop :=
  Meets (fun _ => ∀ part ∈ parts, ∀ err, ¬ part.Resists α err)
    (fun err => ∃ part ∈ parts, part.Resists α err)

/-! ## Values of parts -/

namespace Expr

variable {values : String → Except Error α}

mutual

/-- All parts of an expression that has a value have values. -/
theorem exists_of_mem_parts : ∀ (e : Expr) {v : α}, e.outcomeWith values = .ok v →
    ∀ part ∈ e.parts, ∃ w, part.outcomeWith values = .ok w
  | .negate e, v, h => by
      rw [parts, List.forall_mem_cons]
      refine ⟨⟨v, h⟩, ?_⟩
      rw [outcomeWith] at h
      obtain ⟨a, ha, -⟩ := exists_of_bind_eq_ok h
      exact exists_of_mem_parts e ha
  | .binary _ l r, v, h => by
      rw [parts, List.forall_mem_cons, List.forall_mem_append]
      refine ⟨⟨v, h⟩, ?_⟩
      rw [outcomeWith] at h
      obtain ⟨a, ha, h⟩ := exists_of_bind_eq_ok h
      obtain ⟨b, hb, -⟩ := exists_of_bind_eq_ok h
      exact ⟨exists_of_mem_parts l ha, exists_of_mem_parts r hb⟩
  | .call _ args, v, h => by
      rw [parts, List.forall_mem_cons]
      refine ⟨⟨v, h⟩, ?_⟩
      rw [outcomeWith] at h
      obtain ⟨vs, hvs, -⟩ := exists_of_bind_eq_ok h
      exact exists_of_mem_partsAll args hvs
  | .number _, v, h | .imaginary _, v, h | .constant _, v, h | .var _, v, h | .blank, v, h
  | .foreign .., v, h => List.forall_mem_singleton.mpr ⟨v, h⟩

theorem exists_of_mem_partsAll : ∀ (es : List Expr) {vs : List α},
    outcomesWith values es = .ok vs → ∀ part ∈ partsAll es, ∃ w, part.outcomeWith values = .ok w
  | [], _, _ => List.forall_mem_nil _
  | e :: rest, vs, h => by
      rw [partsAll, List.forall_mem_append]
      rw [outcomesWith] at h
      obtain ⟨a, ha, h⟩ := exists_of_bind_eq_ok h
      obtain ⟨as, has, -⟩ := exists_of_bind_eq_ok h
      exact ⟨exists_of_mem_parts e ha, exists_of_mem_partsAll rest has⟩

end

theorem not_resists_of_evaluate {e : Expr} {v : α}
    (h : e.evaluate ([] : Table (Binding α)) = .ok v) :
    ∀ part ∈ e.parts, ∀ err, ¬ part.Resists α err := by
  intro part hpart err hresists
  rw [evaluate_eq_outcomeWith] at h
  obtain ⟨w, hw⟩ := exists_of_mem_parts e h part hpart
  have hfails := hresists.fails
  rw [evaluate_eq_outcomeWith, hw] at hfails
  cases hfails

end Expr

/-! ## Code -/

section Reveals

variable {β γ : Type} {parts others : List Expr}

theorem Reveals.append {x : Except Error β} {f : β → Except Error γ}
    (hx : Reveals α parts x) (hf : ∀ b, Reveals α others (f b)) :
    Reveals α (parts ++ others) (x >>= f) := by
  cases x with
  | error err =>
      obtain ⟨part, hmem, hresists⟩ := hx
      exact ⟨part, List.mem_append_left _ hmem, hresists⟩
  | ok b =>
      refine Meets.mono (hf b) (fun c hothers => List.forall_mem_append.mpr ⟨hx, hothers⟩) ?_
      rintro err ⟨part, hmem, hresists⟩
      exact ⟨part, List.mem_append_right _ hmem, hresists⟩

theorem Reveals.map {x : Except Error β} {f : β → γ} (hx : Reveals α parts x) :
    Reveals α parts (x >>= fun b => .ok (f b)) :=
  Meets.bind hx fun _ hparts => hparts

end Reveals

namespace Code

theorem reveals_folding {e : Expr} {operands : List Expr} (hparts : e.parts = e :: operands)
    {code : Unit → Except Error (Code α)} (hcode : Reveals α operands (code ())) :
    Reveals α e.parts (folding e code) := by
  -- whenever the operands are taken in turn, the expression itself does not resist
  have hdescend (hnot : ∀ err, ¬ e.Resists α err) : Reveals α e.parts (code ()) := by
    rw [hparts]
    refine Meets.mono hcode (fun _ h => List.forall_mem_cons.mpr ⟨hnot, h⟩) ?_
    rintro err ⟨part, hmem, hresists⟩
    exact ⟨part, List.mem_cons_of_mem _ hmem, hresists⟩
  unfold folding
  split
  case isFalse hopen => exact hdescend fun err hresists => hopen hresists.closed
  case isTrue hclosed =>
      split
      case h_1 v hv => exact Expr.not_resists_of_evaluate hv
      case h_2 err herr =>
          split
          case isTrue hput =>
              refine hdescend fun other hresists => ?_
              have hfails := hresists.fails
              rw [herr] at hfails
              cases hfails
              have haccident := hresists.accident
              rw [hput] at haccident
              cases haccident
          case isFalse haccident =>
              exact ⟨e, e.self_mem_parts, hclosed, herr, by simpa using haccident⟩

mutual

/-- By induction on the tree: code is missing only because of a part that resists, and with the
error of that part. -/
theorem reveals_ofExpr : ∀ e : Expr, e.Everywhere (fun e => e.nodeDefect? = none) →
    Reveals α e.parts (ofExpr e : Except Error (Code α))
  | .number _, _ | .imaginary _, _ => Expr.not_resists_of_evaluate rfl
  | .constant name, h => by
      obtain ⟨c, hc⟩ := Option.isSome_iff_exists.mp (Expr.nodeDefect?_constant.mp h)
      simp only [ofExpr, hc]
      refine Expr.not_resists_of_evaluate (v := Arithmetic.constant c) ?_
      rw [Expr.evaluate_eq_outcomeWith, Expr.outcomeWith, hc]
  | .var name, _ => by
      cases hc : Constant.ofName? name with
      | some c =>
          simp only [ofExpr, hc]
          refine Expr.not_resists_of_evaluate (v := Arithmetic.constant c) ?_
          rw [Expr.evaluate_eq_outcomeWith, Expr.outcomeWith, hc]
      | none =>
          simp only [ofExpr, hc]
          refine List.forall_mem_singleton.mpr fun err hresists => ?_
          have hclosed : Constant.isName name = true := hresists.closed
          rw [Constant.isName, hc] at hclosed
          cases hclosed
  | .negate e, h => by
      rw [ofExpr]
      exact reveals_folding rfl (reveals_ofExpr e h.2).map
  | .binary op l r, h => by
      obtain ⟨known, hknown⟩ := Option.isSome_iff_exists.mp (Expr.nodeDefect?_binary.mp h.1)
      rw [ofExpr]
      refine reveals_folding rfl ?_
      rw [hknown]
      exact (reveals_ofExpr l h.2.1).append fun _ => (reveals_ofExpr r h.2.2).map
  | .call name args, h => by
      rw [ofExpr]
      exact reveals_folding rfl (reveals_ofAll args h.2).map
  | .blank, h | .foreign .., h => by cases h

theorem reveals_ofAll : ∀ es : List Expr, Expr.EverywhereAll (fun e => e.nodeDefect? = none) es →
    Reveals α (Expr.partsAll es) (ofAll es : Except Error (List (Code α)))
  | [], _ => List.forall_mem_nil _
  | e :: rest, h => by
      rw [ofAll]
      exact (reveals_ofExpr e h.1).append fun _ => (reveals_ofAll rest h.2).map

end

end Code

/-! ## Errors that are not put off -/

/-- What a node fails with is an error of evaluation if it has a code. -/
theorem Cause.isEvaluation_of_isOfNode {cause : Cause} (h : cause.IsOfNode)
    (hcode : cause.code?.isSome = true) : cause.kind.isEvaluation = true := by
  cases cause with
  | unknownFunction | arity | complexArgument => rfl
  | missingName | arithmetic | blankOperation | notANode => cases hcode
  | _ => exact h.elim

/-- The function has a name that the expression calls. -/
def Expr.Calls (e : Expr) (f : Function) : Prop :=
  ∃ name ∈ e.called, Function.ofName? name = some f

/-- Only faults of functions are not put off. -/
theorem Expr.Resists.faultOf {part : Expr} {err : Error} (h : part.Resists Scalar err)
    (hvalid : part.Everywhere (fun e => e.nodeDefect? = none)) : FaultOf part.Calls err.cause := by
  have hregular : part.Everywhere (IsRegular part.Calls) :=
    isRegular_of_valid part hvalid fun name hmem f hf => ⟨name, hmem, hf⟩
  have hmeets := meets_evaluate areRegular_nil hregular
  rw [h.fails] at hmeets
  rcases hmeets with hcode | hfault
  · have hnode : FailsOnly (fun err => err.cause.IsOfNode ∨ err.cause.kind.isEvaluation = true)
        (part.evaluate ([] : Table (Binding Scalar))) := by
      rw [evaluate_eq_outcomeWith]
      refine failsOnly_outcomeWith (Scalar.nodesFailOnly fun _ => .inl) (fun name => ?_) part
      rw [meaning, meaningWithin_none rfl]
      exact failsOnly_error (.inr rfl)
    have hevaluation : err.cause.kind.isEvaluation = true := by
      rcases hnode err h.fails with hnode | hevaluation
      · exact Cause.isEvaluation_of_isOfNode hnode hcode
      · exact hevaluation
    have haccident := h.accident
    rw [hevaluation] at haccident
    cases haccident
  · exact hfault

/-! ## Programs -/

namespace Program

theorem reveals_ofExpr {e : Expr} (hvalid : e.isValid = true) :
    Reveals α e.parts (ofExpr true e : Except Error (Program α)) := by
  rw [ofExpr, Expr.validate_of_isValid hvalid]
  exact (Code.reveals_ofExpr e (Expr.isValid_iff.mp hvalid)).map

/-- A valid expression always has an interpreted program. It has one with code exactly where no
closed part fails with an error other than those of evaluation; where it has none, the error is that
of such a part, and a fault of a function that the part calls. Both programs give the values and the
errors of the expression. -/
theorem ofExpr_of_isValid {e : Expr} (hvalid : e.isValid = true) :
    (∃ interpreted : Program Scalar, ofExpr false e = .ok interpreted) ∧
    ((∃ compiled : Program Scalar, ofExpr true e = .ok compiled) ↔
      ∀ part ∈ e.parts, ∀ err, ¬ part.Resists Scalar err) ∧
    FailsOnly (fun err => ∃ part ∈ e.parts, part.Resists Scalar err ∧ FaultOf part.Calls err.cause)
      (ofExpr true e : Except Error (Program Scalar)) ∧
    ∀ codegen (p : Program Scalar), ofExpr codegen e = .ok p →
      ∀ bindings, p.run bindings = e.evaluate bindings := by
  have hreveals : Reveals Scalar e.parts (ofExpr true e : Except Error (Program Scalar)) :=
    reveals_ofExpr hvalid
  refine ⟨⟨⟨e, none⟩, ?_⟩, ?_, ?_, fun _ _ hp bindings => run_of_ofExpr hp bindings⟩
  · rw [ofExpr, Expr.validate_of_isValid hvalid]
    rfl
  · cases hprogram : (ofExpr true e : Except Error (Program Scalar)) with
    | ok compiled =>
        rw [hprogram] at hreveals
        exact ⟨fun _ => hreveals, fun _ => ⟨compiled, rfl⟩⟩
    | error err =>
        rw [hprogram] at hreveals
        obtain ⟨part, hmem, hresists⟩ := hreveals
        constructor
        · rintro ⟨compiled, hcompiled⟩
          cases hcompiled
        · exact fun hnone => absurd hresists (hnone part hmem err)
  · intro err herr
    rw [herr] at hreveals
    obtain ⟨part, hmem, hresists⟩ := hreveals
    have hpart := Expr.Everywhere.part e (Expr.isValid_iff.mp hvalid) part hmem
    exact ⟨part, hmem, hresists, hresists.faultOf hpart⟩

private def pole : Expr := .call "atan" [.imaginary 1.0]

/-- The tree of `x + atan(1i)`, whose second operand has a pole there. -/
private def atPole : Expr := .binary "+" (.var "x") pole

theorem ofExpr_of_isValid_atPole :
    atPole.isValid = true ∧
      (∃ interpreted : Program Scalar, ofExpr false atPole = .ok interpreted ∧
        ∀ bindings, interpreted.run bindings = atPole.evaluate bindings) ∧
      ¬ ∃ compiled : Program Scalar, ofExpr true atPole = .ok compiled := by
  have hvalid : atPole.isValid = true := by decide
  obtain ⟨⟨interpreted, hinterpreted⟩, hcompiled, -, hruns⟩ := ofExpr_of_isValid hvalid
  refine ⟨hvalid, ⟨interpreted, hinterpreted, hruns false interpreted hinterpreted⟩, fun h => ?_⟩
  have hpart : pole ∈ atPole.parts := by simp [atPole, pole, Expr.parts]
  have haccident : (match pole.evaluate ([] : Table (Binding Scalar)) with
      | .ok _ => true
      | .error err => err.cause.kind.isEvaluation) = false := by decide +kernel
  cases houtcome : pole.evaluate ([] : Table (Binding Scalar)) with
  | ok v => rw [houtcome] at haccident; cases haccident
  | error err =>
      rw [houtcome] at haccident
      exact hcompiled.mp h pole hpart err ⟨rfl, houtcome, haccident⟩

end Program

/-! ## Errors of preparing programs -/

variable {p : Error → Prop}

/-- Among the errors are all those without a place that are not about an undefined variable. -/
def HasOwn (p : Error → Prop) : Prop := ∀ cause, (Error.of cause).IsBound → p (.of cause)

namespace HasOwn

theorem nodesFailOnly (hp : HasOwn p) : Expr.NodesFailOnly Scalar p :=
  Scalar.nodesFailOnly fun _ hcause => hp _ (isBound_of_isOfNode hcause)

/-- Errors about undefined variables are put off until a program runs. -/
theorem of_resists (hp : HasOwn p) {part : Expr} {err : Error}
    (h : part.Resists Scalar err) : p err := by
  have hfails : FailsOnly (fun err => p err ∨ err.cause.kind.isEvaluation = true)
      (part.evaluate ([] : Table (Binding Scalar))) := by
    rw [Expr.evaluate_eq_outcomeWith]
    refine Expr.failsOnly_outcomeWith (Scalar.nodesFailOnly fun cause hcause => ?_)
      (fun name => ?_) part
    · exact .inl (hp cause (isBound_of_isOfNode hcause))
    · rw [meaning, meaningWithin_none rfl]
      exact failsOnly_error (.inr rfl)
  refine (hfails err h.fails).resolve_right fun hevaluation => ?_
  rw [h.accident] at hevaluation
  cases hevaluation

theorem failsOnly_ofExpr (hp : HasOwn p) (codegen : Bool) (e : Expr) :
    FailsOnly p (Program.ofExpr codegen e : Except Error (Program Scalar)) := by
  cases hdefect : e.defect? with
  | some defect =>
      rw [Program.ofExpr, Expr.validate, hdefect]
      exact failsOnly_error (hp _ fun _ h => by cases h)
  | none =>
  have hvalid : e.isValid = true := by rw [Expr.isValid, hdefect]; rfl
  cases codegen with
  | false =>
      rw [Program.ofExpr, Expr.validate_of_isValid hvalid]
      exact failsOnly_ok _
  | true =>
      refine (Program.reveals_ofExpr hvalid).failsOnly.mono ?_
      rintro err ⟨part, -, hresists⟩
      exact hp.of_resists hresists

end HasOwn

end Reckoner
