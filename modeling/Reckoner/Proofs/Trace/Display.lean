import Reckoner.Proofs.Failure
import Reckoner.Proofs.Scalar.Faults
import Reckoner.Trace.Step

/-!
# Which steps can be shown

A value made of doubles can be shown with every number of digits that a format takes; all other
numbers of digits are refused as soon as a finite double is to be shown with them.
-/

namespace Reckoner

namespace Display

/-- The reason why a format does not take so many digits. -/
inductive Refusal (n : Int) : Cause → Prop
  | negative : n < 0 → Refusal n .missingPrecision
  | tooBig : largestPrecision < n → Refusal n .precisionTooBig
  | tooMany : largestCount < n → Refusal n .tooManyDigits

theorem failsOnly_precision (n : Int) : FailsOnly (Refusal n) (precision n) := by
  unfold precision
  split
  case isTrue hn => exact failsOnly_error (.negative hn)
  case isFalse =>
      split
      case isTrue hn => exact failsOnly_error (.tooMany hn)
      case isFalse =>
          split
          case isTrue hn => exact failsOnly_error (.tooBig hn)
          case isFalse => exact failsOnly_ok _

/-- How many digits are shown: a whole number, or nothing. -/
def Digits : Option Int → Datum
  | none => .null
  | some n => .number (.whole n)

/-- The reason why so many digits are not shown. -/
def Refuses (count : Option Int) (cause : Cause) : Prop := ∃ n, count = some n ∧ Refusal n cause

variable {count : Option Int}

theorem failsOnly_real (x : Float) : FailsOnly (Refuses count) (real (Digits count) x) := by
  unfold real
  split
  case isTrue => exact failsOnly_ok _
  case isFalse =>
      split
      case isTrue hdigits =>
          cases count with
          | none => cases hdigits
          | some n =>
              have hprecision : FailsOnly (Refuses (some n)) (precision n) :=
                (failsOnly_precision n).mono fun cause h => ⟨n, rfl, h⟩
              exact hprecision.bind fun _ _ => failsOnly_pure _
      case isFalse => exact failsOnly_ok _

theorem failsOnly_complex (z : Complex) : FailsOnly (Refuses count) (complex (Digits count) z) := by
  unfold complex
  refine (failsOnly_real _).bind fun imaginary _ => ?_
  dsimp only
  split
  case isTrue => exact failsOnly_pure _
  case isFalse => exact (failsOnly_real _).bind fun _ _ => failsOnly_pure _

/-- Also a whole number can be shown, if it is not too large to be a double. -/
theorem failsOnly_value_of_isConvertible {x : Scalar} (h : x.IsConvertible) :
    FailsOnly (Refuses count) (value (Digits count) (.number x)) := by
  cases x with
  | whole n =>
      obtain ⟨z, hz⟩ := h
      obtain ⟨y, hy⟩ : ∃ y, Scalar.wholeToFloat n = .ok y := by
        cases hn : Scalar.wholeToFloat n with
        | error => rw [Scalar.toComplex, hn] at hz; cases hz
        | ok y => exact ⟨y, rfl⟩
      have hvalue : value (Digits count) (.number (.whole n)) = real (Digits count) y := by
        change (Scalar.faulty (Scalar.wholeToFloat n) >>= real (Digits count)) = _
        rw [hy]
        rfl
      exact hvalue ▸ failsOnly_real y
  | real x => exact failsOnly_real x
  | complex z => exact failsOnly_complex z

theorem failsOnly_value {x : Scalar} (h : x.IsFloating) :
    FailsOnly (Refuses count) (value (Digits count) (.number x)) :=
  failsOnly_value_of_isConvertible (Scalar.exists_toComplex h)

end Display

/-! ## Steps of reductions -/

namespace Reduction

/-- All values of a reduction are in normal form, and its operator is one of the known ones. -/
def IsSettled : Reduction Scalar → Prop
  | .binary op a b v => (Operator.ofSymbol? op).isSome ∧ a.IsSettled ∧ b.IsSettled ∧ v.IsSettled
  | .call _ args v => (∀ a ∈ args, a.IsSettled) ∧ v.IsSettled

end Reduction

namespace Step

open Display

variable {count : Option Int}

theorem failsOnly_ofReduction {r : Reduction Scalar} (h : r.IsSettled) :
    FailsOnly (Refuses count) (ofReduction (Digits count) r) := by
  cases r with
  | binary op a b v =>
      obtain ⟨hop, ha, hb, hv⟩ := h
      obtain ⟨known, hknown⟩ := Option.isSome_iff_exists.mp hop
      refine (failsOnly_value ha.isFloating).bind fun _ _ => ?_
      refine (failsOnly_value hb.isFloating).bind fun _ _ => ?_
      rw [hknown]
      exact (failsOnly_value hv.isFloating).bind fun _ _ => failsOnly_pure _
  | call name args v =>
      have hargs : FailsOnly (Refuses count)
          ((args.map Datum.number).mapM (value (Digits count))) := by
        refine failsOnly_mapM fun d hd => ?_
        obtain ⟨a, ha, rfl⟩ := List.mem_map.mp hd
        exact failsOnly_value (h.1 a ha).isFloating
      exact hargs.bind fun _ _ =>
        (failsOnly_value h.2.isFloating).bind fun _ _ => failsOnly_pure _

end Step

end Reckoner
