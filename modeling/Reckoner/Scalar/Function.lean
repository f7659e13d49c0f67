import Reckoner.Complex.Functions
import Reckoner.Scalar.Operator

/-!
# Functions

The functions that expressions may call, with the numbers of arguments they take. Functions of
one variable that continue into the plane answer a double where they have one and the principal
branch elsewhere. Functions that go by the order of the line refuse complex arguments.
-/

namespace Reckoner

/-- The functions by what they compute. -/
inductive Function where
  | sin | cos | tan | asin | acos | atan | atan2
  | sinh | cosh | tanh | asinh | acosh | atanh
  | exp | log | ln | log10 | log2
  | sqrt | cbrt | pow
  | abs | sign | floor | ceil | round | trunc
  | min | max | clamp | lerp
  | rad | deg
  | re | im | conj | arg
  deriving DecidableEq, Repr

namespace Function

/-- The name by which an expression calls the function. -/
def name : Function → String
  | sin => "sin" | cos => "cos" | tan => "tan"
  | asin => "asin" | acos => "acos" | atan => "atan" | atan2 => "atan2"
  | sinh => "sinh" | cosh => "cosh" | tanh => "tanh"
  | asinh => "asinh" | acosh => "acosh" | atanh => "atanh"
  | exp => "exp" | log => "log" | ln => "ln" | log10 => "log10" | log2 => "log2"
  | sqrt => "sqrt" | cbrt => "cbrt" | pow => "pow"
  | abs => "abs" | sign => "sign" | floor => "floor" | ceil => "ceil"
  | round => "round" | trunc => "trunc"
  | min => "min" | max => "max" | clamp => "clamp" | lerp => "lerp"
  | rad => "rad" | deg => "deg"
  | re => "re" | im => "im" | conj => "conj" | arg => "arg"

def all : List Function := [
  sin, cos, tan, asin, acos, atan, atan2, sinh, cosh, tanh, asinh, acosh, atanh,
  exp, log, ln, log10, log2, sqrt, cbrt, pow, abs, sign, floor, ceil, round, trunc,
  min, max, clamp, lerp, rad, deg, re, im, conj, arg]

/-- The function of that name. -/
def ofName? (s : String) : Option Function := all.find? (·.name == s)

/-- How many arguments a function takes: at least so many and, if bounded, at most so many. -/
structure Arity where
  least : Nat
  most : Option Nat
  deriving DecidableEq, Repr

/-- A number of arguments within the bounds. -/
def Arity.admits (a : Arity) (count : Nat) : Bool :=
  a.least ≤ count && a.most.all (count ≤ ·)

/-- The bounds in words. -/
def Arity.text (a : Arity) : String :=
  match a.most with
  | none => "at least " ++ toString a.least
  | some most =>
    if most = a.least then toString most else toString a.least ++ "-" ++ toString most

/-- The numbers of arguments that a function takes. -/
def arity : Function → Arity
  | min | max => ⟨1, none⟩
  | log => ⟨1, some 2⟩
  | atan2 | pow => ⟨2, some 2⟩
  | clamp | lerp => ⟨3, some 3⟩
  | _ => ⟨1, some 1⟩

/-- Functions that go by the order of the line. -/
def isOrdered : Function → Bool
  | atan2 | sign | floor | ceil | round | trunc | min | max | clamp => true
  | _ => false

end Function

/-- A function of one variable on the line and in the plane. -/
structure Analytic where
  /-- The values on the line. -/
  onLine : Scalar → Except Fault Float
  /-- The values in the plane. -/
  inPlane : Complex → Except Fault Complex
  /-- The value at a pole on the line. -/
  atPole : Float → Float := fun _ => Double.nan
  /-- An odd function leaves the range with the sign of its argument. -/
  odd : Bool := false

namespace Analytic

/-- The value at an argument. Beyond the range it is infinite; where the line has no value the
plane decides, and where that has none either the argument is a pole. -/
def apply (f : Analytic) (a : Scalar) : Except Fault Scalar :=
  match a with
  | .complex z =>
    match f.inPlane z with
    | .ok w => .ok (.complex w)
    | .error .outsideDomain => .error .outsideDomain
    | .error _ => .ok (.complex ⟨Double.infinity, 0.0⟩)
  | _ =>
    match f.onLine a with
    | .ok y => .ok (.real y)
    | .error .outsideDomain => do
      let z ← a.toComplex
      match f.inPlane z with
      | .error .outsideDomain => return .real (f.atPole z.re)
      | result => return .complex (← result)
    | .error _ => do
      if f.odd then return .real (Double.copySign Double.infinity (← a.toComplex).re)
      else return .real Double.infinity

/-- Values on the line from a function on doubles. -/
def ofReal (f : Float → Float) (growth : Double.Growth := .bounded) (a : Scalar) :
    Except Fault Float := do
  Double.guarded growth f (← a.toComplex).re

/-- A positive whole number beyond the doubles, rounded to `factor * 2 ^ power` with a factor from
one half up to one. -/
def leadingDigits (n : Nat) : Float × Nat :=
  let length := n.log2 + 1
  let factor := Double.ofRatio false n (Double.twoTo length)
  if factor == 1.0 then (0.5, length + 1) else (factor, length)

/-- Logarithms also of whole numbers beyond the doubles, through their leading digits. -/
def ofLogarithm (f : Float → Float) (a : Scalar) : Except Fault Float :=
  match a with
  | .whole n =>
    if n ≤ 0 then .error .outsideDomain
    else match Double.ofInt? n with
      | some x => Double.guarded .bounded f x
      | none =>
        let (factor, power) := leadingDigits n.natAbs
        .ok (f factor + f 2.0 * Double.ofInt power)
  | _ => ofReal f .bounded a

/-- A pole where the values fall without bound. -/
private def sink : Float → Float := fun _ => -Double.infinity

def naturalLog : Analytic where
  onLine := ofLogarithm Float.log
  inPlane := Complex.log
  atPole := sink

/-- The functions that continue into the plane. -/
def ofFunction? : Function → Option Analytic
  | .sin => some { onLine := ofReal Float.sin, inPlane := Complex.sin }
  | .cos => some { onLine := ofReal Float.cos, inPlane := Complex.cos }
  | .tan => some { onLine := ofReal Float.tan, inPlane := Complex.tan }
  | .asin => some { onLine := ofReal Float.asin, inPlane := fun z => .ok z.asin }
  | .acos => some { onLine := ofReal Float.acos, inPlane := fun z => .ok z.acos }
  | .atan => some { onLine := ofReal Float.atan, inPlane := Complex.atan }
  | .sinh => some
      { onLine := ofReal Float.sinh .unbounded, inPlane := Complex.sinh, odd := true }
  | .cosh => some { onLine := ofReal Float.cosh .unbounded, inPlane := Complex.cosh }
  | .tanh => some { onLine := ofReal Float.tanh, inPlane := Complex.tanh }
  | .asinh => some { onLine := ofReal Float.asinh, inPlane := fun z => .ok z.asinh }
  | .acosh => some { onLine := ofReal Float.acosh, inPlane := fun z => .ok z.acosh }
  | .atanh => some
      { onLine := ofReal Float.atanh
        inPlane := Complex.atanh
        atPole := Double.copySign Double.infinity }
  | .exp => some { onLine := ofReal Float.exp .unbounded, inPlane := Complex.exp }
  | .ln => some naturalLog
  | .log10 => some
      { onLine := ofLogarithm Float.log10, inPlane := Complex.log10, atPole := sink }
  | .log2 => some
      { onLine := ofLogarithm Float.log2, inPlane := Complex.log2, atPole := sink }
  | .sqrt => some { onLine := ofReal Float.sqrt, inPlane := fun z => .ok z.sqrt }
  | .cbrt => some { onLine := ofReal Float.cbrt, inPlane := Complex.cbrt }
  | _ => none

end Analytic

namespace Scalar

/-- The logarithm to a base. -/
def logarithm (a : Scalar) (base : Option Scalar) : Except Fault Scalar := do
  let power ← Analytic.naturalLog.apply a
  match base with
  | none => return power
  | some b => (Scalar.divide power (← Analytic.naturalLog.apply b)) >>= settle

/-- One, zero or minus one by the sign; what is not a number stays. -/
def sign (a : Scalar) : Scalar :=
  if less (.whole 0) a then .real 1.0
  else if less a (.whole 0) then .real (-1.0)
  else match a with
    | .real x => if x.isNaN then a else .real 0.0
    | _ => .real 0.0

/-- A number that may be infinite stays as it is; a finite one goes to a whole number. -/
def toIntegral (round : Float → Int) (a : Scalar) : Except Fault Scalar :=
  match a with
  | .complex _ => .ok a
  | _ => do
    let x := (← a.toComplex).re
    return .real (if x.isFinite then Double.ofInt (round x) else x)

/-- The nearest whole number, the half rounded up. -/
def roundHalfUp (x : Float) : Int := Double.floor (x + 0.5)

/-- The first of the smallest numbers. -/
def minimum (a : Scalar) (rest : List Scalar) : Scalar :=
  rest.foldl (fun least b => if less b least then b else least) a

/-- The first of the greatest numbers. -/
def maximum (a : Scalar) (rest : List Scalar) : Scalar :=
  rest.foldl (fun most b => if less most b then b else most) a

/-- The real part. -/
def realPart : Scalar → Scalar
  | .complex z => .real z.re
  | a => a

/-- The imaginary part. -/
def imaginaryPart : Scalar → Scalar
  | .whole _ => .whole 0
  | .real _ => .real 0.0
  | .complex z => .real z.im

/-- The number with the opposite imaginary part. -/
def conjugate : Scalar → Scalar
  | .complex z => .complex z.conjugate
  | a => a

/-- The radians of one degree. -/
def radiansPerDegree : Float := Double.pi / 180.0

/-- The degrees of one radian. -/
def degreesPerRadian : Float := 180.0 / Double.pi

end Scalar

open Scalar in
/-- The value of a function for as many arguments as it takes, before it is brought to normal
form. -/
def Function.onScalars (f : Function) (args : List Scalar) : Except Fault Scalar :=
  match f, args with
  | .atan2, [y, x] => do
    return .real ((← y.toComplex).re.atan2 (← x.toComplex).re)
  | .log, [a] => logarithm a none
  | .log, [a, b] => logarithm a (some b)
  | .pow, [a, b] => power a b
  | .abs, [a] => a.abs
  | .sign, [a] => .ok a.sign
  | .floor, [a] => toIntegral Double.floor a
  | .ceil, [a] => toIntegral Double.ceiling a
  | .round, [a] => toIntegral roundHalfUp a
  | .trunc, [a] => toIntegral Double.truncate a
  | .min, a :: rest => .ok (minimum a rest)
  | .max, a :: rest => .ok (maximum a rest)
  | .clamp, [a, low, high] => .ok (minimum (maximum a [low]) [high])
  | .lerp, [a, b, t] => do
    let span ← Operator.subtract.onScalars b a
    Operator.add.onScalars a (← Operator.multiply.onScalars span t)
  | .rad, [a] => Operator.multiply.onScalars a (.real radiansPerDegree)
  | .deg, [a] => Operator.multiply.onScalars a (.real degreesPerRadian)
  | .re, [a] => .ok a.realPart
  | .im, [a] => .ok a.imaginaryPart
  | .conj, [a] => .ok a.conjugate
  | .arg, [a] => do return .real (← (← a.toComplex).phase)
  | f, [a] =>
    match Analytic.ofFunction? f with
    | some analytic => analytic.apply a
    | none => .error .outsideDomain
  | _, _ => .error .outsideDomain

end Reckoner
