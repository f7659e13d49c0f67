import Reckoner.Complex.Special
import Reckoner.Double.Logarithm

/-!
# Complex functions

Principal branches, with the branch cuts continuous from the side that the sign of a zero tells.
Large arguments are scaled down before they are squared, so that only results overflow.

A function that has a pole at its argument, or no limit there, lies outside its domain; one whose
finite argument gives an infinite part is out of range.
-/

namespace Reckoner.Complex

open Double (copySign isNegative logTwo hypotenuse largest leastNormal)

/-- Parts beyond this are halved before the distance from zero is taken. -/
private def wide : Float := largest / 4.0

/-- Parts beyond this have squares near the end of the range. -/
private def wideRoot : Float := wide.sqrt

/-- Real parts beyond this have exponentials near the end of the range. -/
private def wideLog : Float := wide.log

/-- A function goes by its table unless both parts are finite. -/
private def bySpecial (table : Special.Table) (z : Complex) (ordinary : Complex) : Complex :=
  if z.isFinite then ordinary else table.at z

/-- The logarithm of the distance from zero of a number with a large part. -/
private def wideLogarithm (z : Complex) : Float :=
  (hypotenuse (z.re / 2.0) (z.im / 2.0)).log + logTwo * 2.0

/-- A part is so large that squares overflow. -/
private def isWide (z : Complex) : Bool := wide < z.re.abs || wide < z.im.abs

/-- The square root, from the half sum of the distance from zero and the real part. -/
def sqrt (z : Complex) : Complex :=
  bySpecial Special.squareRoot z <|
    if z.isZero then ⟨0.0, z.im⟩
    else
      let x := z.re.abs
      let y := z.im.abs
      let root :=
        if x < leastNormal && y < leastNormal then
          let up := Float.ofBits 0x4340000000000000
          let down := Float.ofBits 0x3E40000000000000
          (x * up + hypotenuse (x * up) (y * up)).sqrt * down
        else 2.0 * (x / 8.0 + hypotenuse (x / 8.0) (y / 8.0)).sqrt
      let other := y / (2.0 * root)
      if 0.0 ≤ z.re then ⟨root, copySign other z.im⟩ else ⟨other, copySign root z.im⟩

/-- The logarithm without its pole: near distance one it is taken from the difference to one. -/
private def rawLog (z : Complex) : Complex :=
  bySpecial Special.logarithm z <|
    let x := z.re.abs
    let y := z.im.abs
    let re :=
      if isWide z then (hypotenuse (x / 2.0) (y / 2.0)).log + logTwo
      else if x < leastNormal && y < leastNormal then
        if z.isZero then -Double.infinity
        else
          let up := Float.ofBits 0x4340000000000000
          (hypotenuse (x * up) (y * up)).log - 53.0 * logTwo
      else
        let length := hypotenuse x y
        if 0.71 ≤ length && length ≤ 1.73 then
          let more := if y < x then x else y
          let less := if y < x then y else x
          Double.logOnePlus ((more - 1.0) * (more + 1.0) + less * less) / 2.0
        else length.log
    ⟨re, z.im.atan2 z.re⟩

/-- The natural logarithm. -/
def log (z : Complex) : Except Fault Complex :=
  if z.isZero then .error .outsideDomain else .ok (rawLog z)

/-- The decimal logarithm. -/
def log10 (z : Complex) : Except Fault Complex := do
  let w ← log z
  return ⟨w.re / Double.logTen, w.im / Double.logTen⟩

/-- The faults of a function of exponential growth. -/
private def grown (z : Complex) (poleAt : Bool) (w : Complex) : Except Fault Complex :=
  if z.isFinite then if w.hasInfinity then .error .outOfRange else .ok w
  else if poleAt then .error .outsideDomain
  else .ok w

/-- An infinite real part with a finite imaginary part other than zero: a direction decides. -/
private def isDirected (z : Complex) : Bool := z.re.isInf && z.im.isFinite && z.im != 0.0

/-- The exponential. -/
def exp (z : Complex) : Except Fault Complex :=
  let size := if 0.0 < z.re then Double.infinity else 0.0
  grown z (z.im.isInf && (z.re.isFinite || (z.re.isInf && 0.0 < z.re))) <|
    if isDirected z then ⟨copySign size z.im.cos, copySign size z.im.sin⟩
    else if !z.isFinite then Special.exponential.at z
    else if wideLog < z.re then
      let length := (z.re - 1.0).exp
      ⟨length * z.im.cos * Double.euler, length * z.im.sin * Double.euler⟩
    else
      let length := z.re.exp
      ⟨length * z.im.cos, length * z.im.sin⟩

/-- The hyperbolic cosine. -/
def cosh (z : Complex) : Except Fault Complex :=
  grown z (z.im.isInf && !z.re.isNaN) <|
    if isDirected z then
      let im := copySign Double.infinity z.im.sin
      ⟨copySign Double.infinity z.im.cos, if 0.0 < z.re then im else -im⟩
    else if !z.isFinite then Special.hyperbolicCosine.at z
    else if wideLog < z.re.abs then
      let x := z.re - copySign 1.0 z.re
      ⟨z.im.cos * x.cosh * Double.euler, z.im.sin * x.sinh * Double.euler⟩
    else ⟨z.im.cos * z.re.cosh, z.im.sin * z.re.sinh⟩

/-- The hyperbolic sine. -/
def sinh (z : Complex) : Except Fault Complex :=
  grown z (z.im.isInf && !z.re.isNaN) <|
    if isDirected z then
      let re := copySign Double.infinity z.im.cos
      ⟨if 0.0 < z.re then re else -re, copySign Double.infinity z.im.sin⟩
    else if !z.isFinite then Special.hyperbolicSine.at z
    else if wideLog < z.re.abs then
      let x := z.re - copySign 1.0 z.re
      ⟨z.im.cos * x.sinh * Double.euler, z.im.sin * x.cosh * Double.euler⟩
    else ⟨z.im.cos * z.re.sinh, z.im.sin * z.re.cosh⟩

/-- The hyperbolic tangent. -/
def tanh (z : Complex) : Except Fault Complex :=
  if z.im.isInf && z.re.isFinite then .error .outsideDomain
  else if isDirected z then
    .ok ⟨if 0.0 < z.re then 1.0 else -1.0, copySign 0.0 (2.0 * z.im.sin * z.im.cos)⟩
  else if !z.isFinite then .ok (Special.hyperbolicTangent.at z)
  else if wideLog < z.re.abs then
    .ok ⟨copySign 1.0 z.re, 4.0 * z.im.sin * z.im.cos * (-2.0 * z.re.abs).exp⟩
  else
    let x := z.re.tanh
    let y := z.im.tan
    let narrow := 1.0 / z.re.cosh
    let product := x * y
    let divisor := 1.0 + product * product
    .ok ⟨x * (1.0 + y * y) / divisor, y / divisor * narrow * narrow⟩

/-- A quarter turn forward. -/
private def turned (z : Complex) : Complex := ⟨-z.im, z.re⟩

/-- A quarter turn back. -/
private def turnedBack (z : Complex) : Complex := ⟨z.im, -z.re⟩

/-- The sine, the hyperbolic sine a quarter turn away. -/
def sin (z : Complex) : Except Fault Complex := return turnedBack (← sinh (turned z))

/-- The cosine, the hyperbolic cosine a quarter turn away. -/
def cos (z : Complex) : Except Fault Complex := cosh (turned z)

/-- The tangent, the hyperbolic tangent a quarter turn away. -/
def tan (z : Complex) : Except Fault Complex := return turnedBack (← tanh (turned z))

/-- The inverse hyperbolic sine. -/
def asinh (z : Complex) : Complex :=
  bySpecial Special.areaSine z <|
    if isWide z then
      let length := wideLogarithm z
      ⟨if 0.0 ≤ z.im then copySign length z.re else -copySign length (-z.re),
        z.im.atan2 z.re.abs⟩
    else
      let a := sqrt ⟨1.0 + z.im, -z.re⟩
      let b := sqrt ⟨1.0 - z.im, z.re⟩
      ⟨(a.re * b.im - b.re * a.im).asinh, z.im.atan2 (a.re * b.re - a.im * b.im)⟩

/-- The inverse hyperbolic cosine. -/
def acosh (z : Complex) : Complex :=
  bySpecial Special.areaCosine z <|
    if isWide z then ⟨wideLogarithm z, z.im.atan2 z.re⟩
    else
      let a := sqrt ⟨z.re - 1.0, z.im⟩
      let b := sqrt ⟨z.re + 1.0, z.im⟩
      ⟨(a.re * b.re + a.im * b.im).asinh, 2.0 * a.im.atan2 b.re⟩

/-- The inverse hyperbolic tangent of a number right of the imaginary axis. -/
private def atanhRight (z : Complex) : Except Fault Complex :=
  let y := z.im.abs
  if wideRoot < z.re || wideRoot < y then
    let length := hypotenuse (z.re / 2.0) (z.im / 2.0)
    .ok ⟨z.re / 4.0 / length / length, -copySign (Double.pi / 2.0) (-z.im)⟩
  else if z.re == 1.0 && y < leastNormal.sqrt then
    if y == 0.0 then .error .outsideDomain
    else
      .ok ⟨-(y.sqrt / (hypotenuse y 2.0).sqrt).log, copySign ((2.0 : Float).atan2 (-y) / 2.0) z.im⟩
  else
    let square := (1.0 - z.re) * (1.0 - z.re) + y * y
    .ok ⟨Double.logOnePlus (4.0 * z.re / square) / 4.0,
      -(-2.0 * z.im).atan2 ((1.0 - z.re) * (1.0 + z.re) - y * y) / 2.0⟩

/-- The inverse hyperbolic tangent, an odd function. -/
def atanh (z : Complex) : Except Fault Complex :=
  if !z.isFinite then .ok (Special.areaTangent.at z)
  else if isNegative z.re then return -(← atanhRight (-z))
  else atanhRight z

/-- The arc sine, the inverse hyperbolic sine a quarter turn away. -/
def asin (z : Complex) : Complex := turnedBack (asinh (turned z))

/-- The arc cosine. -/
def acos (z : Complex) : Complex :=
  bySpecial Special.arccosine z <|
    if isWide z then
      let length := wideLogarithm z
      ⟨z.im.abs.atan2 z.re,
        if z.re < 0.0 then -copySign length z.im else copySign length (-z.im)⟩
    else
      let a := sqrt ⟨1.0 - z.re, -z.im⟩
      let b := sqrt ⟨1.0 + z.re, z.im⟩
      ⟨2.0 * a.re.atan2 b.re, (b.re * a.im - b.im * a.re).asinh⟩

/-- The arc tangent, the inverse hyperbolic tangent a quarter turn away. -/
def atan (z : Complex) : Except Fault Complex := return turnedBack (← atanh (turned z))

/-- The cube root, through the logarithm. -/
def cbrt (z : Complex) : Except Fault Complex := do
  exp (← divide (← log z) (ofFloat 3.0))

/-- The binary logarithm. -/
def log2 (z : Complex) : Except Fault Complex := do
  divide (← log z) (ofFloat ((2.0 : Float).log))

end Reckoner.Complex
