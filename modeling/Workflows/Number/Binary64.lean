/-!
Finite binary floating-point numbers with 53 significant bits and exponents from
−1074 to 971.  Every operation takes the exact result as a ratio of natural
numbers and rounds it once, to the nearest number and a tie to the even
significand; a result too large for the format is `none`.
-/

namespace Workflows

/-- The number `± significand · 2 ^ exponent`.  Rounding yields significands
below `2 ^ 53` that are either at least `2 ^ 52` or stand with the least
exponent. -/
structure Binary64 where
  negative : Bool
  significand : Nat
  exponent : Int
  deriving DecidableEq, Repr

namespace Binary64

def zero (negative : Bool) : Binary64 := ⟨negative, 0, -1074⟩

def largest : Binary64 := ⟨false, Nat.pow 2 53 - 1, 971⟩

/-- The quotient rounded to the nearest integer, a tie to the even one. -/
def halfEven (num den : Nat) : Nat :=
  let q := num / den
  let r := num % den
  if 2 * r < den then q
  else if den < 2 * r then q + 1
  else if q % 2 = 0 then q
  else q + 1

/-- The quotient rounded to the nearest integer, a tie away from zero. -/
def halfUp (num den : Nat) : Nat := (2 * num + den) / (2 * den)

def scaled (num den : Nat) (e : Int) : Nat × Nat :=
  if e < 0 then (num * Nat.pow 2 (-e).toNat, den)
  else (num, den * Nat.pow 2 e.toNat)

/-- The integer part of the binary logarithm of `num / den`, both positive. -/
def binade (num den : Nat) : Int :=
  let guess : Int := (Nat.log2 num : Int) - Nat.log2 den
  let (n, d) := scaled num den guess
  if d ≤ n then guess else guess - 1

def ofRatio? (negative : Bool) (num den : Nat) : Option Binary64 :=
  if num = 0 then some (zero negative)
  else
    let e := max (binade num den - 52) (-1074)
    let (n, d) := scaled num den e
    let q := halfEven n d
    let (q, e) := if q = Nat.pow 2 53 then (Nat.pow 2 52, e + 1) else (q, e)
    if 971 < e then none else some ⟨negative, q, e⟩

def numerator (x : Binary64) : Nat := x.significand * Nat.pow 2 x.exponent.toNat

def denominator (x : Binary64) : Nat := Nat.pow 2 (-x.exponent).toNat

def signedNumerator (x : Binary64) : Int :=
  if x.negative then -(x.numerator : Int) else x.numerator

def isZero (x : Binary64) : Bool := x.significand == 0

def neg (x : Binary64) : Binary64 := { x with negative := !x.negative }

def ofNat (n : Nat) : Binary64 := (ofRatio? false n 1).getD largest

def ofInt (i : Int) : Binary64 :=
  if i < 0 then (ofNat i.natAbs).neg else ofNat i.natAbs

def mul? (x y : Binary64) : Option Binary64 :=
  ofRatio? (x.negative != y.negative) (x.numerator * y.numerator)
    (x.denominator * y.denominator)

def div? (x y : Binary64) : Option Binary64 :=
  ofRatio? (x.negative != y.negative) (x.numerator * y.denominator)
    (x.denominator * y.numerator)

/-- A sum of zero is negative only when both summands are. -/
def add? (x y : Binary64) : Option Binary64 :=
  let num :=
    x.signedNumerator * y.denominator + y.signedNumerator * x.denominator
  let negative := if num = 0 then x.negative && y.negative else decide (num < 0)
  ofRatio? negative num.natAbs (x.denominator * y.denominator)

def lt (x y : Binary64) : Bool :=
  decide (x.signedNumerator * y.denominator < y.signedNumerator * x.denominator)

def round (x : Binary64) : Int :=
  let n := halfUp x.numerator x.denominator
  if x.negative then -(n : Int) else n

/-- The nearest number to `± digits · 10 ^ e`.  The two bounds on the magnitude
keep the exact ratio small: beyond them the result is known. -/
def ofDecimal? (negative : Bool) (digits : Nat) (e : Int) : Option Binary64 :=
  let magnitude : Int := (Nat.toDigits 10 digits).length + e
  if digits = 0 then some (zero negative)
  else if 310 < magnitude then none
  else if magnitude < -330 then some (zero negative)
  else if e < 0 then ofRatio? negative digits (Nat.pow 10 (-e).toNat)
  else ofRatio? negative (digits * Nat.pow 10 e.toNat) 1

end Binary64

end Workflows
