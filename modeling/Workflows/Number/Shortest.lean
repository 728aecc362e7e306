import Workflows.Number.Binary64

/-!
Decimal text of floating-point numbers.  A number is written with the fewest
significant digits that read back as the same number and, among those, with the
digits nearest to it.
-/

namespace Workflows.Binary64

def scaledTen (num den : Nat) (e : Int) : Nat × Nat :=
  if e < 0 then (num * Nat.pow 10 (-e).toNat, den)
  else (num, den * Nat.pow 10 e.toNat)

def decade (num den : Nat) : Int :=
  if den ≤ num then (Nat.toDigits 10 (num / den)).length - 1
  else
    let length := (Nat.toDigits 10 (den / num)).length
    if num * Nat.pow 10 (length - 1) = den then -((length : Int) - 1)
    else -(length : Int)

/-- The multiple of `10 ^ grid` that reads back as the positive number `x`: the
nearer of the two neighbours of `x` on that grid, and the even one when they are
equally near. -/
def onGrid? (x : Binary64) (grid : Int) : Option Nat :=
  let (n, d) := scaledTen x.numerator x.denominator grid
  let lower := n / d
  let upper := lower + 1
  let readsBack (digits : Nat) : Bool := ofDecimal? false digits grid == some x
  match readsBack lower, readsBack upper with
  | true, true => some (halfEven n d)
  | true, false => some lower
  | false, true => some upper
  | false, false => none

/-- Significant digits and the exponent of the first of them: `(123, 4)` is
`1.23 · 10 ^ 4`. -/
structure Digits where
  digits : List Char
  exponent : Int
  deriving DecidableEq, Repr

def Digits.ofGrid (digits : Nat) (grid : Int) : Digits :=
  let ds := Nat.toDigits 10 digits
  ⟨(ds.reverse.dropWhile (· == '0')).reverse, grid + ds.length - 1⟩

/-- The fewest digits that read back as the positive number `x`; seventeen
always suffice. -/
def shortest (x : Binary64) : Digits :=
  let top := decade x.numerator x.denominator
  let found := (List.range 17).findSome? fun (k : Nat) =>
    (x.onGrid? (top - k)).map fun digits => Digits.ofGrid digits (top - k)
  found.getD (Digits.ofGrid 0 0)

/-- Which numbers are written out in full: those whose first digit has an
exponent in the range. -/
structure Layout where
  least : Int
  greatest : Int
  deriving DecidableEq, Repr

def Digits.positional (d : Digits) : List Char :=
  if d.exponent < 0 then
    '0' :: '.' :: (List.replicate ((-d.exponent).toNat - 1) '0' ++ d.digits)
  else
    let whole := d.exponent.toNat + 1
    if d.digits.length ≤ whole then
      d.digits ++ List.replicate (whole - d.digits.length) '0' ++ ['.', '0']
    else d.digits.take whole ++ '.' :: d.digits.drop whole

def Digits.scientific (d : Digits) : List Char :=
  let rest := d.digits.drop 1
  d.digits.take 1 ++ (if rest.isEmpty then [] else '.' :: rest) ++
    'e' :: (if d.exponent < 0 then '-' else '+') ::
      Nat.toDigits 10 d.exponent.natAbs

def Digits.text (layout : Layout) (d : Digits) : List Char :=
  if layout.least ≤ d.exponent ∧ d.exponent ≤ layout.greatest then d.positional
  else d.scientific

def text (layout : Layout) (x : Binary64) : List Char :=
  let magnitude : List Char :=
    if x.isZero then ['0', '.', '0']
    else ({ x with negative := false }).shortest.text layout
  if x.negative then '-' :: magnitude else magnitude

end Workflows.Binary64
