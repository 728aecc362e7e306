import Workflows.Json.Basic

/-!
Numbers in JSON text.  An integer that fits in 64 bits, signed or unsigned,
stays an integer.  Any other number is floating: as many leading digits as fit
in 64 unsigned bits form an integer, which is rounded once and then scaled by
powers of ten, each step rounding again.
-/

namespace Workflows.Json

def digitValue (c : Char) : Nat := c.toNat - 48

/-- Appends decimal digits to `value` for as long as the result stays below
`2 ^ 64`, and returns the digits left over. -/
def absorb (value : Nat) : List Char → Nat × List Char
  | [] => (value, [])
  | c :: rest =>
      let next := 10 * value + digitValue c
      if next < Nat.pow 2 64 then absorb next rest else (value, c :: rest)

def powerOfTen (e : Nat) : Binary64 :=
  (Binary64.ofDecimal? false 1 e).getD Binary64.largest

/-- `f · 10 ^ (-e)`, in steps of at most 308 powers; the fourth step can only
meet zero. -/
def scaleDown : Nat → Binary64 → Nat → Option Binary64
  | 0, f, _ => some f
  | steps + 1, f, e =>
      if e ≤ 308 then f.div? (powerOfTen e)
      else if f.isZero then some f
      else (f.div? (powerOfTen 308)).bind fun smaller =>
        scaleDown steps smaller (e - 308)

def scale? (value : Nat) (e : Int) : Option Binary64 :=
  let f := Binary64.ofNat value
  if e < 0 then scaleDown 4 f e.natAbs
  else if e ≤ 308 then f.mul? (powerOfTen e.toNat)
  else if f.isZero then some f
  else none

def signed (negative : Bool) (x : Binary64) : Binary64 :=
  if negative then x.neg else x

def real? (negative : Bool) (whole fraction : List Char) (e : Int) :
    Option Json :=
  let (value, dropped) := absorb 0 whole
  let (value, ignored) := absorb value fraction
  let shift : Int := dropped.length - (fraction.length - ignored.length : Nat)
  (scale? value (shift + e)).map fun x => .real (signed negative x)

def whole? (negative : Bool) (digits : List Char) : Option Json :=
  match absorb 0 digits with
  | (value, []) =>
      if !negative then some (.int value)
      else if value = 0 ∨ Nat.pow 2 63 < value then
        some (.real (signed true (Binary64.ofNat value)))
      else some (.int (-value))
  | _ => real? negative digits [] 0

def exponent? (s : List Char) : Option (Int × List Char) :=
  let (negative, s) := match s with
    | '-' :: rest => (true, rest)
    | '+' :: rest => (false, rest)
    | _ => (false, s)
  match s.span Char.isDigit with
  | ([], _) => none
  | (digits, rest) =>
      let value : Nat := Nat.ofDigitChars 10 digits 0
      some (if negative then -(value : Int) else value, rest)

def number? (negative : Bool) (s : List Char) : Option (Json × List Char) :=
  match s.span Char.isDigit with
  | ([], _) => none
  | ('0' :: _ :: _, _) => none
  | (whole, rest) =>
      match rest with
      | '.' :: rest =>
          match rest.span Char.isDigit with
          | ([], _) => none
          | (fraction, rest) =>
              match rest with
              | 'e' :: rest | 'E' :: rest => do
                  let (e, rest) ← exponent? rest
                  return (← real? negative whole fraction e, rest)
              | rest => (real? negative whole fraction 0).map (·, rest)
      | 'e' :: rest | 'E' :: rest => do
          let (e, rest) ← exponent? rest
          return (← real? negative whole [] e, rest)
      | rest => (whole? negative whole).map (·, rest)

end Workflows.Json
