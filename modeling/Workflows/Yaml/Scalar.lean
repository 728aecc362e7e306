import Workflows.Json.Basic
import Workflows.Yaml.Quoted

/-!
The value of a scalar.  A plain scalar is null, a truth value, an integer, a
floating-point number or else a text, by its spelling; a core tag asks for one
of these kinds, whatever the style.
-/

namespace Workflows.Yaml

def isNullWord (s : String) : Bool :=
  s == "null" || s == "Null" || s == "NULL" || s == "~"

def truthWord? (s : String) : Option Bool :=
  if s = "true" ∨ s = "True" ∨ s = "TRUE" then some true
  else if s = "false" ∨ s = "False" ∨ s = "FALSE" then some false
  else none

def digitIn? (base : Nat) (c : Char) : Option Nat :=
  (hexDigit? c).bind fun d => if d < base then some d else none

def natural? (base : Nat) (digits : List Char) : Option Nat :=
  if digits.isEmpty then none
  else digits.foldlM (fun value c => (digitIn? base c).map (base * value + ·)) 0

/-- Digits that start with zero without being zero: a text, not a number. -/
def isPadded (digits : List Char) : Bool :=
  match digits with
  | '0' :: rest@(_ :: _) => rest.all Char.isDigit
  | _ => false

/-- The number written after an optional sign, its base by the letter after a
zero. -/
def magnitude? (s : List Char) : Option Nat :=
  match s with
  | '0' :: 'x' :: digits => natural? 16 digits
  | '0' :: 'o' :: digits => natural? 8 digits
  | '0' :: 'b' :: digits => natural? 2 digits
  | digits => if isPadded digits then none else natural? 10 digits

def integer? (s : List Char) : Option Int :=
  match s with
  | '+' :: rest => (magnitude? rest).map Int.ofNat
  | '-' :: rest => (magnitude? rest).map fun n => -(n : Int)
  | _ => (magnitude? s).map Int.ofNat

/-- How an integer is represented: 64 bits suffice, or 128 bits, for which there
is no value, or neither. -/
inductive Width where
  | word
  | double
  | beyond
  deriving DecidableEq, Repr

def width (i : Int) : Width :=
  if -(Nat.pow 2 63 : Nat) ≤ i ∧ i < (Nat.pow 2 64 : Nat) then .word
  else if -(Nat.pow 2 127 : Nat) ≤ i ∧ i < (Nat.pow 2 128 : Nat) then .double
  else .beyond

def isInfinity (s : String) : Bool :=
  let unsigned :=
    if s.startsWith "+" || s.startsWith "-" then (s.drop 1).toString else s
  unsigned == ".inf" || unsigned == ".Inf" || unsigned == ".INF"

def isNotANumber (s : String) : Bool :=
  s == ".nan" || s == ".NaN" || s == ".NAN"

def signedDigits? (s : List Char) : Option Int :=
  match s with
  | '+' :: digits => (natural? 10 digits).map Int.ofNat
  | '-' :: digits => (natural? 10 digits).map fun n => -(n : Int)
  | digits => (natural? 10 digits).map Int.ofNat

def unsignedDecimal? (negative : Bool) (s : List Char) : Option Binary64 := do
  let whole := s.takeWhile Char.isDigit
  let rest := s.dropWhile Char.isDigit
  let (fraction, rest) :=
    match rest with
    | '.' :: rest => (rest.takeWhile Char.isDigit, rest.dropWhile Char.isDigit)
    | _ => ([], rest)
  let digits ← natural? 10 (whole ++ fraction)
  let e ←
    match rest with
    | [] => some 0
    | 'e' :: rest | 'E' :: rest => signedDigits? rest
    | _ => none
  Binary64.ofDecimal? negative digits (e - fraction.length)

def decimal? (s : List Char) : Option Binary64 :=
  match s with
  | '+' :: rest => unsignedDecimal? false rest
  | '-' :: rest => unsignedDecimal? true rest
  | _ => unsignedDecimal? false s

/-- The value of a floating-point spelling; infinities and what is not a number
become null. -/
def real? (s : String) : Option Json :=
  if isInfinity s || isNotANumber s then some .null
  else (decimal? s.toList).map .real

/-- The value of an integer spelling and whether it has one; an integer of
double width has no value. -/
def integerValue? (s : String) : Option (Option Json) :=
  match integer? s.toList with
  | none => none
  | some i =>
      match width i with
      | .word => some (some (.int i))
      | .double => some none
      | .beyond => none

def hasPaddedDigits (s : String) : Bool :=
  match s.toList with
  | '+' :: digits | '-' :: digits => isPadded digits
  | digits => isPadded digits

def plainValue? (s : String) : Option Json :=
  if s.isEmpty || isNullWord s then some .null
  else
    match truthWord? s with
    | some b => some (.bool b)
    | none =>
        match integerValue? s with
        | some value => value
        | none =>
            if hasPaddedDigits s then some (.str s)
            else some ((real? s).getD (.str s))

/-- The value of a scalar with a full tag.  A local tag has no value; a tag that
is no core tag of a scalar leaves the text as it is. -/
def taggedValue? (tag : String) (s : String) : Option Json :=
  if tag.startsWith "!" then none
  else if tag = "tag:yaml.org,2002:bool" then (truthWord? s).map .bool
  else if tag = "tag:yaml.org,2002:int" then (integerValue? s).join
  else if tag = "tag:yaml.org,2002:float" then real? s
  else if tag = "tag:yaml.org,2002:null" then if isNullWord s then some .null
    else none
  else some (.str s)

def scalarValue? (tag : Option String) (s : String) (plain : Bool) :
    Option Json :=
  match tag with
  | some tag => taggedValue? tag s
  | none => if plain then plainValue? s else some (.str s)

end Workflows.Yaml
