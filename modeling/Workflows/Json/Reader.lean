import Workflows.Json.Number

/-!
Reading JSON text.  The whole text must be one value with blanks around its
parts.  An escape that names half of a surrogate pair must be followed by one
that names the other half.
-/

namespace Workflows.Json

def isSeparator (c : Char) : Bool :=
  c == ' ' || c == '\n' || c == '\t' || c == '\r'

def skip (s : List Char) : List Char := s.dropWhile isSeparator

def hexValue? (c : Char) : Option Nat :=
  if '0' ≤ c ∧ c ≤ '9' then some (c.toNat - 48)
  else if 'a' ≤ c ∧ c ≤ 'f' then some (c.toNat - 87)
  else if 'A' ≤ c ∧ c ≤ 'F' then some (c.toNat - 55)
  else none

def hexUnit? (a b c d : Char) : Option Nat := do
  let a ← hexValue? a
  let b ← hexValue? b
  let c ← hexValue? c
  let d ← hexValue? d
  return ((a * 16 + b) * 16 + c) * 16 + d

/-- One written element of a string: a character, or a 16-bit unit named by its
number. -/
inductive Unit16 where
  | char (c : Char)
  | unit (value : Nat)
  deriving DecidableEq, Repr

def shortEscape? (c : Char) : Option Char :=
  match c with
  | '\x22' => some '\x22'
  | '\\' => some '\\'
  | '/' => some '/'
  | 'b' => some '\x08'
  | 'f' => some '\x0c'
  | 'n' => some '\n'
  | 'r' => some '\r'
  | 't' => some '\t'
  | _ => none

def units? : List Char → Option (List Unit16 × List Char)
  | [] => none
  | '\x22' :: rest => some ([], rest)
  | '\\' :: 'u' :: a :: b :: c :: d :: rest => do
      let value ← hexUnit? a b c d
      let (more, rest) ← units? rest
      return (.unit value :: more, rest)
  | '\\' :: c :: rest => do
      let c ← shortEscape? c
      let (more, rest) ← units? rest
      return (.char c :: more, rest)
  | c :: rest =>
      if c.toNat < 32 ∨ c = '\\' then none
      else do
        let (more, rest) ← units? rest
        return (.char c :: more, rest)

/-- The characters that the elements stand for; two surrogate halves form
one. -/
def characters? : List Unit16 → Option (List Char)
  | [] => some []
  | .char c :: rest => (characters? rest).map (c :: ·)
  | .unit high :: .unit low :: rest =>
      if 0xD800 ≤ high ∧ high < 0xDC00 then
        if 0xDC00 ≤ low ∧ low < 0xE000 then
          (characters? rest).map
            (Char.ofNat (0x10000 + (high - 0xD800) * 0x400 + (low - 0xDC00)) ::
              ·)
        else none
      else if 0xDC00 ≤ high ∧ high < 0xE000 then none
      else (characters? (.unit low :: rest)).map (Char.ofNat high :: ·)
  | .unit value :: rest =>
      if 0xD800 ≤ value ∧ value < 0xE000 then none
      else (characters? rest).map (Char.ofNat value :: ·)

def string? (s : List Char) : Option (String × List Char) := do
  let (us, rest) ← units? s
  let cs ← characters? us
  return (String.ofList cs, rest)

mutual

def value? : Nat → List Char → Option (Json × List Char)
  | 0, _ => none
  | fuel + 1, s =>
      match skip s with
      | 'n' :: 'u' :: 'l' :: 'l' :: rest => some (.null, rest)
      | 't' :: 'r' :: 'u' :: 'e' :: rest => some (.bool true, rest)
      | 'f' :: 'a' :: 'l' :: 's' :: 'e' :: rest => some (.bool false, rest)
      | '\x22' :: rest => (string? rest).map fun (s, rest) => (.str s, rest)
      | '-' :: rest => number? true rest
      | '[' :: rest =>
          match skip rest with
          | ']' :: rest => some (.arr [], rest)
          | rest => do
              let (item, rest) ← value? fuel rest
              let (more, rest) ← items? fuel rest
              return (.arr (item :: more), rest)
      | '{' :: rest =>
          match skip rest with
          | '}' :: rest => some (.obj [], rest)
          | rest => do
              let (entry, rest) ← pair? fuel rest
              let (more, rest) ← members? fuel rest
              return (.obj (entry :: more), rest)
      | rest => number? false rest

def items? : Nat → List Char → Option (List Json × List Char)
  | 0, _ => none
  | fuel + 1, s =>
      match skip s with
      | ']' :: rest => some ([], rest)
      | ',' :: rest => do
          let (item, rest) ← value? fuel rest
          let (more, rest) ← items? fuel rest
          return (item :: more, rest)
      | _ => none

def pair? : Nat → List Char → Option ((String × Json) × List Char)
  | 0, _ => none
  | fuel + 1, s =>
      match skip s with
      | '\x22' :: rest => do
          let (name, rest) ← string? rest
          match skip rest with
          | ':' :: rest =>
              let (value, rest) ← value? fuel rest
              return ((name, value), rest)
          | _ => none
      | _ => none

def members? : Nat → List Char → Option (List (String × Json) × List Char)
  | 0, _ => none
  | fuel + 1, s =>
      match skip s with
      | '}' :: rest => some ([], rest)
      | ',' :: rest => do
          let (entry, rest) ← pair? fuel rest
          let (more, rest) ← members? fuel rest
          return (entry :: more, rest)
      | _ => none

end

/-- Reads a text that is one value.  Each step of the reader uses up a
character, so twice the length bounds their nesting. -/
def read? (s : List Char) : Option Json :=
  match value? (2 * s.length + 1) s with
  | some (value, rest) => if (skip rest).isEmpty then some value else none
  | none => none

def parse? (text : String) : Option Json := read? text.toList

end Workflows.Json
