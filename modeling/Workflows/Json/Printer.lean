import Workflows.Json.Basic
import Workflows.Number.Shortest

/-!
JSON text.  The compact form has no blanks; the pretty form puts every item and
member on a line of its own, two blanks deeper than its container.
-/

namespace Workflows.Json

/-- Numbers with an exponent from −5 to 15 are written in full. -/
def layout : Binary64.Layout := ⟨-5, 15⟩

def hexDigit (n : Nat) : Char :=
  if n < 10 then Char.ofNat (48 + n) else Char.ofNat (87 + n)

def escapeChar (c : Char) : List Char :=
  if c = '\x22' then ['\\', '\x22']
  else if c = '\\' then ['\\', '\\']
  else if c = '\n' then ['\\', 'n']
  else if c = '\r' then ['\\', 'r']
  else if c = '\t' then ['\\', 't']
  else if c.toNat = 8 then ['\\', 'b']
  else if c.toNat = 12 then ['\\', 'f']
  else if c.toNat < 32 then
    ['\\', 'u', '0', '0', hexDigit (c.toNat / 16), hexDigit (c.toNat % 16)]
  else [c]

def quote (s : List Char) : List Char :=
  '\x22' :: (s.flatMap escapeChar ++ ['\x22'])

def intText (i : Int) : List Char :=
  if i < 0 then '-' :: Nat.toDigits 10 i.natAbs else Nat.toDigits 10 i.natAbs

mutual

def render : Json → List Char
  | .null => ['n', 'u', 'l', 'l']
  | .bool true => ['t', 'r', 'u', 'e']
  | .bool false => ['f', 'a', 'l', 's', 'e']
  | .int i => intText i
  | .real x => x.text layout
  | .str s => quote s.toList
  | .arr [] => ['[', ']']
  | .arr (item :: rest) => '[' :: (render item ++ renderItems rest)
  | .obj [] => ['{', '}']
  | .obj ((name, value) :: rest) =>
      '{' :: (quote name.toList ++ ':' :: (render value ++ renderMembers rest))

def renderItems : List Json → List Char
  | [] => [']']
  | item :: rest => ',' :: (render item ++ renderItems rest)

def renderMembers : List (String × Json) → List Char
  | [] => ['}']
  | (name, value) :: rest =>
      ',' :: (quote name.toList ++ ':' :: (render value ++ renderMembers rest))

end

def newLine (depth : Nat) : List Char := '\n' :: List.replicate (2 * depth) ' '

mutual

def renderPretty (depth : Nat) : Json → List Char
  | .arr (item :: rest) =>
      '[' :: (newLine (depth + 1) ++ renderPretty (depth + 1) item ++
        renderPrettyItems depth rest)
  | .obj ((name, value) :: rest) =>
      '{' :: (newLine (depth + 1) ++ quote name.toList ++ ':' :: ' ' ::
        (renderPretty (depth + 1) value ++ renderPrettyMembers depth rest))
  | value => render value

def renderPrettyItems (depth : Nat) : List Json → List Char
  | [] => newLine depth ++ [']']
  | item :: rest =>
      ',' :: (newLine (depth + 1) ++ renderPretty (depth + 1) item ++
        renderPrettyItems depth rest)

def renderPrettyMembers (depth : Nat) : List (String × Json) → List Char
  | [] => newLine depth ++ ['}']
  | (name, value) :: rest =>
      ',' :: (newLine (depth + 1) ++ quote name.toList ++ ':' :: ' ' ::
        (renderPretty (depth + 1) value ++ renderPrettyMembers depth rest))

end

def compact (value : Json) : String := String.ofList value.render

def pretty (value : Json) : String := String.ofList (value.renderPretty 0)

end Workflows.Json
