import Workflows.Yaml.Cursor

/-!
Quoted scalars.  Between single quotation marks a doubled mark is one mark.
Between double ones a backslash starts an escape, and one at the end of a line
joins it with the next.  Line breaks fold.
-/

namespace Workflows.Yaml

def hexDigit? (c : Char) : Option Nat :=
  if '0' ≤ c ∧ c ≤ '9' then some (c.toNat - 48)
  else if 'a' ≤ c ∧ c ≤ 'f' then some (c.toNat - 87)
  else if 'A' ≤ c ∧ c ≤ 'F' then some (c.toNat - 55)
  else none

def hexNumber? (digits : List Char) : Option Nat :=
  digits.foldlM (fun value c => (hexDigit? c).map (16 * value + ·)) 0

def codePoint? (digits : List Char) : Option Char := do
  let n ← hexNumber? digits
  if n < 0xD800 ∨ (0xE000 ≤ n ∧ n ≤ 0x10FFFF) then some (Char.ofNat n) else none

def simpleEscape? (c : Char) : Option Char :=
  match c with
  | '0' => some '\x00'
  | 'a' => some '\x07'
  | 'b' => some '\x08'
  | 't' | '\t' => some '\t'
  | 'n' => some '\n'
  | 'v' => some '\x0b'
  | 'f' => some '\x0c'
  | 'r' => some '\r'
  | 'e' => some '\x1b'
  | ' ' => some ' '
  | '\x22' => some '\x22'
  | '/' => some '/'
  | '\\' => some '\\'
  | 'N' => some '\u0085'
  | '_' => some '\u00a0'
  | 'L' => some '\u2028'
  | 'P' => some '\u2029'
  | _ => none

def singleRun : List Char → List Char × List Char
  | [] => ([], [])
  | '\x27' :: '\x27' :: rest =>
      let (run, rest) := singleRun rest
      ('\x27' :: run, rest)
  | c :: rest =>
      if isSpace c || isBreak c || c == '\x27' then ([], c :: rest)
      else
        let (run, rest) := singleRun rest
        (c :: run, rest)

def doubleRun? : List Char → Option (List Char × List Char)
  | [] => some ([], [])
  | '\\' :: 'x' :: a :: b :: rest => do
      let c ← codePoint? [a, b]
      let (run, rest) ← doubleRun? rest
      return (c :: run, rest)
  | '\\' :: 'u' :: a :: b :: c :: d :: rest => do
      let c ← codePoint? [a, b, c, d]
      let (run, rest) ← doubleRun? rest
      return (c :: run, rest)
  | '\\' :: 'U' :: a :: b :: c :: d :: e :: f :: g :: h :: rest => do
      let c ← codePoint? [a, b, c, d, e, f, g, h]
      let (run, rest) ← doubleRun? rest
      return (c :: run, rest)
  | '\\' :: c :: rest =>
      if isBreak c then some ([], '\\' :: c :: rest)
      else do
        let c ← simpleEscape? c
        let (run, rest) ← doubleRun? rest
        return (c :: run, rest)
  | c :: rest =>
      if isSpace c || isBreak c || c == '\x22' then some ([], c :: rest)
      else if c == '\\' then none
      else do
        let (run, rest) ← doubleRun? rest
        return (c :: run, rest)

def quoted? (mark : Char) : Nat → Cursor → Option (List Char × Cursor)
  | 0, _ => none
  | fuel + 1, c =>
      if c.atDocumentMark then none
      else do
        let (run, rest) ←
          if mark = '\x27' then some (singleRun c.rest) else doubleRun? c.rest
        let c := c.moveTo rest
        let (start, c) : Gap × Cursor :=
          if c.startsWith (· == '\\') then
            ({ Gap.empty with broken := true }, (c.skip 1).skipLine)
          else (Gap.empty, c)
        if c.rest.isEmpty then none
        else if c.startsWith (· == mark) then some (run, c.skip 1)
        else
          let (gap, c) ← Gap.read? (c.rest.length + 1) 0 start c
          let (more, c) ← quoted? mark fuel c
          return (run ++ gap.folded ++ more, c)

end Workflows.Yaml
