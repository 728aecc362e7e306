import Workflows.Yaml.Token

/-!
The tree of a YAML document.  The grammar is followed token by token; each step
uses up a token or goes one level down, so twice the number of tokens bounds the
recursion.
-/

namespace Workflows.Yaml

structure Properties where
  anchor : Option String
  tag : Option String
  deriving DecidableEq, Repr

/-- A node whose aliases refer to `ρ`: to a name as written, or to what the name
was found to be. -/
inductive Node (ρ : Type) where
  | alias (target : ρ)
  | scalar (properties : Properties) (text : String) (plain : Bool)
  | sequence (properties : Properties) (items : List (Node ρ))
  | mapping (properties : Properties) (entries : List (Node ρ × Node ρ))
  deriving Repr

namespace Node

def blank : Node String := .scalar ⟨none, none⟩ "" true

def fullTag? (handles : List Handle) (tag : Tag) : Option String :=
  if tag.handle = "" then some tag.suffix
  else (handles.find? fun h => h.name == tag.handle).map fun h =>
    h.text ++ tag.suffix

def properties? (handles : List Handle) (ts : List Token) :
    Option (Properties × List Token) :=
  match ts with
  | .anchor a :: .tag t :: rest | .tag t :: .anchor a :: rest =>
      (fullTag? handles t).map fun tag => (⟨some a, some tag⟩, rest)
  | .anchor a :: rest => some (⟨some a, none⟩, rest)
  | .tag t :: rest =>
      (fullTag? handles t).map fun tag => (⟨none, some tag⟩, rest)
  | rest => some (⟨none, none⟩, rest)

def endsEntry : List Token → Bool
  | .blockEntry :: _ | .blockEnd :: _ => true
  | _ => false

def endsPart : List Token → Bool
  | .key :: _ | .value :: _ | .blockEnd :: _ => true
  | _ => false

def blankWith? (properties : Properties) (ts : List Token) :
    Option (Node String × List Token) :=
  if properties.anchor.isSome || properties.tag.isSome then
    some (.scalar properties "" true, ts)
  else none

def afterComma? (first : Bool) (ts : List Token) : Option (List Token) :=
  if first then some ts
  else
    match ts with
    | .flowEntry :: rest => some rest
    | _ => none

mutual

/-- A node.  Only outside brackets can it be a block collection, and only as a
part of a mapping a sequence that is not indented. -/
def parse? (handles : List Handle) :
    Nat → (block indentless : Bool) → List Token →
    Option (Node String × List Token)
  | 0, _, _, _ => none
  | fuel + 1, block, indentless, ts =>
      match ts with
      | .alias name :: rest => some (.alias name, rest)
      | _ => do
          let (properties, ts) ← properties? handles ts
          match ts with
          | .scalar text plain :: rest =>
              some (.scalar properties text plain, rest)
          | .flowSequenceStart :: rest =>
              let (items, rest) ← flowItems? handles fuel true rest
              return (.sequence properties items, rest)
          | .flowMappingStart :: rest =>
              let (entries, rest) ← flowEntries? handles fuel true rest
              return (.mapping properties entries, rest)
          | .blockSequenceStart :: rest =>
              if block then
                let (items, rest) ← blockItems? handles fuel rest
                return (.sequence properties items, rest)
              else blankWith? properties ts
          | .blockMappingStart :: rest =>
              if block then
                let (entries, rest) ← blockEntries? handles fuel rest
                return (.mapping properties entries, rest)
              else blankWith? properties ts
          | .blockEntry :: _ =>
              if indentless then
                let (items, rest) ← indentlessItems? handles fuel ts
                return (.sequence properties items, rest)
              else blankWith? properties ts
          | _ => blankWith? properties ts

def blockItems? (handles : List Handle) :
    Nat → List Token → Option (List (Node String) × List Token)
  | 0, _ => none
  | fuel + 1, ts =>
      match ts with
      | .blockEnd :: rest => some ([], rest)
      | .blockEntry :: rest => do
          let (item, rest) ←
            if endsEntry rest then some (blank, rest)
            else parse? handles fuel true false rest
          let (more, rest) ← blockItems? handles fuel rest
          return (item :: more, rest)
      | _ => none

def indentlessItems? (handles : List Handle) :
    Nat → List Token → Option (List (Node String) × List Token)
  | 0, _ => none
  | fuel + 1, ts =>
      match ts with
      | .blockEntry :: rest => do
          let (item, rest) ←
            if endsEntry rest || endsPart rest then some (blank, rest)
            else parse? handles fuel true false rest
          let (more, rest) ← indentlessItems? handles fuel rest
          return (item :: more, rest)
      | _ => some ([], ts)

def blockEntries? (handles : List Handle) :
    Nat → List Token → Option (List (Node String × Node String) × List Token)
  | 0, _ => none
  | fuel + 1, ts =>
      match ts with
      | .blockEnd :: rest => some ([], rest)
      | .key :: rest => do
          let (key, rest) ←
            if endsPart rest then some (blank, rest)
            else parse? handles fuel true true rest
          let (value, rest) ←
            match rest with
            | .value :: rest =>
                if endsPart rest then some (blank, rest)
                else parse? handles fuel true true rest
            | rest => some (blank, rest)
          let (more, rest) ← blockEntries? handles fuel rest
          return ((key, value) :: more, rest)
      | _ => none

/-- The items between brackets; `first` tells that none has been read yet. -/
def flowItems? (handles : List Handle) :
    Nat → (first : Bool) → List Token → Option (List (Node String) × List Token)
  | 0, _, _ => none
  | fuel + 1, first, ts =>
      match ts with
      | .flowSequenceEnd :: rest => some ([], rest)
      | _ => do
          let ts ← afterComma? first ts
          match ts with
          | .flowSequenceEnd :: rest => some ([], rest)
          | .key :: rest =>
              let (key, rest) ← pairKey? handles fuel rest
              let (value, rest) ←
                match rest with
                | .value :: .flowEntry :: rest =>
                    some (blank, .flowEntry :: rest)
                | .value :: .flowSequenceEnd :: rest =>
                    some (blank, .flowSequenceEnd :: rest)
                | .value :: rest => parse? handles fuel false false rest
                | rest => some (blank, rest)
              let (more, rest) ← flowItems? handles fuel false rest
              return (.mapping ⟨none, none⟩ [(key, value)] :: more, rest)
          | _ =>
              let (item, rest) ← parse? handles fuel false false ts
              let (more, rest) ← flowItems? handles fuel false rest
              return (item :: more, rest)

/-- The key of a single pair in brackets; where it is left out, the token after
it goes too. -/
def pairKey? (handles : List Handle) :
    Nat → List Token → Option (Node String × List Token)
  | 0, _ => none
  | fuel + 1, ts =>
      match ts with
      | .value :: rest | .flowEntry :: rest | .flowSequenceEnd :: rest =>
          some (blank, rest)
      | _ => parse? handles fuel false false ts

def flowEntries? (handles : List Handle) :
    Nat → (first : Bool) → List Token →
      Option (List (Node String × Node String) × List Token)
  | 0, _, _ => none
  | fuel + 1, first, ts =>
      match ts with
      | .flowMappingEnd :: rest => some ([], rest)
      | _ => do
          let ts ← afterComma? first ts
          match ts with
          | .flowMappingEnd :: rest => some ([], rest)
          | .key :: rest =>
              let (key, rest) ←
                match rest with
                | .value :: _ | .flowEntry :: _ | .flowMappingEnd :: _ =>
                    some (blank, rest)
                | _ => parse? handles fuel false false rest
              let (value, rest) ←
                match rest with
                | .value :: .flowEntry :: rest =>
                    some (blank, .flowEntry :: rest)
                | .value :: .flowMappingEnd :: rest =>
                    some (blank, .flowMappingEnd :: rest)
                | .value :: rest => parse? handles fuel false false rest
                | rest => some (blank, rest)
              let (more, rest) ← flowEntries? handles fuel false rest
              return ((key, value) :: more, rest)
          | _ =>
              let (key, rest) ← parse? handles fuel false false ts
              let (more, rest) ← flowEntries? handles fuel false rest
              return ((key, blank) :: more, rest)

end

def coreHandles : List Handle := [⟨"!", "!"⟩, ⟨"!!", "tag:yaml.org,2002:"⟩]

/-- The directives before a document: at most one version, which must be 1.1 or
1.2, and at most one text for each handle. -/
def directives? (version : Bool) (handles : List Handle) :
    List Token → Option (List Handle × Bool × List Token)
  | .directive (.version major minor) :: rest =>
      if version ∨ major ≠ 1 ∨ (minor ≠ 1 ∧ minor ≠ 2) then none
      else directives? true handles rest
  | .directive (.handle h) :: rest =>
      if handles.any fun other => other.name == h.name then none
      else directives? version (handles ++ [h]) rest
  | rest => some (handles, version || !handles.isEmpty, rest)

def isDocumentBound : List Token → Bool
  | [] | .documentStart :: _ | .documentEnd :: _ | .directive _ :: _ => true
  | _ => false

def isDocumentEnd : Token → Bool
  | .documentEnd => true
  | _ => false

/-- The only document of a text, and `none` inside when there is none.  A second
document is refused. -/
def document? (ts : List Token) : Option (Option (Node String)) :=
  if ts.isEmpty then some none
  else do
    let (handles, directed, ts) ← directives? false [] ts
    let handles := handles ++ coreHandles
    let fuel := 2 * ts.length + 2
    let (root, rest) ←
      match ts with
      | .documentStart :: rest =>
          if isDocumentBound rest then some (blank, rest)
          else parse? handles fuel true false rest
      | _ => if directed then none else parse? handles fuel true false ts
    if rest.all isDocumentEnd then some (some root) else none

end Node

end Workflows.Yaml
