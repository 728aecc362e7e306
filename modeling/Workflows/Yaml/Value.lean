import Workflows.Yaml.Node
import Workflows.Yaml.Scalar

/-!
The value of a YAML text, as JSON.  The keys of a mapping are scalars, each
standing for its text, and of equal keys the last one counts.  Collections may
be nested 128 deep, aliases followed, and the number of aliases that may be
followed is bounded by the size of the document.
-/

namespace Workflows.Yaml

/-- The anchors met so far: the number of each name, the number of each anchored
node together with its position among the anchored nodes, and the count of
these. -/
structure Anchors where
  names : List (String × Nat)
  nodes : List (Nat × Nat × Node Nat)
  count : Nat

namespace Anchors

def empty : Anchors := ⟨[], [], 0⟩

def number? (a : Anchors) (name : String) : Option Nat := a.names.lookup name

/-- The node with a number; the one anchored last when several have it. -/
def node? (a : Anchors) (number : Nat) : Option (Node Nat) :=
  let found := a.nodes.filter fun entry => entry.1 == number
  let last := found.foldl (fun best entry => max best entry.2.1) 0
  (found.find? fun entry => entry.2.1 == last).map fun entry => entry.2.2

/-- Gives the next anchored node a number: that of the names known before it. -/
def meet (a : Anchors) (name : String) : Nat × Nat × Anchors :=
  let number := a.names.length
  let names := (name, number) :: a.names.filter fun entry => entry.1 != name
  (number, a.count, { a with names := names, count := a.count + 1 })

def record (a : Anchors) (number position : Nat) (node : Node Nat) : Anchors :=
  { a with nodes := (number, position, node) :: a.nodes }

end Anchors

namespace Node

def linkAnchored {σ : Type} (properties : Properties) (a : Anchors)
    (build : σ → Node Nat) (content : Anchors → Option (σ × Anchors)) :
    Option (Node Nat × Anchors) :=
  match properties.anchor with
  | none => (content a).map fun (x, a) => (build x, a)
  | some name =>
      let (number, position, a) := a.meet name
      (content a).map fun (x, a) =>
      (build x, a.record number position (build x))

mutual

def link? : Node String → Anchors → Option (Node Nat × Anchors)
  | .alias name, a => (a.number? name).map fun number => (.alias number, a)
  | .scalar p text plain, a =>
      linkAnchored p a (fun _ => .scalar p text plain) fun a => some ((), a)
  | .sequence p items, a => linkAnchored p a (.sequence p) (linkItems? items)
  | .mapping p entries, a =>
      linkAnchored p a (.mapping p) (linkEntries? entries)

def linkItems? :
    List (Node String) → Anchors → Option (List (Node Nat) × Anchors)
  | [], a => some ([], a)
  | item :: rest, a => do
      let (item, a) ← link? item a
      let (rest, a) ← linkItems? rest a
      return (item :: rest, a)

def linkEntries? :
    List (Node String × Node String) → Anchors →
    Option (List (Node Nat × Node Nat) × Anchors)
  | [], a => some ([], a)
  | (key, value) :: rest, a => do
      let (key, a) ← link? key a
      let (value, a) ← link? value a
      let (rest, a) ← linkEntries? rest a
      return ((key, value) :: rest, a)

end

mutual

/-- The number of parse events of a node: one, and for a collection one more and
those inside. -/
def size {ρ : Type} : Node ρ → Nat
  | .alias _ | .scalar _ _ _ => 1
  | .sequence _ items => sizeItems items + 2
  | .mapping _ entries => sizeEntries entries + 2

def sizeItems {ρ : Type} : List (Node ρ) → Nat
  | [] => 0
  | item :: rest => size item + sizeItems rest

def sizeEntries {ρ : Type} : List (Node ρ × Node ρ) → Nat
  | [] => 0
  | (key, value) :: rest => size key + size value + sizeEntries rest

end

def isLocal (p : Properties) : Bool := p.tag.any (·.startsWith "!")

def follow? (anchors : Anchors) (limit : Nat) (node : Node Nat) (jumps : Nat) :
    Option (Node Nat × Nat) :=
  match node with
  | .alias number =>
      if jumps < limit then (anchors.node? number).map (·, jumps + 1) else none
  | node => some (node, jumps)

def keyText? (anchors : Anchors) (limit : Nat) (node : Node Nat) (jumps : Nat) :
    Option (String × Nat) := do
  let (node, jumps) ← follow? anchors limit node jumps
  match node with
  | .scalar p text _ => if isLocal p then none else some (text, jumps)
  | _ => none

def valueItems? (value? : Node Nat → Nat → Option (Json × Nat)) :
    List (Node Nat) → Nat → Option (List Json × Nat)
  | [], jumps => some ([], jumps)
  | item :: rest, jumps => do
      let (item, jumps) ← value? item jumps
      let (rest, jumps) ← valueItems? value? rest jumps
      return (item :: rest, jumps)

def valueMembers? (key? : Node Nat → Nat → Option (String × Nat))
    (value? : Node Nat → Nat → Option (Json × Nat)) :
    List (Node Nat × Node Nat) → Nat → Option (List (String × Json) × Nat)
  | [], jumps => some ([], jumps)
  | (key, value) :: rest, jumps => do
      let (key, jumps) ← key? key jumps
      let (value, jumps) ← value? value jumps
      let (rest, jumps) ← valueMembers? key? value? rest jumps
      return ((key, value) :: rest, jumps)

/-- The value of a node with at most `depth` collections inside one another. -/
def value? (anchors : Anchors) (limit : Nat) :
    (depth : Nat) → Node Nat → Nat → Option (Json × Nat)
  | depth, node, jumps => do
      let (node, jumps) ← follow? anchors limit node jumps
      match node with
      | .scalar p text plain => (scalarValue? p.tag text plain).map (·, jumps)
      | .sequence p items =>
          match depth with
          | 0 => none
          | depth + 1 =>
              if isLocal p then none
              else
                let (items, jumps) ← valueItems? (value? anchors limit depth)
                  items jumps
                return (.arr items, jumps)
      | .mapping p entries =>
          match depth with
          | 0 => none
          | depth + 1 =>
              if isLocal p then none
              else
                let (members, jumps) ←
                  valueMembers? (keyText? anchors limit)
                  (value? anchors limit depth) entries jumps
                return (.obj (Json.canonicalMembers members), jumps)
      | .alias _ => none

end Node

def maxDepth : Nat := 128

def read? (text : List Char) : Option Json := do
  let ts ← tokens? text
  match ← Node.document? ts with
  | none => return .null
  | some root =>
      let (root, anchors) ← root.link? Anchors.empty
      let (value, _) ← root.value? anchors (100 * root.size) maxDepth 0
      return value

def parse? (text : String) : Option Json := read? text.toList

end Workflows.Yaml
