import Workflows.Json.Basic

/-!
Typed reading of JSON values.  A record is written as an object, where the order
of its fields is free and other names are passed over, or as an array of its
fields in order.  A field that is absent or null reads as such where the field
is optional; a field with a default may be absent.
-/

namespace Workflows.Json

def asString? : Json → Option String
  | .str s => some s
  | _ => none

def asBool? : Json → Option Bool
  | .bool b => some b
  | _ => none

def asNat? (bound : Nat) : Json → Option Nat
  | .int i => if 0 ≤ i ∧ i < bound then some i.toNat else none
  | _ => none

def asCount? : Json → Option Nat := asNat? (Nat.pow 2 64)

def asScore? : Json → Option Nat := asNat? (Nat.pow 2 32)

def asReal? : Json → Option Binary64
  | .int i => some (Binary64.ofInt i)
  | .real x => some x
  | _ => none

def asMembers? : Json → Option (List (String × Json))
  | .obj members => some (canonicalMembers members)
  | _ => none

def asList? {α : Type} (decode : Json → Option α) : Json → Option (List α)
  | .arr items => items.mapM decode
  | _ => none

/-- A name without content: the text of the name, or an object whose one member
has that name and is null. -/
def asName? : Json → Option String
  | .str s => some s
  | .obj [(name, .null)] => some name
  | _ => none

/-- The fields of a record by its field names in order; none when a field is
given twice. -/
def fields? (names : List String) : Json → Option (List (Option Json))
  | .obj members =>
      if names.all fun name =>
        (members.filter fun entry => entry.1 == name).length ≤ 1 then
        some (names.map (member? members))
      else none
  | .arr items =>
      if items.length ≤ names.length then
        some (items.map some ++
          List.replicate (names.length - items.length) none)
      else none
  | _ => none

def requiredField {α : Type} (decode : Json → Option α) (field : Option Json) :
    Option α :=
  field.bind decode

def optionalField {α : Type} (decode : Json → Option α) :
    Option Json → Option (Option α)
  | none | some .null => some none
  | some value => (decode value).map some

def defaultField {α : Type} (default : α) (decode : Json → Option α) :
    Option Json → Option α
  | none => some default
  | some value => decode value

def record (members : List (String × Option Json)) : Json :=
  .obj (members.filterMap fun (name, value) => value.map (name, ·))

end Workflows.Json
