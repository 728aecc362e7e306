import Workflows.Proofs.Yaml.FieldTokens
import Workflows.Yaml.Value

/-!
# Mappings of plain fields

The value of a text of plain fields is a record of the values of their texts.
There is none where one of these has none.
-/

namespace Workflows.Yaml

open Text

namespace Node

def plain {ρ : Type} (text : List Char) : Node ρ :=
  .scalar ⟨none, none⟩ (String.ofList text) true

def plainEntry {ρ : Type} (entry : List Char × List Char) : Node ρ × Node ρ :=
  (plain entry.1, plain entry.2)

/-! ## The tree -/

section Tree

variable {entries : List (List Char × List Char)}

theorem parse?_scalar (handles : List Handle) (fuel : Nat)
    (block indentless : Bool) (text : List Char) (rest : List Token) :
    parse? handles (fuel + 1) block indentless
      (.scalar (String.ofList text) true :: rest) =
      some (plain text, rest) := by
  simp [parse?, properties?, plain]

theorem blockEntries?_entries (handles : List Handle) {fuel : Nat}
    (hfuel : entries.length + 1 < fuel) :
    blockEntries? handles fuel
      (entries.flatMap Lexer.entryTokens ++ [.blockEnd]) =
      some (entries.map plainEntry, []) := by
  induction entries generalizing fuel with
  | nil =>
      obtain ⟨fuel, rfl⟩ := Nat.exists_eq_add_of_le' (show 1 ≤ fuel by omega)
      simp [blockEntries?]
  | cons entry entries ih =>
      obtain ⟨fuel, rfl⟩ :=
        Nat.exists_eq_add_of_le' (show 2 ≤ fuel by simp at hfuel; omega)
      have hmore :=
        ih (show entries.length + 1 < fuel + 1 by simp at hfuel; omega)
      simp only [List.flatMap_cons, Lexer.entryTokens, List.cons_append,
        List.nil_append]
      rw [blockEntries?]
      simp only [endsPart, Bool.false_eq_true, if_false, parse?_scalar,
        Option.bind_eq_bind, Option.bind_some, hmore]
      rfl

theorem document?_entries (entries : List (List Char × List Char)) :
    document? (.blockMappingStart :: entries.flatMap Lexer.entryTokens ++
      [.blockEnd]) =
      some (some (.mapping ⟨none, none⟩ (entries.map plainEntry))) := by
  have hlength :
      entries.length ≤ (entries.flatMap Lexer.entryTokens).length := by
    induction entries with
    | nil => exact Nat.zero_le _
    | cons entry entries ih =>
        rw [List.flatMap_cons, List.length_append, List.length_cons,
          Nat.add_comm]
        exact Nat.add_le_add (by simp [Lexer.entryTokens]) ih
  have hread (fuel : Nat) (hfuel : entries.length + 1 < fuel) :
      parse? coreHandles (fuel + 1) true false
          (.blockMappingStart ::
            (entries.flatMap Lexer.entryTokens ++ [.blockEnd])) =
        some (.mapping ⟨none, none⟩ (entries.map plainEntry), []) := by
    simp [parse?, properties?, blockEntries?_entries coreHandles hfuel]
  generalize htokens :
    entries.flatMap Lexer.entryTokens = tokens at hlength hread
  have hfuel : entries.length + 1 < 2 * (tokens.length + 1 + 1) + 1 := by omega
  simp [document?, directives?, hread _ hfuel]

theorem linkEntries?_entries (entries : List (List Char × List Char))
    (a : Anchors) :
    linkEntries? (entries.map plainEntry) a =
      some (entries.map plainEntry, a) := by
  induction entries with
  | nil => rfl
  | cons entry entries ih =>
      simp [linkEntries?, plainEntry, plain, link?, linkAnchored, ih] 

end Tree

/-! ## The value -/

variable {anchors : Anchors} {limit : Nat}

theorem keyText?_plain (text : List Char) (jumps : Nat) :
    keyText? anchors limit (plain text) jumps =
      some (String.ofList text, jumps) := by
  simp [keyText?, plain, follow?, isLocal]

theorem value?_plain (depth : Nat) (text : List Char) (jumps : Nat) :
    value? anchors limit depth (plain text) jumps =
      (plainValue? (String.ofList text)).map (·, jumps) := by
  rw [value?.eq_def]
  simp [plain, follow?, scalarValue?]

def entryMember? (entry : List Char × List Char) : Option (String × Json) :=
  (plainValue? (String.ofList entry.2)).map (String.ofList entry.1, ·)

theorem valueMembers?_entries (depth : Nat)
    (entries : List (List Char × List Char)) (jumps : Nat) :
    valueMembers? (keyText? anchors limit) (value? anchors limit depth)
        (entries.map plainEntry) jumps =
      (entries.mapM entryMember?).map (·, jumps) := by
  induction entries with
  | nil => rfl
  | cons entry entries ih =>
      simp only [List.map_cons, valueMembers?, plainEntry, keyText?_plain,
        value?_plain, Option.bind_eq_bind, Option.bind_some, List.mapM_cons]
      rw [entryMember?]
      cases plainValue? (String.ofList entry.2) with
      | none => rfl
      | some value =>
          simp only [Option.map_some, Option.bind_some, ih]
          cases entries.mapM entryMember? <;> rfl

end Node

/-! ## Fields -/

def Field.member? (f : Field) : Option (String × Json) :=
  f.entry?.bind Node.entryMember?

theorem Field.member?_text {key text : String}
    (hentry : Field.entry? ⟨key.toList, text.toList⟩ =
      some (key.toList, text.toList))
    (hvalue : plainValue? text = some (.str text)) :
    Field.member? ⟨key.toList, text.toList⟩ = some (key, .str text) := by
  rw [member?, hentry, Option.bind_some, Node.entryMember?]
  simp only [String.ofList_toList, hvalue, Option.map_some]

theorem mapM_member? (fs : List Field) :
    (fs.mapM Field.entry?).bind (·.mapM Node.entryMember?) =
      fs.mapM Field.member? := by
  induction fs with
  | nil => rfl
  | cons f fs ih =>
      rw [List.mapM_cons, List.mapM_cons, ← ih, Field.member?]
      cases f.entry? with
      | none => rfl
      | some entry =>
          cases fs.mapM Field.entry? with
          | none => simp
          | some entries => simp [List.mapM_cons]

/-- What a text of plain fields is read as. -/
theorem read?_fields {f : Field} {fs : List Field}
    (hfs : ∀ g ∈ f :: fs, g.IsPlain)
    (hallowed : (joinLines ((f :: fs).map Field.line)).all isAllowed = true) :
    read? (joinLines ((f :: fs).map Field.line)) =
      ((f :: fs).mapM Field.member?).map fun members =>
        .obj (Json.canonicalMembers members) := by
  rw [read?, tokens?_fields hfs hallowed, ← mapM_member?]
  cases (f :: fs).mapM Field.entry? with
  | none => rfl
  | some entries =>
      have hlink :
          Node.link? (.mapping ⟨none, none⟩ (entries.map Node.plainEntry))
            .empty = some (.mapping ⟨none, none⟩ (entries.map Node.plainEntry),
            .empty) := by
        simp [Node.link?, Node.linkAnchored, Node.linkEntries?_entries]
      simp only [Option.map_some, Option.bind_eq_bind, Option.bind_some,
        Node.document?_entries, hlink]
      rw [Node.value?.eq_def]
      simp only [Node.follow?, Option.bind_eq_bind, Option.bind_some, maxDepth,
        Node.isLocal, Option.any_none, Bool.false_eq_true, if_false,
        Node.valueMembers?_entries]
      cases entries.mapM Node.entryMember? <;> rfl

end Workflows.Yaml
