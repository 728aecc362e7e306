import Workflows.Diagram.Export
import Workflows.Proofs.Diagram.JsonExport
import Workflows.Proofs.Graph.Codec

/-!
# The JSON export without metadata

Values are compared part by part: a path leads by names and positions to a part,
and its face is what the part is apart from its own parts.  The two exports of a
graph have the same faces at all paths but those at or below the metadata of the
graph, of a node and of an edge, where the export without metadata has nothing.
-/

namespace Workflows

namespace Json

/-! ## Parts of a value -/

/-- One step of a path: the name of a member or the position of an item. -/
inductive Key where
  | name (s : String)
  | index (i : Nat)
  deriving DecidableEq, Repr

def child? : Json → Key → Option Json
  | .obj members, .name s => member? members s
  | .arr items, .index i => items[i]?
  | _, _ => none

def part? : Json → List Key → Option Json
  | j, [] => some j
  | j, key :: path => (child? j key).bind fun part => part? part path

/-- A value without its parts. -/
def face : Json → Json
  | .arr _ => .arr []
  | .obj _ => .obj []
  | value => value

def faceAt? (j : Json) (path : List Key) : Option Json :=
  (j.part? path).map face

/-- The value of a text, the members of every object in order and the last one
of each name kept. -/
def valueOf? (text : String) : Option Json := (parse? text).map canonical

theorem faceAt?_cons (j : Json) (key : Key) (path : List Key) :
    j.faceAt? (key :: path) = (j.child? key).bind fun part =>
      part.faceAt? path := by
  rw [faceAt?, part?, Option.map_bind]
  rfl

end Json

namespace Graph

open Json

/-! ## Where metadata is -/

def inOwnMetadata : List Key → Bool
  | .name s :: _ => s == "metadata"
  | _ => false

def inItemMetadata : List Key → Bool
  | .index _ :: path => inOwnMetadata path
  | _ => false

/-- At or below the metadata of a graph, of one of its nodes or of one of its
edges. -/
def inMetadata : List Key → Bool
  | .name s :: path =>
      s == "metadata" || ((s == "nodes" || s == "edges") && inItemMetadata path)
  | _ => false

/-! ## Parts without metadata -/

theorem child?_withoutMember (j : Json) (key : Key) :
    (withoutMember j).child? key =
    if inOwnMetadata [key] then none else j.child? key := by
  cases key with
  | index i => cases j <;> rfl
  | name s =>
      cases j with
      | obj members =>
          by_cases hs : s = "metadata"
          · subst hs
            simp [withoutMember, child?, removeMember, inOwnMetadata,
              member?_eq_none_iff]
          · have hkept : member? (removeMember members "metadata") s =
                member? members s :=
              member?_filter_of_kept (fun name => name != "metadata")
                (by simpa using hs)
            simpa [withoutMember, child?, inOwnMetadata, hs] using hkept
      | _ => simp [withoutMember, child?]

theorem face_withoutMember (j : Json) : (withoutMember j).face = j.face := by
  cases j <;> rfl

theorem faceAt?_withoutMember (j : Json) (path : List Key) :
    (withoutMember j).faceAt? path =
    if inOwnMetadata path then none else j.faceAt? path := by
  cases path with
  | nil => exact congrArg some (face_withoutMember j)
  | cons key path =>
      rw [faceAt?_cons, child?_withoutMember, faceAt?_cons]
      cases key with
      | index i => rfl
      | name s => by_cases hs : s = "metadata" <;> simp [inOwnMetadata, hs]

theorem faceAt?_itemsWithout (j : Json) (path : List Key) :
    (itemsWithout j).faceAt? path =
    if inItemMetadata path then none else j.faceAt? path := by
  cases path with
  | nil => cases j <;> rfl
  | cons key path =>
      rw [faceAt?_cons, faceAt?_cons]
      cases key with
      | name s => cases j <;> rfl
      | index i =>
          cases j with
          | arr items =>
              simp only [itemsWithout, child?, List.getElem?_map,
                inItemMetadata]
              cases items[i]? with
              | none => exact (ite_self none).symm
              | some item => exact faceAt?_withoutMember item path
          | _ => simp [itemsWithout, child?]

theorem member?_map (f : String → Json → Json) (members : List (String × Json))
    (name : String) :
    member? (members.map fun (other, value) => (other, f other value)) name =
      (member? members name).map (f name) := by
  induction members with
  | nil => rfl
  | cons entry members ih =>
      rw [List.map_cons, member?_cons, member?_cons, ih]
      by_cases h : entry.1 = name <;> simp [h]

theorem child?_withoutMetadata (j : Json) (s : String) :
    (withoutMetadata j).child?
      (.name s) = ((withoutMember j).child? (.name s)).map fun value =>
      if s = "nodes" ∨ s = "edges" then itemsWithout value else value := by
  cases j with
  | obj members =>
      exact member?_map (fun name value =>
        if name = "nodes" ∨ name = "edges" then itemsWithout value else value) _
          s
  | _ => rfl

theorem faceAt?_withoutMetadata (j : Json) (path : List Key) :
    (withoutMetadata j).faceAt? path =
    if inMetadata path then none else j.faceAt? path := by
  cases path with
  | nil => cases j <;> rfl
  | cons key path =>
      cases key with
      | index i => cases j <;> rfl
      | name s =>
          rw [faceAt?_cons, faceAt?_cons, child?_withoutMetadata,
            child?_withoutMember]
          by_cases hs : s = "metadata"
          · simp [hs, inMetadata, inOwnMetadata]
          · cases j.child? (.name s) with
            | none => simp [inOwnMetadata]
            | some part =>
                by_cases hlist : s = "nodes" ∨ s = "edges" <;>
                  simp [hs, hlist, inMetadata, inOwnMetadata,
                    faceAt?_itemsWithout]

/-! ## Reading without metadata -/

section

variable {v w : Json}

theorem readAs_withoutMember (h : ReadAs v w) :
    ReadAs (withoutMember v) (withoutMember w) :=
  h.change (fun v hv => by cases v <;> first | rfl | cases hv)
    .arr fun hmembers =>
    .obj (hmembers.filter fun name => name != "metadata")

theorem readAs_itemsWithout (h : ReadAs v w) :
    ReadAs (itemsWithout v) (itemsWithout w) :=
  h.change (fun v hv => by cases v <;> first | rfl | cases hv)
    (fun hitems => .arr (hitems.map readAs_withoutMember)) .obj

theorem readAs_withoutMetadata (h : ReadAs v w) :
    ReadAs (withoutMetadata v) (withoutMetadata w) := by
  have hlists (name : String) {v w : Json} (h : ReadAs v w) :
      ReadAs (if name = "nodes" ∨ name = "edges" then itemsWithout v else v)
        (if name = "nodes" ∨ name = "edges" then itemsWithout w else w) := by
    split
    · exact readAs_itemsWithout h
    · exact h
  exact h.change (fun v hv => by cases v <;> first | rfl | cases hv)
    .arr fun hmembers =>
    .obj ((hmembers.filter fun name => name != "metadata").map hlists)

theorem inOrder_withoutMember (h : v.InOrder) : (withoutMember v).InOrder := by
  cases v with
  | obj members => exact MembersInOrder.filter h _
  | _ => exact h

theorem inOrder_itemsWithout (h : v.InOrder) : (itemsWithout v).InOrder := by
  cases v with
  | arr items =>
      refine itemsInOrder_iff.mpr (List.forall_mem_map.mpr fun item hitem => ?_)
      exact inOrder_withoutMember (itemsInOrder_iff.mp h item hitem)
  | _ => exact h

theorem inOrder_withoutMetadata (h : v.InOrder) :
    (withoutMetadata v).InOrder := by
  cases v with
  | obj members =>
      obtain ⟨hnames, hvalues⟩ :=
        membersInOrder_iff.mp (inOrder_withoutMember h)
      refine membersInOrder_iff.mpr ⟨List.pairwise_map.mpr hnames,
        List.forall_mem_map.mpr fun entry hentry => ?_⟩
      dsimp only
      split
      · exact inOrder_itemsWithout (hvalues entry hentry)
      · exact hvalues entry hentry
  | _ => exact h

end

/-! ## The two exports -/

theorem valueOf?_render {v w : Json} (h : ReadAs v w) (pretty : Bool) :
    valueOf? (if pretty then v.pretty else v.compact) = some w.canonical := by
  cases pretty with
  | false => exact congrArg (Option.map canonical) h.parse?_compact
  | true => exact congrArg (Option.map canonical) h.parse?_pretty

/-- Both exports have a value, and the one without metadata has the faces of the
other at all paths that are not at or below metadata, and none at the others. -/
theorem exportText_withoutMetadata {g : Graph} (hg : g.Fits) (pretty : Bool) :
    ∃ full stripped, valueOf? (g.exportText ⟨.json, true, pretty⟩) = some full ∧
      valueOf? (g.exportText ⟨.json, false, pretty⟩) = some stripped ∧
      ∀ path, stripped.faceAt? path = if inMetadata path then none
        else full.faceAt? path := by
  obtain ⟨w, hread⟩ := Graph.readable hg
  have hstripped := readAs_withoutMetadata hread.canonical
  have horder := (inOrder_withoutMetadata (inOrder_canonical w)).canonical_eq
  refine ⟨w.canonical, withoutMetadata w.canonical,
    valueOf?_render hread pretty, ?_, faceAt?_withoutMetadata w.canonical⟩
  rw [← horder]
  exact valueOf?_render hstripped pretty

def unevenSample : Graph :=
  { fullSample with
    nodes :=
      [(Node.bare "a" .step "A").placed ⟨false,
        7205759403792794, -56⟩ .largest] }

theorem exportText_withoutMetadata_unevenSample : unevenSample.Fits ∧
    ∃ full stripped, valueOf? (unevenSample.exportText ⟨.json, true, true⟩) =
      some full ∧
      valueOf? (unevenSample.exportText ⟨.json, false, true⟩) = some stripped ∧
      ∀ path, stripped.faceAt? path = if inMetadata path then none
        else full.faceAt? path := by
  have hfits : unevenSample.Fits := by decide +kernel
  exact ⟨hfits, exportText_withoutMetadata hfits true⟩

end Graph

end Workflows
