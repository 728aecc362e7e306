import Workflows.Diagram.Style
import Workflows.Diagram.Indented

/-!
Graphs as Mermaid flowcharts.
-/

namespace Workflows.Mermaid

/-- An id consists of ASCII letters, digits and underscores and is no word of
the language. -/
def identifier (id : String) : String :=
  String.ofList ('n' :: '_' :: id.toList.map fun c =>
    if c.isAlphanum then c else '_')

def label (s : String) : String :=
  String.ofList (s.toList.flatMap fun c => if c = '\x22' then "#quot;".toList
    else [c])

def comment (g : Graph) : String :=
  "%% " ++ g.name ++ ": complexity " ++ toString g.metadata.complexity ++
    ", status " ++
    g.metadata.status.name

def nodeLine (n : Node) : String :=
  identifier n.id ++ n.kind.brackets.1 ++ "\"" ++ label n.name ++ "\"" ++
    n.kind.brackets.2

def edgeLine (e : Edge) : String :=
  let arrow := identifier e.source ++ " " ++ e.kind.arrow
  match e.label with
  | some text => arrow ++ "|\"" ++ label text ++ "\"| " ++ identifier e.target
  | none => arrow ++ " " ++ identifier e.target

def styleLine (n : Node) : String :=
  "style " ++ identifier n.id ++ " fill:" ++ n.fill

def write (g : Graph) (includeMetadata : Bool) : IndentedText :=
  let opened := (IndentedText.empty.line "flowchart TD").indent
  let commented := if includeMetadata then opened.line (comment g) else opened
  (((commented.addLines (g.nodes.map nodeLine)).addLines
    (g.edges.map edgeLine)).addLines (g.nodes.map styleLine)).outdent

end Workflows.Mermaid
