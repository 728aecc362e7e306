import Workflows.Diagram.Style
import Workflows.Diagram.Indented

/-!
Graphs in the DOT language.
-/

namespace Workflows.Dot

def escape (s : List Char) : List Char :=
  s.flatMap fun c => if c = '\\' ∨ c = '\x22' then ['\\', c] else [c]

def quote (s : String) : String :=
  String.ofList ('\x22' :: (escape s.toList ++ ['\x22']))

def comment (m : GraphMetadata) : String :=
  "// complexity: " ++ toString m.complexity ++ ", steps: " ++
    toString m.totalSteps ++
    ", dependencies: " ++ toString m.dependencyCount ++ ", status: " ++
      m.status.name

def nodeLine (n : Node) : String :=
  quote n.id ++ " [label=" ++ quote n.name ++ ", shape=" ++
    n.kind.shape ++ ", fillcolor=\"" ++
    n.fill ++ "\"];"

def attributes (e : Edge) : String :=
  let style := "style=" ++ e.kind.lineStyle
  match e.label with
  | some label => style ++ ", label=" ++ quote label
  | none => style

def edgeLine (e : Edge) : String :=
  quote e.source ++ " -> " ++ quote e.target ++ " [" ++ attributes e ++ "];"

def settings : List String :=
  ["rankdir=TB;", "node [fontname=\"Helvetica\", style=filled];"]

def write (g : Graph) (includeMetadata : Bool) : IndentedText :=
  let opened := IndentedText.empty.openBlock ("digraph " ++ quote g.name)
  let commented := if includeMetadata then opened.line (comment g.metadata)
    else opened
  (((commented.addLines settings).addLines (g.nodes.map nodeLine)).addLines
    (g.edges.map edgeLine)).closeBlock

end Workflows.Dot
