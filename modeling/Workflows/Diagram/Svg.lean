import Workflows.Diagram.Indented
import Workflows.Graph.Basic

/-!
A card with the name and the size of a graph, as an SVG image.
-/

namespace Workflows.Svg

def escapeChar (c : Char) : List Char :=
  if c = '&' then "&amp;".toList
  else if c = '<' then "&lt;".toList
  else if c = '>' then "&gt;".toList
  else if c = '\x22' then "&quot;".toList
  else [c]

def escape (s : String) : String := String.ofList (s.toList.flatMap escapeChar)

def opening : String :=
  "<svg xmlns=\"http://www.w3.org/2000/svg\" width=\"400\" height=\"120\" " ++
    "viewBox=\"0 0 400 120\">"

def frame : String :=
  "<rect width=\"400\" height=\"120\" fill=\"#FFFFFF\" stroke=\"#CCCCCC\"/>"

def textElement (y size content : String) : String :=
  "<text x=\"20\" y=\"" ++ y ++ "\" font-family=\"sans-serif\" font-size=\"" ++
    size ++ "\">" ++
    content ++ "</text>"

def summary (g : Graph) : String :=
  toString g.nodes.length ++ " nodes, " ++ toString g.edges.length ++ " edges"

def write (g : Graph) : IndentedText :=
  ((IndentedText.empty.line opening).indent.addLines
    [frame, textElement "45" "16" (escape g.name),
      textElement "80" "12" (summary g)]).outdent.line "</svg>"

end Workflows.Svg
