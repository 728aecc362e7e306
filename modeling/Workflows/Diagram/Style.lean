import Workflows.Graph.Basic

/-!
How nodes and edges look in diagrams.
-/

namespace Workflows

def alertColor : String := "#FF1744"

namespace NodeKind

def color : NodeKind → String
  | start => "#4CAF50"
  | finish => "#F44336"
  | step => "#2196F3"
  | agent => "#9C27B0"
  | workflow => "#FF9800"
  | resource => "#607D8B"
  | condition => "#FFC107"

def shape : NodeKind → String
  | start => "ellipse"
  | finish => "doublecircle"
  | step => "box"
  | agent => "hexagon"
  | workflow => "component"
  | resource => "cylinder"
  | condition => "diamond"

def brackets : NodeKind → String × String
  | start => ("([", "])")
  | finish => ("((", "))")
  | step => ("[", "]")
  | agent => ("\x7b\x7b", "\x7d\x7d")
  | workflow => ("[[", "]]")
  | resource => ("[(", ")]")
  | condition => ("\x7b", "\x7d")

end NodeKind

def Node.fill (n : Node) : String :=
  if n.isInvalid then alertColor else n.kind.color

namespace EdgeKind

def lineStyle : EdgeKind → String
  | sequence => "solid"
  | dependency => "dashed"
  | condition => "bold"
  | dataFlow => "dotted"

def arrow : EdgeKind → String
  | sequence | condition => "-->"
  | dependency => "-.->"
  | dataFlow => "==>"

end EdgeKind

end Workflows
