import Recognizer.Automaton.Aggregation

/-!
# Drawings

Automata as graphs, and as the text from which a drawing tool lays out such a
graph: from left to right, accepting states with a double circle, and an
invisible node that points at the start.
-/

namespace Recognizer

inductive Naming where
  | labels
  | aliases
  | blank
deriving DecidableEq, Repr

structure DrawnState where
  name : String
  start : Bool
  accepting : Bool
deriving DecidableEq, Repr

structure DrawnEdge where
  source : Nat
  target : Nat
  label : String
deriving DecidableEq, Repr

structure Drawing where
  start : Nat
  states : List DrawnState
  edges : List DrawnEdge
deriving DecidableEq, Repr

namespace Definition

variable (a : Definition)

/-- The names of the states.  Where nothing is written, dead states still show
the mark of the empty set. -/
def namesFor : Naming → List String
  | .labels => a.labels
  | .aliases => a.aliases
  | .blank =>
      let dead := a.deadStates
      (List.range a.states.size).map fun q => if q ∈ dead then trapLabel else ""

def drawing (naming : Naming) : Drawing where
  start := a.start
  states := (a.namesFor naming).mapIdx fun q name => ⟨name, decide (q = a.start), a.isAccepting q⟩
  edges := a.mergedEdges.map fun e => ⟨e.source, e.target, e.label⟩

end Definition

namespace Drawing

def escapedChar (c : Char) : String :=
  if c = '\\' then "\\\\" else if c = '"' then "\\\"" else c.toString

def quotedLabel (s : String) : String := "\"" ++ String.join (s.toList.map escapedChar) ++ "\""

def stateLine (q : Nat) (s : DrawnState) : String :=
  "    " ++ toString q ++ " [ label = " ++ quotedLabel s.name ++ " shape = "
    ++ (if s.accepting then "doublecircle" else "circle") ++ " ]"

def edgeLine (e : DrawnEdge) : String :=
  "    " ++ toString e.source ++ " -> " ++ toString e.target ++ " [ label = "
    ++ quotedLabel e.label ++ " ]"

def text (g : Drawing) : String :=
  Text.lines
    (["digraph \x7b",
      "    rankdir = LR",
      "    entry [ label = \"\" shape = none width = 0 ]",
      "    entry -> " ++ toString g.start]
      ++ g.states.mapIdx stateLine ++ g.edges.map edgeLine ++ ["\x7d"])

end Drawing

end Recognizer
