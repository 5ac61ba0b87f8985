import Recognizer.Automaton.Definition
import Recognizer.Text.Listing

/-!
# Merged edges

All edges from one state to another, shown as one edge with several symbols.
-/

namespace Recognizer

/-- The edges from a state to a state, with their symbols in increasing order. -/
structure MergedEdge where
  source : Nat
  symbols : List Symbol
  target : Nat
deriving DecidableEq, Repr

def MergedEdge.label (e : MergedEdge) : String :=
  Text.commaSeparated (e.symbols.map Symbol.text)

namespace Definition

def mergedEdgesFrom (a : Definition) (q : Nat) : List MergedEdge :=
  let edges := a.edgesFrom q
  (SortedSet.ofList (edges.map Edge.target)).toList.map fun target =>
    ⟨q, (edges.filter (fun e => e.target = target)).map Edge.symbol, target⟩

def mergedEdges (a : Definition) : List MergedEdge :=
  (List.range a.states.size).flatMap a.mergedEdgesFrom

end Definition

end Recognizer
