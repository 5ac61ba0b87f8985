import Recognizer.Automaton.Basic
import Recognizer.SortedMap

/-!
# Deterministic automata

Automata whose states have at most one edge for each character, and their runs
on words.  A run ends where an edge is missing.
-/

namespace Recognizer

/-- A deterministic automaton.  The edges of state `i` are entry `i` of `edges`. -/
structure Dfa where
  states : Array State
  alphabet : SortedSet Char
  edges : Array (SortedMap Char Nat)
  start : Nat
  accepting : SortedSet Nat
deriving DecidableEq

namespace Dfa

variable (d : Dfa)

def next (q : Nat) (c : Char) : Option Nat := d.edges[q]?.bind (·.get? c)

def isComplete : Bool := d.edges.all (fun edges => edges.size = d.alphabet.size)

def runFrom (q : Nat) (w : List Char) : Option Nat := w.foldlM d.next q

def run (w : List Char) : Option Nat := d.runFrom d.start w

def simulate (w : List Char) : Bool × Option Nat :=
  match d.run w with
  | some q => (decide (q ∈ d.accepting), some q)
  | none => (false, none)

def accepts (w : List Char) : Bool := (d.simulate w).1

end Dfa

end Recognizer
