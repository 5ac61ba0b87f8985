import Recognizer.Automaton.StateTable
import Recognizer.Automaton.Table

/-!
# Looking into automata

Questions about single states, asked by an id that may not be there.
-/

namespace Recognizer

namespace Nfa

variable (n : Nfa)

def edgesAt (id : Nat) : Except OutOfRange (List (Symbol × SortedSet Nat)) :=
  (entryAt n.edges id).map fun edges =>
    (edges.image Edge.symbol).toList.map fun s => (s, n.targets id s)

def targetsAt (id : Nat) (s : Symbol) : Except OutOfRange (SortedSet Nat) :=
  (entryAt n.edges id).map fun _ => n.targets id s

def isIntermediateAt (id : Nat) : Except OutOfRange Bool :=
  (entryAt n.edges id).map fun _ => n.isIntermediate id

/-- The closure of the states that some numbers stand for.  The largest number is
looked at first, so of several states that are not there it is the one of the
largest number that is told. -/
def closureAt (numbers : SortedSet Nat) : Except OutOfRange (SortedSet Nat) :=
  match numbers.toList.reverse.find? (fun k => n.states.size ≤ idOf k) with
  | some k => .error ⟨n.states.size, idOf k⟩
  | none => .ok (n.closure (numbers.image idOf))

def stepAt (id : Nat) (c : Char) : Except OutOfRange (SortedSet Nat) :=
  (entryAt n.edges id).map fun _ => n.closure (n.targets id (.char c))

end Nfa

namespace Dfa

variable (d : Dfa)

def edgesAt (id : Nat) : Except OutOfRange (List (Char × Nat)) :=
  (entryAt d.edges id).map SortedMap.toList

def nextAt (id : Nat) (c : Char) : Except OutOfRange (Option Nat) :=
  (entryAt d.edges id).map fun edges => edges.get? c

end Dfa

end Recognizer
