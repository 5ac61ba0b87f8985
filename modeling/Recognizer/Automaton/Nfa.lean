import Recognizer.Automaton.Basic
import Recognizer.Search

/-!
# Nondeterministic automata

Automata with ε edges and their runs on words.  A run keeps the set of all
states that the automaton may be in.  States that only pass on to others by ε
edges are left out of these sets: they accept nothing and read nothing.
-/

namespace Recognizer

/-- A nondeterministic automaton.  The edges of state `i` are entry `i` of `edges`. -/
structure Nfa where
  states : Array State
  alphabet : SortedSet Char
  edges : Array (SortedSet Edge)
  start : Nat
  accepting : SortedSet Nat
deriving DecidableEq

namespace Nfa

variable (n : Nfa)

/-!
# Edges
-/

def edgesFrom (q : Nat) : SortedSet Edge := n.edges.getD q .empty

def targets (q : Nat) (s : Symbol) : SortedSet Nat :=
  ((n.edgesFrom q).filter (fun e => e.symbol = s)).image Edge.target

def hasEpsilonEdges : Bool :=
  n.edges.any (fun edges => edges.toList.any (fun e => e.symbol = .epsilon))

/-- The state has ε edges and no others, and does not accept. -/
def isIntermediate (q : Nat) : Bool :=
  let edges := (n.edgesFrom q).toList
  !edges.isEmpty && edges.all (fun e => e.symbol = .epsilon) && decide (q ∉ n.accepting)

/-!
# Runs
-/

def epsilonReach (s : SortedSet Nat) : List Nat :=
  breadthFirst (fun q => (n.targets q .epsilon).toList) n.states.size s.toList

/-- The states reachable by ε edges, without those that only pass on. -/
def closure (s : SortedSet Nat) : SortedSet Nat :=
  .ofList ((n.epsilonReach s).filter (fun q => !n.isIntermediate q))

def startSet : SortedSet Nat := n.closure (.singleton n.start)

def successors (s : SortedSet Nat) (c : Char) : SortedSet Nat :=
  s.bind (fun q => n.targets q (.char c))

def step (s : SortedSet Nat) (c : Char) : SortedSet Nat := n.closure (n.successors s c)

def run (w : List Char) : SortedSet Nat := w.foldl n.step n.startSet

def anyAccepting (s : SortedSet Nat) : Bool := s.toList.any (· ∈ n.accepting)

def simulate (w : List Char) : Bool × SortedSet Nat :=
  let s := n.run w
  (n.anyAccepting s, s)

def accepts (w : List Char) : Bool := (n.simulate w).1

end Nfa

end Recognizer
