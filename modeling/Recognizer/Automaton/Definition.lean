import Recognizer.Automaton.Dfa
import Recognizer.Automaton.Nfa

/-!
# Formal definitions

What the two kinds of automata have in common: states, alphabet, edges, start
and accepting states.  Everything that shows an automaton works on this view.
-/

namespace Recognizer

inductive Kind where
  | nfa
  | dfa
deriving DecidableEq, Repr

def Kind.text : Kind → String
  | nfa => "nfa"
  | dfa => "dfa"

/-- The formal definition of an automaton.  The edges of state `i`, in the order
of their symbols and targets, are entry `i` of `edges`. -/
structure Definition where
  kind : Kind
  states : Array State
  alphabet : SortedSet Char
  start : Nat
  accepting : SortedSet Nat
  edges : Array (List Edge)
deriving DecidableEq

def Nfa.definition (n : Nfa) : Definition :=
  ⟨.nfa, n.states, n.alphabet, n.start, n.accepting, n.edges.map SortedSet.toList⟩

def Dfa.definition (d : Dfa) : Definition :=
  ⟨.dfa, d.states, d.alphabet, d.start, d.accepting,
    d.edges.map fun edges => edges.toList.map fun (c, target) => ⟨.char c, target⟩⟩

namespace Definition

variable (a : Definition)

def edgesFrom (q : Nat) : List Edge := a.edges.getD q []

def transitions : List Transition :=
  (List.range a.states.size).flatMap fun q =>
    (a.edgesFrom q).map fun e => ⟨q, e.symbol, e.target⟩

def labels : List String := a.states.toList.map State.label

def isAccepting (q : Nat) : Bool := decide (q ∈ a.accepting)

/-!
# Short names
-/

/-- The states in the order in which a search from the start meets them; those
that it does not meet come last. -/
def discoveryOrder : List Nat :=
  let met := breadthFirst (fun q => (a.edgesFrom q).map Edge.target) a.states.size [a.start]
  met ++ (List.range a.states.size).filter (fun q => q ∉ met)

def aliases : List String :=
  let order := a.discoveryOrder
  (List.range a.states.size).map fun q => "q" ++ toString (order.idxOf q)

/-!
# Dead states
-/

def predecessors : Array (List Nat) :=
  a.transitions.foldl
    (fun table t => table.modify t.target (t.source :: ·))
    (Array.replicate a.states.size [])

/-- The states from which no accepting state can be reached. -/
def deadStates : SortedSet Nat :=
  let table := a.predecessors
  let alive := breadthFirst (fun q => table.getD q []) a.states.size a.accepting.toList
  (SortedSet.range a.states.size).filter (fun q => q ∉ alive)

end Definition

end Recognizer
