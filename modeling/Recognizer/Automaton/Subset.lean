import Recognizer.Automaton.Dfa
import Recognizer.Automaton.Nfa
import Recognizer.Text.Listing

/-!
# The subset automaton

The sets of states that the runs of a nondeterministic automaton pass through
are the states of a deterministic one.  They are numbered in the order in which
a breadth-first search meets them, the characters taken in increasing order.
The empty set may be kept as a trap state, or be left out together with the
edges to it.
-/

namespace Recognizer

namespace Nfa

variable (n : Nfa)

/-- The set after one more character, unless it is empty and there is no trap. -/
def subsetAfter (trap : Bool) (s : SortedSet Nat) (c : Char) : Option (SortedSet Nat) :=
  let t := n.step s c
  if t.isEmpty && !trap then none else some t

def subsets (trap : Bool) : List (SortedSet Nat) :=
  breadthFirst (fun s => n.alphabet.toList.filterMap (n.subsetAfter trap s))
    (Nat.pow 2 n.states.size) [n.startSet]

def subsetLabel (s : SortedSet Nat) : String :=
  if s.isEmpty then trapLabel
  else Text.braced (s.toList.filterMap fun q => n.states[q]?.map State.label)

end Nfa

/-- The subset automaton of a nondeterministic automaton, with or without a trap state. -/
def Dfa.ofSubsets (n : Nfa) (trap : Bool) : Dfa :=
  let subsets := n.subsets trap
  { states := State.numbered (subsets.map n.subsetLabel)
    alphabet := n.alphabet
    edges :=
      (subsets.map fun s =>
        .tabulate n.alphabet fun c => (n.subsetAfter trap s c).map subsets.idxOf).toArray
    start := 0
    accepting := (SortedSet.range subsets.length).filter fun i =>
      subsets[i]?.any n.anyAccepting }

end Recognizer
