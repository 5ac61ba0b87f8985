import Recognizer.Automaton.Partition
import Recognizer.Text.Listing

/-!
# The quotient automaton

Equivalent states become one state.  The new states are ordered by the least of
the states that they stand for.
-/

namespace Recognizer

namespace Dfa

variable (d : Dfa)

/-- The blocks of equivalent states, ordered by their least members.  A block of
the trap alone is left out. -/
def classes : List (SortedSet Nat) :=
  let blocks := (Refinement.ofDfa d).blocks.toList.map (·.filter (· < d.states.size))
  (List.range d.states.size).filterMap fun q => blocks.find? (fun block => block.min? = some q)

def classLabel (block : SortedSet Nat) : String :=
  match block.toList.filterMap (fun q => d.states[q]?.map State.label) with
  | [label] => label
  | labels => Text.braced labels

/-- The automaton with one state for each block of equivalent states. -/
def quotient : Dfa :=
  let classes := d.classes
  let classOf (q : Nat) : Nat := classes.findIdx (fun block => q ∈ block)
  { states := State.numbered (classes.map d.classLabel)
    alphabet := d.alphabet
    edges :=
      (classes.map fun block =>
        .tabulate d.alphabet fun c =>
          (block.toList.findSome? fun q => d.next q c).map classOf).toArray
    start := classOf d.start
    accepting := d.accepting.image classOf }

end Dfa

end Recognizer
