import Recognizer.Automaton.Dfa
import Recognizer.Automaton.Nfa
import Recognizer.Trace.Basic

/-!
# Recording runs

Both kinds of automata stop at a character outside of their alphabet, and as
soon as no state is left.
-/

namespace Recognizer

namespace Nfa

variable (n : Nfa)

/-- The ε edges that a search from the given states walks along. -/
def epsilonEdges (s : SortedSet Nat) : List Transition :=
  (n.epsilonReach s).flatMap fun q =>
    (n.targets q .epsilon).toList.map fun target => ⟨q, .epsilon, target⟩

def readingEdges (s : SortedSet Nat) (c : Char) : List Transition :=
  s.toList.flatMap fun q =>
    (n.targets q (.char c)).toList.map fun target => ⟨q, .char c, target⟩

def stepsFrom (s : SortedSet Nat) (index : Nat) : List Char → List Step
  | [] =>
      [.complete (if n.anyAccepting s then .recognized else .notRecognized) s]
  | c :: w =>
      if c ∈ n.alphabet then
        let edges := n.readingEdges s c ++ n.epsilonEdges (n.successors s c)
        let t := n.step s c
        .transition index c edges :: .state (some index) t ::
          if t.isEmpty then [.complete .immatureAbort .empty] else stepsFrom t (index + 1) w
      else [.error index c]

def trace (input : String) : Trace :=
  let steps :=
    .initial n.startSet (n.epsilonEdges (.singleton n.start)) :: .state none n.startSet ::
      n.stepsFrom n.startSet 0 input.toList
  ⟨input, steps, 0⟩

end Nfa

namespace Dfa

variable (d : Dfa)

def stepsFrom (q : Nat) (index : Nat) : List Char → List Step
  | [] =>
      [.complete (if q ∈ d.accepting then .recognized else .notRecognized) (.singleton q)]
  | c :: w =>
      if c ∈ d.alphabet then
        match d.next q c with
        | none => [.transition index c [], .complete .immatureAbort .empty]
        | some target =>
            .transition index c [⟨q, .char c, target⟩] ::
              .state (some index) (.singleton target) :: stepsFrom target (index + 1) w
      else [.error index c]

def trace (input : String) : Trace :=
  let steps :=
    .initial (.singleton d.start) [] :: .state none (.singleton d.start) ::
      d.stepsFrom d.start 0 input.toList
  ⟨input, steps, 0⟩

end Dfa

end Recognizer
