import Recognizer.Automaton.Nfa
import Recognizer.Expr.Follow
import Recognizer.Text.Listing

/-!
# The position automaton

One state for each letter of the expression, besides a start state; an edge
leads to a letter wherever the letter can come next.  There are no ε edges.
This is Glushkov's construction.
-/

namespace Recognizer

namespace Letter

/-- The state of a letter, given all letters of the numbered expression: states are
numbered from the left, after the start state. -/
def positionState (letters : List Letter) (l : Letter) : Nat := letters.idxOf l + 1

def positionEdge (letters : List Letter) (l : Letter) : Edge :=
  ⟨.char l.symbol, l.positionState letters⟩

def edgesAfter (letters : List Letter) (follows : SortedSet LetterPair) (l : Letter) :
    SortedSet Edge :=
  (follows.filter (fun p => p.before = l)).image (fun p => p.after.positionEdge letters)

end Letter

def Nfa.ofPositions (e : Expr) : Nfa :=
  let linear := e.linearized
  let letters := linear.letters
  let follows := linear.follows
  let atLasts := linear.lasts.image (Letter.positionState letters)
  { states := State.numbered ("q0" :: letters.map Letter.text)
    alphabet := e.alphabet
    edges :=
      (linear.firsts.image (Letter.positionEdge letters)
        :: letters.map (Letter.edgesAfter letters follows)).toArray
    start := 0
    accepting := if linear.nullable then atLasts.insert 0 else atLasts }

end Recognizer
