import Recognizer.Automaton.StateTable

/-!
# Recorded runs

A run on a word is recorded once, as a list of steps, and can then be looked
through with a cursor, forwards and backwards.
-/

namespace Recognizer

inductive Status where
  | recognized
  | notRecognized
  | immatureAbort
deriving DecidableEq, Repr

/-- A step of a run: the states at first, with the ε edges that lead to them; the
states after a character, or before the first one; the edges that read a
character; a character outside of the alphabet; the end. -/
inductive Step where
  | initial (states : SortedSet Nat) (edges : List Transition)
  | state (index : Option Nat) (states : SortedSet Nat)
  | transition (index : Nat) (symbol : Char) (edges : List Transition)
  | error (index : Nat) (symbol : Char)
  | complete (status : Status) (states : SortedSet Nat)
deriving DecidableEq

/-- The recorded run on an input, and the place of the cursor among its steps.  A
place has 64 bits, and a trace that was kept outside may have any of them. -/
structure Trace where
  input : String
  steps : List Step
  cursor : UInt64
deriving DecidableEq

inductive Move where
  | forward
  | back
  | seek (place : UInt64)
  | current
deriving DecidableEq, Repr

namespace Trace

variable (t : Trace)

/-- How the run ended, unless it met a character outside of the alphabet. -/
def status : Option Status :=
  match t.steps.getLast? with
  | some (.complete status _) => some status
  | _ => none

def accepted : Bool := t.status = some .recognized

/-!
# The cursor
-/

/-- The cursor stands on the last step: the next place is the one behind the steps.
Behind the greatest place comes place 0, so in a trace without steps the greatest
place counts as the last one. -/
def isAtEnd : Bool := (t.cursor + 1).toNat = t.steps.length

def current : Except OutOfRange Step :=
  match t.steps[t.cursor.toNat]? with
  | some s => .ok s
  | none => .error ⟨t.steps.length, t.cursor.toNat⟩

/-- Where a move leads; `none` when it is refused.  Only a move to a given place
looks at more than the end that it could pass. -/
def destination : Move → Option UInt64
  | .forward => if t.isAtEnd then none else some (t.cursor + 1)
  | .back => if t.cursor = 0 then none else some (t.cursor - 1)
  | .seek place => if place.toNat < t.steps.length then some place else none
  | .current => some t.cursor

def move (m : Move) : Trace × Except OutOfRange (Option Step) :=
  match t.destination m with
  | none => (t, .ok none)
  | some place =>
      let moved : Trace := { t with cursor := place }
      (moved, moved.current.map some)

end Trace

end Recognizer
