import Recognizer.Automaton.Basic

/-!
# Tables of states

States in the order of their ids, looked up with a check.  An id that comes from
outside keeps its low 32 bits only.
-/

namespace Recognizer

def idOf (n : Nat) : Nat := n % Nat.pow 2 32

structure OutOfRange where
  size : Nat
  index : Nat
deriving DecidableEq, Repr

def OutOfRange.message (e : OutOfRange) : String :=
  "index out of bounds: the len is " ++ toString e.size ++ " but the index is " ++ toString e.index

def entryAt {α : Type} (table : Array α) (id : Nat) : Except OutOfRange α :=
  match table[id]? with
  | some a => .ok a
  | none => .error ⟨table.size, id⟩

abbrev StateTable := Array State

namespace StateTable

def add (table : StateTable) (label : String) : StateTable × Nat :=
  (table.push ⟨table.size, label⟩, table.size)

def get (table : StateTable) (id : Nat) : Except OutOfRange State := entryAt table id

def relabel (table : StateTable) (id : Nat) (label : String) :
    Except OutOfRange (StateTable × State) :=
  match entryAt table id with
  | .ok s => .ok (table.setIfInBounds id { s with label }, { s with label })
  | .error e => .error e

/-- Put a state in the place of another; it keeps its own id. -/
def replace (table : StateTable) (id : Nat) (s : State) : Except OutOfRange StateTable :=
  match entryAt table id with
  | .ok _ => .ok (table.setIfInBounds id s)
  | .error e => .error e

end StateTable

end Recognizer
