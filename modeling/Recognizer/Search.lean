/-!
# Breadth-first search

Closures under ε edges, the short names of states, the dead states and the
subsets of the deterministic automaton are all found in the same way: start
from some seeds, take the oldest node that has not been taken, and add those of
its successors that are new.  The nodes stay in the order of their discovery.
-/

namespace Recognizer

/-- Repeat a step until a test holds, at most a given number of times. -/
@[specialize]
def repeatUntil {σ : Type} (finished : σ → Bool) (step : σ → σ) : Nat → σ → σ
  | 0, s => s
  | bound + 1, s => if finished s then s else repeatUntil finished step bound (step s)

/-- What a search has found, in order of discovery; the first `taken` of the
nodes have had their successors looked at. -/
structure Search (α : Type) where
  found : Array α
  taken : Nat
deriving Repr

namespace Search

variable {α : Type} [DecidableEq α]

@[specialize]
def discover (found : Array α) (a : α) : Array α :=
  if found.contains a then found else found.push a

@[specialize]
def ofSeeds (seeds : List α) : Search α := ⟨seeds.foldl discover #[], 0⟩

def finished (s : Search α) : Bool := s.found.size ≤ s.taken

@[specialize]
def advance (successors : α → List α) (s : Search α) : Search α :=
  match s.found[s.taken]? with
  | none => s
  | some a => ⟨(successors a).foldl discover s.found, s.taken + 1⟩

/-- The nodes reachable from the seeds, in breadth-first order.  The bound is on
the number of nodes taken: any number that the reachable nodes do not exceed. -/
@[specialize]
def run (successors : α → List α) (bound : Nat) (seeds : List α) : Search α :=
  repeatUntil finished (advance successors) bound (ofSeeds seeds)

end Search

@[specialize]
def breadthFirst {α : Type} [DecidableEq α] (successors : α → List α) (bound : Nat)
    (seeds : List α) : List α :=
  (Search.run successors bound seeds).found.toList

end Recognizer
