import Recognizer.Automaton.Dfa
import Recognizer.Search

/-!
# Partitions of the states

The states of a deterministic automaton are sorted into blocks: at first those
that accept and those that do not, and then the blocks are split until no
character leads some states of a block into another block and some elsewhere.
Only the smaller part of a block that was split has to be looked at again.  This
is Hopcroft's refinement.

Where edges are missing, a trap state that belongs to no automaton stands in:
its number is the number of states.
-/

namespace Recognizer

namespace Dfa

variable (d : Dfa)

def totalSize : Nat := if d.isComplete then d.states.size else d.states.size + 1

/-- Where a character leads when missing edges lead into the trap. -/
def totalNext (q : Nat) (c : Char) : Nat := (d.next q c).getD d.states.size

def inverse (c : Char) : Array (List Nat) :=
  (List.range d.totalSize).foldr
    (fun q table => table.modify (d.totalNext q c) (q :: ·))
    (Array.replicate d.totalSize [])

end Dfa

/-- A block that was split in two: the states that lead into the splitter, and the others. -/
structure Split where
  block : SortedSet Nat
  inside : SortedSet Nat
  outside : SortedSet Nat
deriving DecidableEq

/-- The blocks, the numbers of those that still have to be taken as splitters
(the latest first), and the splits made so far. -/
structure Refinement where
  blocks : Array (SortedSet Nat)
  waiting : List Nat
  splits : Array Split
deriving DecidableEq

namespace Refinement

def preimage (inverse : Array (List Nat)) (splitter : SortedSet Nat) : SortedSet Nat :=
  .ofList (splitter.toList.flatMap fun target => inverse.getD target [])

/-- Split one block by a set of states, if the set parts it.  The smaller part
becomes a new block and waits. -/
def splitBlock (x : SortedSet Nat) (r : Refinement) (y : Nat) : Refinement :=
  let block := r.blocks.getD y .empty
  let inside := block.filter (fun q => q ∈ x)
  let outside := block.filter (fun q => q ∉ x)
  if inside.isEmpty || outside.isEmpty then r
  else
    let (kept, moved) :=
      if inside.size ≤ outside.size then (outside, inside) else (inside, outside)
    { blocks := (r.blocks.setIfInBounds y kept).push moved
      waiting := r.blocks.size :: r.waiting
      splits := r.splits.push ⟨block, inside, outside⟩ }

def splitAll (r : Refinement) (x : SortedSet Nat) : Refinement :=
  (List.range r.blocks.size).foldl (splitBlock x) r

/-- Take the latest block that waits, and split by what leads into it on each character. -/
def takeSplitter (inverses : List (Array (List Nat))) (r : Refinement) : Refinement :=
  match r.waiting with
  | [] => r
  | a :: rest =>
      let splitter := r.blocks.getD a .empty
      inverses.foldl (fun r inverse => r.splitAll (preimage inverse splitter))
        { r with waiting := rest }

def initial (d : Dfa) : Refinement :=
  let others := (SortedSet.range d.totalSize).filter (fun q => q ∉ d.accepting)
  let blocks := [d.accepting, others].filter (fun block => !block.isEmpty)
  ⟨blocks.toArray, (List.range blocks.length).reverse, #[]⟩

def isStable (r : Refinement) : Bool := r.waiting.isEmpty

/-- The refinement of the states of an automaton.  Every block waits once, so
there are at most as many turns as states. -/
def ofDfa (d : Dfa) : Refinement :=
  repeatUntil isStable (takeSplitter (d.alphabet.toList.map d.inverse)) d.totalSize (initial d)

end Refinement

end Recognizer
