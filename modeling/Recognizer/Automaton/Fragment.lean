import Recognizer.Automaton.Nfa
import Recognizer.Expr.Basic
import Recognizer.Text.Listing

/-!
# The fragment automaton

Every node of the expression becomes a fragment with one start and one accepting
node, and the fragments of its parts are joined by ε edges.  This is Thompson's
construction.  No edge enters the start of a fragment and none leaves its
accepting node, so two fragments in a row can share a node: the accepting node
of the left one is absorbed by the start of the right one.
-/

namespace Recognizer

/-- The nodes made so far, with the edges of each one in the order in which they
were added, and those nodes that have been absorbed by others. -/
structure Arena where
  nodes : Array (List Edge)
  absorbed : SortedSet Nat
deriving DecidableEq

structure Fragment where
  start : Nat
  accept : Nat
deriving DecidableEq, Repr

namespace Arena

def empty : Arena := ⟨#[], .empty⟩

def addEnds (a : Arena) : Arena × Fragment :=
  (⟨(a.nodes.push []).push [], a.absorbed⟩, ⟨a.nodes.size, a.nodes.size + 1⟩)

def link (a : Arena) (source : Nat) (symbol : Symbol) (target : Nat) : Arena :=
  ⟨a.nodes.modify source (· ++ [⟨symbol, target⟩]), a.absorbed⟩

/-- Let every edge into one node lead into another instead, and count the node as absorbed. -/
def absorb (a : Arena) (node into : Nat) : Arena :=
  let redirected (e : Edge) : Edge := if e.target = node then ⟨e.symbol, into⟩ else e
  ⟨a.nodes.map (·.map redirected), a.absorbed.insert node⟩

def survivors (a : Arena) : List Nat :=
  (List.range a.nodes.size).filter (fun i => i ∉ a.absorbed)

def addAtom (a : Arena) (symbol : Symbol) : Arena × Fragment :=
  let (a, ends) := a.addEnds
  (a.link ends.start symbol ends.accept, ends)

def addExpr : Expr → Arena → Arena × Fragment
  | .letter l, a => a.addAtom (.char l.symbol)
  | .epsilon _, a => a.addAtom .epsilon
  | .choice left right, a =>
      let (a, ends) := a.addEnds
      let (a, l) := addExpr left a
      let (a, r) := addExpr right a
      let a := a.link ends.start .epsilon l.start
      let a := a.link ends.start .epsilon r.start
      let a := a.link l.accept .epsilon ends.accept
      (a.link r.accept .epsilon ends.accept, ends)
  | .concat left right, a =>
      let (a, l) := addExpr left a
      let (a, r) := addExpr right a
      (a.absorb l.accept r.start, ⟨l.start, r.accept⟩)
  | .optional inner, a =>
      let (a, f) := addExpr inner a
      (a.link f.start .epsilon f.accept, f)
  | .star inner, a =>
      let (a, ends) := a.addEnds
      let (a, f) := addExpr inner a
      let a := a.link ends.start .epsilon f.start
      let a := a.link ends.start .epsilon ends.accept
      let a := a.link f.accept .epsilon f.start
      (a.link f.accept .epsilon ends.accept, ends)
  | .plus inner, a =>
      let (a, ends) := a.addEnds
      let (a, f) := addExpr inner a
      let a := a.link ends.start .epsilon f.start
      let a := a.link f.accept .epsilon f.start
      (a.link f.accept .epsilon ends.accept, ends)

def freeze (a : Arena) (f : Fragment) (alphabet : SortedSet Char) : Nfa :=
  let survivors := a.survivors
  let renamed (e : Edge) : Edge := ⟨e.symbol, survivors.idxOf e.target⟩
  { states := State.numbered ((List.range survivors.length).map toString)
    alphabet
    edges := (survivors.map fun i => .ofList ((a.nodes.getD i []).map renamed)).toArray
    start := survivors.idxOf f.start
    accepting := .singleton (survivors.idxOf f.accept) }

end Arena

def Nfa.ofFragments (e : Expr) : Nfa :=
  let (arena, fragment) := Arena.addExpr e .empty
  arena.freeze fragment e.alphabet

end Recognizer
