import Recognizer.Document.Basic
import Recognizer.Machine

/-!
# The automata of an expression

All four automata that belong to one expression, made together: the two
nondeterministic ones, the subset automaton of the first and the quotient of the
subset automaton of the second.
-/

namespace Recognizer

/-- Which of the deterministic automata keep their trap state. -/
structure Options where
  dfaTrap : Bool
  minimalTrap : Bool
deriving DecidableEq, Repr

namespace Options

def encode (o : Options) : Document :=
  .record [("dfa_dead_state", .bool o.dfaTrap), ("minimal_dead_state", .bool o.minimalTrap)]

def decode? (d : Document) : Option Options := do
  let fields ← d.fields? ["dfa_dead_state", "minimal_dead_state"]
  let dfaTrap ← Document.required Document.bool? fields "dfa_dead_state"
  let minimalTrap ← Document.required Document.bool? fields "minimal_dead_state"
  return ⟨dfaTrap, minimalTrap⟩

end Options

structure Suite where
  expr : Expr
  positions : Nfa
  fragments : Nfa
  dfa : Dfa
  minimal : Dfa
deriving DecidableEq

namespace Suite

def ofExpr (e : Expr) (o : Options) : Suite :=
  let positions := Nfa.ofPositions e
  let fragments := Nfa.ofFragments e
  ⟨e, positions, fragments, .ofSubsets positions o.dfaTrap,
    (Dfa.ofSubsets fragments o.minimalTrap).quotient⟩

end Suite

inductive Member where
  | positions
  | fragments
  | dfa
  | minimal
deriving DecidableEq, Repr

namespace Member

def all : List Member := [positions, fragments, dfa, minimal]

def name : Member → String
  | positions => "glushkov"
  | fragments => "thompson"
  | dfa => "dfa"
  | minimal => "minimal"

def ofName? (name : String) : Option Member := all.find? (·.name = name)

end Member

namespace Suite

def get (s : Suite) : Member → Machine
  | .positions => .nfa s.positions
  | .fragments => .nfa s.fragments
  | .dfa => .dfa s.dfa
  | .minimal => .dfa s.minimal

end Suite

end Recognizer
