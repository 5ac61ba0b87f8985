import Recognizer.Automaton.Fragment
import Recognizer.Automaton.Position
import Recognizer.Automaton.Quotient
import Recognizer.Automaton.Subset
import Recognizer.Automaton.Definition
import Recognizer.Trace.Record

/-!
# Automata of either kind

An automaton of either kind, and the ways in which one is made from an
expression: a nondeterministic construction, then perhaps its subset automaton,
then quotients of that.
-/

namespace Recognizer

inductive Machine where
  | nfa (n : Nfa)
  | dfa (d : Dfa)
deriving DecidableEq

namespace Machine

def definition : Machine → Definition
  | nfa n => n.definition
  | dfa d => d.definition

def accepts (m : Machine) (input : String) : Bool :=
  match m with
  | nfa n => n.accepts input.toList
  | dfa d => d.accepts input.toList

def trace (m : Machine) (input : String) : Trace :=
  match m with
  | nfa n => n.trace input
  | dfa d => d.trace input

end Machine

inductive Construction where
  | positions
  | fragments
deriving DecidableEq, Repr

def Construction.build (e : Expr) : Construction → Nfa
  | positions => .ofPositions e
  | fragments => .ofFragments e

/-- What is made of a nondeterministic automaton: its subset automaton, with or
without a trap, and a number of quotients one after the other. -/
structure Determinization where
  trap : Bool
  quotients : Nat
deriving DecidableEq, Repr

def Determinization.build (n : Nfa) (p : Determinization) : Dfa :=
  Nat.repeat Dfa.quotient p.quotients (.ofSubsets n p.trap)

structure Plan where
  construction : Construction
  determinization : Option Determinization
deriving DecidableEq, Repr

def Plan.build (e : Expr) (p : Plan) : Machine :=
  match p.determinization with
  | none => .nfa (p.construction.build e)
  | some q => .dfa (q.build (p.construction.build e))

end Recognizer
