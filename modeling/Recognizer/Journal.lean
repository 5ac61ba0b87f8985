import Recognizer.Expr.Parser
import Recognizer.Expr.Printer
import Recognizer.Suite
import Recognizer.Text.Quoted

/-!
# What is told about the work

The parts of the library keep no log.  What could be told about a piece of work
is found again from its input and its result, as a list of events in the order
in which they took place, and told as far as the level of detail asks for it.
-/

namespace Recognizer

inductive Level where
  | warn
  | debug
  | trace
deriving DecidableEq, Repr

namespace Level

def rank : Level → Nat
  | warn => 0
  | debug => 1
  | trace => 2

def name : Level → String
  | warn => "WARN"
  | debug => "DEBUG"
  | trace => "TRACE"

end Level

inductive Event where
  | restIgnored (rest : String) (offset : Nat)
  | positionEdge (source : Nat) (symbol : Char) (target : Nat)
  | positionsMade (linear : Expr) (states accepting : Nat)
  | fragmentsMade (states absorbed edges : Nat)
  | subsetMet (id : Nat) (label : String)
  | subsetsMade (before after : Nat) (trap : Bool)
  | blockSplit (split : Split)
  | quotientMade (before after : Nat)
  | suiteMade (suite : Suite)
  | runRecorded (trace : Trace)

namespace Event

def level : Event → Level
  | restIgnored _ _ => .warn
  | positionEdge _ _ _ => .trace
  | positionsMade _ _ _ => .debug
  | fragmentsMade _ _ _ => .debug
  | subsetMet _ _ => .trace
  | subsetsMade _ _ _ => .debug
  | blockSplit _ => .trace
  | quotientMade _ _ => .debug
  | suiteMade _ => .debug
  | runRecorded _ => .debug

def numbers (s : SortedSet Nat) : String := Text.braced (s.toList.map toString)

def text : Event → String
  | restIgnored rest offset =>
      "ignoring unparsed input " ++ Text.quoted rest ++ " at offset " ++ toString offset
  | positionEdge source symbol target =>
      "glushkov edge " ++ toString source ++ " --" ++ symbol.toString ++ "--> " ++ toString target
  | positionsMade linear states accepting =>
      "glushkov nfa for " ++ linear.text ++ ": " ++ toString states ++ " states, "
        ++ toString accepting ++ " accepting"
  | fragmentsMade states absorbed edges =>
      "thompson nfa: " ++ toString states ++ " states (" ++ toString absorbed
        ++ " eliminated), " ++ toString edges ++ " edges"
  | subsetMet id label => "new dfa state " ++ toString id ++ " = " ++ label
  | subsetsMade before after trap =>
      "subset construction: " ++ toString before ++ " nfa states -> " ++ toString after
        ++ " dfa states" ++ if trap then " (with trap)" else ""
  | blockSplit split =>
      "splitting " ++ numbers split.block ++ " into " ++ numbers split.inside ++ " / "
        ++ numbers split.outside
  | quotientMade before after =>
      "minimized dfa: " ++ toString before ++ " states -> " ++ toString after ++ " states"
  | suiteMade suite =>
      "compiled " ++ suite.expr.text ++ ": glushkov " ++ toString suite.positions.states.size
        ++ ", thompson " ++ toString suite.fragments.states.size
        ++ ", dfa " ++ toString suite.dfa.states.size
        ++ ", minimal " ++ toString suite.minimal.states.size ++ " states"
  | runRecorded trace =>
      "trace of " ++ Text.quoted trace.input ++ ": " ++ toString trace.steps.length ++ " steps"

def line (e : Event) : String := e.level.name ++ " " ++ e.text

def linesUpTo (detail : Level) (events : List Event) : List String :=
  (events.filter (fun e => e.level.rank ≤ detail.rank)).map line

/-!
# The events of a piece of work
-/

def ofParse (s : String) : List Event :=
  match Expr.parsePrefix s with
  | .ok (_, rest) =>
      if rest.isEmpty then [] else [restIgnored rest (s.utf8ByteSize - rest.utf8ByteSize)]
  | .error _ => []

def ofPositions (e : Expr) (n : Nfa) : List Event :=
  let linear := e.linearized
  let letters := linear.letters
  let edge (source : Nat) (l : Letter) : Event :=
    positionEdge source l.symbol (l.positionState letters)
  linear.firsts.toList.map (edge 0)
    ++ linear.follows.toList.map (fun p => edge (p.before.positionState letters) p.after)
    ++ [positionsMade linear n.states.size n.accepting.size]

def ofFragments (e : Expr) (n : Nfa) : List Event :=
  let (arena, _) := Arena.addExpr e .empty
  let edgeCount := n.edges.toList.foldl (fun count edges => count + edges.size) 0
  [fragmentsMade n.states.size arena.absorbed.size edgeCount]

def ofConstruction (e : Expr) (n : Nfa) : Construction → List Event
  | .positions => ofPositions e n
  | .fragments => ofFragments e n

def ofSubsets (n : Nfa) (d : Dfa) (trap : Bool) : List Event :=
  d.states.toList.map (fun s => subsetMet s.id s.label)
    ++ [subsetsMade n.states.size d.states.size trap]

def ofQuotient (d q : Dfa) : List Event :=
  (Refinement.ofDfa d).splits.toList.map blockSplit
    ++ [quotientMade d.states.size q.states.size]

def ofQuotients (d : Dfa) : Nat → List Event
  | 0 => []
  | count + 1 => ofQuotient d d.quotient ++ ofQuotients d.quotient count

def ofPlan (e : Expr) (p : Plan) : List Event :=
  let n := p.construction.build e
  ofConstruction e n p.construction
    ++ match p.determinization with
      | none => []
      | some q =>
          let d := Dfa.ofSubsets n q.trap
          ofSubsets n d q.trap ++ ofQuotients d q.quotients

def ofSuite (o : Options) (s : Suite) : List Event :=
  let d := Dfa.ofSubsets s.fragments o.minimalTrap
  ofPositions s.expr s.positions
    ++ ofFragments s.expr s.fragments
    ++ ofSubsets s.positions s.dfa o.dfaTrap
    ++ ofSubsets s.fragments d o.minimalTrap
    ++ ofQuotient d s.minimal
    ++ [suiteMade s]

end Event

end Recognizer
