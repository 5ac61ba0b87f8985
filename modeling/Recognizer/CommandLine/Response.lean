import Recognizer.Automaton.Drawing
import Recognizer.Automaton.Encoding
import Recognizer.Automaton.Table
import Recognizer.CommandLine.Invocation
import Recognizer.Document.Printer
import Recognizer.Expr.Follow
import Recognizer.Trace.Encoding

/-!
# Responses

What the program prints for what is asked of it, what it tells about the work,
and how it fails.
-/

namespace Recognizer.CommandLine

/-- What comes of a command line: it is refused, or it fails with a message before
any work is done, or it prints a text and tells some events. -/
inductive Response where
  | refused
  | failed (message : String)
  | printed (output : String) (log : List String)
deriving DecidableEq, Repr

/-!
# Expressions
-/

def describeExpr (e : Expr) : String :=
  let linear := e.linearized
  Text.lines
    ["regex      = " ++ e.text,
     "tree       = " ++ e.outline,
     "linearized = " ++ linear.text,
     "nullable   = " ++ toString e.nullable,
     "P          = " ++ Text.braced (linear.firsts.toList.map Letter.text),
     "D          = " ++ Text.braced (linear.lasts.toList.map Letter.text),
     "F          = " ++ Text.braced (linear.follows.toList.map LetterPair.text)]

/-!
# Automata
-/

def showDefinition (a : Definition) (aliases : Bool) : ShowFormat → String
  | .table => (if aliases then Table.ofAliases a else Table.ofLabels a).text
  | .dot => (a.drawing (if aliases then .aliases else .labels)).text
  | .json => a.encode.written ++ "\n"

def checkLine (s : Suite) (input : String) : String :=
  let results := Member.all.map fun m =>
    m.name ++ ": " ++ if (s.get m).accepts input then "accept" else "reject"
  Text.quoted input ++ "  " ++ "  ".intercalate results

/-!
# Recorded runs
-/

def column (width n : Nat) : String := Text.padded width (toString n)

def statusName : Status → String
  | .recognized => "Recognized"
  | .notRecognized => "NotRecognized"
  | .immatureAbort => "ImmatureAbort"

def stepLine (a : Definition) (step : Step) : String :=
  let label (q : Nat) : String := (a.states[q]?.map State.label).getD ""
  let labels (s : SortedSet Nat) : String := Text.braced (s.toList.map label)
  match step with
  | .initial states edges =>
      "initial    " ++ labels states ++ " via " ++ toString edges.length ++ " epsilon edge(s)"
  | .state none states => "state      " ++ labels states
  | .state (some index) states => "state #" ++ column 3 index ++ " " ++ labels states
  | .transition index symbol [] =>
      "read #" ++ column 4 index ++ " " ++ Text.quotedChar symbol ++ ": no edge"
  | .transition index symbol edges =>
      "read #" ++ column 4 index ++ " " ++ Text.quotedChar symbol ++ ": "
        ++ Text.commaSeparated (edges.map fun e =>
          label e.source ++ " -" ++ e.symbol.text ++ "-> " ++ label e.target)
  | .error index symbol =>
      "error #" ++ column 3 index ++ " " ++ Text.quotedChar symbol ++ " is not in the alphabet"
  | .complete status states => "complete   " ++ statusName status ++ " " ++ labels states

def showTrace (a : Definition) (t : Trace) : TraceFormat → String
  | .text => Text.lines (t.steps.map (stepLine a))
  | .json => t.encode.written ++ "\n"

/-!
# Requests
-/

def invalidExpr (regex : String) (e : Expr.ParseError) : String :=
  "invalid regular expression " ++ Text.quoted regex ++ ": " ++ e.message

def Request.regex : Request → String
  | .parse regex => regex
  | .show regex _ _ _ _ => regex
  | .check regex _ => regex
  | .trace regex _ _ _ _ => regex

def Request.answer (e : Expr) : Request → String × List Event
  | .parse _ => (describeExpr e, [])
  | .show _ member trap format aliases =>
      let options : Options := ⟨trap, trap⟩
      let s := Suite.ofExpr e options
      (showDefinition (s.get member).definition aliases format, Event.ofSuite options s)
  | .check _ inputs =>
      let options : Options := ⟨false, false⟩
      let s := Suite.ofExpr e options
      (Text.lines (inputs.map (checkLine s)), Event.ofSuite options s)
  | .trace _ input member trap format =>
      let options : Options := ⟨trap, trap⟩
      let s := Suite.ofExpr e options
      let machine := s.get member
      let t := machine.trace input
      (showTrace machine.definition t format, Event.ofSuite options s ++ [.runRecorded t])

def Invocation.respond (i : Invocation) : Response :=
  let regex := i.request.regex
  match Expr.parse regex with
  | .error e => .failed (invalidExpr regex e)
  | .ok e =>
      let (output, events) := i.request.answer e
      .printed output (Event.linesUpTo i.detail (Event.ofParse regex ++ events))

def respond (args : List String) : Response :=
  match Invocation.ofArguments? args with
  | none => .refused
  | some i => i.respond

end Recognizer.CommandLine
