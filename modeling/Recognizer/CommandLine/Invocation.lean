import Recognizer.Journal

/-!
# Command lines

The arguments of the program and what they ask for.  Options may stand before or
behind the texts that a command works on, a flag may stand in a cluster with
others, and a value may stand in one word with its option.  Behind `--` all is
text.
-/

namespace Recognizer.CommandLine

inductive ShowFormat where
  | table
  | dot
  | json
deriving DecidableEq, Repr

inductive TraceFormat where
  | text
  | json
deriving DecidableEq, Repr

inductive Request where
  | parse (regex : String)
  | show (regex : String) (member : Member) (trap : Bool) (format : ShowFormat) (aliases : Bool)
  | check (regex : String) (inputs : List String)
  | trace (regex input : String) (member : Member) (trap : Bool) (format : TraceFormat)
deriving DecidableEq, Repr

structure Invocation where
  detail : Level
  request : Request
deriving DecidableEq, Repr

/-!
# Options
-/

inductive OptionName where
  | verbose
  | automaton
  | trap
  | format
  | aliases
deriving DecidableEq, Repr

namespace OptionName

def ofLong? : String → Option OptionName
  | "verbose" => some verbose
  | "automaton" => some automaton
  | "trap" => some trap
  | "format" => some format
  | "aliases" => some aliases
  | _ => none

def ofShort? : Char → Option OptionName
  | 'v' => some verbose
  | 'a' => some automaton
  | 'f' => some format
  | _ => none

def takesValue : OptionName → Bool
  | automaton => true
  | format => true
  | _ => false

end OptionName

inductive Word where
  | text (s : String)
  | option (name : OptionName) (value : Option String)
deriving DecidableEq, Repr

/-- An argument, as far as it can be told without the next one: words, and perhaps
an option at the end that still waits for its value. -/
structure Piece where
  words : List Word
  waiting : Option OptionName
deriving DecidableEq, Repr

/-- The flags of a cluster.  An option that takes a value takes the rest of the
cluster, less an equals sign, or waits for the next argument. -/
def readCluster : List Char → Option Piece
  | [] => some ⟨[], none⟩
  | c :: cs =>
      match OptionName.ofShort? c with
      | none => none
      | some name =>
          if name.takesValue then
            match cs with
            | [] => some ⟨[], some name⟩
            | '=' :: value => some ⟨[.option name (some (String.ofList value))], none⟩
            | value => some ⟨[.option name (some (String.ofList value))], none⟩
          else
            (readCluster cs).map fun p => ⟨.option name none :: p.words, p.waiting⟩

def readLong (cs : List Char) : Option Piece :=
  let name := cs.takeWhile (· ≠ '=')
  let value := (cs.dropWhile (· ≠ '=')).tail?.map String.ofList
  match OptionName.ofLong? (String.ofList name), value with
  | none, _ => none
  | some o, none =>
      if o.takesValue then some ⟨[], some o⟩ else some ⟨[.option o none], none⟩
  | some o, some v => if o.takesValue then some ⟨[.option o (some v)], none⟩ else none

def readArgument (s : String) : Option Piece :=
  match s.toList with
  | '-' :: '-' :: cs => readLong cs
  | ['-'] => some ⟨[.text s], none⟩
  | '-' :: cs => readCluster cs
  | _ => some ⟨[.text s], none⟩

def readWords : List String → Option (List Word)
  | [] => some []
  | "--" :: rest => some (rest.map .text)
  | s :: rest =>
      match readArgument s with
      | none => none
      | some ⟨words, none⟩ => (readWords rest).map (words ++ ·)
      | some ⟨words, some name⟩ =>
          match rest with
          | [] => none
          | value :: rest =>
              (readWords rest).map fun more => words ++ .option name (some value) :: more

/-!
# Commands
-/

def texts (words : List Word) : List String :=
  words.filterMap fun
    | .text s => some s
    | .option _ _ => none

def count (name : OptionName) (words : List Word) : Nat :=
  words.countP fun
    | .text _ => false
    | .option given _ => given = name

def valueOf {α : Type} (name : OptionName) (ofName? : String → Option α) (standard : α)
    (words : List Word) : Option α :=
  let isGiven (w : Word) : Bool :=
    match w with
    | .option given _ => given = name
    | .text _ => false
  match words.find? isGiven with
  | some (.option _ (some value)) => ofName? value
  | _ => some standard

/-- Only the options of a command are given, and each one at most once; the
`verbose` flag may be given anywhere and any number of times. -/
def optionsAllowed (names : List OptionName) (words : List Word) : Bool :=
  [OptionName.automaton, .trap, .format, .aliases].all fun name =>
    count name words ≤ if name ∈ names then 1 else 0

def ShowFormat.ofName? : String → Option ShowFormat
  | "table" => some .table
  | "dot" => some .dot
  | "json" => some .json
  | _ => none

def TraceFormat.ofName? : String → Option TraceFormat
  | "text" => some .text
  | "json" => some .json
  | _ => none

def readRequest (command : String) (words : List Word) : Option Request :=
  let trap := 0 < count .trap words
  match command, texts words with
  | "parse", [regex] =>
      if optionsAllowed [] words then some (.parse regex) else none
  | "show", [regex] =>
      if optionsAllowed [.automaton, .trap, .format, .aliases] words then do
        let member ← valueOf .automaton Member.ofName? .minimal words
        let format ← valueOf .format ShowFormat.ofName? .table words
        return .show regex member trap format (0 < count .aliases words)
      else none
  | "check", regex :: input :: inputs =>
      if optionsAllowed [] words then some (.check regex (input :: inputs)) else none
  | "trace", [regex, input] =>
      if optionsAllowed [.automaton, .trap, .format] words then do
        let member ← valueOf .automaton Member.ofName? .positions words
        let format ← valueOf .format TraceFormat.ofName? .text words
        return .trace regex input member trap format
      else none
  | _, _ => none

def detailOf : Nat → Level
  | 0 => .warn
  | 1 => .debug
  | _ => .trace

def verboseFlags? (s : String) : Option Nat :=
  match readArgument s with
  | some ⟨words, none⟩ =>
      if words.all (· = .option .verbose none) then some words.length else none
  | _ => none

def splitCommand (args : List String) : Option (Nat × String × List String) :=
  match args with
  | [] => none
  | "--" :: _ => none
  | s :: rest =>
      match verboseFlags? s with
      | some flags =>
          (splitCommand rest).map fun (more, command, behind) => (flags + more, command, behind)
      | none => some (0, s, rest)

/-- What some arguments ask for, or `none` when they are refused.  Flags behind
the command are counted without those in front of it, which count only when
there are none behind. -/
def Invocation.ofArguments? (args : List String) : Option Invocation := do
  let (before, command, rest) ← splitCommand args
  let words ← readWords rest
  let request ← readRequest command words
  let behind := count .verbose words
  return ⟨detailOf (if 0 < behind then behind else before), request⟩

end Recognizer.CommandLine
