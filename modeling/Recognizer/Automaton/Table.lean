import Recognizer.Automaton.Definition
import Recognizer.Automaton.StateTable
import Recognizer.Text.Listing

/-!
# Transition tables

The formal definition of an automaton as text: its states, alphabet, start and
accepting states, and a table with a row for each state and a column for each
symbol.
-/

namespace Recognizer

namespace Definition

variable (a : Definition)

def readsNothing : Bool := a.edges.any (fun edges => edges.any (fun e => e.symbol = .epsilon))

def columns : List Symbol :=
  a.alphabet.toList.map .char ++ if a.readsNothing then [.epsilon] else []

def cell (q : Nat) (s : Symbol) : SortedSet Nat :=
  .ofList (((a.edgesFrom q).filter (fun e => e.symbol = s)).map Edge.target)

def cell? (q : Nat) (s : Symbol) : Except OutOfRange (Option (SortedSet Nat)) :=
  if s ∈ a.columns then
    if q < a.states.size then .ok (some (a.cell q s)) else .error ⟨a.states.size, q⟩
  else .ok none

end Definition

/-- A formal definition together with the names under which its states are shown. -/
structure Table where
  definition : Definition
  names : Array String

namespace Table

def ofLabels (a : Definition) : Table := ⟨a, a.labels.toArray⟩

def ofAliases (a : Definition) : Table := ⟨a, a.aliases.toArray⟩

variable (t : Table)

def name (q : Nat) : String := t.names.getD q ""

def setText (s : SortedSet Nat) : String := Text.braced (s.toList.map t.name)

/-- The text of a cell: a set of states, or one state where there is never more than one. -/
def cellText (targets : SortedSet Nat) : String :=
  match t.definition.kind, targets.toList with
  | _, [] => trapLabel
  | .dfa, q :: _ => t.name q
  | .nfa, _ => t.setText targets

def marker (q : Nat) : String :=
  match decide (q = t.definition.start), t.definition.isAccepting q with
  | true, true => "->*"
  | true, false => "-> "
  | false, true => "  *"
  | false, false => "   "

def rowName (q : Nat) : String := t.marker q ++ " " ++ t.name q

def rowCells (q : Nat) : List String :=
  t.definition.columns.map fun s => t.cellText (t.definition.cell q s)

def line (firstWidth : Nat) (widths : List Nat) (first : String) (cells : List String) : String :=
  Text.padded firstWidth first
    ++ String.join ((cells.zip widths).map fun (cell, width) => " | " ++ Text.padded width cell)

def gridLines : List String :=
  let states := List.range t.definition.states.size
  let names := states.map t.rowName
  let rows := states.map t.rowCells
  let header := t.definition.columns.map Symbol.text
  let firstWidth := Text.widest names
  let widths := header.mapIdx fun i title =>
    Text.widest (title :: rows.map (fun cells => cells.getD i ""))
  line firstWidth widths "" header
    :: (names.zip rows).map fun (name, cells) => line firstWidth widths name cells

def text : String :=
  let a := t.definition
  Text.lines
    (["Q  = " ++ t.setText (.range a.states.size),
      "Σ  = " ++ Text.braced (a.alphabet.toList.map Char.toString),
      "q0 = " ++ t.name a.start,
      "F  = " ++ t.setText a.accepting,
      "δ:"] ++ t.gridLines)

end Table

end Recognizer
