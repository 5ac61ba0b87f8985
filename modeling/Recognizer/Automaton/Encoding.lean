import Recognizer.Automaton.Definition
import Recognizer.Document.Basic

/-!
# Automata as documents

Symbols, states and edges can be read back; a whole definition is only written.
-/

namespace Recognizer

open Document (ofNat ofChar)

namespace Symbol

def encode : Symbol → Document
  | epsilon => .text "Epsilon"
  | char c => .record [("Char", ofChar c)]

def decode? : Document → Option Symbol
  | .record [("Char", d)] => d.char?.map char
  | d => if d.name? = some "Epsilon" then some epsilon else none

end Symbol

namespace State

def encode (s : State) : Document := .record [("id", ofNat s.id), ("label", .text s.label)]

def decode? (d : Document) : Option State := do
  let fields ← d.fields? ["id", "label"]
  let id ← Document.required Document.id? fields "id"
  let label ← Document.required Document.text? fields "label"
  return ⟨id, label⟩

end State

namespace Transition

def encode (t : Transition) : Document :=
  .record [("source", ofNat t.source), ("symbol", t.symbol.encode), ("target", ofNat t.target)]

def decode? (d : Document) : Option Transition := do
  let fields ← d.fields? ["source", "symbol", "target"]
  let source ← Document.required Document.id? fields "source"
  let symbol ← Document.required Symbol.decode? fields "symbol"
  let target ← Document.required Document.id? fields "target"
  return ⟨source, symbol, target⟩

end Transition

namespace Document

def ofIds (s : SortedSet Nat) : Document := .list (s.toList.map ofNat)

/-- A set of ids, which may be listed in any order and more than once. -/
def ids? (d : Document) : Option (SortedSet Nat) := (d.list? id?).map .ofList

end Document

def Definition.encode (a : Definition) : Document :=
  .record
    [("kind", .text a.kind.text),
     ("states", .list (a.states.toList.map State.encode)),
     ("alphabet", .list (a.alphabet.toList.map ofChar)),
     ("start", ofNat a.start),
     ("accepting", .ofIds a.accepting),
     ("transitions", .list (a.transitions.map Transition.encode))]

end Recognizer
