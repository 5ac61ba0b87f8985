import Recognizer.Automaton.Encoding
import Recognizer.Trace.Basic

/-!
# Recorded runs as documents

A step is a record whose field `kind` names it.  Reading passes over fields that
it does not know.
-/

namespace Recognizer

open Document (ofNat ofChar ofOption required)

namespace Status

def text : Status → String
  | recognized => "recognized"
  | notRecognized => "not-recognized"
  | immatureAbort => "immature-abort"

def encode (s : Status) : Document := .text s.text

def decode? (d : Document) : Option Status :=
  d.name?.bind fun name => [recognized, notRecognized, immatureAbort].find? (·.text = name)

end Status

namespace Step

def encodeEdges (edges : List Transition) : Document := .list (edges.map Transition.encode)

def encode : Step → Document
  | initial states edges =>
      .record
        [("kind", .text "initial"), ("states", .ofIds states), ("edges", encodeEdges edges)]
  | state index states =>
      .record
        [("kind", .text "state"), ("index", ofOption ofNat index), ("states", .ofIds states)]
  | transition index symbol edges =>
      .record
        [("kind", .text "transition"), ("index", ofNat index), ("symbol", ofChar symbol),
         ("edges", encodeEdges edges)]
  | error index symbol =>
      .record [("kind", .text "error"), ("index", ofNat index), ("symbol", ofChar symbol)]
  | complete status states =>
      .record [("kind", .text "complete"), ("status", status.encode), ("states", .ofIds states)]

def decodeEdges? (d : Document) : Option (List Transition) := d.list? Transition.decode?

def decodeKind? (kind : String) (d : Document) : Option Step :=
  match kind with
  | "initial" => do
      let fields ← d.fields? ["states", "edges"]
      let states ← required Document.ids? fields "states"
      let edges ← required decodeEdges? fields "edges"
      return initial states edges
  | "state" => do
      let fields ← d.fields? ["index", "states"]
      let index ← Document.optional Document.place? fields "index"
      let states ← required Document.ids? fields "states"
      return state index states
  | "transition" => do
      let fields ← d.fields? ["index", "symbol", "edges"]
      let index ← required Document.place? fields "index"
      let symbol ← required Document.char? fields "symbol"
      let edges ← required decodeEdges? fields "edges"
      return transition index symbol edges
  | "error" => do
      let fields ← d.fields? ["index", "symbol"]
      let index ← required Document.place? fields "index"
      let symbol ← required Document.char? fields "symbol"
      return error index symbol
  | "complete" => do
      let fields ← d.fields? ["status", "states"]
      let status ← required Status.decode? fields "status"
      let states ← required Document.ids? fields "states"
      return complete status states
  | _ => none

def decode? : Document → Option Step
  | .record fields => do
      let kind ← required Document.text? fields "kind"
      decodeKind? kind (.record fields)
  | .list (.text kind :: rest) => decodeKind? kind (.list rest)
  | _ => none

end Step

namespace Trace

def encode (t : Trace) : Document :=
  .record
    [("input", .text t.input), ("steps", .list (t.steps.map Step.encode)),
     ("cursor", ofNat t.cursor.toNat)]

def decode? (d : Document) : Option Trace := do
  let fields ← d.fields? ["input", "steps", "cursor"]
  let input ← required Document.text? fields "input"
  let steps ← required (Document.list? Step.decode?) fields "steps"
  let cursor ← required Document.place? fields "cursor"
  return ⟨input, steps, .ofNat cursor⟩

end Trace

end Recognizer
