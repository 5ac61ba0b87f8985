/-!
# Documents

The tree-shaped values in which expressions, states and traces are kept outside
of a program.  Whole numbers are told apart from other numbers, because ids and
positions have to be whole.  The functions below take a document apart; each one
answers `none` when the document is not of the shape that is asked for.
-/

namespace Recognizer

/-- A value as it is kept in a file. -/
inductive Document where
  | null
  | bool (value : Bool)
  | integer (value : Int)
  | decimal (digits : Int) (places : Nat)
  | text (value : String)
  | list (items : List Document)
  | record (fields : List (String × Document))

namespace Document

def ofNat (n : Nat) : Document := .integer n

def ofChar (c : Char) : Document := .text c.toString

def ofOption {α : Type} (encode : α → Document) : Option α → Document
  | none => .null
  | some a => encode a

/-!
# Taking documents apart
-/

def natBelow? (bound : Nat) : Document → Option Nat
  | .integer (.ofNat n) => if n < bound then some n else none
  | _ => none

def id? : Document → Option Nat := natBelow? (Nat.pow 2 32)

def place? : Document → Option Nat := natBelow? (Nat.pow 2 64)

/-- One of a choice of names: the name itself, or a record with a field of that
name and nothing in it. -/
def name? : Document → Option String
  | .text s => some s
  | .record [(s, .null)] => some s
  | .record [(s, .record [])] => some s
  | _ => none

def bool? : Document → Option Bool
  | .bool b => some b
  | _ => none

def text? : Document → Option String
  | .text s => some s
  | _ => none

def char? : Document → Option Char
  | .text s =>
      match s.toList with
      | [c] => some c
      | _ => none
  | _ => none

def option? {α : Type} (decode : Document → Option α) : Document → Option (Option α)
  | .null => some none
  | d => (decode d).map some

def list? {α : Type} (decode : Document → Option α) : Document → Option (List α)
  | .list items => items.mapM decode
  | _ => none

/-- The fields of a record.  A record may be given as the list of the values of
all its fields, in order. -/
def fields? (names : List String) : Document → Option (List (String × Document))
  | .record fields => some fields
  | .list items => if items.length = names.length then some (names.zip items) else none
  | _ => none

def required {α : Type} (decode : Document → Option α) (fields : List (String × Document))
    (name : String) : Option α :=
  (fields.lookup name).bind decode

/-- The value of a field that stands for nothing when it is missing. -/
def optional {α : Type} (decode : Document → Option α) (fields : List (String × Document))
    (name : String) : Option (Option α) :=
  match fields.lookup name with
  | none => some none
  | some d => option? decode d

end Document

end Recognizer
