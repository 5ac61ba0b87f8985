import Recognizer.Document.Basic
import Recognizer.Expr.Basic

/-!
# Expressions as documents

A node is a record with one field, which names its kind and holds what belongs
to it.  Reading accepts a letter whose position is left out, and passes over
fields of a letter that it does not know.
-/

namespace Recognizer

open Document (ofNat ofChar ofOption)

namespace Letter

def encode (l : Letter) : Document :=
  .record [("position", ofOption ofNat l.position), ("symbol", ofChar l.symbol)]

def decode? (d : Document) : Option Letter := do
  let fields ← d.fields? ["position", "symbol"]
  let position ← Document.optional Document.id? fields "position"
  let symbol ← Document.required Document.char? fields "symbol"
  return ⟨position, symbol⟩

end Letter

namespace Expr

def encode : Expr → Document
  | letter l => .record [("Letter", l.encode)]
  | epsilon position => .record [("Epsilon", ofOption ofNat position)]
  | choice left right => .record [("Choice", .list [left.encode, right.encode])]
  | concat left right => .record [("Concatenation", .list [left.encode, right.encode])]
  | optional inner => .record [("Optional", inner.encode)]
  | star inner => .record [("KleeneStar", inner.encode)]
  | plus inner => .record [("KleenePlus", inner.encode)]

def decode? : Document → Option Expr
  | .record [("Letter", d)] => (Letter.decode? d).map letter
  | .record [("Epsilon", d)] => (d.option? Document.id?).map epsilon
  | .record [("Choice", .list [l, r])] =>
      match decode? l, decode? r with
      | some left, some right => some (choice left right)
      | _, _ => none
  | .record [("Concatenation", .list [l, r])] =>
      match decode? l, decode? r with
      | some left, some right => some (concat left right)
      | _, _ => none
  | .record [("Optional", d)] => (decode? d).map optional
  | .record [("KleeneStar", d)] => (decode? d).map star
  | .record [("KleenePlus", d)] => (decode? d).map plus
  | _ => none

end Expr

end Recognizer
