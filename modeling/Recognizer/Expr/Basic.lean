import Recognizer.SortedSet

/-!
# Regular expressions

Expression trees over single characters.  A letter may carry a position; the
position is what tells two occurrences of one symbol apart once a tree has been
numbered from left to right.  Empty words are numbered along with the letters,
although they never stand at a position of a word.
-/

namespace Recognizer

/-- An occurrence of a symbol, with its position in a numbered expression. -/
structure Letter where
  position : Option Nat
  symbol : Char
deriving DecidableEq, Repr

namespace Letter

/-- Letters are ordered by position, those without one first, and then by symbol. -/
instance : Ord Letter := ⟨compareLex (compareOn Letter.position) (compareOn Letter.symbol)⟩

instance : Std.TransOrd Letter :=
  inferInstanceAs (Std.TransCmp (compareLex (compareOn Letter.position) (compareOn Letter.symbol)))

instance : Std.LawfulEqOrd Letter where
  compare_self := Std.ReflCmp.compare_self
  eq_of_compare := by
    rintro ⟨p, a⟩ ⟨q, b⟩ h
    have ⟨hpos, hsym⟩ := Ordering.then_eq_eq.mp h
    have hp : p = q := Std.LawfulEqCmp.eq_of_compare hpos
    have hs : a = b := Std.LawfulEqCmp.eq_of_compare hsym
    rw [hp, hs]

def text (l : Letter) : String :=
  match l.position with
  | some p => l.symbol.toString ++ "[" ++ toString p ++ "]"
  | none => l.symbol.toString

end Letter

inductive Expr where
  | letter (l : Letter)
  | epsilon (position : Option Nat)
  | choice (left right : Expr)
  | concat (left right : Expr)
  | optional (inner : Expr)
  | star (inner : Expr)
  | plus (inner : Expr)
deriving DecidableEq, Repr

namespace Expr

def nullable : Expr → Bool
  | letter _ => false
  | epsilon _ => true
  | choice left right => left.nullable || right.nullable
  | concat left right => left.nullable && right.nullable
  | optional _ => true
  | star _ => true
  | plus inner => inner.nullable

def letters : Expr → List Letter
  | letter l => [l]
  | epsilon _ => []
  | choice left right => left.letters ++ right.letters
  | concat left right => left.letters ++ right.letters
  | optional inner => inner.letters
  | star inner => inner.letters
  | plus inner => inner.letters

def alphabet (e : Expr) : SortedSet Char := .ofList (e.letters.map Letter.symbol)

def height : Expr → Nat
  | letter _ => 1
  | epsilon _ => 1
  | choice left right => 1 + max left.height right.height
  | concat left right => 1 + max left.height right.height
  | optional inner => 1 + inner.height
  | star inner => 1 + inner.height
  | plus inner => 1 + inner.height

def leaves : Expr → Nat
  | letter _ => 1
  | epsilon _ => 1
  | choice left right => left.leaves + right.leaves
  | concat left right => left.leaves + right.leaves
  | optional inner => inner.leaves
  | star inner => inner.leaves
  | plus inner => inner.leaves

/-- The same tree with its leaves numbered from left to right, from a given number on. -/
def numberedFrom (first : Nat) : Expr → Expr
  | letter l => letter ⟨some first, l.symbol⟩
  | epsilon _ => epsilon (some first)
  | choice left right =>
      choice (left.numberedFrom first) (right.numberedFrom (first + left.leaves))
  | concat left right =>
      concat (left.numberedFrom first) (right.numberedFrom (first + left.leaves))
  | optional inner => optional (inner.numberedFrom first)
  | star inner => star (inner.numberedFrom first)
  | plus inner => plus (inner.numberedFrom first)

def linearized (e : Expr) : Expr := e.numberedFrom 1

end Expr

end Recognizer
