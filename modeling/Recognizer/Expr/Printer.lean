import Recognizer.Expr.Basic
import Recognizer.Text.Quoted

/-!
# Writing expressions

Two written forms: the notation that is read back, with brackets only where the
precedence of the operators asks for them, and an outline that names every node
of the tree on one line.
-/

namespace Recognizer.Expr

/-!
# Notation
-/

/-- How tightly the outermost operator binds: a choice least, then a
concatenation, then everything that ends in an operator or is a leaf. -/
def precedence : Expr → Nat
  | choice _ _ => 0
  | concat _ _ => 1
  | _ => 2

def bracketed (needed : Bool) (text : String) : String :=
  if needed then "(" ++ text ++ ")" else text

/-- The expression in notation.  Positions are shown, although the notation that
is read has none. -/
def text : Expr → String
  | letter l => l.text
  | epsilon _ => "ε"
  | choice left right => left.text ++ "|" ++ bracketed (right.precedence < 1) right.text
  | concat left right =>
      bracketed (left.precedence < 1) left.text ++ bracketed (right.precedence < 2) right.text
  | optional inner => bracketed (inner.precedence < 2) inner.text ++ "?"
  | star inner => bracketed (inner.precedence < 2) inner.text ++ "*"
  | plus inner => bracketed (inner.precedence < 2) inner.text ++ "+"

/-!
# Outline
-/

def outlinePosition : Option Nat → String
  | none => "None"
  | some p => "Some(" ++ toString p ++ ")"

def outline : Expr → String
  | letter l =>
      "Letter(Letter \x7b position: " ++ outlinePosition l.position ++ ", symbol: "
        ++ Text.quotedChar l.symbol ++ " \x7d)"
  | epsilon position => "Epsilon(" ++ outlinePosition position ++ ")"
  | choice left right => "Choice(" ++ left.outline ++ ", " ++ right.outline ++ ")"
  | concat left right => "Concatenation(" ++ left.outline ++ ", " ++ right.outline ++ ")"
  | optional inner => "Optional(" ++ inner.outline ++ ")"
  | star inner => "KleeneStar(" ++ inner.outline ++ ")"
  | plus inner => "KleenePlus(" ++ inner.outline ++ ")"

end Recognizer.Expr
