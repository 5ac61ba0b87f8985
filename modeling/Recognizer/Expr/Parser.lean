import Recognizer.Expr.Basic

/-!
# Reading expressions

The notation, from the loosest to the tightest level:

    choice ::= concat ('|' concat)*
    concat ::= postfix postfix*
    postfix ::= atom ('+' | '*' | '?')*
    atom ::= '(' choice ')' | letter or digit | 'ε'

The operators associate to the left.  The longest prefix that can be read is
read: an element of a repetition that fails is given back and ends the
repetition.  Only a group that is never closed and an expression that nests too
deeply make the whole text fail.  Offsets count the bytes of the UTF-8 text.
-/

namespace Recognizer.Expr

/-- The height of the tallest tree that is read, and the depth of the deepest group. -/
def depthLimit : Nat := 500

/-!
# Failures
-/

/-- A limit, and the offset at which a text goes beyond it. -/
structure Excess where
  limit : Nat
  offset : Nat
deriving DecidableEq, Repr

inductive ParseError where
  | unexpectedEnd
  | unexpectedChar (found : Char) (offset : Nat)
  | unmatchedDelimiter (offset : Nat)
  | tooDeep (excess : Excess)
deriving DecidableEq, Repr

namespace ParseError

/-- Failures that end the reading of the whole text, and not only the repetition
in which they occur. -/
def isFatal : ParseError → Bool
  | unexpectedEnd => false
  | unexpectedChar _ _ => false
  | unmatchedDelimiter _ => true
  | tooDeep _ => true

def message : ParseError → String
  | unexpectedEnd => "unexpected end of expression"
  | unexpectedChar found offset =>
      "unexpected character '" ++ found.toString ++ "' at offset " ++ toString offset
  | unmatchedDelimiter offset => "'(' at offset " ++ toString offset ++ " is never closed"
  | tooDeep ⟨limit, offset⟩ =>
      "expression nests deeper than " ++ toString limit ++ " levels at offset " ++ toString offset

end ParseError

/-- What is left of the text, and the offset at which it starts. -/
structure Source where
  offset : Nat
  chars : List Char
deriving DecidableEq, Repr

structure Parsed where
  expr : Expr
  height : Nat
  rest : Source
deriving DecidableEq, Repr

abbrev Reading := Except ParseError Parsed

/-!
# Atoms and the operators behind them
-/

def isLetterSymbol (c : Char) : Bool := c.isAlphanum

/-- A group needs its closing bracket.  Whatever stops a group from being read
leaves its opening bracket, at the given offset, without a partner. -/
def closeGroup (offset : Nat) : Reading → Reading
  | .ok inner =>
      match inner.rest.chars with
      | ')' :: cs => .ok ⟨inner.expr, inner.height, ⟨inner.rest.offset + 1, cs⟩⟩
      | _ => .error (.unmatchedDelimiter offset)
  | .error e => .error (if e.isFatal then e else .unmatchedDelimiter offset)

/-- An atom; `group` reads the inside of a group, where another group may still open. -/
def readAtom (group : Option (Source → Reading)) (s : Source) : Reading :=
  match s.chars with
  | [] => .error .unexpectedEnd
  | c :: cs =>
      let next : Source := ⟨s.offset + c.utf8Size, cs⟩
      if c = '(' then
        match group with
        | none => .error (.tooDeep ⟨depthLimit, s.offset⟩)
        | some readInside => closeGroup s.offset (readInside next)
      else if c = 'ε' then
        .ok ⟨.epsilon none, 1, next⟩
      else if isLetterSymbol c then
        .ok ⟨.letter ⟨none, c⟩, 1, next⟩
      else
        .error (.unexpectedChar c s.offset)

def operator? : Char → Option (Expr → Expr)
  | '+' => some plus
  | '*' => some star
  | '?' => some optional
  | _ => none

def readOperators (e : Expr) (height offset : Nat) : List Char → Reading
  | [] => .ok ⟨e, height, ⟨offset, []⟩⟩
  | c :: cs =>
      match operator? c with
      | none => .ok ⟨e, height, ⟨offset, c :: cs⟩⟩
      | some apply =>
          if depthLimit < height + 1 then .error (.tooDeep ⟨depthLimit, offset⟩)
          else readOperators (apply e) (height + 1) (offset + 1) cs

def readPostfix (group : Option (Source → Reading)) (s : Source) : Reading :=
  match readAtom group s with
  | .ok p => readOperators p.expr p.height p.rest.offset p.rest.chars
  | .error e => .error e

/-!
# Repetitions
-/

def joined (join : Expr → Expr → Expr) (offset : Nat) (left right : Parsed) : Reading :=
  let height := 1 + max left.height right.height
  if depthLimit < height then .error (.tooDeep ⟨depthLimit, offset⟩)
  else .ok ⟨join left.expr right.expr, height, right.rest⟩

/-- Further elements of a concatenation.  Each one takes a character, so the
bound is not met before the text ends. -/
def readFurther (group : Option (Source → Reading)) : Nat → Parsed → Reading
  | 0, left => .ok left
  | bound + 1, left =>
      match readPostfix group left.rest with
      | .ok right =>
          match joined concat left.rest.offset left right with
          | .ok both => readFurther group bound both
          | .error e => .error e
      | .error e => if e.isFatal then .error e else .ok left

def readConcat (group : Option (Source → Reading)) (s : Source) : Reading :=
  match readPostfix group s with
  | .ok first => readFurther group first.rest.chars.length first
  | .error e => .error e

def readAlternatives (group : Option (Source → Reading)) : Nat → Parsed → Reading
  | 0, left => .ok left
  | bound + 1, left =>
      match left.rest.chars with
      | '|' :: cs =>
          let after : Source := ⟨left.rest.offset + 1, cs⟩
          match readConcat group after with
          | .ok right =>
              match joined choice after.offset left right with
              | .ok both => readAlternatives group bound both
              | .error e => .error e
          | .error e => if e.isFatal then .error e else .ok left
      | _ => .ok left

def readChoice (group : Option (Source → Reading)) (s : Source) : Reading :=
  match readConcat group s with
  | .ok first => readAlternatives group first.rest.chars.length first
  | .error e => .error e

/-!
# Whole texts
-/

def readNested : Nat → Source → Reading
  | 0 => readChoice none
  | depth + 1 => readChoice (some (readNested depth))

/-- The longest prefix of a text that can be read, and what follows it. -/
def parsePrefix (s : String) : Except ParseError (Expr × String) :=
  match readNested depthLimit ⟨0, s.toList⟩ with
  | .ok p => .ok (p.expr, String.ofList p.rest.chars)
  | .error e => .error e

/-- The longest prefix of a text that can be read.  What follows is ignored: the
text may still be in the writing. -/
def parse (s : String) : Except ParseError Expr := (parsePrefix s).map Prod.fst

end Recognizer.Expr
