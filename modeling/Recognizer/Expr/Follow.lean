import Recognizer.Expr.Basic

/-!
# First, last and following letters

Which letters a word of an expression can begin with, which ones it can end
with, and which ones can stand side by side in it.  For a numbered expression
these sets, together with `nullable`, determine the words.
-/

namespace Recognizer

structure LetterPair where
  before : Letter
  after : Letter
deriving DecidableEq, Repr

namespace LetterPair

instance : Ord LetterPair := ⟨compareLex (compareOn LetterPair.before) (compareOn LetterPair.after)⟩

instance : Std.TransOrd LetterPair :=
  inferInstanceAs
    (Std.TransCmp (compareLex (compareOn LetterPair.before) (compareOn LetterPair.after)))

instance : Std.LawfulEqOrd LetterPair where
  compare_self := Std.ReflCmp.compare_self
  eq_of_compare := by
    rintro ⟨a, b⟩ ⟨c, d⟩ h
    have ⟨hbefore, hafter⟩ := Ordering.then_eq_eq.mp h
    have hb : a = c := Std.LawfulEqCmp.eq_of_compare hbefore
    have ha : b = d := Std.LawfulEqCmp.eq_of_compare hafter
    rw [hb, ha]

def text (p : LetterPair) : String := p.before.text ++ p.after.text

end LetterPair

def SortedSet.pairs (before after : SortedSet Letter) : SortedSet LetterPair :=
  .ofList (before.toList.flatMap fun a => after.toList.map fun b => ⟨a, b⟩)

namespace Expr

def firsts : Expr → SortedSet Letter
  | letter l => .singleton l
  | epsilon _ => .empty
  | choice left right => left.firsts.union right.firsts
  | concat left right =>
      if left.nullable then left.firsts.union right.firsts else left.firsts
  | optional inner => inner.firsts
  | star inner => inner.firsts
  | plus inner => inner.firsts

def lasts : Expr → SortedSet Letter
  | letter l => .singleton l
  | epsilon _ => .empty
  | choice left right => left.lasts.union right.lasts
  | concat left right =>
      if right.nullable then left.lasts.union right.lasts else right.lasts
  | optional inner => inner.lasts
  | star inner => inner.lasts
  | plus inner => inner.lasts

/-- The pairs of letters that can stand side by side in a word. -/
def follows : Expr → SortedSet LetterPair
  | letter _ => .empty
  | epsilon _ => .empty
  | choice left right => left.follows.union right.follows
  | concat left right =>
      (left.follows.union right.follows).union (.pairs left.lasts right.firsts)
  | optional inner => inner.follows
  | star inner => inner.follows.union (.pairs inner.lasts inner.firsts)
  | plus inner => inner.follows.union (.pairs inner.lasts inner.firsts)

end Expr

end Recognizer
