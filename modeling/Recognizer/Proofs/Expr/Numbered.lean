import Recognizer.Proofs.Expr.Language
import Recognizer.Suite

/-!
# Numbered expressions

Numbering an expression keeps the tree and its symbols, and gives the leaves new positions
from left to right.  The positions that they had are forgotten, and no automaton depends on
them: all automata of an expression are those of the expression without any positions.
-/

namespace Recognizer

namespace Expr

/-- The tree with no positions. -/
def unnumbered : Expr → Expr
  | letter l => letter ⟨none, l.symbol⟩
  | epsilon _ => epsilon none
  | choice left right => choice left.unnumbered right.unnumbered
  | concat left right => concat left.unnumbered right.unnumbered
  | optional inner => optional inner.unnumbered
  | star inner => star inner.unnumbered
  | plus inner => plus inner.unnumbered

def leafPositions : Expr → List (Option Nat)
  | letter l => [l.position]
  | epsilon position => [position]
  | choice left right => left.leafPositions ++ right.leafPositions
  | concat left right => left.leafPositions ++ right.leafPositions
  | optional inner => inner.leafPositions
  | star inner => inner.leafPositions
  | plus inner => inner.leafPositions

def SameButPositions (e f : Expr) : Prop := e.unnumbered = f.unnumbered

instance (e f : Expr) : Decidable (e.SameButPositions f) := inferInstanceAs (Decidable (_ = _))

/-!
# What numbering does
-/

/-- One walk from left to right that hands on the next number that is free. -/
def numberLeaves (next : Nat) : Expr → Nat × Expr
  | letter l => (next + 1, letter ⟨some next, l.symbol⟩)
  | epsilon _ => (next + 1, epsilon (some next))
  | choice left right =>
      let (next, left) := left.numberLeaves next
      let (next, right) := right.numberLeaves next
      (next, choice left right)
  | concat left right =>
      let (next, left) := left.numberLeaves next
      let (next, right) := right.numberLeaves next
      (next, concat left right)
  | optional inner =>
      let (next, inner) := inner.numberLeaves next
      (next, optional inner)
  | star inner =>
      let (next, inner) := inner.numberLeaves next
      (next, star inner)
  | plus inner =>
      let (next, inner) := inner.numberLeaves next
      (next, plus inner)

theorem numberLeaves_eq (e : Expr) (first : Nat) :
    e.numberLeaves first = (first + e.leaves, e.numberedFrom first) := by
  induction e generalizing first with
  | letter l => rfl
  | epsilon _ => rfl
  | choice left right ihl ihr =>
      simp only [numberLeaves, numberedFrom, leaves, ihl, ihr, Nat.add_assoc]
  | concat left right ihl ihr =>
      simp only [numberLeaves, numberedFrom, leaves, ihl, ihr, Nat.add_assoc]
  | optional inner ih => simp only [numberLeaves, numberedFrom, leaves, ih]
  | star inner ih => simp only [numberLeaves, numberedFrom, leaves, ih]
  | plus inner ih => simp only [numberLeaves, numberedFrom, leaves, ih]

theorem unnumbered_numberedFrom (e : Expr) (first : Nat) :
    (e.numberedFrom first).unnumbered = e.unnumbered := by
  induction e generalizing first with
  | letter l => rfl
  | epsilon _ => rfl
  | choice left right ihl ihr => simp only [numberedFrom, unnumbered, ihl, ihr]
  | concat left right ihl ihr => simp only [numberedFrom, unnumbered, ihl, ihr]
  | optional inner ih => simp only [numberedFrom, unnumbered, ih]
  | star inner ih => simp only [numberedFrom, unnumbered, ih]
  | plus inner ih => simp only [numberedFrom, unnumbered, ih]

/-- The leaves have the numbers from the first one on. -/
theorem leafPositions_numberedFrom (e : Expr) (first : Nat) :
    (e.numberedFrom first).leafPositions = (List.range' first e.leaves).map some := by
  induction e generalizing first with
  | letter l => rfl
  | epsilon _ => rfl
  | choice left right ihl ihr =>
      simp only [numberedFrom, leafPositions, leaves, ihl, ihr]
      rw [← List.map_append, List.range'_append_1]
  | concat left right ihl ihr =>
      simp only [numberedFrom, leafPositions, leaves, ihl, ihr]
      rw [← List.map_append, List.range'_append_1]
  | optional inner ih => exact ih first
  | star inner ih => exact ih first
  | plus inner ih => exact ih first

@[simp] theorem leaves_unnumbered (e : Expr) : e.unnumbered.leaves = e.leaves := by
  induction e with
  | letter l => rfl
  | epsilon _ => rfl
  | choice left right ihl ihr => simp only [unnumbered, leaves, ihl, ihr]
  | concat left right ihl ihr => simp only [unnumbered, leaves, ihl, ihr]
  | optional inner ih => exact ih
  | star inner ih => exact ih
  | plus inner ih => exact ih

/-- Numbering does not look at the positions that are there. -/
theorem numberedFrom_unnumbered (e : Expr) (first : Nat) :
    e.unnumbered.numberedFrom first = e.numberedFrom first := by
  induction e generalizing first with
  | letter l => rfl
  | epsilon _ => rfl
  | choice left right ihl ihr => simp only [unnumbered, numberedFrom, leaves_unnumbered, ihl, ihr]
  | concat left right ihl ihr => simp only [unnumbered, numberedFrom, leaves_unnumbered, ihl, ihr]
  | optional inner ih => simp only [unnumbered, numberedFrom, ih]
  | star inner ih => simp only [unnumbered, numberedFrom, ih]
  | plus inner ih => simp only [unnumbered, numberedFrom, ih]

theorem SameButPositions.linearized_eq {e f : Expr} (h : e.SameButPositions f) :
    e.linearized = f.linearized := by
  unfold linearized
  rw [← numberedFrom_unnumbered e, ← numberedFrom_unnumbered f, h]

theorem sameButPositions_linearized (e : Expr) : e.linearized.SameButPositions e :=
  unnumbered_numberedFrom e 1

theorem SameButPositions.alphabet_eq {e f : Expr} (h : e.SameButPositions f) :
    e.alphabet = f.alphabet := by
  have hlanguage : e.language = f.language := by
    rw [← language_numberedFrom e 1, ← language_numberedFrom f 1]
    exact congrArg language h.linearized_eq
  exact alphabet_congr hlanguage

end Expr

/-!
# Automata of expressions without positions
-/

theorem Arena.addExpr_unnumbered (e : Expr) (a : Arena) :
    addExpr e.unnumbered a = addExpr e a := by
  induction e generalizing a with
  | letter l => rfl
  | epsilon _ => rfl
  | choice left right ihl ihr => simp only [Expr.unnumbered, addExpr, ihl, ihr]
  | concat left right ihl ihr => simp only [Expr.unnumbered, addExpr, ihl, ihr]
  | optional inner ih => simp only [Expr.unnumbered, addExpr, ih]
  | star inner ih => simp only [Expr.unnumbered, addExpr, ih]
  | plus inner ih => simp only [Expr.unnumbered, addExpr, ih]

namespace Expr.SameButPositions

variable {e f : Expr} (h : e.SameButPositions f)

include h

theorem ofPositions_eq : Nfa.ofPositions e = Nfa.ofPositions f := by
  unfold Nfa.ofPositions
  rw [h.linearized_eq, h.alphabet_eq]

theorem ofFragments_eq : Nfa.ofFragments e = Nfa.ofFragments f := by
  unfold Nfa.ofFragments
  rw [← Arena.addExpr_unnumbered e, ← Arena.addExpr_unnumbered f, h, h.alphabet_eq]

theorem get_ofExpr_eq (o : Options) (m : Member) :
    (Suite.ofExpr e o).get m = (Suite.ofExpr f o).get m := by
  unfold Suite.ofExpr
  rw [h.ofPositions_eq, h.ofFragments_eq]
  cases m with
  | positions => rfl
  | fragments => rfl
  | dfa => rfl
  | minimal => rfl

end Expr.SameButPositions

/-- The numbered expression has the tree and the symbols of the expression, and its leaves
carry `1, 2, …` from left to right.  Numbering it again changes nothing, and expressions
that differ in their positions only have the same automata. -/
theorem Expr.linearized_forgets_positions (e : Expr) :
    e.linearized.SameButPositions e ∧
      e.linearized.leafPositions = (List.range' 1 e.leaves).map some ∧
      e.linearized.linearized = e.linearized ∧
      ∀ f, e.SameButPositions f →
        Nfa.ofPositions e = Nfa.ofPositions f ∧ Nfa.ofFragments e = Nfa.ofFragments f ∧
          ∀ o m, (Suite.ofExpr e o).get m = (Suite.ofExpr f o).get m := by
  refine ⟨sameButPositions_linearized e, leafPositions_numberedFrom e 1,
    (sameButPositions_linearized e).linearized_eq, ?_⟩
  intro f h
  exact ⟨h.ofPositions_eq, h.ofFragments_eq, h.get_ofExpr_eq⟩

theorem Expr.linearized_forgets_positions_clashing :
    let e := concat (letter ⟨some 2, 'a'⟩) (star (choice (epsilon (some 2)) (letter ⟨some 2, 'a'⟩)))
    let f := concat (letter ⟨none, 'a'⟩) (star (choice (epsilon (some 7)) (letter ⟨some 1, 'a'⟩)))
    e.SameButPositions f ∧ e.linearized.leafPositions = [some 1, some 2, some 3] ∧
      Nfa.ofPositions e = Nfa.ofPositions f := by
  intro e f
  have hsame : e.SameButPositions f := by decide
  have hnumbers := linearized_forgets_positions e
  exact ⟨hsame, hnumbers.2.1, (hnumbers.2.2.2 f hsame).1⟩

end Recognizer
