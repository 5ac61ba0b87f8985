import Recognizer.Expr.Printer
import Recognizer.Proofs.Expr.Reading

/-!
# Reading what was written

An expression in notation is a text that the grammar derives, at the level of its
outermost operator, and its brackets nest no deeper than the expression is high.  So the
expressions that are read back from their own text are the ones the grammar has texts for,
as far as they are not too high.
-/

namespace Recognizer.Expr

/-- Nothing but what the notation can say: no positions, and only symbols that are read. -/
def Plain : Expr → Prop
  | letter l => l.position = none ∧ IsSymbol l.symbol
  | epsilon position => position = none
  | choice left right => left.Plain ∧ right.Plain
  | concat left right => left.Plain ∧ right.Plain
  | optional inner => inner.Plain
  | star inner => inner.Plain
  | plus inner => inner.Plain

theorem IsOperator.plain_iff {c : Char} {apply : Expr → Expr} (h : IsOperator c apply) (e : Expr) :
    (apply e).Plain ↔ e.Plain := by
  cases h <;> rfl

theorem Derives.plain {t : Tier} {u : List Char} {e : Expr} (h : Derives t u e) : e.Plain := by
  induction h with
  | group _ ih => exact ih
  | letter hc => exact ⟨rfl, hc⟩
  | epsilon => rfl
  | atom _ ih => exact ih
  | operator _ hc ih => exact (hc.plain_iff _).mpr ih
  | suffixed _ ih => exact ih
  | concat _ _ ihleft ihright => exact ⟨ihleft, ihright⟩
  | alternative _ ih => exact ih
  | choice _ _ ihleft ihright => exact ⟨ihleft, ihright⟩

theorem Plain.isSymbol_of_mem_letters {l : Letter} {e : Expr} (h : e.Plain) (hl : l ∈ e.letters) :
    IsSymbol l.symbol := by
  induction e with
  | letter k => exact List.mem_singleton.mp hl ▸ h.2
  | epsilon position => cases hl
  | choice left right ihl ihr =>
      cases List.mem_append.mp hl with
      | inl hl => exact ihl h.1 hl
      | inr hl => exact ihr h.2 hl
  | concat left right ihl ihr =>
      cases List.mem_append.mp hl with
      | inl hl => exact ihl h.1 hl
      | inr hl => exact ihr h.2 hl
  | optional inner ih => exact ih h hl
  | star inner ih => exact ih h hl
  | plus inner ih => exact ih h hl

theorem Plain.isSymbol_of_mem_alphabet {c : Char} {e : Expr} (h : e.Plain) (hc : c ∈ e.alphabet) :
    IsSymbol c := by
  rcases List.mem_map.mp (SortedSet.mem_ofList.mp hc) with ⟨l, hl, rfl⟩
  exact h.isSymbol_of_mem_letters hl

/-!
# Levels

A text of a tighter level is one of every looser level, and brackets bring an operand to
the tightest one.
-/

def tierOf : Nat → Tier
  | 0 => .choice
  | 1 => .concat
  | _ => .suffixed

section Levels

variable {n m : Nat} {u : List Char} {e : Expr}

theorem Derives.loosen (h : Derives (tierOf m) u e) (hle : n ≤ m) : Derives (tierOf n) u e := by
  match n, m, hle with
  | 0, 0, _ => exact h
  | 0, 1, _ => exact h.alternative
  | 0, _ + 2, _ => exact h.suffixed.alternative
  | 1, 1, _ => exact h
  | 1, _ + 2, _ => exact h.suffixed
  | _ + 2, _ + 2, _ => exact h

theorem toList_bracketed_true (text : String) :
    (bracketed true text).toList = '(' :: text.toList ++ [')'] := by
  simp [bracketed]

theorem Derives.bracketed (h : Derives (tierOf e.precedence) e.text.toList e) :
    Derives (tierOf n) (bracketed (e.precedence < n) e.text).toList e := by
  by_cases hloose : e.precedence < n
  · rw [decide_eq_true hloose, toList_bracketed_true]
    have hgroup := (h.loosen (Nat.zero_le _)).group
    have hsuffixed : Derives (tierOf (n + 2)) _ e := hgroup.atom
    exact hsuffixed.loosen (Nat.le_add_right n 2)
  · rw [decide_eq_false hloose]
    exact h.loosen (Nat.le_of_not_lt hloose)

theorem NestsWithin.mono (h : NestsWithin n u) (hle : n ≤ m) : NestsWithin m u := by
  intro p hp
  exact (h p hp).trans (Nat.add_le_add_left hle _)

theorem NestsWithin.bracketed (h : NestsWithin e.height e.text.toList) (hlt : e.height < n)
    (needed : Bool) : NestsWithin n (bracketed needed e.text).toList := by
  cases needed with
  | false => exact h.mono (Nat.le_of_lt hlt)
  | true =>
      rw [toList_bracketed_true]
      have hinner : NestsWithin (e.height + 1) ('(' :: e.text.toList ++ [')']) :=
        nestsWithin_group.mpr ⟨e.height, rfl, h⟩
      exact hinner.mono hlt

end Levels

/-!
# Texts of expressions
-/

section Texts

variable {left right e : Expr} {c : Char} {apply : Expr → Expr}

theorem toList_text_letter : (letter ⟨none, c⟩).text.toList = [c] := by
  simp [text, Letter.text]

theorem toList_text_epsilon {position : Option Nat} : (epsilon position).text.toList = ['ε'] := by
  simp [text]

theorem toList_text_choice : (choice left right).text.toList =
    left.text.toList ++ '|' :: (bracketed (right.precedence < 1) right.text).toList := by
  simp [text]

theorem toList_text_concat : (concat left right).text.toList =
    (bracketed (left.precedence < 1) left.text).toList ++
      (bracketed (right.precedence < 2) right.text).toList := by
  simp [text]

theorem IsOperator.toList_text (hc : IsOperator c apply) :
    (apply e).text.toList = (Expr.bracketed (e.precedence < 2) e.text).toList ++ [c] := by
  cases hc <;> simp [text]

theorem IsOperator.derives_text (hc : IsOperator c apply)
    (h : Derives (tierOf e.precedence) e.text.toList e) :
    Derives .suffixed (apply e).text.toList (apply e) := by
  have hinner : Derives .suffixed _ e := h.bracketed (n := 2)
  rw [hc.toList_text]
  exact hinner.operator hc

/-- The notation of a plain expression is derived at the level of its outermost operator. -/
theorem Plain.derives_text (h : e.Plain) : Derives (tierOf e.precedence) e.text.toList e := by
  induction e with
  | letter l =>
      rcases l with ⟨position, symbol⟩
      rcases h with ⟨rfl, hsymbol⟩
      rw [toList_text_letter]
      exact (Derives.letter hsymbol).atom
  | epsilon position =>
      cases h
      rw [toList_text_epsilon]
      exact Derives.epsilon.atom
  | choice left right ihleft ihright =>
      have hleft : Derives .choice _ left := (ihleft h.1).loosen (Nat.zero_le _)
      have hright : Derives .concat _ right := (ihright h.2).bracketed (n := 1)
      rw [toList_text_choice]
      exact hleft.choice hright
  | concat left right ihleft ihright =>
      have hleft : Derives .concat _ left := (ihleft h.1).bracketed (n := 1)
      have hright : Derives .suffixed _ right := (ihright h.2).bracketed (n := 2)
      rw [toList_text_concat]
      exact hleft.concat hright
  | optional inner ih => exact IsOperator.optional.derives_text (ih h)
  | star inner ih => exact IsOperator.star.derives_text (ih h)
  | plus inner ih => exact IsOperator.plus.derives_text (ih h)

theorem IsOperator.nestsWithin_text (hc : IsOperator c apply) (he : e.Plain)
    (h : NestsWithin e.height e.text.toList) :
    NestsWithin (apply e).height (apply e).text.toList := by
  have hinner : Derives .suffixed _ e := he.derives_text.bracketed (n := 2)
  rw [hc.toList_text, hc.height_eq, nestsWithin_append hinner.balanced]
  exact ⟨h.bracketed (Nat.lt_succ_self _) _, nestsWithin_singleton hc.ne.1⟩

/-- Brackets stand around operands only, so they nest no deeper than the operators. -/
theorem Plain.nestsWithin_text (h : e.Plain) : NestsWithin e.height e.text.toList := by
  induction e with
  | letter l =>
      rcases l with ⟨position, symbol⟩
      rcases h with ⟨rfl, hsymbol⟩
      rw [toList_text_letter]
      exact nestsWithin_singleton hsymbol.ne.1
  | epsilon position =>
      rw [toList_text_epsilon]
      exact nestsWithin_singleton (by decide)
  | choice left right ihleft ihright =>
      have hheight : (choice left right).height = 1 + max left.height right.height := rfl
      have hleft := (ihleft h.1).mono (m := (choice left right).height) (by omega)
      have hright := (ihright h.2).bracketed (n := (choice left right).height) (by omega)
        (right.precedence < 1)
      rw [toList_text_choice, nestsWithin_choice h.1.derives_text.balanced]
      exact ⟨hleft, hright⟩
  | concat left right ihleft ihright =>
      have hheight : (concat left right).height = 1 + max left.height right.height := rfl
      have hleft := (ihleft h.1).bracketed (n := (concat left right).height) (by omega)
        (left.precedence < 1)
      have hright := (ihright h.2).bracketed (n := (concat left right).height) (by omega)
        (right.precedence < 2)
      have hderives : Derives .concat _ left := h.1.derives_text.bracketed (n := 1)
      rw [toList_text_concat, nestsWithin_append hderives.balanced]
      exact ⟨hleft, hright⟩
  | optional inner ih => exact IsOperator.optional.nestsWithin_text h (ih h)
  | star inner ih => exact IsOperator.star.nestsWithin_text h (ih h)
  | plus inner ih => exact IsOperator.plus.nestsWithin_text h (ih h)

end Texts

/-!
# Round trips
-/

theorem plain_of_parsePrefix {text rest : String} {e : Expr}
    (h : parsePrefix text = .ok (e, rest)) : e.Plain ∧ e.height ≤ depthLimit := by
  rcases parsePrefix_eq_ok_iff.mp h with ⟨u, _, hderives, hheight, _⟩
  exact ⟨hderives.plain, hheight⟩

theorem Plain.parsePrefix_eq {e : Expr} (h : e.Plain) (hheight : e.height ≤ depthLimit) :
    parsePrefix e.text = .ok (e, "") := by
  have hderives : Derives .choice e.text.toList e := h.derives_text.loosen (Nat.zero_le _)
  exact parsePrefix_eq_ok_iff.mpr
    ⟨e.text, by simp, hderives, hheight, h.nestsWithin_text.mono hheight, not_goesOn_nil⟩

/-- The expressions that come back from their own text, with nothing left behind them, are
the plain ones within the limit; no other one comes back at all, and every one that was
read does. -/
theorem parsePrefix_text (e : Expr) :
    (parsePrefix e.text = .ok (e, "") ↔ e.Plain ∧ e.height ≤ depthLimit) ∧
    (¬ (e.Plain ∧ e.height ≤ depthLimit) → parse e.text ≠ .ok e) ∧
    ∀ text rest, parsePrefix text = .ok (e, rest) → parsePrefix e.text = .ok (e, "") := by
  refine ⟨?_, ?_, ?_⟩
  · constructor
    · exact plain_of_parsePrefix
    · rintro ⟨hplain, hheight⟩
      exact hplain.parsePrefix_eq hheight
  · intro hfails hparse
    unfold parse at hparse
    cases hread : parsePrefix e.text with
    | error err =>
        rw [hread] at hparse
        cases hparse
    | ok read =>
        rcases read with ⟨f, rest⟩
        rw [hread] at hparse
        cases hparse
        exact hfails (plain_of_parsePrefix hread)
  · intro text rest hread
    rcases plain_of_parsePrefix hread with ⟨hplain, hheight⟩
    exact hplain.parsePrefix_eq hheight

theorem parsePrefix_text_nested :
    parsePrefix (choice (letter ⟨none, 'a'⟩) (choice (letter ⟨none, 'b'⟩) (epsilon none))).text =
      .ok (choice (letter ⟨none, 'a'⟩) (choice (letter ⟨none, 'b'⟩) (epsilon none)), "") ∧
    parse (letter ⟨some 3, 'a'⟩).text ≠ .ok (letter ⟨some 3, 'a'⟩) := by
  constructor
  · exact (parsePrefix_text _).1.mpr ⟨by simp [Plain, IsSymbol], by decide⟩
  · exact (parsePrefix_text _).2.1 (by simp [Plain])

example : (choice (letter ⟨none, 'a'⟩) (choice (letter ⟨none, 'b'⟩) (epsilon none))).text =
    "a|(b|ε)" := by
  decide

end Recognizer.Expr
