import Recognizer.Proofs.Expr.Follow

/-!
# Words of different letters

When all letters of an expression are different, its words are known from their
borders and neighbours: such a word begins with a first letter, ends with a last
letter, and every letter in it may follow the one before.  The proof reads a word
from the left, and asks at each letter how the word can go on.
-/

namespace Recognizer

open Computability

namespace Expr

/-!
# How a word goes on

The letters after a given one continue it if each may follow the one before, and
the last of them all is a last letter.
-/

def Continues (e : Expr) : Letter → List Letter → Prop
  | a, [] => a ∈ e.lasts
  | a, b :: v => ⟨a, b⟩ ∈ e.follows ∧ e.Continues b v

theorem continues_append {e f : Expr} {a : Letter} {x y : List Letter}
    (hfollows : ∀ a b, ⟨a, b⟩ ∈ e.follows → ⟨a, b⟩ ∈ f.follows)
    (hy : ∀ a ∈ e.lasts, f.Continues a y) (hx : e.Continues a x) : f.Continues a (x ++ y) := by
  induction x generalizing a with
  | nil => exact hy a hx
  | cons b x ih => exact ⟨hfollows a b hx.1, ih hx.2⟩

theorem continues_mono {e f : Expr} {a : Letter} {v : List Letter}
    (hfollows : ∀ a b, ⟨a, b⟩ ∈ e.follows → ⟨a, b⟩ ∈ f.follows)
    (hlasts : ∀ a ∈ e.lasts, a ∈ f.lasts) (h : e.Continues a v) : f.Continues a v := by
  have := continues_append hfollows (y := []) hlasts h
  rwa [List.append_nil] at this

theorem continues_restrict {e f : Expr} {S : Letter → Prop}
    (hlasts : ∀ a, S a → a ∈ f.lasts → a ∈ e.lasts)
    (hfollows : ∀ a b, S a → ⟨a, b⟩ ∈ f.follows → ⟨a, b⟩ ∈ e.follows ∧ S b)
    {a : Letter} {v : List Letter} (ha : S a) (h : f.Continues a v) : e.Continues a v := by
  induction v generalizing a with
  | nil => exact hlasts a ha h
  | cons b v ih =>
      have hab := hfollows a b ha h.1
      exact ⟨hab.1, ih hab.2 h.2⟩

theorem continues_of_append {e : Expr} {a b : Letter} {x y : List Letter}
    (h : e.Continues a (x ++ b :: y)) : e.Continues b y := by
  induction x generalizing a with
  | nil => exact h.2
  | cons c x ih => exact ih h.2

/-!
# Choice and concatenation

The letters of the two sides are different, so a letter tells the side on which a
word is.
-/

section TwoSides

variable {left right : Expr} (hdisjoint : ∀ a ∈ left.letters, a ∉ right.letters)

include hdisjoint

theorem continues_choice_left {a : Letter} {v : List Letter} (ha : a ∈ left.letters) :
    (choice left right).Continues a v ↔ left.Continues a v := by
  constructor
  · apply continues_restrict (S := fun a => a ∈ left.letters)
    · intro a ha hlast
      rw [mem_lasts_choice] at hlast
      exact hlast.resolve_right (fun h => hdisjoint a ha (mem_letters_of_mem_lasts h))
    · intro a b ha hab
      rw [mem_follows_choice] at hab
      have hab := hab.resolve_right
        (fun h => hdisjoint a ha (mem_letters_of_mem_follows h).1)
      exact ⟨hab, (mem_letters_of_mem_follows hab).2⟩
    · exact ha
  · apply continues_mono
    · intro a b h
      exact mem_follows_choice.mpr (Or.inl h)
    · intro a h
      exact mem_lasts_choice.mpr (Or.inl h)

theorem continues_choice_right {a : Letter} {v : List Letter} (ha : a ∈ right.letters) :
    (choice left right).Continues a v ↔ right.Continues a v := by
  constructor
  · apply continues_restrict (S := fun a => a ∈ right.letters)
    · intro a ha hlast
      rw [mem_lasts_choice] at hlast
      exact hlast.resolve_left (fun h => hdisjoint a (mem_letters_of_mem_lasts h) ha)
    · intro a b ha hab
      rw [mem_follows_choice] at hab
      have hab := hab.resolve_left
        (fun h => hdisjoint a (mem_letters_of_mem_follows h).1 ha)
      exact ⟨hab, (mem_letters_of_mem_follows hab).2⟩
    · exact ha
  · apply continues_mono
    · intro a b h
      exact mem_follows_choice.mpr (Or.inr h)
    · intro a h
      exact mem_lasts_choice.mpr (Or.inr h)

theorem continues_concat_right {a : Letter} {v : List Letter} (ha : a ∈ right.letters) :
    (concat left right).Continues a v ↔ right.Continues a v := by
  constructor
  · apply continues_restrict (S := fun a => a ∈ right.letters)
    · intro a ha hlast
      rw [mem_lasts_concat] at hlast
      exact hlast.resolve_left (fun h => hdisjoint a (mem_letters_of_mem_lasts h.2) ha)
    · intro a b ha hab
      rw [mem_follows_concat] at hab
      rcases hab with hab | hab | hab
      · exact absurd ha (hdisjoint a (mem_letters_of_mem_follows hab).1)
      · exact ⟨hab, (mem_letters_of_mem_follows hab).2⟩
      · exact absurd ha (hdisjoint a (mem_letters_of_mem_lasts hab.1))
    · exact ha
  · apply continues_mono
    · intro a b h
      exact mem_follows_concat.mpr (Or.inr (Or.inl h))
    · intro a h
      exact mem_lasts_concat.mpr (Or.inr h)

/-- A word that is on the left side crosses over to a word of the right side. -/
theorem continues_concat_left
    (hwords : ∀ a v, a :: v ∈ right.words ↔ a ∈ right.firsts ∧ right.Continues a v)
    {a : Letter} {v : List Letter} (ha : a ∈ left.letters) :
    (concat left right).Continues a v ↔
      ∃ x y, v = x ++ y ∧ left.Continues a x ∧ y ∈ right.words := by
  constructor
  · intro h
    induction v generalizing a with
    | nil =>
        have hlast := mem_lasts_concat.mp h
        have hlast := hlast.resolve_right (fun h => hdisjoint a ha (mem_letters_of_mem_lasts h))
        exact ⟨[], [], rfl, hlast.2, nil_mem_denote.mpr hlast.1⟩
    | cons b v ih =>
        rcases mem_follows_concat.mp h.1 with hab | hab | hab
        · rcases ih (mem_letters_of_mem_follows hab).2 h.2 with ⟨x, y, rfl, hx, hy⟩
          exact ⟨b :: x, y, rfl, ⟨hab, hx⟩, hy⟩
        · exact absurd (mem_letters_of_mem_follows hab).1 (hdisjoint a ha)
        · have hb := mem_letters_of_mem_firsts hab.2
          have hright := (continues_concat_right hdisjoint hb).mp h.2
          exact ⟨[], b :: v, rfl, hab.1, (hwords b v).mpr ⟨hab.2, hright⟩⟩
  · intro h
    rcases h with ⟨x, y, rfl, hx, hy⟩
    refine continues_append ?_ ?_ hx
    · intro a b hab
      exact mem_follows_concat.mpr (Or.inl hab)
    · intro a hlast
      cases y with
      | nil => exact mem_lasts_concat.mpr (Or.inl ⟨nil_mem_denote.mp hy, hlast⟩)
      | cons b y =>
          have hb := (hwords b y).mp hy
          have hb_letters := mem_letters_of_mem_firsts hb.1
          have hright := (continues_concat_right hdisjoint hb_letters).mpr hb.2
          exact ⟨mem_follows_concat.mpr (Or.inr (Or.inr ⟨hlast, hb.1⟩)), hright⟩

end TwoSides

/-!
# Repetition

After a last letter a new turn may begin.
-/

theorem continues_star {inner : Expr}
    (hwords : ∀ a v, a :: v ∈ inner.words ↔ a ∈ inner.firsts ∧ inner.Continues a v)
    {a : Letter} {v : List Letter} :
    (star inner).Continues a v ↔
      ∃ x y, v = x ++ y ∧ inner.Continues a x ∧ y ∈ inner.words∗ := by
  constructor
  · intro h
    induction v generalizing a with
    | nil => exact ⟨[], [], rfl, h, Language.nil_mem_kstar _⟩
    | cons b v ih =>
        rcases ih h.2 with ⟨x, y, rfl, hx, hy⟩
        cases mem_follows_star.mp h.1 with
        | inl hab => exact ⟨b :: x, y, rfl, ⟨hab, hx⟩, hy⟩
        | inr hab =>
            have hturn : b :: x ∈ inner.words := (hwords b x).mpr ⟨hab.2, hx⟩
            exact ⟨[], b :: (x ++ y), rfl, hab.1, append_mem_kstar hturn hy⟩
  · intro h
    rcases h with ⟨x, y, rfl, hx, hy⟩
    have hfollows : ∀ a b, ⟨a, b⟩ ∈ inner.follows → ⟨a, b⟩ ∈ (star inner).follows := by
      intro a b hab
      exact mem_follows_star.mpr (Or.inl hab)
    refine continues_append hfollows ?_ hx
    rcases Language.mem_kstar.mp hy with ⟨turns, rfl, hturns⟩
    clear hx hy
    induction turns with
    | nil =>
        intro a ha
        exact ha
    | cons turn turns ih =>
        have ih := ih (fun z hz => hturns z (List.mem_cons_of_mem _ hz))
        intro a ha
        cases turn with
        | nil => exact ih a ha
        | cons b x =>
            have hb := (hwords b x).mp (hturns _ List.mem_cons_self)
            exact ⟨mem_follows_star.mpr (Or.inr ⟨ha, hb.1⟩), continues_append hfollows ih hb.2⟩

theorem continues_plus {inner : Expr} {a : Letter} {v : List Letter} :
    (plus inner).Continues a v ↔ (star inner).Continues a v := by
  induction v generalizing a with
  | nil => exact Iff.rfl
  | cons b v ih => exact and_congr Iff.rfl ih

theorem continues_optional {inner : Expr} {a : Letter} {v : List Letter} :
    (optional inner).Continues a v ↔ inner.Continues a v := by
  induction v generalizing a with
  | nil => exact Iff.rfl
  | cons b v ih => exact and_congr Iff.rfl ih

/-!
# The words of an expression with different letters
-/

theorem first_turn_iff {inner : Expr}
    (hwords : ∀ a v, a :: v ∈ inner.words ↔ a ∈ inner.firsts ∧ inner.Continues a v)
    {a : Letter} {v : List Letter} :
    (∃ x y, v = x ++ y ∧ a :: x ∈ inner.words ∧ y ∈ inner.words∗) ↔
      a ∈ inner.firsts ∧ (star inner).Continues a v := by
  rw [continues_star hwords]
  constructor
  · intro h
    rcases h with ⟨x, y, hv, hx, hy⟩
    have hx := (hwords a x).mp hx
    exact ⟨hx.1, x, y, hv, hx.2, hy⟩
  · intro h
    rcases h with ⟨ha, x, y, hv, hx, hy⟩
    exact ⟨x, y, hv, (hwords a x).mpr ⟨ha, hx⟩, hy⟩

theorem cons_mem_words_iff {e : Expr} (hnodup : e.letters.Nodup) {a : Letter} {v : List Letter} :
    a :: v ∈ e.words ↔ a ∈ e.firsts ∧ e.Continues a v := by
  induction e generalizing a v with
  | letter l =>
      cases v with
      | nil => simp [words, firsts, Continues, lasts]
      | cons b v => simp [words, Continues, follows]
  | epsilon _ => simp [words, firsts]
  | choice left right ihl ihr =>
      rcases List.nodup_append.mp hnodup with ⟨hleft, hright, hne⟩
      have hdisjoint : ∀ a ∈ left.letters, a ∉ right.letters :=
        fun a ha ha' => hne a ha a ha' rfl
      have ihl := ihl hleft (a := a) (v := v)
      have ihr := ihr hright (a := a) (v := v)
      unfold words at ihl ihr ⊢
      rw [mem_denote_choice, mem_firsts_choice, ihl, ihr, or_and_right]
      apply or_congr
      · apply and_congr_right
        intro ha
        exact (continues_choice_left hdisjoint (mem_letters_of_mem_firsts ha)).symm
      · apply and_congr_right
        intro ha
        exact (continues_choice_right hdisjoint (mem_letters_of_mem_firsts ha)).symm
  | concat left right ihl ihr =>
      rcases List.nodup_append.mp hnodup with ⟨hleft, hright, hne⟩
      have hdisjoint : ∀ a ∈ left.letters, a ∉ right.letters :=
        fun a ha ha' => hne a ha a ha' rfl
      have ihl := fun a v => ihl hleft (a := a) (v := v)
      have ihr := fun a v => ihr hright (a := a) (v := v)
      rw [mem_firsts_concat]
      constructor
      · intro h
        rcases mem_denote_concat.mp h with ⟨x, hx, y, hy, hxy⟩
        cases x with
        | nil =>
            rw [List.nil_append] at hxy
            rw [hxy] at hy
            have hav := (ihr a v).mp hy
            have ha := mem_letters_of_mem_firsts hav.1
            exact ⟨Or.inr ⟨nil_mem_denote.mp hx, hav.1⟩,
              (continues_concat_right hdisjoint ha).mpr hav.2⟩
        | cons b x =>
            injection hxy with hba hv
            rw [hba] at hx
            have hax := (ihl a x).mp hx
            have ha := mem_letters_of_mem_firsts hax.1
            exact ⟨Or.inl hax.1,
              (continues_concat_left hdisjoint ihr ha).mpr ⟨x, y, hv.symm, hax.2, hy⟩⟩
      · intro h
        apply mem_denote_concat.mpr
        cases h.1 with
        | inl hfirst =>
            have ha := mem_letters_of_mem_firsts hfirst
            rcases (continues_concat_left hdisjoint ihr ha).mp h.2 with ⟨x, y, hv, hx, hy⟩
            exact ⟨a :: x, (ihl a x).mpr ⟨hfirst, hx⟩, y, hy, by rw [hv, List.cons_append]⟩
        | inr hfirst =>
            have ha := mem_letters_of_mem_firsts hfirst.2
            have hav := (continues_concat_right hdisjoint ha).mp h.2
            exact ⟨[], nil_mem_denote.mpr hfirst.1, a :: v, (ihr a v).mpr ⟨hfirst.2, hav⟩, rfl⟩
  | optional inner ih =>
      have hoptional : a :: v ∈ (optional inner).words ↔ a :: v ∈ inner.words := by
        simp [words]
      rw [hoptional, ih hnodup, continues_optional]
      exact Iff.rfl
  | star inner ih =>
      exact cons_mem_kstar.trans (first_turn_iff (fun a v => ih hnodup))
  | plus inner ih =>
      rw [continues_plus]
      exact cons_mem_mul_kstar.trans (first_turn_iff (fun a v => ih hnodup))

theorem exists_continues {e : Expr} (hnodup : e.letters.Nodup) {a : Letter}
    (ha : a ∈ e.letters) : ∃ v, e.Continues a v := by
  rcases mem_letters_iff.mp ha with ⟨w, hw, haw⟩
  rcases List.append_of_mem haw with ⟨x, y, rfl⟩
  cases x with
  | nil => exact ⟨y, ((cons_mem_words_iff hnodup).mp hw).2⟩
  | cons b x => exact ⟨y, continues_of_append ((cons_mem_words_iff hnodup).mp hw).2⟩

/-!
# Words pieced together

What continues a letter is known from neighbours and from the last letter, so a word of
different letters is any sequence whose ends and neighbours are allowed.
-/

/-- The word is empty, which has to be allowed, or it begins with a first letter, ends with a
last letter, and in it every letter is followed by one that may follow it. -/
def AllowsLocally (e : Expr) (w : List Letter) : Prop :=
  (w = [] ∧ e.nullable = true) ∨
    ∃ h : w ≠ [], w.head h ∈ e.firsts ∧ w.getLast h ∈ e.lasts ∧
      ∀ a b, [a, b] <:+: w → ⟨a, b⟩ ∈ e.follows

theorem not_pair_infix_singleton {a b c : Letter} : ¬ [b, c] <:+: [a] := by
  intro h
  have := h.length_le
  simp at this

theorem pair_infix_cons_cons {a b c d : Letter} {v : List Letter} :
    [b, c] <:+: a :: d :: v ↔ (b = a ∧ c = d) ∨ [b, c] <:+: d :: v := by
  rw [List.infix_cons_iff, List.cons_prefix_cons, List.cons_prefix_cons]
  simp

theorem continues_iff {e : Expr} {a : Letter} {v : List Letter} :
    e.Continues a v ↔ (a :: v).getLast (List.cons_ne_nil a v) ∈ e.lasts ∧
      ∀ b c, [b, c] <:+: a :: v → ⟨b, c⟩ ∈ e.follows := by
  induction v generalizing a with
  | nil =>
      constructor
      · intro h
        exact ⟨h, fun b c hpair => absurd hpair not_pair_infix_singleton⟩
      · intro h
        exact h.1
  | cons d v ih =>
      rw [List.getLast_cons (List.cons_ne_nil d v)]
      constructor
      · intro h
        have hrest := ih.mp h.2
        refine ⟨hrest.1, fun b c hpair => ?_⟩
        rcases pair_infix_cons_cons.mp hpair with ⟨rfl, rfl⟩ | hpair
        · exact h.1
        · exact hrest.2 b c hpair
      · intro h
        refine ⟨h.2 a d (pair_infix_cons_cons.mpr (Or.inl ⟨rfl, rfl⟩)), ih.mpr ⟨h.1, ?_⟩⟩
        intro b c hpair
        exact h.2 b c (pair_infix_cons_cons.mpr (Or.inr hpair))

theorem mem_words_iff_allowsLocally {e : Expr} (hnodup : e.letters.Nodup) {w : List Letter} :
    w ∈ e.words ↔ e.AllowsLocally w := by
  cases w with
  | nil =>
      have hempty : [] ∈ e.words ↔ e.nullable = true := nil_mem_denote
      rw [hempty]
      constructor
      · intro h
        exact Or.inl ⟨rfl, h⟩
      · intro h
        rcases h with ⟨_, h⟩ | ⟨h, _⟩
        · exact h
        · exact absurd rfl h
  | cons a v =>
      rw [cons_mem_words_iff hnodup, continues_iff]
      constructor
      · intro h
        exact Or.inr ⟨List.cons_ne_nil a v, h⟩
      · intro h
        rcases h with ⟨h, _⟩ | ⟨_, h⟩
        · cases h
        · exact h

/-- The words of a numbered expression are known from their ends and neighbours. -/
theorem mem_words_linearized_iff (e : Expr) (w : List Letter) :
    w ∈ e.linearized.words ↔ e.linearized.AllowsLocally w :=
  mem_words_iff_allowsLocally (nodup_letters_linearized e)

/-- Letters have to be different for that: a letter in front of itself allows a word of one
letter, since the two occurrences of the letter cannot be told apart. -/
theorem allowsLocally_twice (l : Letter) :
    (concat (letter l) (letter l)).AllowsLocally [l] ∧
      [l] ∉ (concat (letter l) (letter l)).words := by
  constructor
  · refine Or.inr ⟨List.cons_ne_nil l [], ?_, ?_, ?_⟩
    · exact mem_firsts_concat.mpr (Or.inl (SortedSet.mem_singleton.mpr rfl))
    · exact mem_lasts_concat.mpr (Or.inr (SortedSet.mem_singleton.mpr rfl))
    · intro a b hpair
      exact absurd hpair not_pair_infix_singleton
  · intro h
    rcases mem_denote_concat.mp h with ⟨x, rfl, y, rfl, hxy⟩
    cases hxy

end Expr

end Recognizer
