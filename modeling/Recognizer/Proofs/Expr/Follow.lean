import Recognizer.Proofs.Expr.Language
import Recognizer.Expr.Follow

/-!
# What the sets of letters mean

The first letters of an expression are those that its words begin with, the last ones those
that its words end with, and the following ones those that stand side by side in a word.
This holds of every expression, numbered or not: each set is made by the rule that sums,
products and repetitions of languages follow, as long as none of the languages is empty.
-/

namespace Recognizer

open Computability

theorem append_eq_append_cons_cases {α : Type} {x y u v : List α} {a : α}
    (h : x ++ y = u ++ a :: v) :
    (∃ w, u = x ++ w ∧ y = w ++ a :: v) ∨ ∃ w, x = u ++ a :: w ∧ v = w ++ y := by
  rcases List.append_eq_append_iff.mp h with ⟨w, hu, hy⟩ | ⟨w, hx, hw⟩
  · exact Or.inl ⟨w, hu, hy⟩
  · cases w with
    | nil =>
        rw [List.append_nil] at hx
        exact Or.inl ⟨[], by rw [hx, List.append_nil], hw.symm⟩
    | cons b w =>
        injection hw with hab hv
        exact Or.inr ⟨w, hab ▸ hx, hv⟩

theorem mem_kstar_of_mem {α : Type} {l : Language α} {x : List α} (hx : x ∈ l) : x ∈ l∗ :=
  (le_kstar : l ≤ l∗) hx

/-!
# The letters at the borders of words
-/

def HasFirst {α : Type} (l : Language α) (a : α) : Prop := ∃ v, a :: v ∈ l

def HasLast {α : Type} (l : Language α) (a : α) : Prop := ∃ u, u ++ [a] ∈ l

def HasPair {α : Type} (l : Language α) (a b : α) : Prop := ∃ u v, u ++ a :: b :: v ∈ l

section Borders

variable {α : Type} {l m : Language α} {a b : α}

theorem hasFirst_singleton : HasFirst ({[b]} : Language α) a ↔ a = b := by
  constructor
  · intro h
    rcases h with ⟨v, hv⟩
    injection Set.mem_singleton_iff.mp hv
  · intro h
    exact ⟨[], congrArg (· :: []) h⟩

theorem not_hasFirst_one : ¬ HasFirst (1 : Language α) a := by
  intro h
  rcases h with ⟨v, hv⟩
  cases (Language.mem_one _).mp hv

theorem hasFirst_add : HasFirst (l + m) a ↔ HasFirst l a ∨ HasFirst m a := exists_or

theorem hasFirst_mul (hm : ∃ y, y ∈ m) :
    HasFirst (l * m) a ↔ HasFirst l a ∨ [] ∈ l ∧ HasFirst m a := by
  constructor
  · intro h
    rcases h with ⟨v, h⟩
    rcases Language.mem_mul.mp h with ⟨x, hx, y, hy, hxy⟩
    cases x with
    | nil =>
        rw [List.nil_append] at hxy
        exact Or.inr ⟨hx, v, hxy ▸ hy⟩
    | cons c x =>
        injection hxy with hca _
        exact Or.inl ⟨x, hca ▸ hx⟩
  · intro h
    cases h with
    | inl h =>
        rcases h with ⟨v, hv⟩
        rcases hm with ⟨y, hy⟩
        exact ⟨v ++ y, Language.append_mem_mul hv hy⟩
    | inr h =>
        rcases h.2 with ⟨v, hv⟩
        exact ⟨v, Language.append_mem_mul h.1 hv⟩

theorem hasFirst_kstar : HasFirst l∗ a ↔ HasFirst l a := by
  constructor
  · intro h
    rcases h with ⟨v, h⟩
    rcases cons_mem_kstar.mp h with ⟨x, _, _, hx, _⟩
    exact ⟨x, hx⟩
  · intro h
    rcases h with ⟨v, hv⟩
    exact ⟨v, mem_kstar_of_mem hv⟩

theorem hasLast_iff_hasFirst_reverse : HasLast l a ↔ HasFirst l.reverse a := by
  constructor
  · intro h
    rcases h with ⟨u, hu⟩
    refine ⟨u.reverse, Language.mem_reverse.mpr ?_⟩
    rwa [List.reverse_cons, List.reverse_reverse]
  · intro h
    rcases h with ⟨v, hv⟩
    have hv := Language.mem_reverse.mp hv
    rw [List.reverse_cons] at hv
    exact ⟨v.reverse, hv⟩

theorem hasLast_singleton : HasLast ({[b]} : Language α) a ↔ a = b := by
  have hreverse : ({[b]} : Language α).reverse = ({[b]} : Language α) := by
    rw [Language.reverse_eq_image]
    exact Set.image_singleton
  rw [hasLast_iff_hasFirst_reverse, hreverse, hasFirst_singleton]

theorem not_hasLast_one : ¬ HasLast (1 : Language α) a := by
  rw [hasLast_iff_hasFirst_reverse, Language.reverse_one]
  exact not_hasFirst_one

theorem hasLast_add : HasLast (l + m) a ↔ HasLast l a ∨ HasLast m a := exists_or

theorem hasLast_mul (hl : ∃ x, x ∈ l) :
    HasLast (l * m) a ↔ [] ∈ m ∧ HasLast l a ∨ HasLast m a := by
  have hl : ∃ x, x ∈ l.reverse := by
    rcases hl with ⟨x, hx⟩
    exact ⟨x.reverse, Language.reverse_mem_reverse.mpr hx⟩
  rw [hasLast_iff_hasFirst_reverse, Language.reverse_mul, hasFirst_mul hl,
    ← hasLast_iff_hasFirst_reverse, ← hasLast_iff_hasFirst_reverse]
  exact or_comm

theorem hasLast_kstar : HasLast l∗ a ↔ HasLast l a := by
  rw [hasLast_iff_hasFirst_reverse, Language.reverse_kstar, hasFirst_kstar,
    ← hasLast_iff_hasFirst_reverse]

/-- Two neighbours in a word of two parts are in the first part or in the second, or the
border is between them. -/
theorem pair_append_cases {x y u v : List α} (h : x ++ y = u ++ a :: b :: v) :
    (∃ w, x = u ++ a :: b :: w) ∨ (∃ w, y = w ++ a :: b :: v) ∨ x = u ++ [a] ∧ y = b :: v := by
  rcases append_eq_append_cons_cases h with ⟨w, _, hy⟩ | ⟨w, hx, hw⟩
  · exact Or.inr (Or.inl ⟨w, hy⟩)
  · cases w with
    | nil => exact Or.inr (Or.inr ⟨hx, hw.symm⟩)
    | cons d w =>
        injection hw with hbd _
        exact Or.inl ⟨w, hbd ▸ hx⟩

theorem not_hasPair_of_length {l : Language α} (hl : ∀ x ∈ l, x.length ≤ 1) :
    ¬ HasPair l a b := by
  intro h
  rcases h with ⟨u, v, h⟩
  have hlength := hl _ h
  simp only [List.length_append, List.length_cons] at hlength
  omega

theorem not_hasPair_singleton {c : α} : ¬ HasPair ({[c]} : Language α) a b := by
  apply not_hasPair_of_length
  intro x hx
  rw [Set.mem_singleton_iff.mp hx]
  exact Nat.le_refl 1

theorem not_hasPair_one : ¬ HasPair (1 : Language α) a b := by
  apply not_hasPair_of_length
  intro x hx
  rw [(Language.mem_one x).mp hx]
  exact Nat.zero_le 1

theorem hasPair_add : HasPair (l + m) a b ↔ HasPair l a b ∨ HasPair m a b :=
  (exists_congr fun _ => exists_or).trans exists_or

theorem hasPair_mul (hl : ∃ x, x ∈ l) (hm : ∃ y, y ∈ m) :
    HasPair (l * m) a b ↔ HasPair l a b ∨ HasPair m a b ∨ HasLast l a ∧ HasFirst m b := by
  constructor
  · intro h
    rcases h with ⟨u, v, h⟩
    rcases Language.mem_mul.mp h with ⟨x, hx, y, hy, hxy⟩
    rcases pair_append_cases hxy with ⟨w, rfl⟩ | ⟨w, rfl⟩ | ⟨rfl, rfl⟩
    · exact Or.inl ⟨u, w, hx⟩
    · exact Or.inr (Or.inl ⟨w, v, hy⟩)
    · exact Or.inr (Or.inr ⟨⟨u, hx⟩, v, hy⟩)
  · intro h
    rcases h with ⟨u, v, hx⟩ | ⟨u, v, hy⟩ | ⟨⟨u, hx⟩, v, hy⟩
    · rcases hm with ⟨y, hy⟩
      have hword := Language.append_mem_mul hx hy
      rw [List.append_assoc] at hword
      exact ⟨u, v ++ y, hword⟩
    · rcases hl with ⟨x, hx⟩
      have hword := Language.append_mem_mul hx hy
      rw [← List.append_assoc] at hword
      exact ⟨x ++ u, v, hword⟩
    · have hword := Language.append_mem_mul hx hy
      rw [List.append_assoc] at hword
      exact ⟨u, v, hword⟩

theorem hasPair_kstar : HasPair l∗ a b ↔ HasPair l a b ∨ HasLast l a ∧ HasFirst l b := by
  constructor
  · intro h
    rcases h with ⟨u, v, h⟩
    rcases Language.mem_kstar.mp h with ⟨turns, hturns, hmem⟩
    clear h
    -- the pair is in the first turn, behind it, or begins with its last letter
    induction turns generalizing u with
    | nil => cases u <;> cases hturns
    | cons turn turns ih =>
        have hturn := hmem turn List.mem_cons_self
        have hrest : ∀ x ∈ turns, x ∈ l := fun x hx => hmem x (List.mem_cons_of_mem turn hx)
        rw [List.flatten_cons] at hturns
        rcases pair_append_cases hturns.symm with ⟨w, rfl⟩ | ⟨w, hw⟩ | ⟨rfl, hv⟩
        · exact Or.inl ⟨u, w, hturn⟩
        · exact ih w hw.symm hrest
        · have hfirst : HasFirst l∗ b := ⟨v, hv ▸ Language.join_mem_kstar hrest⟩
          exact Or.inr ⟨⟨u, hturn⟩, hasFirst_kstar.mp hfirst⟩
  · intro h
    rcases h with ⟨u, v, hx⟩ | ⟨⟨u, hx⟩, v, hy⟩
    · exact ⟨u, v, mem_kstar_of_mem hx⟩
    · have hword := append_mem_kstar hx (mem_kstar_of_mem hy)
      rw [List.append_assoc] at hword
      exact ⟨u, v, hword⟩

/-!
A language and its repetitions behind each other have the same borders as the repetitions.
-/

theorem hasFirst_mul_kstar : HasFirst (l * l∗) a ↔ HasFirst l a := by
  rw [hasFirst_mul ⟨[], Language.nil_mem_kstar l⟩, hasFirst_kstar]
  exact or_iff_left_of_imp And.right

theorem hasLast_mul_kstar (hl : ∃ x, x ∈ l) : HasLast (l * l∗) a ↔ HasLast l a := by
  rw [hasLast_mul hl, hasLast_kstar]
  exact or_iff_right_of_imp And.right

theorem hasPair_mul_kstar (hl : ∃ x, x ∈ l) :
    HasPair (l * l∗) a b ↔ HasPair l a b ∨ HasLast l a ∧ HasFirst l b := by
  rw [hasPair_mul hl ⟨[], Language.nil_mem_kstar l⟩, hasPair_kstar, hasFirst_kstar, or_assoc,
    or_self, ← or_assoc, or_self]

end Borders

@[simp] theorem SortedSet.mem_pairs {before after : SortedSet Letter} {a b : Letter} :
    (⟨a, b⟩ : LetterPair) ∈ SortedSet.pairs before after ↔ a ∈ before ∧ b ∈ after := by
  rw [pairs, mem_ofList, List.mem_flatMap]
  constructor
  · intro h
    rcases h with ⟨c, hc, h⟩
    rcases List.mem_map.mp h with ⟨d, hd, hpair⟩
    injection hpair with hca hdb
    exact ⟨hca ▸ hc, hdb ▸ hd⟩
  · intro h
    exact ⟨a, h.1, List.mem_map.mpr ⟨b, h.2, rfl⟩⟩

namespace Expr

/-!
# Membership in the three sets
-/

section Membership

variable {left right inner : Expr} {a b : Letter}

@[simp] theorem mem_firsts_choice :
    a ∈ (choice left right).firsts ↔ a ∈ left.firsts ∨ a ∈ right.firsts := by
  simp [firsts]

@[simp] theorem mem_firsts_concat :
    a ∈ (concat left right).firsts ↔
      a ∈ left.firsts ∨ left.nullable = true ∧ a ∈ right.firsts := by
  rw [firsts]
  split <;> simp_all

@[simp] theorem mem_lasts_choice :
    a ∈ (choice left right).lasts ↔ a ∈ left.lasts ∨ a ∈ right.lasts := by
  simp [lasts]

@[simp] theorem mem_lasts_concat :
    a ∈ (concat left right).lasts ↔
      right.nullable = true ∧ a ∈ left.lasts ∨ a ∈ right.lasts := by
  rw [lasts]
  split <;> simp_all

@[simp] theorem mem_follows_choice :
    (⟨a, b⟩ : LetterPair) ∈ (choice left right).follows ↔
      ⟨a, b⟩ ∈ left.follows ∨ ⟨a, b⟩ ∈ right.follows := by
  simp [follows]

@[simp] theorem mem_follows_concat :
    (⟨a, b⟩ : LetterPair) ∈ (concat left right).follows ↔
      ⟨a, b⟩ ∈ left.follows ∨ ⟨a, b⟩ ∈ right.follows ∨ a ∈ left.lasts ∧ b ∈ right.firsts := by
  simp [follows, or_assoc]

@[simp] theorem mem_follows_star :
    (⟨a, b⟩ : LetterPair) ∈ (star inner).follows ↔
      ⟨a, b⟩ ∈ inner.follows ∨ a ∈ inner.lasts ∧ b ∈ inner.firsts := by
  simp [follows]

@[simp] theorem mem_follows_plus :
    (⟨a, b⟩ : LetterPair) ∈ (plus inner).follows ↔
      ⟨a, b⟩ ∈ inner.follows ∨ a ∈ inner.lasts ∧ b ∈ inner.firsts := by
  simp [follows]

end Membership

/-!
# The letters at the borders of the words of an expression
-/

theorem mem_firsts_iff {e : Expr} {a : Letter} : a ∈ e.firsts ↔ HasFirst e.words a := by
  induction e with
  | letter l => exact SortedSet.mem_singleton.trans hasFirst_singleton.symm
  | epsilon _ => exact iff_of_false SortedSet.not_mem_empty not_hasFirst_one
  | choice left right ihl ihr =>
      rw [mem_firsts_choice, ihl, ihr]
      exact hasFirst_add.symm
  | concat left right ihl ihr =>
      rw [mem_firsts_concat, ihl, ihr, ← nil_mem_denote]
      exact (hasFirst_mul (exists_mem_denote id right)).symm
  | optional inner ih =>
      refine ih.trans (Iff.trans ?_ hasFirst_add.symm)
      exact (or_iff_right not_hasFirst_one).symm
  | star inner ih => exact ih.trans hasFirst_kstar.symm
  | plus inner ih => exact ih.trans hasFirst_mul_kstar.symm

theorem mem_lasts_iff {e : Expr} {a : Letter} : a ∈ e.lasts ↔ HasLast e.words a := by
  induction e with
  | letter l => exact SortedSet.mem_singleton.trans hasLast_singleton.symm
  | epsilon _ => exact iff_of_false SortedSet.not_mem_empty not_hasLast_one
  | choice left right ihl ihr =>
      rw [mem_lasts_choice, ihl, ihr]
      exact hasLast_add.symm
  | concat left right ihl ihr =>
      rw [mem_lasts_concat, ihl, ihr, ← nil_mem_denote]
      exact (hasLast_mul (exists_mem_denote id left)).symm
  | optional inner ih =>
      refine ih.trans (Iff.trans ?_ hasLast_add.symm)
      exact (or_iff_right not_hasLast_one).symm
  | star inner ih => exact ih.trans hasLast_kstar.symm
  | plus inner ih => exact ih.trans (hasLast_mul_kstar (exists_mem_denote id inner)).symm

theorem mem_follows_iff {e : Expr} {a b : Letter} :
    ⟨a, b⟩ ∈ e.follows ↔ HasPair e.words a b := by
  induction e with
  | letter l => exact iff_of_false SortedSet.not_mem_empty not_hasPair_singleton
  | epsilon _ => exact iff_of_false SortedSet.not_mem_empty not_hasPair_one
  | choice left right ihl ihr =>
      rw [mem_follows_choice, ihl, ihr]
      exact hasPair_add.symm
  | concat left right ihl ihr =>
      rw [mem_follows_concat, ihl, ihr, mem_lasts_iff, mem_firsts_iff]
      exact (hasPair_mul (exists_mem_denote id left) (exists_mem_denote id right)).symm
  | optional inner ih =>
      refine ih.trans (Iff.trans ?_ hasPair_add.symm)
      exact (or_iff_right not_hasPair_one).symm
  | star inner ih =>
      rw [mem_follows_star, ih, mem_lasts_iff, mem_firsts_iff]
      exact hasPair_kstar.symm
  | plus inner ih =>
      rw [mem_follows_plus, ih, mem_lasts_iff, mem_firsts_iff]
      exact (hasPair_mul_kstar (exists_mem_denote id inner)).symm

/-!
The letters at the borders of words are letters of words.
-/

theorem mem_letters_of_mem_firsts {e : Expr} {a : Letter} (ha : a ∈ e.firsts) : a ∈ e.letters := by
  rcases mem_firsts_iff.mp ha with ⟨v, hv⟩
  exact mem_letters_iff.mpr ⟨a :: v, hv, List.mem_cons_self⟩

theorem mem_letters_of_mem_lasts {e : Expr} {a : Letter} (ha : a ∈ e.lasts) : a ∈ e.letters := by
  rcases mem_lasts_iff.mp ha with ⟨u, hu⟩
  exact mem_letters_iff.mpr ⟨u ++ [a], hu, List.mem_append_right u List.mem_cons_self⟩

theorem mem_letters_of_mem_follows {e : Expr} {a b : Letter} (h : ⟨a, b⟩ ∈ e.follows) :
    a ∈ e.letters ∧ b ∈ e.letters := by
  rcases mem_follows_iff.mp h with ⟨u, v, hword⟩
  constructor
  · exact mem_letters_iff.mpr ⟨_, hword, by simp⟩
  · exact mem_letters_iff.mpr ⟨_, hword, by simp⟩

/-- Whether the empty word is a word, and which letters stand in words, at their beginning,
at their end and side by side. -/
structure DescribesWords (e : Expr) : Prop where
  nullable_iff : e.nullable = true ↔ [] ∈ e.words
  mem_firsts : ∀ a, a ∈ e.firsts ↔ ∃ v, a :: v ∈ e.words
  mem_lasts : ∀ a, a ∈ e.lasts ↔ ∃ u, u ++ [a] ∈ e.words
  mem_follows : ∀ a b, ⟨a, b⟩ ∈ e.follows ↔ ∃ u v, u ++ a :: b :: v ∈ e.words
  mem_letters : ∀ a, a ∈ e.letters ↔ ∃ w ∈ e.words, a ∈ w

/-- The sets of letters of an expression describe its words. -/
theorem describesWords (e : Expr) : e.DescribesWords where
  nullable_iff := nil_mem_denote.symm
  mem_firsts := fun _ => mem_firsts_iff
  mem_lasts := fun _ => mem_lasts_iff
  mem_follows := fun _ _ => mem_follows_iff
  mem_letters := fun _ => mem_letters_iff

end Expr

end Recognizer
