import Recognizer.Expr.Basic
import Mathlib.Data.List.Infix
import Mathlib.Data.Char

/-!
# The grammar of the notation

Which texts stand for which expressions, without regard to how they are read.  A text
that stands for an expression has its brackets in pairs, and what stands behind such a
beginning of it can always be told by its first characters: the beginning of an atom, an
operator, or a bar.  So no text is longer than one that is followed by nothing of these.
-/

namespace Recognizer.Expr

/-!
# Derivations
-/

def IsSymbol (c : Char) : Prop :=
  ('A' ≤ c ∧ c ≤ 'Z') ∨ ('a' ≤ c ∧ c ≤ 'z') ∨ ('0' ≤ c ∧ c ≤ '9')

inductive IsOperator : Char → (Expr → Expr) → Prop where
  | plus : IsOperator '+' plus
  | star : IsOperator '*' star
  | optional : IsOperator '?' optional

/-- The levels of the notation, from the loosest to the tightest. -/
inductive Tier where
  | choice
  | concat
  | suffixed
  | atom

/-- The text stands for the expression, at a level of the notation.  The binary operators
associate to the left: only their left operand may be of the same level. -/
inductive Derives : Tier → List Char → Expr → Prop where
  | group {u : List Char} {e : Expr} :
      Derives .choice u e → Derives .atom ('(' :: u ++ [')']) e
  | letter {c : Char} : IsSymbol c → Derives .atom [c] (letter ⟨none, c⟩)
  | epsilon : Derives .atom ['ε'] (epsilon none)
  | atom {u : List Char} {e : Expr} : Derives .atom u e → Derives .suffixed u e
  | operator {u : List Char} {e : Expr} {c : Char} {apply : Expr → Expr} :
      Derives .suffixed u e → IsOperator c apply → Derives .suffixed (u ++ [c]) (apply e)
  | suffixed {u : List Char} {e : Expr} : Derives .suffixed u e → Derives .concat u e
  | concat {u v : List Char} {e f : Expr} :
      Derives .concat u e → Derives .suffixed v f → Derives .concat (u ++ v) (concat e f)
  | alternative {u : List Char} {e : Expr} : Derives .concat u e → Derives .choice u e
  | choice {u v : List Char} {e f : Expr} :
      Derives .choice u e → Derives .concat v f → Derives .choice (u ++ '|' :: v) (choice e f)

/-!
# First characters
-/

def BeginsAtom (c : Char) : Prop := c = '(' ∨ c = 'ε' ∨ IsSymbol c

def OpensAtom (z : List Char) : Prop := ∃ c rest, z = c :: rest ∧ BeginsAtom c

def OpensOperator (z : List Char) : Prop := ∃ c rest apply, z = c :: rest ∧ IsOperator c apply

/-- The text goes on with what an expression in front of it can take in. -/
def GoesOn (z : List Char) : Prop :=
  OpensAtom z ∨ OpensOperator z ∨ ∃ rest, z = '|' :: rest ∧ OpensAtom rest

theorem not_goesOn {z : List Char} (hatom : ¬ OpensAtom z) (hoperator : ¬ OpensOperator z)
    (hbar : ∀ rest, z = '|' :: rest → ¬ OpensAtom rest) : ¬ GoesOn z := by
  intro h
  rcases h with h | h | ⟨rest, hrest, h⟩
  · exact hatom h
  · exact hoperator h
  · exact hbar rest hrest h

theorem not_opensAtom_nil : ¬ OpensAtom [] := by
  intro h
  rcases h with ⟨c, rest, hnil, _⟩
  cases hnil

theorem not_opensOperator_nil : ¬ OpensOperator [] := by
  intro h
  rcases h with ⟨c, rest, apply, hnil, _⟩
  cases hnil

theorem opensAtom_cons_iff {c : Char} {z : List Char} : OpensAtom (c :: z) ↔ BeginsAtom c := by
  constructor
  · intro h
    rcases h with ⟨d, rest, hcons, hd⟩
    injection hcons with hcd _
    exact hcd ▸ hd
  · intro hc
    exact ⟨c, z, rfl, hc⟩

theorem opensOperator_cons_iff {c : Char} {z : List Char} :
    OpensOperator (c :: z) ↔ ∃ apply, IsOperator c apply := by
  constructor
  · intro h
    rcases h with ⟨d, rest, apply, hcons, hd⟩
    injection hcons with hcd _
    exact ⟨apply, hcd ▸ hd⟩
  · intro h
    rcases h with ⟨apply, hc⟩
    exact ⟨c, z, apply, rfl, hc⟩

theorem not_goesOn_nil : ¬ GoesOn [] :=
  not_goesOn not_opensAtom_nil not_opensOperator_nil (fun rest hrest => by cases hrest)

/-- An expression ends at the closing bracket of the group around it. -/
theorem not_goesOn_close {z : List Char} : ¬ GoesOn (')' :: z) := by
  apply not_goesOn
  · rw [opensAtom_cons_iff]
    unfold BeginsAtom IsSymbol
    decide
  · intro h
    rcases opensOperator_cons_iff.mp h with ⟨apply, hc⟩
    cases hc
  · intro rest hrest
    injection hrest with hc
    exact absurd hc (by decide)

section FirstCharacters

variable {t : Tier} {u v z : List Char} {e : Expr} {c : Char} {apply : Expr → Expr}

theorem OpensAtom.append (h : OpensAtom z) (v : List Char) : OpensAtom (z ++ v) := by
  rcases h with ⟨c, rest, rfl, hc⟩
  exact ⟨c, rest ++ v, rfl, hc⟩

theorem GoesOn.append (h : GoesOn z) (v : List Char) : GoesOn (z ++ v) := by
  rcases h with hatom | ⟨c, rest, apply, rfl, hc⟩ | ⟨rest, rfl, hatom⟩
  · exact Or.inl (hatom.append v)
  · exact Or.inr (Or.inl ⟨c, rest ++ v, apply, rfl, hc⟩)
  · exact Or.inr (Or.inr ⟨rest ++ v, rfl, hatom.append v⟩)

theorem Derives.opensAtom (h : Derives t u e) : OpensAtom u := by
  induction h with
  | group _ _ => exact ⟨_, _, rfl, Or.inl rfl⟩
  | letter hc => exact ⟨_, _, rfl, Or.inr (Or.inr hc)⟩
  | epsilon => exact ⟨_, _, rfl, Or.inr (Or.inl rfl)⟩
  | atom _ ih => exact ih
  | operator _ _ ih => exact ih.append _
  | suffixed _ ih => exact ih
  | concat _ _ ih _ => exact ih.append _
  | alternative _ ih => exact ih
  | choice _ _ ih _ => exact ih.append _

theorem Derives.ne_nil (h : Derives t u e) : u ≠ [] := by
  rcases h.opensAtom with ⟨c, rest, rfl, _⟩
  exact List.cons_ne_nil c rest

theorem IsSymbol.ne (hc : IsSymbol c) : c ≠ '(' ∧ c ≠ ')' ∧ c ≠ '|' ∧ c ≠ 'ε' := by
  refine ⟨?_, ?_, ?_, ?_⟩ <;> · rintro rfl; revert hc; unfold IsSymbol; decide

theorem IsOperator.ne (hc : IsOperator c apply) : c ≠ '(' ∧ c ≠ ')' := by
  cases hc <;> decide

theorem BeginsAtom.not_isOperator (hc : BeginsAtom c) : ¬ IsOperator c apply := by
  intro h
  revert hc
  cases h <;> unfold BeginsAtom IsSymbol <;> decide

end FirstCharacters

/-!
# Brackets
-/

/-- No beginning of the text leaves more brackets open than the given number. -/
def NestsWithin (depth : Nat) (u : List Char) : Prop :=
  ∀ p, p <+: u → p.count '(' ≤ p.count ')' + depth

structure Balanced (u : List Char) : Prop where
  count_eq : u.count ')' = u.count '('
  count_le : ∀ p, p <+: u → p.count ')' ≤ p.count '('

theorem prefix_append_iff {α : Type} {p u v : List α} :
    p <+: u ++ v ↔ p <+: u ∨ ∃ q, p = u ++ q ∧ q <+: v := by
  constructor
  · intro h
    rcases h with ⟨z, hz⟩
    rcases List.append_eq_append_iff.mp hz with ⟨a, hu, _⟩ | ⟨q, hp, hv⟩
    · exact Or.inl ⟨a, hu.symm⟩
    · exact Or.inr ⟨q, hp, z, hv.symm⟩
  · intro h
    rcases h with h | ⟨q, rfl, h⟩
    · exact h.trans (List.prefix_append u v)
    · exact (List.prefix_append_right_inj u).mpr h

theorem prefix_singleton_iff {α : Type} {p : List α} {a : α} : p <+: [a] ↔ p = [] ∨ p = [a] := by
  simp [List.prefix_cons_iff]

section Brackets

variable {depth : Nat} {t : Tier} {u v : List Char} {e : Expr} {c : Char}

theorem balanced_singleton (hopen : c ≠ '(') (hclose : c ≠ ')') : Balanced [c] where
  count_eq := by simp [hopen, hclose]
  count_le := by
    intro p hp
    rcases prefix_singleton_iff.mp hp with rfl | rfl
    · exact Nat.le_refl _
    · simp [hopen, hclose]

theorem balanced_bar : Balanced ['|'] := balanced_singleton (by decide) (by decide)

theorem Balanced.append (hu : Balanced u) (hv : Balanced v) : Balanced (u ++ v) where
  count_eq := by rw [List.count_append, List.count_append, hu.count_eq, hv.count_eq]
  count_le := by
    intro p hp
    rcases prefix_append_iff.mp hp with hp | ⟨q, rfl, hq⟩
    · exact hu.count_le p hp
    · have := hv.count_le q hq
      have := hu.count_eq
      simp only [List.count_append]
      omega

theorem prefix_group_iff {p : List Char} :
    p <+: '(' :: u ++ [')'] ↔
      p = [] ∨ (∃ q, p = '(' :: q ∧ q <+: u) ∨ p = '(' :: u ++ [')'] := by
  rw [List.cons_append, List.prefix_cons_iff]
  apply or_congr_right
  constructor
  · intro h
    rcases h with ⟨q, rfl, hq⟩
    rcases List.prefix_concat_iff.mp hq with rfl | hq
    · exact Or.inr rfl
    · exact Or.inl ⟨q, rfl, hq⟩
  · intro h
    rcases h with ⟨q, rfl, hq⟩ | rfl
    · exact ⟨q, rfl, hq.trans (List.prefix_append u _)⟩
    · exact ⟨_, rfl, List.prefix_rfl⟩

theorem Balanced.group (hu : Balanced u) : Balanced ('(' :: u ++ [')']) where
  count_eq := by
    have := hu.count_eq
    simp [this]
  count_le := by
    intro p hp
    have := hu.count_eq
    rcases prefix_group_iff.mp hp with rfl | ⟨q, rfl, hq⟩ | rfl
    · exact Nat.le_refl _
    · have := hu.count_le q hq
      simp
      omega
    · simp [this]

theorem Derives.balanced (h : Derives t u e) : Balanced u := by
  induction h with
  | group _ ih => exact ih.group
  | letter hc => exact balanced_singleton hc.ne.1 hc.ne.2.1
  | epsilon => exact balanced_singleton (by decide) (by decide)
  | atom _ ih => exact ih
  | operator _ hc ih => exact ih.append (balanced_singleton hc.ne.1 hc.ne.2)
  | suffixed _ ih => exact ih
  | concat _ _ ihu ihv => exact ihu.append ihv
  | alternative _ ih => exact ih
  | choice _ _ ihu ihv => exact ihu.append (balanced_bar.append ihv)

theorem nestsWithin_singleton (hopen : c ≠ '(') : NestsWithin depth [c] := by
  intro p hp
  rcases prefix_singleton_iff.mp hp with rfl | rfl
  · exact Nat.zero_le _
  · simp [hopen]

theorem nestsWithin_append (hu : Balanced u) :
    NestsWithin depth (u ++ v) ↔ NestsWithin depth u ∧ NestsWithin depth v := by
  have hcount := hu.count_eq
  constructor
  · intro h
    refine ⟨fun p hp => h p (prefix_append_iff.mpr (Or.inl hp)), ?_⟩
    intro q hq
    have := h (u ++ q) (prefix_append_iff.mpr (Or.inr ⟨q, rfl, hq⟩))
    simp only [List.count_append] at this
    omega
  · intro h p hp
    rcases prefix_append_iff.mp hp with hp | ⟨q, rfl, hq⟩
    · exact h.1 p hp
    · have := h.2 q hq
      simp only [List.count_append]
      omega

theorem nestsWithin_choice (hu : Balanced u) :
    NestsWithin depth (u ++ '|' :: v) ↔ NestsWithin depth u ∧ NestsWithin depth v := by
  have hbar : NestsWithin depth ('|' :: v) ↔ NestsWithin depth ['|'] ∧ NestsWithin depth v :=
    nestsWithin_append balanced_bar
  rw [nestsWithin_append hu, hbar, and_iff_right (nestsWithin_singleton (by decide))]

theorem nestsWithin_group :
    NestsWithin depth ('(' :: u ++ [')']) ↔ ∃ inner, depth = inner + 1 ∧ NestsWithin inner u := by
  constructor
  · intro h
    have hinner : ∀ q, q <+: u → q.count '(' + 1 ≤ q.count ')' + depth := by
      intro q hq
      have := h ('(' :: q) (prefix_group_iff.mpr (Or.inr (Or.inl ⟨q, rfl, hq⟩)))
      simpa using this
    have hpos : 0 + 1 ≤ 0 + depth := hinner [] (List.nil_prefix)
    refine ⟨depth - 1, by omega, ?_⟩
    intro q hq
    have := hinner q hq
    omega
  · intro h p hp
    rcases h with ⟨inner, rfl, h⟩
    rcases prefix_group_iff.mp hp with rfl | ⟨q, rfl, hq⟩ | rfl
    · exact Nat.zero_le _
    · have := h q hq
      simp
      omega
    · have := h u List.prefix_rfl
      simp
      omega

end Brackets

/-!
# What may follow
-/

section GoesOn

variable {t : Tier} {u v z : List Char} {e f : Expr} {c : Char}

theorem append_eq_append_cases {α : Type} {u v w z : List α} (h : v ++ w = u ++ z) :
    (∃ x, x ≠ [] ∧ v = u ++ x ∧ z = x ++ w) ∨ ∃ x, u = v ++ x ∧ w = x ++ z := by
  rcases List.append_eq_append_iff.mp h with ⟨x, hu, hw⟩ | ⟨x, hv, hz⟩
  · exact Or.inr ⟨x, hu, hw⟩
  · by_cases hx : x = []
    · subst hx
      exact Or.inr ⟨[], by simpa using hv.symm, by simpa using hz.symm⟩
    · exact Or.inl ⟨x, hx, hv, hz⟩

theorem goesOn_of_singleton (hc : GoesOn [c]) (h : [c] = u ++ z) (hz : z ≠ []) : GoesOn z := by
  rcases List.append_eq_singleton_iff.mp h.symm with ⟨_, rfl⟩ | ⟨_, hnil⟩
  · exact hc
  · exact absurd hnil hz

/-- Behind a balanced beginning of a text that stands for an expression comes what an
expression can take in. -/
theorem Derives.goesOn (h : Derives t v e) (hv : v = u ++ z) (hu : u.count ')' = u.count '(')
    (hz : z ≠ []) : GoesOn z := by
  induction h generalizing u z with
  | @group v e hderives _ =>
      cases u with
      | nil => exact Or.inl ⟨_, _, hv.symm, Or.inl rfl⟩
      | cons c u =>
          injection hv with hc hv
          have hbegin : u <+: v := by
            rcases append_eq_append_cases hv with ⟨x, _, hvx, _⟩ | ⟨x, hux, hx⟩
            · exact ⟨x, hvx.symm⟩
            · rcases List.append_eq_singleton_iff.mp hx.symm with ⟨rfl, _⟩ | ⟨_, hnil⟩
              · exact ⟨[], by simpa using hux⟩
              · exact absurd hnil hz
          have := hderives.balanced.count_le u hbegin
          rw [← hc] at hu
          simp at hu
          omega
  | letter hc => exact goesOn_of_singleton (Or.inl ⟨_, _, rfl, Or.inr (Or.inr hc)⟩) hv hz
  | epsilon => exact goesOn_of_singleton (Or.inl ⟨_, _, rfl, Or.inr (Or.inl rfl)⟩) hv hz
  | atom _ ih => exact ih hv hu hz
  | operator hderives hc ih =>
      rcases append_eq_append_cases hv with ⟨x, hx, hux, rfl⟩ | ⟨x, _, hxz⟩
      · exact (ih hux hu hx).append _
      · exact goesOn_of_singleton (Or.inr (Or.inl ⟨_, _, _, rfl, hc⟩)) hxz hz
  | suffixed _ ih => exact ih hv hu hz
  | concat hleft hright ihleft ihright =>
      rcases append_eq_append_cases hv with ⟨x, hx, hux, rfl⟩ | ⟨x, rfl, hxz⟩
      · exact (ihleft hux hu hx).append _
      · have := hleft.balanced.count_eq
        simp only [List.count_append] at hu
        exact ihright hxz (by omega) hz
  | alternative _ ih => exact ih hv hu hz
  | choice hleft hright ihleft ihright =>
      rcases append_eq_append_cases hv with ⟨x, hx, hux, rfl⟩ | ⟨x, rfl, hxz⟩
      · exact (ihleft hux hu hx).append _
      · cases x with
        | nil => exact Or.inr (Or.inr ⟨_, hxz.symm, hright.opensAtom⟩)
        | cons b x =>
            injection hxz with hb hxz
            have := hleft.balanced.count_eq
            rw [← hb] at hu
            simp [List.count_append] at hu
            exact ihright hxz (by omega) hz

/-- A text for an expression is the longest one where what follows does not go on. -/
theorem Derives.length_le (hu : Derives .choice u e) (hz : ¬ GoesOn z) (hv : Derives .choice v f)
    (hbegin : v <+: u ++ z) : v.length ≤ u.length := by
  rcases prefix_append_iff.mp hbegin with hvu | ⟨x, rfl, hxz⟩
  · exact hvu.length_le
  · by_cases hx : x = []
    · simp [hx]
    · rcases hxz with ⟨y, rfl⟩
      exact absurd ((hv.goesOn rfl hu.balanced.count_eq hx).append y) hz

end GoesOn

end Recognizer.Expr
