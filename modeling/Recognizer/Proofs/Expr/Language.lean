import Recognizer.Expr.Basic
import Mathlib.Computability.Language

/-!
# The language of an expression

The meaning of an expression is a set of words.  The words may be read as words
of characters, which is what an automaton recognizes, or as words of letters,
positions and all, which is what the sets of first, last and following letters
speak of.
-/

namespace Recognizer

open Computability

/-!
# Repetition

A word of a repetition that is not empty begins with a word of the repeated
language that is not empty.
-/

theorem append_mem_kstar {α : Type} {l : Language α} {x y : List α}
    (hx : x ∈ l) (hy : y ∈ l∗) : x ++ y ∈ l∗ := by
  rw [← Language.one_add_self_mul_kstar_eq_kstar, Language.mem_add]
  exact Or.inr (Language.append_mem_mul hx hy)

theorem cons_mem_kstar {α : Type} {l : Language α} {a : α} {v : List α} :
    a :: v ∈ l∗ ↔ ∃ x y, v = x ++ y ∧ a :: x ∈ l ∧ y ∈ l∗ := by
  constructor
  · intro h
    rcases Language.mem_kstar_iff_exists_nonempty.mp h with ⟨pieces, hflatten, hpieces⟩
    cases pieces with
    | nil => cases hflatten
    | cons piece rest =>
        have hpiece := hpieces piece List.mem_cons_self
        cases piece with
        | nil => exact absurd rfl hpiece.2
        | cons b x =>
            rw [List.flatten_cons, List.cons_append] at hflatten
            injection hflatten with hab hv
            refine ⟨x, rest.flatten, hv, hab ▸ hpiece.1, ?_⟩
            apply Language.join_mem_kstar
            intro y hy
            exact (hpieces y (List.mem_cons_of_mem _ hy)).1
  · intro h
    rcases h with ⟨x, y, rfl, hx, hy⟩
    exact append_mem_kstar hx hy

theorem cons_mem_mul_kstar {α : Type} {l : Language α} {a : α} {v : List α} :
    a :: v ∈ l * l∗ ↔ ∃ x y, v = x ++ y ∧ a :: x ∈ l ∧ y ∈ l∗ := by
  constructor
  · intro h
    rcases Language.mem_mul.mp h with ⟨x, hx, y, hy, hxy⟩
    exact cons_mem_kstar.mp (hxy ▸ append_mem_kstar hx hy)
  · intro h
    rcases h with ⟨x, y, rfl, hx, hy⟩
    exact Language.append_mem_mul hx hy

namespace Expr

/-- The words of an expression, each letter read in a given way. -/
def denote {α : Type} (read : Letter → α) : Expr → Language α
  | letter l => {[read l]}
  | epsilon _ => 1
  | choice left right => left.denote read + right.denote read
  | concat left right => left.denote read * right.denote read
  | optional inner => 1 + inner.denote read
  | star inner => (inner.denote read)∗
  | plus inner => inner.denote read * (inner.denote read)∗

/-- The words of characters; positions do not matter. -/
def language (e : Expr) : Language Char := e.denote Letter.symbol

def words (e : Expr) : Language Letter := e.denote id

theorem map_denote {α β : Type} (f : α → β) (read : Letter → α) (e : Expr) :
    Language.map f (e.denote read) = e.denote (f ∘ read) := by
  induction e with
  | letter l => exact Set.image_singleton
  | epsilon _ => exact map_one _
  | choice left right ihl ihr => simp only [denote, map_add, ihl, ihr]
  | concat left right ihl ihr => simp only [denote, map_mul, ihl, ihr]
  | optional inner ih => simp only [denote, map_add, map_one, ih]
  | star inner ih => simp only [denote, Language.map_kstar, ih]
  | plus inner ih => simp only [denote, map_mul, Language.map_kstar, ih]

theorem mem_language_iff_words {e : Expr} {w : List Char} :
    w ∈ e.language ↔ ∃ v ∈ e.words, v.map Letter.symbol = w := by
  have h : e.language = Language.map Letter.symbol e.words :=
    (map_denote Letter.symbol id e).symm
  rw [h]
  exact Iff.rfl

section Denote

variable {α : Type} {read : Letter → α}

@[simp] theorem mem_denote_letter {l : Letter} {w : List α} :
    w ∈ (letter l).denote read ↔ w = [read l] := Iff.rfl

@[simp] theorem mem_denote_epsilon {position : Option Nat} {w : List α} :
    w ∈ (epsilon position).denote read ↔ w = [] := Iff.rfl

@[simp] theorem mem_denote_choice {left right : Expr} {w : List α} :
    w ∈ (choice left right).denote read ↔ w ∈ left.denote read ∨ w ∈ right.denote read := Iff.rfl

@[simp] theorem mem_denote_concat {left right : Expr} {w : List α} :
    w ∈ (concat left right).denote read ↔
      ∃ x ∈ left.denote read, ∃ y ∈ right.denote read, x ++ y = w := Iff.rfl

@[simp] theorem mem_denote_optional {inner : Expr} {w : List α} :
    w ∈ (optional inner).denote read ↔ w = [] ∨ w ∈ inner.denote read := Iff.rfl

@[simp] theorem mem_denote_star {inner : Expr} {w : List α} :
    w ∈ (star inner).denote read ↔ w ∈ (inner.denote read)∗ := Iff.rfl

@[simp] theorem mem_denote_plus {inner : Expr} {w : List α} :
    w ∈ (plus inner).denote read ↔
      ∃ x ∈ inner.denote read, ∃ y ∈ (inner.denote read)∗, x ++ y = w := Iff.rfl

/-!
# The empty word, and some word

`nullable` decides whether the empty word is one of the words.  No expression is
without words.
-/

theorem nil_mem_denote {e : Expr} : [] ∈ e.denote read ↔ e.nullable = true := by
  induction e with
  | letter l => simp [nullable]
  | epsilon _ => simp [nullable]
  | choice left right ihl ihr => simp [nullable, ihl, ihr]
  | concat left right ihl ihr => simp [nullable, ihl, ihr]
  | optional inner ih => simp [nullable]
  | star inner ih => simp [nullable, Language.nil_mem_kstar]
  | plus inner ih => simp [nullable, Language.nil_mem_kstar, ih]

theorem exists_mem_denote (read : Letter → α) (e : Expr) : ∃ w, w ∈ e.denote read := by
  induction e with
  | letter l => exact ⟨[read l], rfl⟩
  | epsilon _ => exact ⟨[], rfl⟩
  | choice left right ihl ihr =>
      rcases ihl with ⟨w, hw⟩
      exact ⟨w, Or.inl hw⟩
  | concat left right ihl ihr =>
      rcases ihl with ⟨x, hx⟩
      rcases ihr with ⟨y, hy⟩
      exact ⟨x ++ y, Language.append_mem_mul hx hy⟩
  | optional inner ih => exact ⟨[], Or.inl rfl⟩
  | star inner ih => exact ⟨[], Language.nil_mem_kstar _⟩
  | plus inner ih =>
      rcases ih with ⟨w, hw⟩
      exact ⟨w ++ [], Language.append_mem_mul hw (Language.nil_mem_kstar _)⟩

/-!
# Letters and words

The letters of an expression are those of its words.
-/

theorem mem_letters_of_mem_kstar {inner : Expr}
    (ih : ∀ w ∈ inner.denote read, ∀ a ∈ w, ∃ l ∈ inner.letters, read l = a)
    {w : List α} (hw : w ∈ (inner.denote read)∗) {a : α} (ha : a ∈ w) :
    ∃ l ∈ inner.letters, read l = a := by
  rcases Language.mem_kstar.mp hw with ⟨pieces, rfl, hpieces⟩
  rcases List.mem_flatten.mp ha with ⟨piece, hpiece, ha⟩
  exact ih piece (hpieces piece hpiece) a ha

theorem mem_letters_of_mem_denote {e : Expr} {w : List α} (hw : w ∈ e.denote read) {a : α}
    (ha : a ∈ w) : ∃ l ∈ e.letters, read l = a := by
  induction e generalizing w a with
  | letter l =>
      rw [mem_denote_letter] at hw
      rw [hw, List.mem_singleton] at ha
      exact ⟨l, List.mem_singleton.mpr rfl, ha.symm⟩
  | epsilon _ =>
      rw [mem_denote_epsilon] at hw
      rw [hw] at ha
      cases ha
  | choice left right ihl ihr =>
      cases hw with
      | inl hw =>
          rcases ihl hw ha with ⟨l, hl, hla⟩
          exact ⟨l, List.mem_append_left _ hl, hla⟩
      | inr hw =>
          rcases ihr hw ha with ⟨l, hl, hla⟩
          exact ⟨l, List.mem_append_right _ hl, hla⟩
  | concat left right ihl ihr =>
      rcases hw with ⟨x, hx, y, hy, rfl⟩
      cases List.mem_append.mp ha with
      | inl ha =>
          rcases ihl hx ha with ⟨l, hl, hla⟩
          exact ⟨l, List.mem_append_left _ hl, hla⟩
      | inr ha =>
          rcases ihr hy ha with ⟨l, hl, hla⟩
          exact ⟨l, List.mem_append_right _ hl, hla⟩
  | optional inner ih =>
      cases hw with
      | inl hw =>
          rw [hw] at ha
          cases ha
      | inr hw => exact ih hw ha
  | star inner ih => exact mem_letters_of_mem_kstar (fun w hw a ha => ih hw ha) hw ha
  | plus inner ih =>
      rcases hw with ⟨x, hx, y, hy, rfl⟩
      exact mem_letters_of_mem_kstar (fun w hw a ha => ih hw ha) (append_mem_kstar hx hy) ha

theorem exists_mem_denote_of_mem_letters {e : Expr} {l : Letter} (hl : l ∈ e.letters) :
    ∃ w ∈ e.denote read, read l ∈ w := by
  induction e with
  | letter k =>
      rw [List.mem_singleton.mp hl]
      exact ⟨[read k], rfl, List.mem_singleton.mpr rfl⟩
  | epsilon _ => cases hl
  | choice left right ihl ihr =>
      cases List.mem_append.mp hl with
      | inl hl =>
          rcases ihl hl with ⟨w, hw, hmem⟩
          exact ⟨w, Or.inl hw, hmem⟩
      | inr hl =>
          rcases ihr hl with ⟨w, hw, hmem⟩
          exact ⟨w, Or.inr hw, hmem⟩
  | concat left right ihl ihr =>
      cases List.mem_append.mp hl with
      | inl hl =>
          rcases ihl hl with ⟨x, hx, hmem⟩
          rcases exists_mem_denote read right with ⟨y, hy⟩
          exact ⟨x ++ y, Language.append_mem_mul hx hy, List.mem_append_left _ hmem⟩
      | inr hl =>
          rcases ihr hl with ⟨y, hy, hmem⟩
          rcases exists_mem_denote read left with ⟨x, hx⟩
          exact ⟨x ++ y, Language.append_mem_mul hx hy, List.mem_append_right _ hmem⟩
  | optional inner ih =>
      rcases ih hl with ⟨w, hw, hmem⟩
      exact ⟨w, Or.inr hw, hmem⟩
  | star inner ih =>
      rcases ih hl with ⟨w, hw, hmem⟩
      exact ⟨w ++ [], append_mem_kstar hw (Language.nil_mem_kstar _), List.mem_append_left _ hmem⟩
  | plus inner ih =>
      rcases ih hl with ⟨w, hw, hmem⟩
      exact ⟨w ++ [], Language.append_mem_mul hw (Language.nil_mem_kstar _),
        List.mem_append_left _ hmem⟩

theorem mem_letters_iff {e : Expr} {a : Letter} : a ∈ e.letters ↔ ∃ w ∈ e.words, a ∈ w := by
  constructor
  · intro ha
    exact exists_mem_denote_of_mem_letters ha
  · intro h
    rcases h with ⟨w, hw, ha⟩
    rcases mem_letters_of_mem_denote hw ha with ⟨l, hl, hla⟩
    exact hla ▸ hl

theorem mem_alphabet_iff {e : Expr} {c : Char} : c ∈ e.alphabet ↔ ∃ w ∈ e.language, c ∈ w := by
  rw [alphabet, SortedSet.mem_ofList, List.mem_map]
  constructor
  · intro h
    rcases h with ⟨l, hl, hlc⟩
    exact hlc ▸ exists_mem_denote_of_mem_letters hl
  · intro h
    rcases h with ⟨w, hw, hc⟩
    exact mem_letters_of_mem_denote hw hc

theorem alphabet_congr {e f : Expr} (h : e.language = f.language) : e.alphabet = f.alphabet := by
  apply SortedSet.ext
  intro c
  rw [mem_alphabet_iff, mem_alphabet_iff, h]

end Denote

/-!
# Numbering

Numbering the leaves keeps the language, and makes all letters different.
-/

theorem language_numberedFrom (e : Expr) (first : Nat) :
    (e.numberedFrom first).language = e.language := by
  unfold language
  induction e generalizing first with
  | letter l => rfl
  | epsilon _ => rfl
  | choice left right ihl ihr => simp only [numberedFrom, denote, ihl, ihr]
  | concat left right ihl ihr => simp only [numberedFrom, denote, ihl, ihr]
  | optional inner ih => simp only [numberedFrom, denote, ih]
  | star inner ih => simp only [numberedFrom, denote, ih]
  | plus inner ih => simp only [numberedFrom, denote, ih]

structure NumberedWithin (lower upper : Nat) (ls : List Letter) : Prop where
  bounds : ∀ l ∈ ls, ∃ p, l.position = some p ∧ lower ≤ p ∧ p < upper
  nodup : ls.Nodup

theorem numberedWithin_append {lower middle upper : Nat} {ls ks : List Letter}
    (hlower : lower ≤ middle) (hupper : middle ≤ upper)
    (hls : NumberedWithin lower middle ls) (hks : NumberedWithin middle upper ks) :
    NumberedWithin lower upper (ls ++ ks) where
  bounds := by
    intro l hl
    cases List.mem_append.mp hl with
    | inl hl =>
        rcases hls.bounds l hl with ⟨p, hp, hge, hlt⟩
        exact ⟨p, hp, hge, by omega⟩
    | inr hl =>
        rcases hks.bounds l hl with ⟨p, hp, hge, hlt⟩
        exact ⟨p, hp, by omega, hlt⟩
  nodup := by
    refine List.nodup_append.mpr ⟨hls.nodup, hks.nodup, ?_⟩
    intro l hl k hk hlk
    rcases hls.bounds l hl with ⟨p, hp, _, hlt⟩
    rcases hks.bounds k hk with ⟨q, hq, hge, _⟩
    rw [hlk, hq] at hp
    injection hp with hp
    omega

theorem numberedWithin_letters (e : Expr) (first : Nat) :
    NumberedWithin first (first + e.leaves) (e.numberedFrom first).letters := by
  induction e generalizing first with
  | letter k =>
      refine ⟨?_, List.nodup_singleton _⟩
      intro l hl
      rw [List.mem_singleton.mp hl]
      exact ⟨first, rfl, Nat.le_refl _, Nat.lt_succ_self _⟩
  | epsilon _ =>
      refine ⟨?_, List.nodup_nil⟩
      intro l hl
      cases hl
  | choice left right ihl ihr =>
      have hright := ihr (first + left.leaves)
      rw [Nat.add_assoc] at hright
      exact numberedWithin_append (Nat.le_add_right _ _)
        (Nat.add_le_add_left (Nat.le_add_right _ _) _) (ihl first) hright
  | concat left right ihl ihr =>
      have hright := ihr (first + left.leaves)
      rw [Nat.add_assoc] at hright
      exact numberedWithin_append (Nat.le_add_right _ _)
        (Nat.add_le_add_left (Nat.le_add_right _ _) _) (ihl first) hright
  | optional inner ih => exact ih first
  | star inner ih => exact ih first
  | plus inner ih => exact ih first

theorem nodup_letters_linearized (e : Expr) : e.linearized.letters.Nodup :=
  (numberedWithin_letters e 1).nodup

end Expr

end Recognizer
