import Recognizer.Suite
import Recognizer.Proofs.Automaton.Position
import Recognizer.Proofs.Automaton.Quotient
import Recognizer.Proofs.Automaton.Subset
import Recognizer.Proofs.Automaton.Survivors

/-!
# The minimal automaton

The classes of equivalent states stand in the order of their least members, so the
quotient of an automaton that is numbered by a search is numbered by a search.  It has
no two states that accept the same words.  The minimal automaton of an expression is
therefore a normal form of its language.
-/

namespace Recognizer

namespace Dfa

variable {d : Dfa}

/-!
# Least members of classes
-/

def IsLeast (d : Dfa) (i q : Nat) : Prop := ∃ s, d.classes[i]? = some s ∧ s.min? = some q

section IsLeast

variable (hd : d.WellFormed) {i j a b q : Nat}

theorem isLeast_lt (ha : IsLeast d i a) (hb : IsLeast d j b) (hij : i < j) : a < b := by
  rcases ha with ⟨s, hs, ha⟩
  rcases hb with ⟨t, ht, hb⟩
  rcases List.getElem?_eq_some_iff.mp hs with ⟨hi, rfl⟩
  rcases List.getElem?_eq_some_iff.mp ht with ⟨hj, rfl⟩
  rcases List.pairwise_iff_getElem.mp (classes_increasing d) i j hi hj hij with ⟨x, y, hx, hy, hxy⟩
  rw [ha] at hx
  rw [hb] at hy
  injection hx with hx
  injection hy with hy
  omega

include hd

theorem exists_isLeast (hi : i < d.quotient.states.size) : ∃ a, IsLeast d i a := by
  rw [size_quotient] at hi
  rcases exists_mem_class hd (List.getElem_mem hi) with ⟨q, hq⟩
  rcases SortedSet.exists_min? hq with ⟨a, ha⟩
  exact ⟨a, _, List.getElem?_eq_getElem hi, ha⟩

theorem IsLeast.lt (h : IsLeast d i a) : a < d.states.size := by
  rcases h with ⟨s, hs, ha⟩
  exact lt_of_mem_class hd (List.mem_of_getElem? hs) (SortedSet.mem_of_min? ha)

theorem IsLeast.classOf_eq (h : IsLeast d i a) : d.classOf a = i := by
  rcases h with ⟨s, hs, ha⟩
  exact classOf_of_mem hd hs (SortedSet.mem_of_min? ha)

theorem IsLeast.le (h : IsLeast d i a) (hq : q < d.states.size) (hqi : d.classOf q = i) :
    a ≤ q := by
  rcases h with ⟨s, hs, ha⟩
  rcases exists_getElem?_classOf hd hq with ⟨t, ht, hqt⟩
  rw [hqi, hs] at ht
  injection ht with hst
  exact SortedSet.min?_le ha (hst ▸ hqt)

theorem IsLeast.classOf_lt (h : IsLeast d j b) (hq : q < b) : d.classOf q < j := by
  have hq_lt := Nat.lt_trans hq (h.lt hd)
  have hi : d.classOf q < d.quotient.states.size := by
    rw [size_quotient]
    exact Dfa.classOf_lt hd hq_lt
  rcases exists_isLeast hd hi with ⟨a, ha⟩
  have haq := ha.le hd hq_lt rfl
  rcases Nat.lt_trichotomy (d.classOf q) j with hlt | heq | hgt
  · exact hlt
  · have := h.le hd hq_lt heq
    omega
  · have := isLeast_lt h ha hgt
    omega

end IsLeast

/-!
# The quotient of an automaton that is numbered by a search
-/

section Presents

variable {L : Language Char} {trap : Bool} (hd : Presents d L trap) {p q : Nat} {c : Char}

include hd

theorem exists_next_of_equivalent (hp : p < d.states.size) (hq : q < d.states.size)
    (hpq : d.Equivalent p q) {t : Nat} (ht : d.next p c = some t) : ∃ u, d.next q c = some u := by
  cases trap with
  | true => exact hd.exists_next hq (hd.wellFormed.next_within ht).2.1
  | false =>
      rcases hd.breadthFirst.exists_run p hp with ⟨x, hx⟩
      have hxc : d.run (x ++ [c]) = some t := by
        rw [run_append_singleton, hx]
        exact ht
      rcases (hd.runs _).mp ⟨t, hxc⟩ with ⟨v, hword⟩
      have haccepts := (hd.words _).mpr hword
      rw [List.append_assoc, acceptsFrom_of_run hx] at haccepts
      rcases acceptsFrom_cons.mp ((hpq (c :: v)).mp haccepts) with ⟨u, hu, _⟩
      exact ⟨u, hu⟩

theorem next_quotient_classOf (hq : q < d.states.size) :
    d.quotient.next (d.classOf q) c = (d.next q c).map d.classOf := by
  cases hnext : d.next q c with
  | some t => exact next_quotient_of_next hd.wellFormed hnext
  | none =>
      apply Option.eq_none_iff_forall_ne_some.mpr
      intro j hj
      rcases exists_next_of_next_quotient hd.wellFormed hj with ⟨p, t, hp, hpq, ht, _⟩
      have hpq := (classOf_eq_iff hd.wellFormed hp hq).mp hpq
      rcases exists_next_of_equivalent hd hp hq hpq ht with ⟨u, hu⟩
      rw [hnext] at hu
      cases hu

theorem run_quotient (u : List Char) : d.quotient.run u = (d.run u).map d.classOf := by
  induction u using List.reverseRecOn with
  | nil => exact rfl
  | append_singleton u c ih =>
      rw [run_append_singleton, run_append_singleton, ih]
      cases hrun : d.run u with
      | none => exact rfl
      | some q => exact next_quotient_classOf hd (hd.wellFormed.run_lt hrun)

theorem classOf_zero : d.classOf 0 = 0 := by
  have hwellFormed := hd.wellFormed
  have hsize := (wellFormed_quotient hwellFormed).start_lt
  rcases exists_isLeast hwellFormed (Nat.lt_of_le_of_lt (Nat.zero_le _) hsize) with ⟨a, ha⟩
  by_cases hzero : a = 0
  · exact hzero ▸ ha.classOf_eq hwellFormed
  · exact absurd (ha.classOf_lt hwellFormed (Nat.pos_of_ne_zero hzero)) (Nat.not_lt_zero _)

theorem IsLeast.pos {i a : Nat} (h : IsLeast d i a) (hi : 0 < i) : 0 < a := by
  apply Nat.pos_of_ne_zero
  intro hzero
  have hclass := h.classOf_eq hd.wellFormed
  rw [hzero, classOf_zero hd] at hclass
  omega

theorem breadthFirst_quotient : d.quotient.BreadthFirst where
  start_eq := by
    show d.classOf d.start = 0
    rw [hd.breadthFirst.start_eq, classOf_zero hd]
  parent := by
    intro j hj hlt
    rcases exists_isLeast hd.wellFormed hlt with ⟨b, hb⟩
    rcases hd.breadthFirst.parent b (hb.pos hd hj) (hb.lt hd.wellFormed) with ⟨p, c, hp, hnext⟩
    refine ⟨d.classOf p, c, hb.classOf_lt hd.wellFormed hp, ?_⟩
    rw [next_quotient_of_next hd.wellFormed hnext, hb.classOf_eq hd.wellFormed]
  earlier := by
    intro i j k c hi hij hnext
    have hwithin := (wellFormed_quotient hd.wellFormed).next_within hnext
    rcases exists_isLeast hd.wellFormed hwithin.1 with ⟨p, hp⟩
    rcases exists_isLeast hd.wellFormed hwithin.2.2 with ⟨b, hb⟩
    rcases exists_isLeast hd.wellFormed (Nat.lt_trans hij hwithin.2.2) with ⟨a, ha⟩
    rw [← hp.classOf_eq hd.wellFormed, next_quotient_classOf hd (hp.lt hd.wellFormed)] at hnext
    rcases Option.map_eq_some_iff.mp hnext with ⟨t, ht, htj⟩
    have hbt := hb.le hd.wellFormed (hd.wellFormed.next_within ht).2.2 htj
    have hat : a < t := Nat.lt_of_lt_of_le (isLeast_lt ha hb hij) hbt
    rcases hd.breadthFirst.earlier a t p c (ha.pos hd hi) hat ht with ⟨q, e, hqe, hedge⟩
    refine ⟨d.classOf q, e, ?_, ?_⟩
    · rcases hqe with hqp | ⟨rfl, hec⟩
      · exact Or.inl (hp.classOf_lt hd.wellFormed hqp)
      · exact Or.inr ⟨hp.classOf_eq hd.wellFormed, hec⟩
    · rw [next_quotient_of_next hd.wellFormed hedge, ha.classOf_eq hd.wellFormed]

theorem presents_quotient : Presents d.quotient L trap where
  wellFormed := wellFormed_quotient hd.wellFormed
  mem_alphabet := hd.mem_alphabet
  words := by
    intro w
    rw [← hd.words w]
    exact acceptsFrom_quotient hd.wellFormed hd.wellFormed.start_lt
  runs := by
    intro u
    rw [← hd.runs u, run_quotient hd]
    simp
  breadthFirst := breadthFirst_quotient hd

end Presents

theorem reduced_quotient (hd : d.WellFormed) : d.quotient.Reduced := by
  intro i j hi hj hij
  rw [size_quotient] at hi hj
  rcases exists_classOf_eq hd hi with ⟨p, hp, rfl⟩
  rcases exists_classOf_eq hd hj with ⟨q, hq, rfl⟩
  apply (classOf_eq_iff hd hp hq).mpr
  intro w
  rw [← acceptsFrom_quotient hd hp, ← acceptsFrom_quotient hd hq]
  exact hij w

end Dfa

/-- Quotients of the subset automaton say the same of the language, however many. -/
theorem Determinization.presents_build {n : Nfa} {L : Language Char} (h : n.Recognizes L)
    (p : Determinization) : Dfa.Presents (p.build n) L p.trap := by
  rcases p with ⟨trap, quotients⟩
  show Dfa.Presents (Nat.repeat Dfa.quotient quotients (.ofSubsets n trap)) L trap
  induction quotients with
  | zero => exact Dfa.presents_ofSubsets h trap
  | succ k ih => exact Dfa.presents_quotient ih

/-!
# The alphabet
-/

section Alphabet

variable {e : Expr}

theorem Nfa.Recognizes.alphabet_eq {n : Nfa} (h : n.Recognizes e.language) :
    n.alphabet = e.alphabet := by
  apply SortedSet.ext
  intro c
  rw [h.mem_alphabet, Expr.mem_alphabet_iff]

theorem Nfa.Recognizes.mem_alphabet_iff {n : Nfa} (h : n.Recognizes e.language) {c : Char} :
    c ∈ n.alphabet ↔ c ∈ e.alphabet := by
  rw [h.alphabet_eq]

theorem Dfa.Presents.alphabet_eq {d : Dfa} {trap : Bool} (h : Dfa.Presents d e.language trap) :
    d.alphabet = e.alphabet := by
  apply SortedSet.ext
  intro c
  rw [h.mem_alphabet, Expr.mem_alphabet_iff]

theorem Dfa.Presents.mem_alphabet_iff {d : Dfa} {trap : Bool}
    (h : Dfa.Presents d e.language trap) {c : Char} : c ∈ d.alphabet ↔ c ∈ e.alphabet := by
  rw [h.alphabet_eq]

end Alphabet

/-!
# The normal form of a language
-/

theorem Construction.build_recognizes (e : Expr) (k : Construction) :
    (k.build e).Recognizes e.language := by
  cases k with
  | positions => exact Nfa.ofPositions_recognizes e
  | fragments => exact Nfa.ofFragments_recognizes e

def Construction.minimal (k : Construction) (trap : Bool) (e : Expr) : Dfa :=
  (Dfa.ofSubsets (k.build e) trap).quotient

theorem Construction.presents_minimal (k : Construction) (trap : Bool) (e : Expr) :
    Dfa.Presents (k.minimal trap e) e.language trap :=
  Dfa.presents_quotient (Dfa.presents_ofSubsets (k.build_recognizes e) trap)

theorem Construction.minimal_sameUpToLabels (j k : Construction) (trap : Bool) {e f : Expr}
    (h : e.language = f.language) :
    Dfa.SameUpToLabels (j.minimal trap e) (k.minimal trap f) := by
  have hreduced : ∀ (k : Construction) (e : Expr), (k.minimal trap e).Reduced := by
    intro k e
    exact Dfa.reduced_quotient (Dfa.wellFormed_ofSubsets (k.build_recognizes e).wellFormed)
  exact Dfa.sameUpToLabels_of_presents (j.presents_minimal trap e)
    (h ▸ k.presents_minimal trap f) (hreduced j e) (hreduced k f)

/-- Minimal automata are the same, labels apart, just when the languages are, whichever
of the constructions they start from.  The two deterministic automata of a suite
become the same in this sense. -/
theorem Construction.minimal_normalForm :
    (∀ (j k : Construction) (trap : Bool) (e f : Expr),
      Dfa.SameUpToLabels (Dfa.ofSubsets (j.build e) trap).quotient
        (Dfa.ofSubsets (k.build f) trap).quotient ↔ e.language = f.language) ∧
    ∀ (e : Expr) (trap : Bool),
      Dfa.SameUpToLabels (Suite.ofExpr e ⟨trap, trap⟩).minimal
        (Suite.ofExpr e ⟨trap, trap⟩).dfa.quotient := by
  constructor
  · intro j k trap e f
    constructor
    · intro h
      apply Set.ext
      intro w
      show w ∈ e.language ↔ w ∈ f.language
      rw [← (j.presents_minimal trap e).words, ← (k.presents_minimal trap f).words]
      have hstart : (j.minimal trap e).start = (k.minimal trap f).start := h.start
      rw [hstart]
      exact h.acceptsFrom_iff
    · exact j.minimal_sameUpToLabels k trap
  · intro e trap
    exact Construction.minimal_sameUpToLabels .fragments .positions trap rfl

end Recognizer
