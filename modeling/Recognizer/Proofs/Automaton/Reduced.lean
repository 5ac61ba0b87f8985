import Recognizer.Proofs.Automaton.Liveness

/-!
# Reduced automata

The quotient of an automaton without equivalent states is the automaton itself, down to
the labels: every class has one member, and the classes stand in the order of these.  So
a second quotient changes nothing.
-/

namespace Recognizer

/-!
# Sets in the order of their least members
-/

namespace SortedSet

def LeastBefore (s t : SortedSet Nat) : Prop :=
  ∃ a b, s.min? = some a ∧ t.min? = some b ∧ a < b

theorem eq_of_leastBefore {xs ys : List (SortedSet Nat)} (hxs : xs.Pairwise LeastBefore)
    (hys : ys.Pairwise LeastBefore) (h : ∀ s, s ∈ xs ↔ s ∈ ys) : xs = ys := by
  apply eq_of_pairwise _ hxs hys h
  intro s _ t _ hst hts
  rcases hst with ⟨a, b, ha, hb, hab⟩
  rcases hts with ⟨b', a', hb', ha', hba⟩
  rw [ha] at ha'
  rw [hb] at hb'
  injection ha' with ha'
  injection hb' with hb'
  omega

end SortedSet

namespace Dfa

variable {d m : Dfa}

theorem mem_classes_iff (hd : d.WellFormed) {s : SortedSet Nat} :
    s ∈ d.classes ↔
      ∃ q, q < d.states.size ∧ ∀ p, p ∈ s ↔ p < d.states.size ∧ d.Equivalent q p := by
  constructor
  · intro hs
    rcases exists_mem_class hd hs with ⟨q, hq⟩
    exact ⟨q, lt_of_mem_class hd hs hq, fun p => mem_class_iff hd hs hq⟩
  · intro h
    rcases h with ⟨q, hq, hmem⟩
    rcases exists_class hd hq with ⟨t, ht, hqt⟩
    have hst : s = t := by
      apply SortedSet.ext
      intro p
      rw [hmem, mem_class_iff hd ht hqt]
    exact hst ▸ ht

/-!
# Equality of automata
-/

theorem eq_of_next (hstates : d.states = m.states) (halphabet : d.alphabet = m.alphabet)
    (hsize : d.edges.size = m.edges.size) (hnext : ∀ q c, d.next q c = m.next q c)
    (hstart : d.start = m.start) (haccepting : ∀ q, q ∈ d.accepting ↔ q ∈ m.accepting) :
    d = m := by
  have hedges := edges_eq_of_next hsize (fun q c _ => hnext q c)
  have haccepting : d.accepting = m.accepting := SortedSet.ext haccepting
  cases d
  cases m
  simp_all

/-!
# The quotient of a reduced automaton
-/

section Reduced

variable (hd : d.WellFormed) (hreduced : d.Reduced) {q : Nat}

include hd hreduced

theorem classes_of_reduced :
    d.classes = (List.range d.states.size).map SortedSet.singleton := by
  apply SortedSet.eq_of_leastBefore (classes_increasing d)
  · rw [List.pairwise_map]
    apply List.pairwise_lt_range.imp
    intro a b hab
    exact ⟨a, b, rfl, rfl, hab⟩
  · intro s
    rw [mem_classes_iff hd, List.mem_map]
    have halone : ∀ q, q < d.states.size → ∀ p,
        p < d.states.size ∧ d.Equivalent q p ↔ p ∈ SortedSet.singleton q := by
      intro q hq p
      rw [SortedSet.mem_singleton]
      constructor
      · intro h
        exact (hreduced q p hq h.1 h.2).symm
      · rintro rfl
        exact ⟨hq, fun _ => Iff.rfl⟩
    constructor
    · intro h
      rcases h with ⟨q, hq, hmem⟩
      refine ⟨q, List.mem_range.mpr hq, SortedSet.ext fun p => ?_⟩
      rw [hmem, halone q hq]
    · intro h
      rcases h with ⟨q, hq, rfl⟩
      have hq := List.mem_range.mp hq
      exact ⟨q, hq, fun p => (halone q hq p).symm⟩

theorem getElem?_classes_of_reduced (hq : q < d.states.size) :
    d.classes[q]? = some (.singleton q) := by
  rw [classes_of_reduced hd hreduced, List.getElem?_map, List.getElem?_range hq]
  rfl

theorem classOf_of_reduced (hq : q < d.states.size) : d.classOf q = q :=
  classOf_of_mem hd (getElem?_classes_of_reduced hd hreduced hq) (SortedSet.mem_singleton.mpr rfl)

theorem states_quotient_of_reduced : d.quotient.states = d.states := by
  have hsize : d.quotient.states.size = d.states.size := by
    rw [size_quotient, classes_of_reduced hd hreduced, List.length_map, List.length_range]
  apply Array.ext hsize
  intro q hq hq'
  have hquotient := getElem?_states_quotient (getElem?_classes_of_reduced hd hreduced hq')
  rcases hd.inPlace.getElem? hq' with ⟨label, hlabel⟩
  have hclass : d.classLabel (.singleton q) = label := by
    simp [classLabel, SortedSet.singleton, hlabel]
  rw [hclass, ← hlabel, Array.getElem?_eq_getElem hq, Array.getElem?_eq_getElem hq'] at hquotient
  injection hquotient

theorem next_quotient_of_reduced (q : Nat) (c : Char) : d.quotient.next q c = d.next q c := by
  apply Option.ext
  intro r
  constructor
  · intro h
    rcases exists_next_of_next_quotient hd h with ⟨p, t, hp, hpq, ht, htr⟩
    rw [classOf_of_reduced hd hreduced hp] at hpq
    rw [classOf_of_reduced hd hreduced (hd.next_within ht).2.2] at htr
    rw [← hpq, ← htr]
    exact ht
  · intro h
    have hwithin := hd.next_within h
    have hquotient := next_quotient_of_next hd h
    rwa [classOf_of_reduced hd hreduced hwithin.1,
      classOf_of_reduced hd hreduced hwithin.2.2] at hquotient

theorem mem_accepting_quotient_of_reduced (q : Nat) :
    q ∈ d.quotient.accepting ↔ q ∈ d.accepting := by
  by_cases hq : q < d.states.size
  · have haccepting := classOf_mem_accepting hd hq
    rwa [classOf_of_reduced hd hreduced hq] at haccepting
  · have hsize := congrArg Array.size (states_quotient_of_reduced hd hreduced)
    refine iff_of_false (fun h => hq ?_) (fun h => hq (hd.accepting_lt q h))
    exact hsize ▸ (wellFormed_quotient hd).accepting_lt q h

theorem quotient_of_reduced : d.quotient = d := by
  have hstates := states_quotient_of_reduced hd hreduced
  have hsize : d.quotient.edges.size = d.edges.size := by
    rw [(wellFormed_quotient hd).edges_size, hd.edges_size, hstates]
  exact eq_of_next hstates rfl hsize (next_quotient_of_reduced hd hreduced)
    (classOf_of_reduced hd hreduced hd.start_lt) (mem_accepting_quotient_of_reduced hd hreduced)

end Reduced

theorem quotient_eq_self_iff (hd : d.WellFormed) : d.quotient = d ↔ d.Reduced := by
  constructor
  · intro h
    exact h ▸ reduced_quotient hd
  · exact quotient_of_reduced hd

/-- A quotient is its own quotient: the same states, in the same order and with the same
labels, and the same edges. -/
theorem quotient_quotient (d : Dfa) (hd : d.WellFormed) : d.quotient.quotient = d.quotient :=
  quotient_of_reduced (wellFormed_quotient hd) (reduced_quotient hd)

theorem quotient_quotient_forked :
    forked.WellFormed ∧ forked.quotient ≠ forked ∧ forked.quotient.quotient = forked.quotient :=
  ⟨wellFormed_forked, by decide +kernel, quotient_quotient forked wellFormed_forked⟩

end Dfa

end Recognizer
