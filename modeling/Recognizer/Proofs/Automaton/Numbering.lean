import Recognizer.Proofs.Automaton.Run
import Mathlib.Computability.Language

/-!
# Automata numbered by a search

The language of a deterministic automaton, the words over which it can run and the
breadth-first numbering of its states leave nothing open but the labels, when no two
states accept the same words.  The proof meets the states of two such automata by the
words that lead to them.
-/

namespace Recognizer

namespace Dfa

/-- Nothing but the labels of the states may differ. -/
structure SameUpToLabels (d m : Dfa) : Prop where
  ids : d.states.map State.id = m.states.map State.id
  alphabet : d.alphabet = m.alphabet
  start : d.start = m.start
  accepting : d.accepting = m.accepting
  edges : d.edges = m.edges

theorem SameUpToLabels.acceptsFrom_iff {d m : Dfa} (h : SameUpToLabels d m) {q : Nat}
    {w : List Char} : d.AcceptsFrom q w ↔ m.AcceptsFrom q w := by
  have hnext : d.next = m.next := by
    funext q c
    rw [next, next, h.edges]
  unfold AcceptsFrom runFrom
  rw [hnext, h.accepting]

/-- The numbering of a breadth-first search that takes the characters in increasing
order: a state was met on an edge from an earlier state, and earlier states were met
on earlier edges. -/
structure BreadthFirst (d : Dfa) : Prop where
  start_eq : d.start = 0
  parent : ∀ j, 0 < j → j < d.states.size → ∃ p c, p < j ∧ d.next p c = some j
  earlier : ∀ i j p c, 0 < i → i < j → d.next p c = some j →
    ∃ q b, (q < p ∨ q = p ∧ b < c) ∧ d.next q b = some i

/-- A word that can be run over: with a trap every word of symbols that the language
knows, and without a trap the beginnings of its words. -/
def Runnable (L : Language Char) (trap : Bool) (u : List Char) : Prop :=
  if trap then ∀ c ∈ u, ∃ w ∈ L, c ∈ w else ∃ v, u ++ v ∈ L

structure Presents (d : Dfa) (L : Language Char) (trap : Bool) : Prop where
  wellFormed : d.WellFormed
  mem_alphabet : ∀ c, c ∈ d.alphabet ↔ ∃ w ∈ L, c ∈ w
  words : ∀ w, d.AcceptsFrom d.start w ↔ w ∈ L
  runs : ∀ u, (∃ q, d.run u = some q) ↔ Runnable L trap u
  breadthFirst : d.BreadthFirst

/-- No two states accept the same words. -/
def Reduced (d : Dfa) : Prop :=
  ∀ p q, p < d.states.size → q < d.states.size → d.Equivalent p q → p = q

theorem run_append (d : Dfa) (u v : List Char) :
    d.run (u ++ v) = (d.run u).bind (fun q => d.runFrom q v) :=
  runFrom_append d d.start u v

theorem run_append_singleton (d : Dfa) (u : List Char) (c : Char) :
    d.run (u ++ [c]) = (d.run u).bind (fun q => d.next q c) := by
  rw [run_append]
  congr 1
  funext q
  simp [runFrom]

theorem WellFormed.run_lt {d : Dfa} (hd : d.WellFormed) {u : List Char} {q : Nat}
    (h : d.run u = some q) : q < d.states.size := by
  induction u using List.reverseRecOn generalizing q with
  | nil =>
      injection h with h
      exact h ▸ hd.start_lt
  | append_singleton u c ih =>
      rw [run_append_singleton] at h
      rcases Option.bind_eq_some_iff.mp h with ⟨p, _, hnext⟩
      exact (hd.next_within hnext).2.2

theorem acceptsFrom_of_run {d : Dfa} {u w : List Char} {q : Nat} (h : d.run u = some q) :
    d.AcceptsFrom d.start (u ++ w) ↔ d.AcceptsFrom q w := by
  rw [acceptsFrom_append]
  have h : d.runFrom d.start u = some q := h
  simp [h]

theorem BreadthFirst.exists_run {d : Dfa} (hd : d.BreadthFirst) (j : Nat)
    (hj : j < d.states.size) : ∃ u, d.run u = some j := by
  induction j using Nat.strongRecOn with
  | ind j ih =>
      by_cases hzero : j = 0
      · exact ⟨[], congrArg some (hd.start_eq.trans hzero.symm)⟩
      · rcases hd.parent j (Nat.pos_of_ne_zero hzero) hj with ⟨p, c, hp, hnext⟩
        rcases ih p hp (Nat.lt_trans hp hj) with ⟨u, hu⟩
        refine ⟨u ++ [c], ?_⟩
        rw [run_append_singleton, hu]
        exact hnext

theorem Presents.exists_next {d : Dfa} {L : Language Char} (hd : Presents d L true) {q : Nat}
    {c : Char} (hq : q < d.states.size) (hc : c ∈ d.alphabet) : ∃ r, d.next q c = some r := by
  rcases hd.breadthFirst.exists_run q hq with ⟨u, hu⟩
  have hrunnable : Runnable L true (u ++ [c]) := by
    intro b hb
    cases List.mem_append.mp hb with
    | inl hb => exact (hd.runs u).mp ⟨q, hu⟩ b hb
    | inr hb => exact List.mem_singleton.mp hb ▸ (hd.mem_alphabet c).mp hc
  rcases (hd.runs _).mpr hrunnable with ⟨r, hr⟩
  rw [run_append_singleton, hu] at hr
  exact ⟨r, hr⟩

/-!
# Meeting states

Two states meet when one word leads to both.
-/

def Meets (d m : Dfa) (p q : Nat) : Prop := ∃ u, d.run u = some p ∧ m.run u = some q

theorem Meets.symm {d m : Dfa} {p q : Nat} (h : Meets d m p q) : Meets m d q p := by
  rcases h with ⟨u, hp, hq⟩
  exact ⟨u, hq, hp⟩

section Meets

variable {d m : Dfa} {L : Language Char} {trap : Bool}

theorem acceptsFrom_iff_of_meets (hd : Presents d L trap) (hm : Presents m L trap) {p q : Nat}
    (h : Meets d m p q) (w : List Char) : d.AcceptsFrom p w ↔ m.AcceptsFrom q w := by
  rcases h with ⟨u, hp, hq⟩
  rw [← acceptsFrom_of_run hp, ← acceptsFrom_of_run hq, hd.words, hm.words]

theorem exists_meets (hd : Presents d L trap) (hm : Presents m L trap) {p : Nat}
    (hp : p < d.states.size) : ∃ q, q < m.states.size ∧ Meets d m p q := by
  rcases hd.breadthFirst.exists_run p hp with ⟨u, hu⟩
  rcases (hm.runs u).mpr ((hd.runs u).mp ⟨p, hu⟩) with ⟨q, hq⟩
  exact ⟨q, hm.wellFormed.run_lt hq, u, hu, hq⟩

theorem meets_unique (hd : Presents d L trap) (hm : Presents m L trap) (hreduced : m.Reduced)
    {p q r : Nat} (hq : Meets d m p q) (hr : Meets d m p r) : q = r := by
  have hlt : ∀ q, Meets d m p q → q < m.states.size := by
    intro q h
    rcases h with ⟨u, _, hu⟩
    exact hm.wellFormed.run_lt hu
  apply hreduced q r (hlt q hq) (hlt r hr)
  intro w
  rw [← acceptsFrom_iff_of_meets hd hm hq, acceptsFrom_iff_of_meets hd hm hr]

theorem meets_next (hd : Presents d L trap) (hm : Presents m L trap) {p q r : Nat} {c : Char}
    (h : Meets d m p q) (hr : d.next p c = some r) :
    ∃ s, m.next q c = some s ∧ Meets d m r s := by
  rcases h with ⟨u, hp, hq⟩
  have hrun : d.run (u ++ [c]) = some r := by
    rw [run_append_singleton, hp]
    exact hr
  rcases (hm.runs _).mpr ((hd.runs _).mp ⟨r, hrun⟩) with ⟨s, hs⟩
  have hnext := hs
  rw [run_append_singleton, hq] at hnext
  exact ⟨s, hnext, u ++ [c], hrun, hs⟩

/-!
# The numbering is unique
-/

/-- If the states up to a number meet those of the same numbers, the search cannot
have found two different states next: each would have been met on an earlier edge
than the other. -/
theorem no_detour (hd : Presents d L trap) (hm : Presents m L trap) {j k l : Nat}
    (hd_reduced : d.Reduced) (hm_reduced : m.Reduced)
    (hbefore : ∀ i, i < j → Meets d m i i) (hj : 0 < j) (hk : Meets d m j k) (hl : Meets d m l j)
    (hjk : j < k) (hjl : j < l) (p : Nat) (hp : p < j) (c : Char) : d.next p c ≠ some j := by
  have hm_next : ∀ p c r s, p < j → d.next p c = some r → Meets d m r s → m.next p c = some s := by
    intro p c r s hp hr hrs
    rcases meets_next hd hm (hbefore p hp) hr with ⟨t, ht, hrt⟩
    rw [ht, meets_unique hd hm hm_reduced hrt hrs]
  have hd_next : ∀ p c r s, p < j → m.next p c = some s → Meets d m r s → d.next p c = some r := by
    intro p c r s hp hs hrs
    rcases meets_next hm hd (hbefore p hp).symm hs with ⟨t, ht, hst⟩
    rw [ht, meets_unique hm hd hd_reduced hst hrs.symm]
  -- the edge that is looked at descends in the order of the search
  induction p using Nat.strongRecOn generalizing c with
  | ind p ihp =>
      induction hcode : c.toNat using Nat.strongRecOn generalizing c with
      | ind code ihc =>
          intro hedge
          have hmk := hm_next p c j k hp hedge hk
          rcases hm.breadthFirst.earlier j k p c hj hjk hmk with ⟨q, b, hqb, hmj⟩
          have hdl := hd_next q b l j (by omega) hmj hl
          rcases hd.breadthFirst.earlier j l q b hj hjl hdl with ⟨s, a, hsa, hdj⟩
          by_cases hsp : s < p
          · exact ihp s hsp (by omega) a hdj
          · have hs : s = p := by omega
            have hac : a < c := by
              cases hsa with
              | inl hsa =>
                  omega
              | inr hsa =>
                  cases hqb with
                  | inl hqb =>
                      omega
                  | inr hqb =>
                      exact Char.lt_trans hsa.2 hqb.2
            exact ihc a.toNat (hcode ▸ hac) a rfl (hs ▸ hdj)

theorem meets_self (hd : Presents d L trap) (hm : Presents m L trap) (hd_reduced : d.Reduced)
    (hm_reduced : m.Reduced) (j : Nat) (hj : j < d.states.size) : Meets d m j j := by
  induction j using Nat.strongRecOn with
  | ind j ih =>
      have hbefore : ∀ i, i < j → Meets d m i i := fun i hi => ih i hi (Nat.lt_trans hi hj)
      by_cases hzero : j = 0
      · rw [hzero]
        exact ⟨[], congrArg some hd.breadthFirst.start_eq, congrArg some hm.breadthFirst.start_eq⟩
      · have hpos : 0 < j := Nat.pos_of_ne_zero hzero
        rcases exists_meets hd hm hj with ⟨k, hk_lt, hk⟩
        rcases Nat.lt_trichotomy k j with hkj | hkj | hkj
        · have := meets_unique hm hd hd_reduced hk.symm (hbefore k hkj).symm
          omega
        · exact hkj ▸ hk
        · rcases exists_meets hm hd (Nat.lt_trans hkj hk_lt) with ⟨l, _, hl⟩
          rcases Nat.lt_trichotomy l j with hlj | hlj | hlj
          · have := meets_unique hd hm hm_reduced hl.symm (hbefore l hlj)
            omega
          · exact (hlj ▸ hl).symm
          · rcases hd.breadthFirst.parent j hpos hj with ⟨p, c, hp, hedge⟩
            exact absurd hedge
              (no_detour hd hm hd_reduced hm_reduced hbefore hpos hk hl.symm hkj hlj p hp c)

theorem size_le_size (hd : Presents d L trap) (hm : Presents m L trap) (hd_reduced : d.Reduced)
    (hm_reduced : m.Reduced) : d.states.size ≤ m.states.size := by
  by_contra h
  rcases meets_self hd hm hd_reduced hm_reduced m.states.size (Nat.lt_of_not_le h) with ⟨u, _, hu⟩
  exact Nat.lt_irrefl _ (hm.wellFormed.run_lt hu)

/-- Reduced automata for one language, numbered by a search, differ in labels only. -/
theorem sameUpToLabels_of_presents (hd : Presents d L trap) (hm : Presents m L trap)
    (hd_reduced : d.Reduced) (hm_reduced : m.Reduced) : SameUpToLabels d m := by
  have hsize : d.states.size = m.states.size :=
    Nat.le_antisymm (size_le_size hd hm hd_reduced hm_reduced)
      (size_le_size hm hd hm_reduced hd_reduced)
  have hmeets := meets_self hd hm hd_reduced hm_reduced
  have hnext : ∀ q c, q < d.states.size → d.next q c = m.next q c := by
    intro q c hq
    apply Option.ext
    intro r
    constructor
    · intro hr
      rcases meets_next hd hm (hmeets q hq) hr with ⟨s, hs, hrs⟩
      have hr_lt := (hd.wellFormed.next_within hr).2.2
      rw [hs, meets_unique hd hm hm_reduced hrs (hmeets r hr_lt)]
    · intro hr
      rcases meets_next hm hd (hmeets q hq).symm hr with ⟨s, hs, hrs⟩
      have hr_lt := hsize ▸ (hm.wellFormed.next_within hr).2.2
      rw [hs, meets_unique hm hd hd_reduced hrs (hmeets r hr_lt).symm]
  have hids : ∀ d : Dfa, d.WellFormed →
      d.states.map State.id = (List.range d.states.size).toArray := by
    intro d hd
    rw [← hd.inPlace, ← List.map_toArray, Array.toArray_toList]
  refine ⟨?_, ?_, ?_, ?_, ?_⟩
  · rw [hids d hd.wellFormed, hids m hm.wellFormed, hsize]
  · apply SortedSet.ext
    intro c
    rw [hd.mem_alphabet, hm.mem_alphabet]
  · rw [hd.breadthFirst.start_eq, hm.breadthFirst.start_eq]
  · apply SortedSet.ext
    intro q
    by_cases hq : q < d.states.size
    · rw [← acceptsFrom_nil, ← acceptsFrom_nil]
      exact acceptsFrom_iff_of_meets hd hm (hmeets q hq) []
    · exact iff_of_false (fun h => hq (hd.wellFormed.accepting_lt q h))
        (fun h => hq (hsize ▸ hm.wellFormed.accepting_lt q h))
  · apply edges_eq_of_next
    · rw [hd.wellFormed.edges_size, hm.wellFormed.edges_size, hsize]
    · intro q c hq
      exact hnext q c (hd.wellFormed.edges_size ▸ hq)

end Meets

end Dfa

end Recognizer
