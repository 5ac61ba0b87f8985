import Recognizer.Automaton.Subset
import Recognizer.Proofs.Automaton.Numbering
import Recognizer.Proofs.Automaton.Path
import Mathlib.Data.Finset.Powerset
import Mathlib.Data.Finset.Dedup

/-!
# The states of a subset automaton

A state is the set of states in which the nondeterministic automaton may be after some
word, and a run goes on as long as the set is not empty, or for good if there is a
trap.  The search meets the sets in breadth-first order.
-/

namespace Recognizer

namespace Nfa

variable {n : Nfa} {trap : Bool} {s t : SortedSet Nat} {c : Char}

/-!
# One more character
-/

theorem subsetAfter_eq_some_iff :
    n.subsetAfter trap s c = some t ↔ t = n.step s c ∧ (trap = true ∨ ∃ q, q ∈ n.step s c) := by
  have hnonempty : (n.step s c).isEmpty = false ↔ ∃ q, q ∈ n.step s c := by
    rw [SortedSet.isEmpty, List.isEmpty_eq_false_iff_exists_mem]
    exact Iff.rfl
  have hafter : n.subsetAfter trap s c =
      if (n.step s c).isEmpty && !trap then none else some (n.step s c) := rfl
  have hstep : some (n.step s c) = some t ↔ t = n.step s c := by
    rw [Option.some_inj]
    exact eq_comm
  rw [hafter, ← hnonempty]
  cases hempty : (n.step s c).isEmpty with
  | true =>
      cases trap with
      | true => simp [hstep]
      | false => simp
  | false => simp [hstep]

theorem step_of_empty (hn : n.WellFormed) (hs : ∀ q, q ∉ s) : ∀ q, q ∉ n.step s c := by
  intro q hq
  rcases ((mem_step hn).mp hq).1 with ⟨p, hp, _⟩
  exact hs p hp

theorem lt_of_mem_closure (hn : n.WellFormed) (hs : ∀ q ∈ s, q < n.states.size) :
    ∀ q ∈ n.closure s, q < n.states.size := by
  intro q hq
  rcases ((mem_closure hn hs).mp hq).1 with ⟨p, hp, hpath⟩
  exact hn.pathTo_lt (hs p hp) hpath

theorem lt_of_mem_step (hn : n.WellFormed) : ∀ q ∈ n.step s c, q < n.states.size :=
  lt_of_mem_closure hn (lt_of_mem_successors hn)

theorem lt_of_mem_startSet (hn : n.WellFormed) : ∀ q ∈ n.startSet, q < n.states.size :=
  lt_of_mem_closure hn (lt_of_mem_start hn)

/-- The states that do more than to pass on. -/
def shownStates (n : Nfa) : SortedSet Nat :=
  (SortedSet.range n.states.size).filter fun q => !n.isIntermediate q

theorem mem_shownStates_of_mem_closure (hn : n.WellFormed) (hs : ∀ q ∈ s, q < n.states.size) :
    ∀ q ∈ n.closure s, q ∈ n.shownStates := by
  intro q hq
  rw [shownStates, SortedSet.mem_filter, SortedSet.mem_range, Bool.not_eq_true']
  exact ⟨lt_of_mem_closure hn hs q hq, ((mem_closure hn hs).mp hq).2⟩

theorem size_shownStates_le : n.shownStates.size ≤ n.states.size := by
  have hlength := List.length_filter_le (fun q => !n.isIntermediate q) (List.range n.states.size)
  rw [List.length_range] at hlength
  exact hlength

/-!
# The sets that are met
-/

theorem length_le_of_subsets {xs : List (SortedSet Nat)} {allowed : SortedSet Nat}
    (hnodup : xs.Nodup) (hxs : ∀ s ∈ xs, ∀ q ∈ s, q ∈ allowed) :
    xs.length ≤ 2 ^ allowed.size := by
  let members (s : SortedSet Nat) : Finset Nat := s.toList.toFinset
  have hmembers : ∀ (s : SortedSet Nat) q, q ∈ members s ↔ q ∈ s := by
    intro s q
    exact List.mem_toFinset
  have hinjective : Function.Injective members := by
    intro s t h
    apply SortedSet.ext
    intro q
    rw [← hmembers, ← hmembers, h]
  have hsubset : (xs.map members).toFinset ⊆ (members allowed).powerset := by
    intro m hm
    rcases List.mem_map.mp (List.mem_toFinset.mp hm) with ⟨s, hs, rfl⟩
    rw [Finset.mem_powerset]
    intro q hq
    exact (hmembers allowed q).mpr (hxs s hs q ((hmembers s q).mp hq))
  have hcard := Finset.card_le_card hsubset
  rw [List.toFinset_card_of_nodup (hnodup.map hinjective), Finset.card_powerset,
    List.length_map] at hcard
  exact hcard.trans (Nat.pow_le_pow_right Nat.two_pos allowed.toList.toFinset_card_le)

def subsetsAfter (n : Nfa) (trap : Bool) (s : SortedSet Nat) : List (SortedSet Nat) :=
  n.alphabet.toList.filterMap (n.subsetAfter trap s)

theorem mem_subsetsAfter :
    t ∈ n.subsetsAfter trap s ↔ ∃ c ∈ n.alphabet, n.subsetAfter trap s c = some t :=
  List.mem_filterMap

theorem mem_shownStates_of_reached (hn : n.WellFormed)
    (hs : Search.Reached (n.subsetsAfter trap) [n.startSet] s) : ∀ q ∈ s, q ∈ n.shownStates := by
  cases hs with
  | seed hseed =>
      rw [List.mem_singleton.mp hseed]
      exact mem_shownStates_of_mem_closure hn (lt_of_mem_start hn)
  | next _ hnext =>
      rcases mem_subsetsAfter.mp hnext with ⟨c, _, hc⟩
      rw [(subsetAfter_eq_some_iff.mp hc).1]
      exact mem_shownStates_of_mem_closure hn (lt_of_mem_successors hn)

theorem lt_of_mem_reached (hn : n.WellFormed)
    (hs : Search.Reached (n.subsetsAfter trap) [n.startSet] s) : ∀ q ∈ s, q < n.states.size :=
  fun q hq => SortedSet.mem_range.mp
    (SortedSet.mem_filter.mp (mem_shownStates_of_reached hn hs q hq)).1

/-- No more sets are met than there are sets of states that are shown. -/
theorem covers_shownStates (hn : n.WellFormed) (trap : Bool) :
    Search.Covers (n.subsetsAfter trap) [n.startSet] (2 ^ n.shownStates.size) := by
  intro xs hnodup hreached
  exact length_le_of_subsets hnodup fun s hs => mem_shownStates_of_reached hn (hreached s hs)

theorem covers_subsetsAfter (hn : n.WellFormed) (trap : Bool) :
    Search.Covers (n.subsetsAfter trap) [n.startSet] (2 ^ n.states.size) := by
  intro xs hnodup hreached
  exact (covers_shownStates hn trap xs hnodup hreached).trans
    (Nat.pow_le_pow_right Nat.two_pos size_shownStates_le)

theorem nodup_subsets : (n.subsets trap).Nodup := nodup_breadthFirst

theorem getElem?_subsets_zero (hn : n.WellFormed) : (n.subsets trap)[0]? = some n.startSet := by
  have hmem : n.startSet ∈ n.subsets trap :=
    (mem_breadthFirst_iff_stream (covers_subsetsAfter hn trap)).mpr
      (Or.inl (List.mem_singleton.mpr rfl))
  have hfirst := List.getElem?_eq_getElem (List.length_pos_of_mem hmem)
  rcases breadthFirst_parent hfirst with hseed | ⟨i, _, hi, _⟩
  · rw [hfirst, List.mem_singleton.mp hseed]
  · exact absurd hi (Nat.not_lt_zero i)

theorem mem_subsets_of_subsetAfter (hn : n.WellFormed) (hs : s ∈ n.subsets trap)
    (hc : c ∈ n.alphabet) (ht : n.subsetAfter trap s c = some t) : t ∈ n.subsets trap :=
  (mem_breadthFirst_iff_stream (covers_subsetsAfter hn trap)).mpr
    (Or.inr ⟨s, hs, mem_subsetsAfter.mpr ⟨c, hc, ht⟩⟩)

end Nfa

namespace Dfa

variable {n : Nfa} {trap : Bool} {s : SortedSet Nat} {i j : Nat} {c : Char}

/-!
# The edges of the subset automaton
-/

theorem size_ofSubsets : (ofSubsets n trap).states.size = (n.subsets trap).length := by
  simp [ofSubsets]

theorem next_ofSubsets_iff (hn : n.WellFormed) :
    (ofSubsets n trap).next i c = some j ↔
      c ∈ n.alphabet ∧ ∃ s t, (n.subsets trap)[i]? = some s ∧ (n.subsets trap)[j]? = some t ∧
        n.subsetAfter trap s c = some t := by
  let follow (s : SortedSet Nat) (c : Char) : Option Nat :=
    (n.subsetAfter trap s c).map (n.subsets trap).idxOf
  have hedges : (ofSubsets n trap).edges =
      ((n.subsets trap).map (fun s => SortedMap.tabulate n.alphabet (follow s))).toArray := rfl
  rw [next_eq_some_iff_of_tabulate hedges]
  apply and_congr_right
  intro hc
  apply exists_congr
  intro s
  constructor
  · intro h
    rcases Option.map_eq_some_iff.mp h.2 with ⟨t, ht, rfl⟩
    have ht_mem := Nfa.mem_subsets_of_subsetAfter hn (List.mem_of_getElem? h.1) hc ht
    exact ⟨t, h.1, List.getElem?_idxOf ht_mem, ht⟩
  · intro h
    rcases h with ⟨t, hs, hj, ht⟩
    have hplace := List.getElem?_idxOf (List.mem_of_getElem? hj)
    refine ⟨hs, ?_⟩
    show (n.subsetAfter trap s c).map (n.subsets trap).idxOf = some j
    rw [ht, Option.map_some, getElem?_inj_of_nodup Nfa.nodup_subsets hplace hj]

theorem mem_accepting_ofSubsets :
    i ∈ (ofSubsets n trap).accepting ↔
      ∃ s, (n.subsets trap)[i]? = some s ∧ n.anyAccepting s = true := by
  show i ∈ (SortedSet.range (n.subsets trap).length).filter _ ↔ _
  rw [SortedSet.mem_filter, SortedSet.mem_range]
  cases hs : (n.subsets trap)[i]? with
  | none => simp
  | some s =>
      have hi := (List.getElem?_eq_some_iff.mp hs).1
      simp [hi]

theorem wellFormed_ofSubsets (hn : n.WellFormed) : (ofSubsets n trap).WellFormed where
  inPlace := State.inPlace_numbered _
  edges_size := by simp [ofSubsets]
  start_lt := by
    rw [size_ofSubsets]
    exact (List.getElem?_eq_some_iff.mp (Nfa.getElem?_subsets_zero hn)).1
  accepting_lt := by
    intro i hi
    rcases mem_accepting_ofSubsets.mp hi with ⟨s, hs, _⟩
    rw [size_ofSubsets]
    exact (List.getElem?_eq_some_iff.mp hs).1
  edges_within := by
    apply edges_within_of_next
    intro i c j hnext
    rcases (next_ofSubsets_iff hn).mp hnext with ⟨hc, s, t, _, hj, _⟩
    rw [size_ofSubsets]
    exact ⟨hc, (List.getElem?_eq_some_iff.mp hj).1⟩

/-!
# The numbering of the subset automaton
-/

theorem breadthFirst_ofSubsets (hn : n.WellFormed) : (ofSubsets n trap).BreadthFirst where
  start_eq := rfl
  parent := by
    intro j hj hlt
    rw [size_ofSubsets] at hlt
    have ht := List.getElem?_eq_getElem hlt
    rcases breadthFirst_parent ht with hseed | ⟨p, s, hp, hs, hnext⟩
    · rw [List.mem_singleton.mp hseed] at ht
      have := getElem?_inj_of_nodup Nfa.nodup_subsets (Nfa.getElem?_subsets_zero hn) ht
      omega
    · rcases Nfa.mem_subsetsAfter.mp hnext with ⟨c, hc, hafter⟩
      exact ⟨p, c, hp, (next_ofSubsets_iff hn).mpr ⟨hc, s, _, hs, ht, hafter⟩⟩
  earlier := by
    intro i j p c hi hij hnext
    rcases (next_ofSubsets_iff hn).mp hnext with ⟨hc, s, t, hs, ht, hafter⟩
    have hlt : i < (n.subsets trap).length :=
      Nat.lt_trans hij (List.getElem?_eq_some_iff.mp ht).1
    have ha := List.getElem?_eq_getElem hlt
    rcases List.append_of_mem hc with ⟨before, after, hsplit⟩
    have hsuccessors : n.subsetsAfter trap s =
        before.filterMap (n.subsetAfter trap s) ++
          t :: after.filterMap (n.subsetAfter trap s) := by
      unfold Nfa.subsetsAfter
      rw [hsplit, List.filterMap_append, List.filterMap_cons_some hafter]
    rcases breadthFirst_order (Nfa.covers_subsetsAfter hn trap) ha ht hij hs hsuccessors with
      hseed | ⟨q, u, hq, hu, hau⟩ | hbefore
    · rw [List.mem_singleton.mp hseed] at ha
      have := getElem?_inj_of_nodup Nfa.nodup_subsets (Nfa.getElem?_subsets_zero hn) ha
      omega
    · rcases Nfa.mem_subsetsAfter.mp hau with ⟨b, hb, hb_after⟩
      exact ⟨q, b, Or.inl hq, (next_ofSubsets_iff hn).mpr ⟨hb, u, _, hu, ha, hb_after⟩⟩
    · rcases List.mem_filterMap.mp hbefore with ⟨b, hb, hb_after⟩
      have hb_mem : b ∈ n.alphabet := by
        rw [← SortedSet.mem_toList, hsplit]
        exact List.mem_append_left _ hb
      have hbc : compare b c = .lt := by
        have hincreasing := n.alphabet.increasing
        rw [hsplit, List.pairwise_append] at hincreasing
        exact hincreasing.2.2 b hb c List.mem_cons_self
      refine ⟨p, b, Or.inr ⟨rfl, ?_⟩, (next_ofSubsets_iff hn).mpr ⟨hb_mem, s, _, hs, ha, hb_after⟩⟩
      exact compareOfLessAndEq_eq_lt.mp hbc

theorem exists_run_of_getElem?_subsets (hn : n.WellFormed) (hs : (n.subsets trap)[i]? = some s) :
    ∃ u, (ofSubsets n trap).run u = some i := by
  apply (breadthFirst_ofSubsets hn).exists_run
  rw [size_ofSubsets]
  exact (List.getElem?_eq_some_iff.mp hs).1

/-!
# The runs of the subset automaton
-/

theorem subset_of_run (hn : n.WellFormed) {u : List Char} (h : (ofSubsets n trap).run u = some i) :
    (n.subsets trap)[i]? = some (n.run u) := by
  induction u using List.reverseRecOn generalizing i with
  | nil =>
      injection h with h
      rw [← h]
      exact Nfa.getElem?_subsets_zero hn
  | append_singleton u c ih =>
      rw [run_append_singleton] at h
      rcases Option.bind_eq_some_iff.mp h with ⟨p, hp, hnext⟩
      rcases (next_ofSubsets_iff hn).mp hnext with ⟨_, s, t, hs, ht, hafter⟩
      rw [ih hp] at hs
      injection hs with hs
      rw [ht, (Nfa.subsetAfter_eq_some_iff.mp hafter).1, ← hs, Nfa.run_append_singleton]

theorem exists_run_iff (hn : n.WellFormed) {u : List Char} :
    (∃ i, (ofSubsets n trap).run u = some i) ↔
      (∀ c ∈ u, c ∈ n.alphabet) ∧ (trap = true ∨ u = [] ∨ ∃ q, q ∈ n.run u) := by
  induction u using List.reverseRecOn with
  | nil =>
      constructor
      · intro _
        exact ⟨fun c hc => absurd hc List.not_mem_nil, Or.inr (Or.inl rfl)⟩
      · intro _
        exact ⟨_, rfl⟩
  | append_singleton u c ih =>
      rw [run_append_singleton, Nfa.run_append_singleton]
      constructor
      · intro h
        rcases h with ⟨j, hj⟩
        rcases Option.bind_eq_some_iff.mp hj with ⟨i, hi, hnext⟩
        rcases (next_ofSubsets_iff hn).mp hnext with ⟨hc, s, t, hs, _, hafter⟩
        rw [subset_of_run hn hi] at hs
        injection hs with hs
        rw [← hs] at hafter
        constructor
        · intro b hb
          cases List.mem_append.mp hb with
          | inl hb => exact (ih.mp ⟨i, hi⟩).1 b hb
          | inr hb => exact List.mem_singleton.mp hb ▸ hc
        · exact (Nfa.subsetAfter_eq_some_iff.mp hafter).2.imp_right Or.inr
      · intro h
        have hc : c ∈ n.alphabet := h.1 c (List.mem_append_right _ List.mem_cons_self)
        have hgoes : trap = true ∨ ∃ q, q ∈ n.step (n.run u) c := by
          rcases h.2 with htrap | hnil | hnonempty
          · exact Or.inl htrap
          · exact absurd hnil (List.append_ne_nil_of_right_ne_nil _ (List.cons_ne_nil _ _))
          · exact Or.inr hnonempty
        have hbefore : trap = true ∨ u = [] ∨ ∃ q, q ∈ n.run u := by
          refine hgoes.imp_right fun hnonempty => Or.inr ?_
          by_contra hnone
          rcases hnonempty with ⟨q, hq⟩
          exact Nfa.step_of_empty hn (fun p hp => hnone ⟨p, hp⟩) q hq
        rcases ih.mpr ⟨fun b hb => h.1 b (List.mem_append_left _ hb), hbefore⟩ with ⟨i, hi⟩
        have hs := subset_of_run hn hi
        have hafter := Nfa.subsetAfter_eq_some_iff.mpr ⟨rfl, hgoes⟩
        have ht := Nfa.mem_subsets_of_subsetAfter hn (List.mem_of_getElem? hs) hc hafter
        refine ⟨(n.subsets trap).idxOf (n.step (n.run u) c), ?_⟩
        rw [hi]
        exact (next_ofSubsets_iff hn).mpr ⟨hc, _, _, hs, List.getElem?_idxOf ht, hafter⟩

/-!
# The language of the subset automaton
-/

section Recognizes

variable {L : Language Char} (h : n.Recognizes L)

include h

theorem exists_mem_run_of_append {u v : List Char} (hword : u ++ v ∈ L) : ∃ q, q ∈ n.run u := by
  have hend : ∃ r, r ∈ n.run (u ++ v) := by
    have haccepting := (Nfa.anyAccepting_run h.wellFormed).mpr ((h.words _).mpr hword)
    rcases Nfa.anyAccepting_iff.mp haccepting with ⟨r, hr, _⟩
    exact ⟨r, hr⟩
  clear hword
  rcases hend with ⟨r, hr⟩
  induction v using List.reverseRecOn generalizing r with
  | nil =>
      rw [List.append_nil] at hr
      exact ⟨r, hr⟩
  | append_singleton v c ih =>
      by_contra hnone
      rw [← List.append_assoc, Nfa.run_append_singleton] at hr
      apply Nfa.step_of_empty h.wellFormed _ r hr
      intro q hq
      exact hnone (ih q hq)

theorem exists_append_of_mem_run {u : List Char} {q : Nat} (hq : q ∈ n.run u) :
    ∃ v, u ++ v ∈ L := by
  have hpath := ((Nfa.mem_run h.wellFormed).mp hq).1
  rcases h.live q (h.wellFormed.pathTo_lt h.wellFormed.start_lt hpath) with ⟨v, r, hr, hrest⟩
  exact ⟨v, (h.words _).mp ⟨r, hr, pathTo_append hpath hrest⟩⟩

theorem exists_mem_run_nil : ∃ q, q ∈ n.run [] := by
  rcases h.live n.start h.wellFormed.start_lt with ⟨v, hv⟩
  exact exists_mem_run_of_append (u := []) h ((h.words v).mp hv)

theorem runs_ofSubsets (trap : Bool) (u : List Char) :
    (∃ i, (ofSubsets n trap).run u = some i) ↔ Runnable L trap u := by
  rw [exists_run_iff h.wellFormed]
  cases trap with
  | true =>
      show _ ↔ ∀ c ∈ u, ∃ w ∈ L, c ∈ w
      simp [h.mem_alphabet]
  | false =>
      show _ ↔ ∃ v, u ++ v ∈ L
      constructor
      · intro hu
        rcases hu.2 with htrap | hnil | ⟨q, hq⟩
        · cases htrap
        · rcases exists_mem_run_nil h with ⟨q, hq⟩
          exact exists_append_of_mem_run h (hnil ▸ hq)
        · exact exists_append_of_mem_run h hq
      · intro hu
        rcases hu with ⟨v, hword⟩
        rcases (h.words _).mpr hword with ⟨r, _, hpath⟩
        refine ⟨?_, Or.inr (Or.inr (exists_mem_run_of_append h hword))⟩
        intro c hc
        exact h.wellFormed.pathTo_alphabet hpath c (List.mem_append_left _ hc)

theorem words_ofSubsets (trap : Bool) (w : List Char) :
    (ofSubsets n trap).AcceptsFrom (ofSubsets n trap).start w ↔ w ∈ L := by
  rw [← h.words w, ← Nfa.anyAccepting_run h.wellFormed]
  constructor
  · intro haccepts
    rcases haccepts with ⟨i, hi, hrun⟩
    rcases mem_accepting_ofSubsets.mp hi with ⟨s, hs, haccepting⟩
    rw [subset_of_run h.wellFormed hrun] at hs
    injection hs with hs
    exact hs ▸ haccepting
  · intro haccepting
    have hword := (h.words w).mp ((Nfa.anyAccepting_run h.wellFormed).mp haccepting)
    have hrunnable : Runnable L trap w := by
      cases trap with
      | true => exact fun c hc => ⟨w, hword, hc⟩
      | false => exact ⟨[], by rwa [List.append_nil]⟩
    rcases (runs_ofSubsets h trap w).mpr hrunnable with ⟨i, hi⟩
    exact ⟨i, mem_accepting_ofSubsets.mpr ⟨_, subset_of_run h.wellFormed hi, haccepting⟩, hi⟩

theorem presents_ofSubsets (trap : Bool) : Presents (ofSubsets n trap) L trap where
  wellFormed := wellFormed_ofSubsets h.wellFormed
  mem_alphabet := h.mem_alphabet
  words := words_ofSubsets h trap
  runs := runs_ofSubsets h trap
  breadthFirst := breadthFirst_ofSubsets h.wellFormed

end Recognizes

end Dfa

end Recognizer
