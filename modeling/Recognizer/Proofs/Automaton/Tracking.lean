import Recognizer.Proofs.Automaton.Minimal

/-!
# Runs side by side

A subset automaton and the nondeterministic automaton that it was made of read a word
in step.  The state of the one is shown as the set of states of the other, and where it
stops that set is empty.
-/

namespace Recognizer

theorem SortedSet.ne_empty_iff {α : Type} [Ord α] {s : SortedSet α} :
    s ≠ .empty ↔ ∃ a, a ∈ s := by
  constructor
  · intro h
    exact exists_mem_of_isEmpty (Bool.eq_false_iff.mpr (fun hempty => h (isEmpty_iff.mp hempty)))
  · intro h hempty
    rcases h with ⟨a, ha⟩
    exact not_mem_empty (hempty ▸ ha)

/-!
# Labels
-/

theorem State.getElem?_numbered {labels : List String} {i : Nat} :
    (State.numbered labels)[i]? = labels[i]?.map (State.mk i) := by
  simp [State.numbered]

theorem State.label_numbered {labels : List String} {i : Nat} :
    (State.numbered labels)[i]?.map State.label = labels[i]? := by
  rw [State.getElem?_numbered, Option.map_map]
  exact Option.map_id'

theorem State.InPlace.getElem? {states : Array State} (h : State.InPlace states) {i : Nat}
    (hi : i < states.size) : ∃ label, states[i]? = some ⟨i, label⟩ := by
  have hid : (states.toList.map State.id)[i]? = some i := by
    rw [h, List.getElem?_range hi]
  rw [List.getElem?_map, Array.getElem?_toList, Array.getElem?_eq_getElem hi] at hid
  injection hid with hid
  refine ⟨states[i].label, ?_⟩
  rw [Array.getElem?_eq_getElem hi]
  exact congrArg (fun k => some (State.mk k states[i].label)) hid

theorem State.InPlace.forall₂_labels {states : Array State} (h : State.InPlace states)
    {qs : List Nat} (hqs : ∀ q ∈ qs, q < states.size) :
    List.Forall₂ (fun q label => states[q]? = some ⟨q, label⟩) qs
      (qs.filterMap (fun q => states[q]?.map State.label)) := by
  induction qs with
  | nil => exact List.Forall₂.nil
  | cons q qs ih =>
      rcases h.getElem? (hqs q List.mem_cons_self) with ⟨label, hlabel⟩
      rw [List.filterMap_cons_some (b := label) (by rw [hlabel, Option.map_some])]
      exact List.Forall₂.cons hlabel (ih (fun p hp => hqs p (List.mem_cons_of_mem q hp)))

namespace Nfa

/-- How a set of states is shown: the labels of its members in braces, in the order of
their ids, or the sign for a set without members. -/
inductive Shows (n : Nfa) : SortedSet Nat → String → Prop where
  | empty : Shows n .empty "∅"
  | members {s : SortedSet Nat} {labels : List String} :
      s ≠ .empty → List.Forall₂ (fun q label => n.states[q]? = some ⟨q, label⟩) s.toList labels →
      Shows n s ("\x7b" ++ ", ".intercalate labels ++ "\x7d")

variable {n : Nfa} {s : SortedSet Nat}

theorem shows_subsetLabel (hn : n.WellFormed) (hs : ∀ q ∈ s, q < n.states.size) :
    n.Shows s (n.subsetLabel s) := by
  unfold subsetLabel
  split
  · rename_i hempty
    rw [SortedSet.isEmpty_iff.mp hempty]
    exact Shows.empty
  · rename_i hnonempty
    exact Shows.members (fun h => hnonempty (SortedSet.isEmpty_iff.mpr h))
      (hn.inPlace.forall₂_labels hs)

theorem lt_of_mem_run (hn : n.WellFormed) {w : List Char} : ∀ q ∈ n.run w, q < n.states.size := by
  intro q hq
  exact hn.pathTo_lt hn.start_lt ((mem_run hn).mp hq).1

/-- No state is left just when no word of the language begins like this. -/
theorem Recognizes.run_eq_empty_iff {L : Language Char} (h : n.Recognizes L) {u : List Char} :
    n.run u = .empty ↔ ∀ v, u ++ v ∉ L := by
  constructor
  · intro hempty v hword
    rcases Dfa.exists_mem_run_of_append h hword with ⟨q, hq⟩
    exact SortedSet.not_mem_empty (hempty ▸ hq)
  · intro hnone
    by_contra hnonempty
    rcases SortedSet.ne_empty_iff.mp hnonempty with ⟨q, hq⟩
    rcases Dfa.exists_append_of_mem_run h hq with ⟨v, hword⟩
    exact hnone v hword

end Nfa

namespace Dfa

variable {n : Nfa} {L : Language Char} {trap : Bool} {w u v : List Char} {i : Nat}

/-!
# Where the two runs are
-/

theorem getElem?_states_ofSubsets {s : SortedSet Nat} (h : (n.subsets trap)[i]? = some s) :
    (ofSubsets n trap).states[i]? = some ⟨i, n.subsetLabel s⟩ := by
  show (State.numbered ((n.subsets trap).map n.subsetLabel))[i]? = _
  rw [State.getElem?_numbered, List.getElem?_map, h]
  exact rfl

theorem simulate_ofSubsets (hn : n.WellFormed) (h : (ofSubsets n trap).run w = some i) :
    (ofSubsets n trap).simulate w = ((n.simulate w).1, some i) := by
  have haccepting : decide (i ∈ (ofSubsets n trap).accepting) = n.anyAccepting (n.run w) := by
    rw [Bool.eq_iff_iff, decide_eq_true_eq, mem_accepting_ofSubsets, subset_of_run hn h]
    simp
  unfold simulate
  rw [h]
  exact congrArg (·, some i) haccepting

theorem simulate_of_no_run {d : Dfa} (h : ¬ ∃ i, d.run w = some i) :
    d.simulate w = (false, none) := by
  have hnone : d.run w = none := Option.eq_none_iff_forall_ne_some.mpr (fun i hi => h ⟨i, hi⟩)
  unfold simulate
  rw [hnone]

theorem simulate_snd {d : Dfa} : (d.simulate w).2 = d.run w := by
  unfold simulate
  cases d.run w with
  | none => rfl
  | some i => rfl

section Recognizes

variable (h : n.Recognizes L)

include h

theorem exists_run_iff_ne_empty :
    (∃ i, (ofSubsets n trap).run w = some i) ↔
      (∀ c ∈ w, c ∈ n.alphabet) ∧ (n.run w ≠ .empty ∨ trap = true) := by
  rw [exists_run_iff h.wellFormed, SortedSet.ne_empty_iff]
  apply and_congr_right
  intro _
  constructor
  · intro hgoes
    rcases hgoes with htrap | hnil | hnonempty
    · exact Or.inr htrap
    · rw [hnil]
      exact Or.inl (exists_mem_run_nil h)
    · exact Or.inl hnonempty
  · intro hgoes
    cases hgoes with
    | inl hnonempty => exact Or.inr (Or.inr hnonempty)
    | inr htrap => exact Or.inl htrap

theorem run_ofSubsets_eq_none_iff (hw : ∀ c ∈ w, c ∈ n.alphabet) :
    (ofSubsets n trap).run w = none ↔ n.run w = .empty ∧ trap = false := by
  have hgoes : (∃ i, (ofSubsets n trap).run w = some i) ↔ n.run w ≠ .empty ∨ trap = true := by
    rw [exists_run_iff_ne_empty h, and_iff_right hw]
  rw [Option.eq_none_iff_forall_ne_some, ← not_exists, hgoes]
  simp

theorem run_ofSubsets_eq_iff (hu : ∀ c ∈ u, c ∈ n.alphabet) (hv : ∀ c ∈ v, c ∈ n.alphabet) :
    (ofSubsets n trap).run u = (ofSubsets n trap).run v ↔ n.run u = n.run v := by
  constructor
  · intro hrun
    cases hi : (ofSubsets n trap).run u with
    | some i =>
        have hset := subset_of_run h.wellFormed (hrun.symm.trans hi)
        rw [subset_of_run h.wellFormed hi] at hset
        injection hset
    | none =>
        have hu_empty := (run_ofSubsets_eq_none_iff h hu).mp hi
        have hv_empty := (run_ofSubsets_eq_none_iff h hv).mp (hrun.symm.trans hi)
        rw [hu_empty.1, hv_empty.1]
  · intro hsets
    cases hi : (ofSubsets n trap).run u with
    | none =>
        have hu_empty := (run_ofSubsets_eq_none_iff h hu).mp hi
        exact ((run_ofSubsets_eq_none_iff h hv).mpr (hsets ▸ hu_empty)).symm
    | some i =>
        have hgoes := ((exists_run_iff_ne_empty h).mp ⟨i, hi⟩).2
        rcases (exists_run_iff_ne_empty h).mpr ⟨hv, hsets ▸ hgoes⟩ with ⟨j, hj⟩
        have hi_set := subset_of_run h.wellFormed hi
        have hj_set := subset_of_run h.wellFormed hj
        rw [← hsets] at hj_set
        rw [hj, getElem?_inj_of_nodup Nfa.nodup_subsets hi_set hj_set]

end Recognizes

/-!
# Tracking
-/

/-- Over every word of the alphabet the run ends in the state that shows the set at the
end of the other run, and accepts when that one does, unless the set is empty and there
is no trap.  Words lead to one state when they lead to one set, and every state is
the end of a run. -/
structure Tracks (d : Dfa) (n : Nfa) (trap : Bool) : Prop where
  goes : ∀ w, (∀ c ∈ w, c ∈ n.alphabet) → ((n.simulate w).2 ≠ .empty ∨ trap = true) →
    ∃ q label, d.simulate w = ((n.simulate w).1, some q) ∧
      d.states[q]? = some ⟨q, label⟩ ∧ n.Shows (n.simulate w).2 label
  stops_iff : ∀ w, (∀ c ∈ w, c ∈ n.alphabet) →
    (d.simulate w = (false, none) ↔ (n.simulate w).2 = .empty ∧ trap = false)
  outside : ∀ w, (∃ c ∈ w, c ∉ n.alphabet) → d.simulate w = (false, none)
  state_eq_iff : ∀ u v, (∀ c ∈ u, c ∈ n.alphabet) → (∀ c ∈ v, c ∈ n.alphabet) →
    ((d.simulate u).2 = (d.simulate v).2 ↔ (n.simulate u).2 = (n.simulate v).2)
  reached : ∀ q, q < d.states.size →
    ∃ w, (∀ c ∈ w, c ∈ n.alphabet) ∧ (d.simulate w).2 = some q

theorem tracks_ofSubsets_of_recognizes (h : n.Recognizes L) (trap : Bool) :
    (ofSubsets n trap).Tracks n trap where
  goes := by
    intro w hw hgoes
    rcases (exists_run_iff_ne_empty h).mpr ⟨hw, hgoes⟩ with ⟨i, hi⟩
    refine ⟨i, _, simulate_ofSubsets h.wellFormed hi,
      getElem?_states_ofSubsets (subset_of_run h.wellFormed hi), ?_⟩
    exact Nfa.shows_subsetLabel h.wellFormed (Nfa.lt_of_mem_run h.wellFormed)
  stops_iff := by
    intro w hw
    show _ ↔ n.run w = .empty ∧ trap = false
    rw [← run_ofSubsets_eq_none_iff h hw]
    constructor
    · intro hstops
      rw [← simulate_snd, hstops]
    · intro hnone
      apply simulate_of_no_run
      rw [hnone]
      simp
  outside := by
    intro w hw
    rcases hw with ⟨c, hc, hc_outside⟩
    apply simulate_of_no_run
    intro hrun
    exact hc_outside (((exists_run_iff_ne_empty h).mp hrun).1 c hc)
  state_eq_iff := by
    intro u v hu hv
    rw [simulate_snd, simulate_snd]
    exact run_ofSubsets_eq_iff h hu hv
  reached := by
    intro q hq
    rcases (breadthFirst_ofSubsets h.wellFormed).exists_run q hq with ⟨w, hw⟩
    refine ⟨w, ((exists_run_iff_ne_empty h).mp ⟨q, hw⟩).1, ?_⟩
    rw [simulate_snd]
    exact hw

end Dfa

theorem Construction.tracks_ofSubsets (k : Construction) (e : Expr) (trap : Bool) :
    (Dfa.ofSubsets (k.build e) trap).Tracks (k.build e) trap :=
  Dfa.tracks_ofSubsets_of_recognizes (k.build_recognizes e) trap

end Recognizer
