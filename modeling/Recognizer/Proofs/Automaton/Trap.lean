import Recognizer.Proofs.Automaton.Shortlex
import Recognizer.Proofs.Automaton.Without

/-!
# With and without a trap

A subset automaton that keeps its trap may meet it before other states, and these have
larger numbers then.  Nothing else is different: without the trap it is the subset
automaton that does not keep it, and so it is with their quotients.
-/

namespace Recognizer

/-!
# Subset automata with and without a trap

The sets of states are met in the order of the first words that lead to them, which does
not depend on whether the empty set is kept.
-/

namespace Nfa

variable {n : Nfa} {s t : SortedSet Nat} {w : List Char}

def LeadsTo (n : Nfa) (w : List Char) (s : SortedSet Nat) : Prop :=
  (∀ c ∈ w, c ∈ n.alphabet) ∧ n.run w = s

def MetBefore (n : Nfa) (s t : SortedSet Nat) : Prop :=
  ∀ v, n.LeadsTo v t → ∃ u, n.LeadsTo u s ∧ Precedes u v

theorem MetBefore.not_leadsTo (hst : n.MetBefore s t) (hts : n.MetBefore t s)
    (v : List Char) : ¬ n.LeadsTo v t := by
  induction v using precedes_wellFounded.induction with
  | _ v ih =>
      intro hv
      rcases hst v hv with ⟨u, hu, huv⟩
      rcases hts u hu with ⟨w, hw, hwu⟩
      exact ih w (hwu.trans huv) hw

end Nfa

namespace Dfa

variable {n : Nfa} {e : Expr} {trap : Bool} {i : Nat} {s : SortedSet Nat} {w : List Char}

theorem label_ofSubsets :
    (ofSubsets n trap).states[i]?.map State.label = (n.subsets trap)[i]?.map n.subsetLabel := by
  show (State.numbered ((n.subsets trap).map n.subsetLabel))[i]?.map State.label = _
  rw [State.label_numbered, List.getElem?_map]

section Recognizes

variable (h : n.Recognizes e.language)

include h

theorem run_ofSubsets_eq_some_iff (hs : (n.subsets trap)[i]? = some s) :
    (ofSubsets n trap).run w = some i ↔ n.LeadsTo w s := by
  constructor
  · intro hrun
    refine ⟨((exists_run_iff_ne_empty h).mp ⟨i, hrun⟩).1, ?_⟩
    rw [subset_of_run h.wellFormed hrun] at hs
    injection hs
  · intro hw
    rcases exists_run_of_getElem?_subsets h.wellFormed hs with ⟨u, hu⟩
    rw [← hu]
    apply (run_ofSubsets_eq_iff h hw.1 ((exists_run_iff_ne_empty h).mp ⟨i, hu⟩).1).mpr
    rw [subset_of_run h.wellFormed hu] at hs
    injection hs with hs
    rw [hw.2, hs]

theorem mem_subsets_iff :
    s ∈ n.subsets trap ↔ (∃ w, n.LeadsTo w s) ∧ (s ≠ .empty ∨ trap = true) := by
  constructor
  · intro hs
    rcases List.mem_iff_getElem?.mp hs with ⟨i, hi⟩
    rcases exists_run_of_getElem?_subsets h.wellFormed hi with ⟨w, hw⟩
    have hleads := (run_ofSubsets_eq_some_iff h hi).mp hw
    exact ⟨⟨w, hleads⟩, hleads.2 ▸ ((exists_run_iff_ne_empty h).mp ⟨i, hw⟩).2⟩
  · intro hs
    rcases hs with ⟨⟨w, hw, rfl⟩, hgoes⟩
    rcases (exists_run_iff_ne_empty h).mpr ⟨hw, hgoes⟩ with ⟨i, hi⟩
    exact List.mem_of_getElem? (subset_of_run h.wellFormed hi)

theorem metBefore_subsets : (n.subsets trap).Pairwise n.MetBefore := by
  apply List.pairwise_iff_getElem.mpr
  intro i j hi hj hij v hv
  have hs := List.getElem?_eq_getElem hi
  have ht := List.getElem?_eq_getElem hj
  have hrun := (run_ofSubsets_eq_some_iff h ht).mpr hv
  rcases (breadthFirst_ofSubsets h.wellFormed).exists_precedes hrun hij with ⟨u, hu, huv⟩
  exact ⟨u, (run_ofSubsets_eq_some_iff h hs).mp hu, huv⟩

theorem subsets_without_trap :
    n.subsets false = (n.subsets true).eraseIdx ((n.subsets true).idxOf .empty) := by
  rw [← List.erase_eq_eraseIdx_of_idxOf rfl]
  apply eq_of_pairwise _ (metBefore_subsets h) ((metBefore_subsets h).sublist List.erase_sublist)
  · intro s
    rw [Nfa.nodup_subsets.mem_erase_iff, mem_subsets_iff h, mem_subsets_iff h]
    simp [and_comm]
  · intro s _ t ht hst hts
    rcases (mem_subsets_iff h).mp ht with ⟨⟨v, hv⟩, _⟩
    exact hst.not_leadsTo hts v hv

theorem onlyDead_ofSubsets : (ofSubsets n true).OnlyDead ((n.subsets true).idxOf .empty) where
  dead := by
    by_cases hmem : SortedSet.empty ∈ n.subsets true
    · exact (dead_ofSubsets_iff h (List.getElem?_idxOf hmem)).mpr rfl
    · apply (wellFormed_ofSubsets h.wellFormed).dead_of_le
      rw [size_ofSubsets, List.idxOf_eq_length hmem]
  eq := by
    intro q hq hdead
    have hs := List.getElem?_eq_getElem (size_ofSubsets ▸ hq)
    rw [(dead_ofSubsets_iff h hs).mp hdead] at hs
    exact getElem?_inj_of_nodup Nfa.nodup_subsets hs (List.getElem?_idxOf (List.mem_of_getElem? hs))

theorem omits_ofSubsets :
    Omits (ofSubsets n false) (ofSubsets n true) ((n.subsets true).idxOf .empty) := by
  have hplace : ∀ i : Nat, (n.subsets false)[i]? =
      (n.subsets true)[openGap ((n.subsets true).idxOf .empty) i]? := by
    intro i
    rw [subsets_without_trap h, getElem?_eraseIdx_eq]
  refine ⟨?_, rfl, ?_, ?_, ?_⟩
  · intro i
    rw [label_ofSubsets, label_ofSubsets, hplace]
  · intro i c j
    rw [next_ofSubsets_iff h.wellFormed, next_ofSubsets_iff h.wellFormed, ← hplace, ← hplace]
    apply and_congr_right
    intro _
    apply exists_congr
    intro s
    apply exists_congr
    intro t
    apply and_congr_right
    intro _
    apply and_congr_right
    intro ht
    rw [Nfa.subsetAfter_eq_some_iff, Nfa.subsetAfter_eq_some_iff]
    constructor
    · intro hstep
      exact ⟨hstep.1, Or.inl rfl⟩
    · intro hstep
      have hnonempty := ((mem_subsets_iff h).mp (List.mem_of_getElem? ht)).2
      refine ⟨hstep.1, Or.inr (SortedSet.ne_empty_iff.mp ?_)⟩
      exact hstep.1 ▸ hnonempty.resolve_right Bool.false_ne_true
  · have hfirst := (hplace 0).symm.trans (Nfa.getElem?_subsets_zero h.wellFormed)
    exact (getElem?_inj_of_nodup Nfa.nodup_subsets hfirst
      (Nfa.getElem?_subsets_zero h.wellFormed)).symm
  · intro i
    rw [mem_accepting_ofSubsets, mem_accepting_ofSubsets, hplace]

end Recognizes

/-!
# The trap is all that is added
-/

/-- Without a state that is labelled as the trap there is no difference.  Otherwise there is
one such state, which is not the start, and without it the second automaton is the first. -/
structure AddsTrap (d t : Dfa) : Prop where
  eq_of_no_trap : (∀ s ∈ t.states, s.label ≠ "∅") → t = d
  without_trap : ∀ s ∈ t.states, s.label = "∅" → s.id ≠ t.start ∧ t.without s.id = d
  unique : ∀ r ∈ t.states, ∀ s ∈ t.states, r.label = "∅" → s.label = "∅" → r = s

theorem Omits.addsTrap {d t : Dfa} {x : Nat} (h : Omits d t x) (hd : d.WellFormed)
    (ht : t.WellFormed) (hx : t.OnlyDead x) (hmarks : t.MarksTrap) : AddsTrap d t := by
  have hwithout := h.without_eq hd ht
  have hlabelled : ∀ s ∈ t.states, s.label = "∅" → s = ⟨x, "∅"⟩ := by
    intro s hs hlabel
    rcases Array.mem_iff_getElem?.mp hs with ⟨q, hq⟩
    have hq_lt := (Array.getElem?_eq_some_iff.mp hq).1
    rcases ht.inPlace.getElem? hq_lt with ⟨label, hplace⟩
    rw [hplace] at hq
    injection hq with hq
    subst hq
    have hlabel : label = "∅" := hlabel
    rw [hlabel, hx.eq q hq_lt ((hmarks.label_iff q label hplace).mp hlabel)]
  refine ⟨?_, ?_, ?_⟩
  · intro hnone
    have hle : t.states.size ≤ x := by
      by_contra hlt
      rcases ht.inPlace.getElem? (Nat.lt_of_not_le hlt) with ⟨label, hplace⟩
      exact hnone _ (Array.mem_of_getElem? hplace) ((hmarks.label_iff x label hplace).mpr hx.dead)
    rw [← hwithout, (omits_self ht hle).without_eq ht ht]
  · intro s hs hlabel
    rw [hlabelled s hs hlabel]
    exact ⟨h.start ▸ (openGap_ne x d.start).symm, hwithout⟩
  · intro r hr s hs hr_label hs_label
    rw [hlabelled r hr hr_label, hlabelled s hs hs_label]

end Dfa

theorem Determinization.exists_omits_build {n : Nfa} {e : Expr} (h : n.Recognizes e.language)
    (quotients : Nat) :
    ∃ x, (build n ⟨true, quotients⟩).OnlyDead x ∧
      (build n ⟨false, quotients⟩).Omits (build n ⟨true, quotients⟩) x := by
  induction quotients with
  | zero => exact ⟨_, Dfa.onlyDead_ofSubsets h, Dfa.omits_ofSubsets h⟩
  | succ k ih =>
      rcases ih with ⟨x, hdead, homits⟩
      have hd := (presents_build h ⟨false, k⟩).wellFormed
      have ht := (presents_build h ⟨true, k⟩).wellFormed
      exact ⟨_, hdead.quotient ht, homits.quotient hd ht hdead⟩

/-- To keep the trap is to add it: it is the only difference that it makes for the
deterministic automata of an expression, however many quotients are taken. -/
theorem Construction.addsTrap_build (k : Construction) (e : Expr) (quotients : Nat) :
    Dfa.AddsTrap (Determinization.build (k.build e) ⟨false, quotients⟩)
      (Determinization.build (k.build e) ⟨true, quotients⟩) := by
  have hrecognizes := k.build_recognizes e
  rcases Determinization.exists_omits_build hrecognizes quotients with ⟨x, hdead, homits⟩
  exact homits.addsTrap (Determinization.presents_build hrecognizes _).wellFormed
    (Determinization.presents_build hrecognizes _).wellFormed hdead
    (Determinization.marksTrap_build hrecognizes _)

/-- The trap is met before the last state, which has a larger number for it. -/
example :
    let n := Nfa.ofPositions (.concat (.letter ⟨none, 'a'⟩) (.letter ⟨none, 'b'⟩))
    (Dfa.ofSubsets n true).definition.labels =
        ["\x7bq0\x7d", "\x7ba[1]\x7d", "∅", "\x7bb[2]\x7d"] ∧
      (Dfa.ofSubsets n true).without 2 = Dfa.ofSubsets n false := by
  cbv

end Recognizer
