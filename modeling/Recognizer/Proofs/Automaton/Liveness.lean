import Recognizer.Proofs.Automaton.Definition
import Recognizer.Proofs.Automaton.Tracking

/-!
# Dead states

The nondeterministic automata of an expression have no state without a use, and so their
subset automata have no dead state but the trap.  It stays the only one in every
quotient, where it is a class of its own and keeps its label.
-/

namespace Recognizer

namespace Nfa

variable {n : Nfa}

/-- Every state is on a path from the start to an accepting state. -/
structure Trim (n : Nfa) : Prop where
  reachable : ∀ q, q < n.states.size → ∃ u, PathTo n.HasEdge q n.start u
  live : ∀ q, q < n.states.size → ∃ w, n.AcceptsFrom q w

theorem Trim.deadStates_eq (h : n.Trim) (hn : n.WellFormed) :
    n.definition.deadStates = .empty := by
  apply SortedSet.ext
  intro q
  refine iff_of_false ?_ SortedSet.not_mem_empty
  intro hq
  have hdead := hn.definition.mem_deadStates.mp hq
  rcases h.live q hdead.1 with ⟨w, hw⟩
  exact hdead.2 w (acceptsFrom_definition.mpr hw)

end Nfa

theorem Construction.trim_build (k : Construction) (e : Expr) : (k.build e).Trim where
  reachable := by
    intro q hq
    cases k with
    | positions => exact Nfa.exists_path_ofPositions hq
    | fragments => exact Nfa.exists_path_ofFragments hq
  live := (k.build_recognizes e).live

/-- Every word over the alphabet is the beginning of a word of the expression. -/
def Expr.BeginsAll (e : Expr) : Prop :=
  ∀ u, (∀ c ∈ u, c ∈ e.alphabet) → ∃ v, u ++ v ∈ e.language

namespace Dfa

variable {d : Dfa} {p q : Nat} {u : List Char}

/-- No word is accepted from the state. -/
def Dead (d : Dfa) (q : Nat) : Prop := ∀ w, ¬ d.AcceptsFrom q w

theorem WellFormed.mem_deadStates (hd : d.WellFormed) :
    q ∈ d.definition.deadStates ↔ q < d.states.size ∧ d.Dead q := by
  rw [hd.definition.mem_deadStates]
  exact and_congr_right fun _ => forall_congr' fun _ => not_congr acceptsFrom_definition

theorem Dead.next {c : Char} (h : d.Dead p) (hnext : d.next p c = some q) : d.Dead q := by
  intro w hw
  exact h (c :: w) (acceptsFrom_cons.mpr ⟨q, hnext, hw⟩)

theorem Dead.not_mem_accepting (h : d.Dead q) : q ∉ d.accepting := by
  intro hq
  exact h [] (acceptsFrom_nil.mpr hq)

theorem Dead.congr (hp : d.Dead p) (h : d.Equivalent p q) : d.Dead q :=
  fun w hw => hp w ((h w).mpr hw)

theorem Dead.equivalent (hp : d.Dead p) (hq : d.Dead q) : d.Equivalent p q :=
  fun w => iff_of_false (hp w) (hq w)

/-!
# What the language says about dead states
-/

section Presents

variable {e : Expr} {trap : Bool}

/-- The words that lead to a dead state begin no word of the expression. -/
theorem Presents.dead_iff (hd : d.Presents e.language trap) (hrun : d.run u = some q) :
    d.Dead q ↔ ∀ v, u ++ v ∉ e.language := by
  apply forall_congr'
  intro v
  rw [← acceptsFrom_of_run hrun, hd.words]

theorem Presents.mem_alphabet_of_run (hd : d.Presents e.language trap) (hrun : d.run u = some q) :
    ∀ c ∈ u, c ∈ e.alphabet := by
  intro c hc
  have hrunnable := (hd.runs u).mp ⟨q, hrun⟩
  cases trap with
  | true => exact Expr.mem_alphabet_iff.mpr (hrunnable c hc)
  | false =>
      rcases hrunnable with ⟨v, hword⟩
      exact Expr.mem_alphabet_iff.mpr ⟨u ++ v, hword, List.mem_append_left v hc⟩

theorem Presents.not_dead (hd : d.Presents e.language false) (hq : q < d.states.size) :
    ¬ d.Dead q := by
  intro hdead
  rcases hd.breadthFirst.exists_run q hq with ⟨u, hu⟩
  rcases (hd.runs u).mp ⟨q, hu⟩ with ⟨v, hword⟩
  exact (hd.dead_iff hu).mp hdead v hword

theorem Presents.isComplete_iff (hd : d.Presents e.language false) :
    d.isComplete = true ↔ e.BeginsAll := by
  rw [hd.wellFormed.isComplete_iff]
  constructor
  · intro hnext u hu
    have hrun : ∃ q, d.run u = some q := by
      induction u using List.reverseRecOn with
      | nil => exact ⟨d.start, rfl⟩
      | append_singleton u c ih =>
          rcases ih (fun b hb => hu b (List.mem_append_left _ hb)) with ⟨q, hq⟩
          have hc := hd.mem_alphabet_iff.mpr (hu c (List.mem_append_right u List.mem_cons_self))
          rcases hnext q (hd.wellFormed.run_lt hq) c hc with ⟨r, hr⟩
          refine ⟨r, ?_⟩
          rw [run_append_singleton, hq]
          exact hr
    exact (hd.runs u).mp hrun
  · intro hbegins q hq c hc
    rcases hd.breadthFirst.exists_run q hq with ⟨u, hu⟩
    have hword : ∀ b ∈ u ++ [c], b ∈ e.alphabet := by
      intro b hb
      cases List.mem_append.mp hb with
      | inl hb => exact hd.mem_alphabet_of_run hu b hb
      | inr hb => exact List.mem_singleton.mp hb ▸ hd.mem_alphabet_iff.mp hc
    rcases (hd.runs _).mpr (hbegins _ hword) with ⟨r, hr⟩
    rw [run_append_singleton, hu] at hr
    exact ⟨r, hr⟩

theorem Presents.exists_dead_iff (hd : d.Presents e.language true) :
    (∃ q, q < d.states.size ∧ d.Dead q) ↔ ¬ e.BeginsAll := by
  constructor
  · intro h hbegins
    rcases h with ⟨q, hq, hdead⟩
    rcases hd.breadthFirst.exists_run q hq with ⟨u, hu⟩
    rcases hbegins u (hd.mem_alphabet_of_run hu) with ⟨v, hword⟩
    exact (hd.dead_iff hu).mp hdead v hword
  · intro h
    unfold Expr.BeginsAll at h
    push Not at h
    rcases h with ⟨u, hu, hnone⟩
    have hrunnable : Runnable e.language true u := fun c hc => Expr.mem_alphabet_iff.mp (hu c hc)
    rcases (hd.runs u).mpr hrunnable with ⟨q, hq⟩
    exact ⟨q, hd.wellFormed.run_lt hq, (hd.dead_iff hq).mpr hnone⟩

end Presents

/-!
# The label of the trap
-/

/-- A dead state has the label of the trap, and no other state has, or is dead. -/
structure MarksTrap (d : Dfa) : Prop where
  label_iff : ∀ q label, d.states[q]? = some ⟨q, label⟩ → (label = trapLabel ↔ d.Dead q)
  unique : ∀ p q, p < d.states.size → q < d.states.size → d.Dead p → d.Dead q → p = q

theorem braced_ne_trapLabel (items : List String) : Text.braced items ≠ trapLabel := by
  intro h
  have hchars := congrArg String.toList h
  simp [Text.braced, trapLabel, String.toList_append] at hchars

theorem subsetLabel_eq_trapLabel_iff {n : Nfa} {s : SortedSet Nat} :
    n.subsetLabel s = trapLabel ↔ s = .empty := by
  unfold Nfa.subsetLabel
  split
  · rename_i hempty
    exact iff_of_true rfl (SortedSet.isEmpty_iff.mp hempty)
  · rename_i hnonempty
    exact iff_of_false (braced_ne_trapLabel _)
      (fun hs => hnonempty (SortedSet.isEmpty_iff.mpr hs))

section OfSubsets

variable {n : Nfa} {e : Expr} {trap : Bool} (h : n.Recognizes e.language)

include h

theorem dead_ofSubsets_iff {s : SortedSet Nat} (hs : (n.subsets trap)[q]? = some s) :
    (ofSubsets n trap).Dead q ↔ s = .empty := by
  have hpresents := presents_ofSubsets h trap
  rcases exists_run_of_getElem?_subsets h.wellFormed hs with ⟨u, hu⟩
  rw [subset_of_run h.wellFormed hu] at hs
  injection hs with hs
  rw [hpresents.dead_iff hu, ← hs, h.run_eq_empty_iff]

theorem marksTrap_ofSubsets : (ofSubsets n trap).MarksTrap where
  label_iff := by
    intro q label hlabel
    have hq := (Array.getElem?_eq_some_iff.mp hlabel).1
    have hs := List.getElem?_eq_getElem (size_ofSubsets ▸ hq)
    rw [getElem?_states_ofSubsets hs] at hlabel
    injection hlabel with hlabel
    injection hlabel with _ hlabel
    rw [dead_ofSubsets_iff h hs, ← hlabel, subsetLabel_eq_trapLabel_iff]
  unique := by
    intro p q hp hq hp_dead hq_dead
    have hs := List.getElem?_eq_getElem (size_ofSubsets ▸ hp)
    have ht := List.getElem?_eq_getElem (size_ofSubsets ▸ hq)
    rw [(dead_ofSubsets_iff h hs).mp hp_dead] at hs
    rw [(dead_ofSubsets_iff h ht).mp hq_dead] at ht
    exact getElem?_inj_of_nodup Nfa.nodup_subsets hs ht

end OfSubsets

section Quotient

theorem dead_quotient_iff (hd : d.WellFormed) (hq : q < d.states.size) :
    d.quotient.Dead (d.classOf q) ↔ d.Dead q :=
  forall_congr' fun _ => not_congr (acceptsFrom_quotient hd hq)

theorem getElem?_states_quotient {i : Nat} {s : SortedSet Nat} (hs : d.classes[i]? = some s) :
    d.quotient.states[i]? = some ⟨i, d.classLabel s⟩ := by
  show (State.numbered (d.classes.map d.classLabel))[i]? = _
  rw [State.getElem?_numbered, List.getElem?_map, hs]
  exact rfl

/-- A class is shown as the trap when it has one member, and that is shown as the trap. -/
theorem classLabel_eq_trapLabel_iff (hd : d.WellFormed) {s : SortedSet Nat}
    (hs : ∀ q ∈ s, q < d.states.size) :
    d.classLabel s = trapLabel ↔
      ∃ q, s = .singleton q ∧ d.states[q]? = some ⟨q, trapLabel⟩ := by
  constructor
  · intro h
    unfold classLabel at h
    split at h
    · rename_i label hlabels
      have hshown := hd.inPlace.forall₂_labels hs
      rw [hlabels, h] at hshown
      generalize hone : s.toList = qs at hshown
      cases hshown with
      | cons hlabel hrest =>
          cases hrest
          rename_i q
          refine ⟨q, ?_, hlabel⟩
          apply SortedSet.ext
          intro p
          rw [← SortedSet.mem_toList, hone, SortedSet.mem_singleton, List.mem_singleton]
    · exact absurd h (braced_ne_trapLabel _)
  · intro h
    rcases h with ⟨q, rfl, hlabel⟩
    simp [classLabel, SortedSet.singleton, hlabel]

theorem marksTrap_quotient (hd : d.WellFormed) (h : d.MarksTrap) : d.quotient.MarksTrap where
  label_iff := by
    intro i label hlabel
    rcases exists_classOf_eq hd (size_quotient d ▸ (Array.getElem?_eq_some_iff.mp hlabel).1) with
      ⟨q, hq, rfl⟩
    rcases exists_getElem?_classOf hd hq with ⟨s, hs, hqs⟩
    have hmembers : ∀ p ∈ s, p < d.states.size ∧ d.Equivalent q p :=
      fun p hp => (mem_class_iff hd (List.mem_of_getElem? hs) hqs).mp hp
    rw [getElem?_states_quotient hs] at hlabel
    injection hlabel with hlabel
    injection hlabel with _ hlabel
    rw [← hlabel, dead_quotient_iff hd hq,
      classLabel_eq_trapLabel_iff hd (fun p hp => (hmembers p hp).1)]
    constructor
    · intro htrap
      rcases htrap with ⟨p, rfl, hp⟩
      rw [SortedSet.mem_singleton.mp hqs]
      exact (h.label_iff p trapLabel hp).mp rfl
    · intro hdead
      rcases hd.inPlace.getElem? hq with ⟨own, hown⟩
      rw [(h.label_iff q own hown).mpr hdead] at hown
      refine ⟨q, ?_, hown⟩
      apply SortedSet.ext
      intro p
      rw [SortedSet.mem_singleton]
      constructor
      · intro hp
        have hp := hmembers p hp
        exact h.unique p q hp.1 hq (hdead.congr hp.2) hdead
      · intro hpq
        exact hpq ▸ hqs
  unique := by
    intro p q hp hq hp_dead hq_dead
    exact reduced_quotient hd p q hp hq (hp_dead.equivalent hq_dead)

end Quotient

/-!
# The trap
-/

/-- The state is the only one that is labelled as the trap.  It does not accept, and every
symbol leads from it to itself. -/
structure IsTrap (d : Dfa) (q : Nat) : Prop where
  labelled_iff : ∀ s : State, s ∈ d.states ∧ s.label = "∅" ↔ s = ⟨q, "∅"⟩
  not_accepting : q ∉ d.accepting
  loops : ∀ c ∈ d.alphabet, d.next q c = some q

section Trap

variable {e : Expr} (hd : d.Presents e.language true) (h : d.MarksTrap)

include hd h

theorem Dead.isTrap (hq : q < d.states.size) (hdead : d.Dead q) : d.IsTrap q where
  labelled_iff := by
    rcases hd.wellFormed.inPlace.getElem? hq with ⟨own, hown⟩
    rw [(h.label_iff q own hown).mpr hdead] at hown
    intro s
    constructor
    · intro hs
      rcases Array.mem_iff_getElem?.mp hs.1 with ⟨p, hp⟩
      have hp_lt := (Array.getElem?_eq_some_iff.mp hp).1
      rcases hd.wellFormed.inPlace.getElem? hp_lt with ⟨label, hlabel⟩
      rw [hlabel] at hp
      injection hp with hp
      have hlabel_trap : label = trapLabel := (congrArg State.label hp).trans hs.2
      have hp_dead := (h.label_iff p label hlabel).mp hlabel_trap
      rw [← hp, h.unique p q hp_lt hq hp_dead hdead, hlabel_trap]
      rfl
    · intro hs
      rw [hs]
      exact ⟨Array.mem_of_getElem? hown, rfl⟩
  not_accepting := hdead.not_mem_accepting
  loops := by
    intro c hc
    rcases hd.exists_next hq hc with ⟨r, hr⟩
    have hr_lt := (hd.wellFormed.next_within hr).2.2
    rw [hr, h.unique r q hr_lt hq (hdead.next hr) hdead]

theorem Dead.deadStates_eq (hq : q < d.states.size) (hdead : d.Dead q) :
    d.definition.deadStates = .singleton q := by
  apply SortedSet.ext
  intro p
  rw [hd.wellFormed.mem_deadStates, SortedSet.mem_singleton]
  constructor
  · intro hp
    exact h.unique p q hp.1 hq hp.2 hdead
  · intro hpq
    exact hpq ▸ ⟨hq, hdead⟩

end Trap

/-- Nothing is dead, and the automaton is complete when every word begins one of the
expression. -/
structure LiveFor (d : Dfa) (e : Expr) : Prop where
  deadStates_eq : d.definition.deadStates = .empty
  isComplete_iff : d.isComplete = true ↔ e.BeginsAll

/-- The automaton is complete, and no state is dead but a trap, which is there when not
every word begins one of the expression. -/
structure TrappedFor (d : Dfa) (e : Expr) : Prop where
  isComplete : d.isComplete = true
  deadStates_eq : e.BeginsAll → d.definition.deadStates = .empty
  exists_isTrap : ¬ e.BeginsAll → ∃ q, d.definition.deadStates = .singleton q ∧ d.IsTrap q

theorem deadStates_eq_empty_iff (hd : d.WellFormed) :
    d.definition.deadStates = .empty ↔ ¬ ∃ q, q < d.states.size ∧ d.Dead q := by
  rw [← not_iff_not, not_not]
  exact SortedSet.ne_empty_iff.trans (exists_congr fun q => hd.mem_deadStates)

theorem Presents.liveFor {e : Expr} (hd : d.Presents e.language false) : d.LiveFor e where
  deadStates_eq := by
    rw [deadStates_eq_empty_iff hd.wellFormed]
    intro h
    rcases h with ⟨q, hq, hdead⟩
    exact hd.not_dead hq hdead
  isComplete_iff := hd.isComplete_iff

theorem Presents.trappedFor {e : Expr} (hd : d.Presents e.language true) (h : d.MarksTrap) :
    d.TrappedFor e where
  isComplete := hd.wellFormed.isComplete_iff.mpr (fun _ hq _ hc => hd.exists_next hq hc)
  deadStates_eq := by
    intro hbegins
    rw [deadStates_eq_empty_iff hd.wellFormed, hd.exists_dead_iff]
    exact not_not_intro hbegins
  exists_isTrap := by
    intro hbegins
    rcases hd.exists_dead_iff.mpr hbegins with ⟨q, hq, hdead⟩
    exact ⟨q, hdead.deadStates_eq hd h hq, hdead.isTrap hd h hq⟩

end Dfa

theorem Determinization.marksTrap_build {n : Nfa} {e : Expr} (h : n.Recognizes e.language)
    (p : Determinization) : (p.build n).MarksTrap := by
  rcases p with ⟨trap, quotients⟩
  induction quotients with
  | zero => exact Dfa.marksTrap_ofSubsets h
  | succ k ih =>
      exact Dfa.marksTrap_quotient (Determinization.presents_build h ⟨trap, k⟩).wellFormed ih

/-- Every state of the nondeterministic automata is of use.  The deterministic automata
that are made of them have no dead states but a trap that they are to keep, however many
quotients are taken. -/
theorem Construction.deadStates_build (k : Construction) (e : Expr) :
    (k.build e).Trim ∧ (k.build e).definition.deadStates = .empty ∧
      ∀ quotients : Nat,
        (Determinization.build (k.build e) ⟨false, quotients⟩).LiveFor e ∧
          (Determinization.build (k.build e) ⟨true, quotients⟩).TrappedFor e := by
  have hrecognizes := k.build_recognizes e
  have htrim := k.trim_build e
  refine ⟨htrim, htrim.deadStates_eq hrecognizes.wellFormed, ?_⟩
  intro quotients
  constructor
  · exact (Determinization.presents_build hrecognizes ⟨false, quotients⟩).liveFor
  · exact (Determinization.presents_build hrecognizes ⟨true, quotients⟩).trappedFor
      (Determinization.marksTrap_build hrecognizes _)

end Recognizer
