import Recognizer.Proofs.Automaton.Minimal

/-!
# States that are left out of a run

The sets of a run leave out the states that only pass on.  Nothing is lost by that: the
sets hold the ends of all paths but for these states, and the same words are accepted.
States that only pass on to each other can make a set empty before its paths have come to
an end.  In the automata of an expression every state is on the way to an accepting one,
and an empty set means that there is no path any more.
-/

namespace Recognizer

namespace Nfa

variable {n : Nfa} {w : List Char}

/-- Closures, runs and acceptance, told by the paths through all states. -/
structure ShowsPaths (n : Nfa) : Prop where
  mem_closure_iff : ∀ s : SortedSet Nat, (∀ q ∈ s, q < n.states.size) → ∀ r,
    (r ∈ n.closure s ↔ (∃ q ∈ s, PathTo n.HasEdge r q []) ∧ n.isIntermediate r = false)
  mem_simulate_iff : ∀ w r,
    (r ∈ (n.simulate w).2 ↔ PathTo n.HasEdge r n.start w ∧ n.isIntermediate r = false)
  accepts_iff : ∀ w, n.accepts w = true ↔ ∃ r ∈ n.accepting, PathTo n.HasEdge r n.start w

theorem WellFormed.showsPaths (hn : n.WellFormed) : n.ShowsPaths where
  mem_closure_iff := fun _ hs _ => mem_closure hn hs
  mem_simulate_iff := fun _ _ => mem_run hn
  accepts_iff := fun _ => accepts_iff_acceptsFrom hn

theorem Recognizes.exists_mem_run_of_pathTo {L : Language Char} (h : n.Recognizes L) {r : Nat}
    (hpath : PathTo n.HasEdge r n.start w) : ∃ q, q ∈ n.run w := by
  have hr : r < n.states.size := h.wellFormed.pathTo_lt h.wellFormed.start_lt hpath
  rcases h.live r hr with ⟨v, t, ht, hrest⟩
  have haccepts : n.AcceptsFrom n.start (w ++ v) := ⟨t, ht, pathTo_append hpath hrest⟩
  exact Dfa.exists_mem_run_of_append h ((h.words (w ++ v)).mp haccepts)

theorem Recognizes.simulate_eq_empty_iff {L : Language Char} (h : n.Recognizes L) :
    (n.simulate w).2 = .empty ↔ ∀ r, ¬ PathTo n.HasEdge r n.start w := by
  show n.run w = .empty ↔ _
  constructor
  · intro hempty r hpath
    rcases h.exists_mem_run_of_pathTo hpath with ⟨q, hq⟩
    rw [hempty] at hq
    exact SortedSet.not_mem_empty hq
  · intro hnone
    apply SortedSet.ext
    intro r
    refine iff_of_false ?_ SortedSet.not_mem_empty
    intro hr
    exact hnone r ((mem_run h.wellFormed).mp hr).1

/-- Leaving out the states that only pass on loses neither the other states nor acceptance,
and in the automata of an expression it does not hide that some state is left. -/
theorem hiding_keeps_paths :
    (∀ n : Nfa, n.WellFormed → n.ShowsPaths) ∧
      ∀ (k : Construction) (e : Expr), (k.build e).ShowsPaths ∧
        ∀ w, (((k.build e).simulate w).2 = .empty ↔
          ∀ r, ¬ PathTo (k.build e).HasEdge r (k.build e).start w) := by
  constructor
  · intro n hn
    exact hn.showsPaths
  · intro k e
    have hrecognizes := k.build_recognizes e
    constructor
    · exact hrecognizes.wellFormed.showsPaths
    · intro w
      exact hrecognizes.simulate_eq_empty_iff

/-- States 0 and 1 pass on to each other and to state 2, and state 3 only to itself. -/
def circling : Nfa where
  states := State.numbered ["q0", "q1", "q2", "q3"]
  alphabet := .ofList ['a', 'b']
  edges :=
    #[.ofList [⟨.epsilon, 1⟩], .ofList [⟨.epsilon, 0⟩, ⟨.epsilon, 2⟩],
      .ofList [⟨.char 'a', 0⟩, ⟨.char 'b', 3⟩], .ofList [⟨.epsilon, 3⟩]]
  start := 0
  accepting := .empty

theorem wellFormed_circling : circling.WellFormed := by
  have hwithin : ∀ edges ∈ circling.edges.toList, ∀ e ∈ edges.toList,
      e.target < circling.states.size ∧ e.symbol.char?.all (· ∈ circling.alphabet) := by
    decide
  have hedge : ∀ p s q, circling.HasEdge p s q →
      q < circling.states.size ∧ s.char?.all (· ∈ circling.alphabet) := by
    intro p s q h
    rcases hasEdge_iff.mp h with ⟨edges, hp, hmem⟩
    exact hwithin edges (Array.mem_toList_iff.mpr (Array.mem_of_getElem? hp)) ⟨s, q⟩ hmem
  exact
    { inPlace := State.inPlace_numbered _
      edges_size := by decide
      start_lt := by decide
      accepting_lt := fun q hq => absurd hq SortedSet.not_mem_empty
      target_lt := fun p s q h => (hedge p s q h).1
      symbol_mem := fun p c q h => of_decide_eq_true (hedge p (.char c) q h).2 }

/-- Behind the last state that reads a character the paths go on, but no state is shown. -/
theorem hiding_keeps_paths_circling :
    circling.WellFormed ∧ circling.ShowsPaths ∧
      (circling.simulate ['a']).2 = .singleton 2 ∧ (circling.simulate ['b']).2 = .empty ∧
      PathTo circling.HasEdge 3 circling.start ['b'] := by
  refine ⟨wellFormed_circling, hiding_keeps_paths.1 circling wellFormed_circling,
    by decide +kernel, by decide +kernel, ?_⟩
  have hfirst : circling.HasEdge 0 .epsilon 1 := by decide +kernel
  have hsecond : circling.HasEdge 1 .epsilon 2 := by decide +kernel
  have hread : circling.HasEdge 2 (.char 'b') 3 := by decide +kernel
  exact PathTo.epsilon hfirst (PathTo.epsilon hsecond (pathTo_of_char hread))

end Nfa

end Recognizer
