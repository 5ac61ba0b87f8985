import Recognizer.Proofs.Automaton.Definition
import Recognizer.Proofs.Automaton.Minimal
import Recognizer.Trace.Record

/-!
# Edges and the sets they lead to

Between two sets of states a trace shows the edges walked.  The edges are listed by a search
that keeps every state, while the sets are closures that leave out the states that only pass
on.  Here both are defined by one search.  That a walk with a stack collects the same closures
and a queue lists the same edges is shown in `Recognizer.Proofs.Automaton.Exploration`.  So the
edges account for the sets: they are those that leave the states before, with the ε edges
behind them, and the states after them are the ones they lead to.
-/

namespace Recognizer

namespace Nfa

variable {n : Nfa} {states : List Nat} {s t : SortedSet Nat} {symbol : Symbol} {c : Char}
  {x : Transition} {u v : List Transition} {q : Nat}

/-!
# The edges of a list of states
-/

def edgesReading (n : Nfa) (states : List Nat) (symbol : Symbol) : List Transition :=
  states.flatMap fun q => (n.targets q symbol).toList.map fun target => ⟨q, symbol, target⟩

theorem mem_edgesReading :
    x ∈ n.edgesReading states symbol ↔
      x.source ∈ states ∧ x.symbol = symbol ∧ n.HasEdge x.source symbol x.target := by
  unfold edgesReading
  rw [List.mem_flatMap]
  constructor
  · intro h
    rcases h with ⟨q, hq, hx⟩
    rcases List.mem_map.mp hx with ⟨target, htarget, rfl⟩
    exact ⟨hq, rfl, mem_targets.mp htarget⟩
  · intro h
    rcases h with ⟨hsource, rfl, hedge⟩
    exact ⟨x.source, hsource, List.mem_map.mpr ⟨x.target, mem_targets.mpr hedge, rfl⟩⟩

theorem nodup_edgesReading (h : states.Nodup) : (n.edgesReading states symbol).Nodup := by
  unfold edgesReading
  rw [List.nodup_flatMap]
  constructor
  · intro q _
    apply (n.targets q symbol).nodup_toList.map
    intro a b hab
    injection hab
  · apply h.imp
    intro p q hpq x hp hq
    rcases List.mem_map.mp hp with ⟨_, _, rfl⟩
    rcases List.mem_map.mp hq with ⟨_, _, hx⟩
    injection hx with hqp _ _
    exact hpq hqp.symm

theorem edgesReading_eq_append (h : n.edgesReading states symbol = u ++ x :: v) :
    ∃ before after, states = before ++ x.source :: after ∧
      n.edgesReading before symbol ⊆ u := by
  induction states generalizing u with
  | nil => cases u <;> cases h
  | cons q states ih =>
      rcases append_eq_append_cons_cases h with ⟨z, rfl, hrest⟩ | ⟨z, hhead, _⟩
      · rcases ih hrest with ⟨before, after, rfl, hbefore⟩
        exact ⟨q :: before, after, rfl, List.append_subset.mpr
          ⟨List.subset_append_left _ _, List.subset_append_of_subset_right _ hbefore⟩⟩
      · have hx : x ∈ u ++ x :: z := List.mem_append_right u List.mem_cons_self
        rcases List.mem_map.mp (hhead ▸ hx) with ⟨target, _, rfl⟩
        exact ⟨[], states, rfl, List.nil_subset u⟩

/-!
# The ε edges of a search
-/

section Search

variable (hn : n.WellFormed) (hs : ∀ q ∈ s, q < n.states.size)

theorem nodup_epsilonEdges : (n.epsilonEdges s).Nodup :=
  nodup_edgesReading nodup_breadthFirst

/-- The source of an ε edge is where the search began, or an edge in front of it leads there. -/
theorem source_of_epsilonEdges (h : n.epsilonEdges s = u ++ x :: v) :
    x.source ∈ s ∨ ∃ y ∈ u, y.target = x.source := by
  rcases edgesReading_eq_append h with ⟨before, after, hreach, hbefore⟩
  have hplace : (n.epsilonReach s)[before.length]? = some x.source := by
    rw [hreach]
    simp
  rcases breadthFirst_parent hplace with hseed | ⟨i, p, hi, hp, hedge⟩
  · exact Or.inl hseed
  · right
    have hp : p ∈ before := by
      have hp : (n.epsilonReach s)[i]? = some p := hp
      rw [hreach, List.getElem?_append_left hi] at hp
      exact List.mem_of_getElem? hp
    have hmem : ⟨p, .epsilon, x.source⟩ ∈ n.edgesReading before .epsilon :=
      mem_edgesReading.mpr ⟨hp, rfl, mem_targets.mp hedge⟩
    exact ⟨_, hbefore hmem, rfl⟩

include hn hs

theorem mem_epsilonEdges :
    x ∈ n.epsilonEdges s ↔ x.symbol = .epsilon ∧ n.HasEdge x.source .epsilon x.target ∧
      ∃ q ∈ s, PathTo n.HasEdge x.source q [] := by
  have hedges : x ∈ n.epsilonEdges s ↔ x.source ∈ n.epsilonReach s ∧ x.symbol = .epsilon ∧
      n.HasEdge x.source .epsilon x.target := mem_edgesReading
  rw [hedges, mem_epsilonReach hn hs, and_comm, and_assoc]

/-- The states of a closure are those that the search begins with, and those that its edges
lead to. -/
theorem mem_closure_iff_target :
    q ∈ n.closure s ↔
      (q ∈ s ∨ ∃ x ∈ n.epsilonEdges s, x.target = q) ∧ n.isIntermediate q = false := by
  have hreach : q ∈ n.epsilonReach s ↔ q ∈ s ∨ ∃ x ∈ n.epsilonEdges s, x.target = q := by
    refine (mem_breadthFirst_iff_stream (covers_epsilonReach hn hs)).trans (or_congr Iff.rfl ?_)
    constructor
    · intro h
      rcases h with ⟨p, hp, hq⟩
      exact ⟨⟨p, .epsilon, q⟩, mem_edgesReading.mpr ⟨hp, rfl, mem_targets.mp hq⟩, rfl⟩
    · intro h
      rcases h with ⟨x, hx, rfl⟩
      have hx := mem_edgesReading.mp hx
      exact ⟨x.source, hx.1, mem_targets.mpr hx.2.2⟩
  rw [closure, SortedSet.mem_ofList, List.mem_filter, hreach, Bool.not_eq_true']

end Search

/-!
# One step of a run
-/

theorem WellFormed.mem_transitions (hn : n.WellFormed) :
    x ∈ n.definition.transitions ↔ n.HasEdge x.source x.symbol x.target := by
  rw [Definition.mem_transitions, hasEdge_definition]
  exact and_iff_right_of_imp fun hedge => hn.definition.source_lt (hasEdge_definition.mpr hedge)

theorem mem_successors_iff_target :
    q ∈ n.successors s c ↔ ∃ x ∈ n.readingEdges s c, x.target = q := by
  rw [mem_successors]
  constructor
  · intro h
    rcases h with ⟨p, hp, hedge⟩
    exact ⟨⟨p, .char c, q⟩, mem_edgesReading.mpr ⟨hp, rfl, hedge⟩, rfl⟩
  · intro h
    rcases h with ⟨x, hx, rfl⟩
    have hx := mem_edgesReading.mp hx
    exact ⟨x.source, hx.1, hx.2.2⟩

/-- The edges on the way to the first states: all ε edges that can be reached from the start,
each one once.  They lead to the states shown, besides the start itself. -/
structure EntersOver (n : Nfa) (edges : List Transition) (s : SortedSet Nat) : Prop where
  nodup : edges.Nodup
  mem_iff : ∀ x, x ∈ edges ↔
    x ∈ n.definition.transitions ∧ x.symbol = .epsilon ∧ PathTo n.HasEdge x.source n.start []
  mem_states_iff : ∀ q, q ∈ s ↔
    (q = n.start ∨ ∃ x ∈ edges, x.target = q) ∧ n.isIntermediate q = false

/-- The edges from some states to others over a character: all edges that read it, and behind
them all ε edges that can be reached from where these lead, each one once and behind an
edge that leads to it.  Together they lead to the states shown after them. -/
structure LeadsOver (n : Nfa) (s : SortedSet Nat) (c : Char) (edges : List Transition)
    (t : SortedSet Nat) : Prop where
  nodup : edges.Nodup
  parts : ∃ reading passing, edges = reading ++ passing ∧
    (∀ x, x ∈ reading ↔ x ∈ n.definition.transitions ∧ x.symbol = .char c ∧ x.source ∈ s) ∧
    (∀ x, x ∈ passing ↔ x ∈ n.definition.transitions ∧ x.symbol = .epsilon ∧
      ∃ y ∈ reading, PathTo n.HasEdge x.source y.target [])
  source_met : ∀ u x v, edges = u ++ x :: v → x.symbol = .epsilon → ∃ y ∈ u, y.target = x.source
  mem_states_iff : ∀ q, q ∈ t ↔ (∃ x ∈ edges, x.target = q) ∧ n.isIntermediate q = false

theorem entersOver_startSet (hn : n.WellFormed) :
    n.EntersOver (n.epsilonEdges (.singleton n.start)) n.startSet where
  nodup := nodup_epsilonEdges
  mem_iff := by
    intro x
    rw [mem_epsilonEdges hn (lt_of_mem_start hn), hn.mem_transitions]
    constructor
    · intro h
      rcases h with ⟨hsymbol, hedge, q, hq, hpath⟩
      rw [SortedSet.mem_singleton.mp hq] at hpath
      exact ⟨hsymbol ▸ hedge, hsymbol, hpath⟩
    · intro h
      rcases h with ⟨hedge, hsymbol, hpath⟩
      exact ⟨hsymbol, hsymbol ▸ hedge, n.start, SortedSet.mem_singleton.mpr rfl, hpath⟩
  mem_states_iff := by
    intro q
    rw [startSet, mem_closure_iff_target hn (lt_of_mem_start hn), SortedSet.mem_singleton]

theorem mem_readingEdges_iff (hn : n.WellFormed) :
    x ∈ n.readingEdges s c ↔
      x ∈ n.definition.transitions ∧ x.symbol = .char c ∧ x.source ∈ s := by
  rw [hn.mem_transitions]
  constructor
  · intro h
    rcases mem_edgesReading.mp h with ⟨hsource, hsymbol, hedge⟩
    exact ⟨hsymbol ▸ hedge, hsymbol, hsource⟩
  · intro h
    rcases h with ⟨hedge, hsymbol, hsource⟩
    exact mem_edgesReading.mpr ⟨hsource, hsymbol, hsymbol ▸ hedge⟩

theorem leadsOver_step (hn : n.WellFormed) (s : SortedSet Nat) (c : Char) :
    n.LeadsOver s c (n.readingEdges s c ++ n.epsilonEdges (n.successors s c)) (n.step s c) where
  nodup := by
    refine List.nodup_append.mpr
      ⟨nodup_edgesReading s.nodup_toList, nodup_epsilonEdges, ?_⟩
    intro x hx y hy hxy
    have hreads := (mem_edgesReading.mp hx).2.1
    have hpasses := (mem_edgesReading.mp hy).2.1
    rw [hxy, hpasses] at hreads
    cases hreads
  parts := by
    refine ⟨_, _, rfl, fun _ => mem_readingEdges_iff hn, ?_⟩
    intro x
    rw [mem_epsilonEdges hn (lt_of_mem_successors hn), hn.mem_transitions]
    constructor
    · intro h
      rcases h with ⟨hsymbol, hedge, q, hq, hpath⟩
      rcases mem_successors_iff_target.mp hq with ⟨y, hy, rfl⟩
      exact ⟨hsymbol ▸ hedge, hsymbol, y, hy, hpath⟩
    · intro h
      rcases h with ⟨hedge, hsymbol, y, hy, hpath⟩
      exact ⟨hsymbol, hsymbol ▸ hedge, y.target, mem_successors_iff_target.mpr ⟨y, hy, rfl⟩,
        hpath⟩
  source_met := by
    intro u x v h hsymbol
    rcases append_eq_append_cons_cases h with ⟨z, rfl, hpassing⟩ | ⟨z, hreading, _⟩
    · rcases source_of_epsilonEdges hpassing with hmet | ⟨y, hy, htarget⟩
      · rcases mem_successors_iff_target.mp hmet with ⟨y, hy, htarget⟩
        exact ⟨y, List.mem_append_left z hy, htarget⟩
      · exact ⟨y, List.mem_append_right _ hy, htarget⟩
    · have hx : x ∈ u ++ x :: z := List.mem_append_right u List.mem_cons_self
      have hreads := (mem_edgesReading.mp (hreading ▸ hx)).2.1
      rw [hsymbol] at hreads
      cases hreads
  mem_states_iff := by
    intro q
    rw [step, mem_closure_iff_target hn (lt_of_mem_successors hn), mem_successors_iff_target]
    simp only [List.mem_append, or_and_right, exists_or]

/-!
# The steps of a trace
-/

/-- Every edge step stands between two steps with states, and its edges lead from the ones to
the others over the character at its place in the word. -/
def Linked (n : Nfa) (w : List Char) (steps : List Step) : Prop :=
  ∀ j i c edges, steps[j + 1]? = some (.transition i c edges) →
    ∃ k s t, steps[j]? = some (.state k s) ∧ steps[j + 2]? = some (.state (some i) t) ∧
      w[i]? = some c ∧ n.LeadsOver s c edges t

theorem linked_end {w : List Char} {step last : Step}
    (h : ∀ i c edges, last ≠ .transition i c edges) : n.Linked w [step, last] := by
  intro j i c edges hstep
  cases j with
  | zero =>
      injection hstep with hlast
      exact absurd hlast (h i c edges)
  | succ j => cases hstep

theorem Linked.cons {w : List Char} {k : Option Nat} {i : Nat} {edges : List Transition}
    {steps : List Step} (h : n.Linked w (.state (some i) t :: steps)) (hc : w[i]? = some c)
    (hedges : n.LeadsOver s c edges t) :
    n.Linked w (.state k s :: .transition i c edges :: .state (some i) t :: steps) := by
  intro j i' c' edges' hstep
  cases j with
  | zero =>
      injection hstep with hstep
      injection hstep with hi hc' hedges'
      subst hi hc' hedges'
      exact ⟨k, s, t, rfl, rfl, hc, hedges⟩
  | succ j =>
      cases j with
      | zero => cases hstep
      | succ j => exact h j i' c' edges' hstep

theorem linked_stepsFrom (hn : n.WellFormed) (w u : List Char) (s : SortedSet Nat)
    (k : Option Nat) : n.Linked (u ++ w) (.state k s :: n.stepsFrom s u.length w) := by
  induction w generalizing u s k with
  | nil => exact linked_end fun _ _ _ => Step.noConfusion
  | cons c w ih =>
      unfold stepsFrom
      split
      · have hc : (u ++ c :: w)[u.length]? = some c := by simp
        refine Linked.cons ?_ hc (leadsOver_step hn s c)
        split
        · exact linked_end fun _ _ _ => Step.noConfusion
        · have hrest := ih (u ++ [c]) (n.step s c) (some u.length)
          rw [List.append_assoc, List.length_append] at hrest
          exact hrest
      · exact linked_end fun _ _ _ => Step.noConfusion

end Nfa

structure Trace.AccountsFor (t : Trace) (n : Nfa) (input : String) : Prop where
  enters : ∃ s edges rest, t.steps = .initial s edges :: .state none s :: rest ∧
    n.EntersOver edges s
  linked : n.Linked input.toList t.steps

theorem Nfa.accountsFor_trace {n : Nfa} (hn : n.WellFormed) (input : String) :
    (n.trace input).AccountsFor n input where
  enters := ⟨_, _, _, rfl, entersOver_startSet hn⟩
  linked := by
    intro j i c edges hstep
    cases j with
    | zero => cases hstep
    | succ j => exact linked_stepsFrom hn input.toList [] n.startSet none j i c edges hstep

/-- In the traces of the nondeterministic automata of an expression the edges account for
the states. -/
theorem Construction.trace_accountsFor (k : Construction) (e : Expr) (input : String) :
    ((k.build e).trace input).AccountsFor (k.build e) input :=
  Nfa.accountsFor_trace (k.build_recognizes e).wellFormed input

end Recognizer
