import Recognizer.Automaton.Definition
import Recognizer.Proofs.Automaton.Path
import Recognizer.Proofs.Automaton.Run

/-!
# Well-formed definitions

The formal definition of an automaton of either kind, seen as a graph of its edges.
What leads to an accepting state can be told from the graph alone, and the other states
are those that the definition calls dead.
-/

namespace Recognizer

namespace Definition

variable {a : Definition} {p q t : Nat} {s : Symbol} {w : List Char}

def HasEdge (a : Definition) (p : Nat) (s : Symbol) (q : Nat) : Prop := ⟨s, q⟩ ∈ a.edgesFrom p

/-- The ids count from zero, and every number of a state is that of a state.  Edges read
nothing or a symbol of the alphabet. -/
structure WellFormed (a : Definition) : Prop where
  inPlace : State.InPlace a.states
  edges_size : a.edges.size = a.states.size
  start_lt : a.start < a.states.size
  accepting_lt : ∀ q ∈ a.accepting, q < a.states.size
  target_lt : ∀ p s q, a.HasEdge p s q → q < a.states.size
  symbol_mem : ∀ p c q, a.HasEdge p (.char c) q → c ∈ a.alphabet

theorem getElem?_edges_of_hasEdge (h : a.HasEdge p s q) :
    ∃ edges, a.edges[p]? = some edges ∧ ⟨s, q⟩ ∈ edges := by
  unfold HasEdge edgesFrom at h
  rw [Array.getD_eq_getD_getElem?] at h
  cases hedges : a.edges[p]? with
  | none =>
      rw [hedges] at h
      cases h
  | some edges =>
      rw [hedges] at h
      exact ⟨edges, rfl, h⟩

theorem WellFormed.source_lt (ha : a.WellFormed) (h : a.HasEdge p s q) : p < a.states.size := by
  rcases getElem?_edges_of_hasEdge h with ⟨edges, hedges, _⟩
  exact ha.edges_size ▸ (Array.getElem?_eq_some_iff.mp hedges).1

theorem mem_transitions {x : Transition} :
    x ∈ a.transitions ↔ x.source < a.states.size ∧ a.HasEdge x.source x.symbol x.target := by
  unfold transitions
  rw [List.mem_flatMap]
  constructor
  · intro h
    rcases h with ⟨q, hq, hx⟩
    rcases List.mem_map.mp hx with ⟨e, he, rfl⟩
    exact ⟨List.mem_range.mp hq, he⟩
  · intro h
    exact ⟨x.source, List.mem_range.mpr h.1, List.mem_map.mpr ⟨_, h.2, rfl⟩⟩

theorem transitions_eq_of_hasEdge {b : Definition} (hsize : a.states.size = b.states.size)
    (ha : ∀ q, SortedSet.Increasing (a.edgesFrom q))
    (hb : ∀ q, SortedSet.Increasing (b.edgesFrom q))
    (h : ∀ p s q, p < a.states.size → (a.HasEdge p s q ↔ b.HasEdge p s q)) :
    a.transitions = b.transitions := by
  unfold transitions
  rw [← hsize]
  apply List.flatMap_congr
  intro p hp
  have hedges : a.edgesFrom p = b.edgesFrom p :=
    SortedSet.eq_of_increasing (ha p) (hb p) fun e => h p e.symbol e.target (List.mem_range.mp hp)
  rw [hedges]

/-!
# Dead states
-/

def AcceptsFrom (a : Definition) (q : Nat) (w : List Char) : Prop :=
  ∃ r ∈ a.accepting, PathTo a.HasEdge r q w

theorem WellFormed.mem_predecessors (ha : a.WellFormed) (ht : t < a.states.size) :
    p ∈ a.predecessors.getD t [] ↔ ∃ s, a.HasEdge p s t := by
  unfold predecessors
  rw [List.foldl_eq_foldr_reverse, mem_foldr_modify Transition.target Transition.source _ ht]
  constructor
  · intro h
    rcases h with ⟨x, hx, rfl, rfl⟩
    exact ⟨x.symbol, (mem_transitions.mp (List.mem_reverse.mp hx)).2⟩
  · intro h
    rcases h with ⟨s, hedge⟩
    refine ⟨⟨p, s, t⟩, List.mem_reverse.mpr ?_, rfl, rfl⟩
    exact mem_transitions.mpr ⟨ha.source_lt hedge, hedge⟩

theorem WellFormed.lt_of_acceptsFrom (ha : a.WellFormed) (h : a.AcceptsFrom q w) :
    q < a.states.size := by
  rcases h with ⟨r, hr, hpath⟩
  cases hpath with
  | here => exact ha.accepting_lt q hr
  | epsilon hedge _ => exact ha.source_lt hedge
  | char hedge _ => exact ha.source_lt hedge

theorem WellFormed.reached_iff (ha : a.WellFormed) :
    Search.Reached (fun q => a.predecessors.getD q []) a.accepting.toList q ↔
      ∃ w, a.AcceptsFrom q w := by
  constructor
  · intro h
    induction h with
    | seed hseed => exact ⟨[], _, hseed, PathTo.here⟩
    | next _ hmem ih =>
        rcases ih with ⟨w, hw⟩
        rcases (ha.mem_predecessors (ha.lt_of_acceptsFrom hw)).mp hmem with ⟨s, hedge⟩
        rcases hw with ⟨r, hr, hpath⟩
        cases s with
        | epsilon => exact ⟨w, r, hr, PathTo.epsilon hedge hpath⟩
        | char c => exact ⟨c :: w, r, hr, PathTo.char hedge hpath⟩
  · intro h
    rcases h with ⟨w, r, hr, hpath⟩
    have hback : ∀ p s q, a.HasEdge p s q →
        Search.Reached (fun q => a.predecessors.getD q []) a.accepting.toList q →
        Search.Reached (fun q => a.predecessors.getD q []) a.accepting.toList p := by
      intro p s q hedge hq
      exact Search.Reached.next hq
        ((ha.mem_predecessors (ha.target_lt p s q hedge)).mpr ⟨s, hedge⟩)
    induction hpath with
    | here => exact Search.Reached.seed hr
    | epsilon hedge _ ih => exact hback _ _ _ hedge ih
    | char hedge _ ih => exact hback _ _ _ hedge ih

theorem WellFormed.covers_predecessors (ha : a.WellFormed) :
    Search.Covers (fun q => a.predecessors.getD q []) a.accepting.toList a.states.size := by
  apply Search.covers_of_lt
  intro q hq
  rcases ha.reached_iff.mp hq with ⟨w, hw⟩
  exact ha.lt_of_acceptsFrom hw

/-- The dead states are those from which nothing is accepted. -/
theorem WellFormed.mem_deadStates (ha : a.WellFormed) :
    q ∈ a.deadStates ↔ q < a.states.size ∧ ∀ w, ¬ a.AcceptsFrom q w := by
  have halive : q ∈ breadthFirst (fun q => a.predecessors.getD q []) a.states.size
      a.accepting.toList ↔ ∃ w, a.AcceptsFrom q w :=
    (mem_breadthFirst ha.covers_predecessors).trans ha.reached_iff
  have hdead : q ∈ a.deadStates ↔ q < a.states.size ∧
      q ∉ breadthFirst (fun q => a.predecessors.getD q []) a.states.size a.accepting.toList := by
    unfold deadStates
    rw [SortedSet.mem_filter, SortedSet.mem_range, decide_eq_true_eq]
  rw [hdead, halive, not_exists]

end Definition

/-!
# The definitions of the two kinds of automata
-/

namespace Nfa

variable {n : Nfa} {p q : Nat} {s : Symbol}

theorem edgesFrom_definition : n.definition.edgesFrom p = (n.edgesFrom p).toList := by
  unfold Definition.edgesFrom edgesFrom definition
  rw [Array.getD_eq_getD_getElem?, Array.getD_eq_getD_getElem?, Array.getElem?_map]
  cases n.edges[p]? with
  | none => rfl
  | some edges => rfl

theorem hasEdge_definition : n.definition.HasEdge p s q ↔ n.HasEdge p s q := by
  unfold Definition.HasEdge
  rw [edgesFrom_definition]
  exact Iff.rfl

theorem increasing_definition (n : Nfa) (p : Nat) :
    SortedSet.Increasing (n.definition.edgesFrom p) := by
  rw [edgesFrom_definition]
  exact (n.edgesFrom p).increasing

theorem WellFormed.definition (hn : n.WellFormed) : n.definition.WellFormed where
  inPlace := hn.inPlace
  edges_size := by
    show (n.edges.map SortedSet.toList).size = n.states.size
    rw [Array.size_map, hn.edges_size]
  start_lt := hn.start_lt
  accepting_lt := hn.accepting_lt
  target_lt := fun p s q h => hn.target_lt p s q (hasEdge_definition.mp h)
  symbol_mem := fun p c q h => hn.symbol_mem p c q (hasEdge_definition.mp h)

theorem acceptsFrom_definition {w : List Char} :
    n.definition.AcceptsFrom q w ↔ n.AcceptsFrom q w := by
  have hpath : ∀ r, PathTo n.definition.HasEdge r q w ↔ PathTo n.HasEdge r q w := by
    intro r
    constructor
    · exact pathTo_mono (fun _ _ _ => hasEdge_definition.mp)
    · exact pathTo_mono (fun _ _ _ => hasEdge_definition.mpr)
  exact exists_congr fun r => and_congr_right fun _ => hpath r

end Nfa

namespace Dfa

variable {d : Dfa} {p q : Nat} {s : Symbol}

theorem edgesFrom_definition :
    d.definition.edgesFrom p =
      (d.edges[p]?.map fun edges =>
        edges.toList.map fun x => (⟨.char x.1, x.2⟩ : Edge)).getD [] := by
  unfold Definition.edgesFrom definition
  rw [Array.getD_eq_getD_getElem?, Array.getElem?_map]

theorem hasEdge_definition :
    d.definition.HasEdge p s q ↔ ∃ c, s = .char c ∧ d.next p c = some q := by
  unfold Definition.HasEdge
  rw [edgesFrom_definition]
  cases hp : d.edges[p]? with
  | none => simp [next, hp]
  | some edges =>
      simp only [Option.map_some, Option.getD_some, List.mem_map]
      constructor
      · intro h
        rcases h with ⟨x, hx, hedge⟩
        injection hedge with hs hq
        exact ⟨x.1, hs.symm, next_eq_some_iff.mpr ⟨edges, hp, hq ▸ hx⟩⟩
      · intro h
        rcases h with ⟨c, rfl, hnext⟩
        rcases next_eq_some_iff.mp hnext with ⟨found, hfound, hmem⟩
        rw [hp] at hfound
        injection hfound with hfound
        exact ⟨(c, q), hfound ▸ hmem, rfl⟩

theorem increasing_definition (d : Dfa) (p : Nat) :
    SortedSet.Increasing (d.definition.edgesFrom p) := by
  rw [edgesFrom_definition]
  cases d.edges[p]? with
  | none => exact List.Pairwise.nil
  | some edges =>
      refine List.Pairwise.map _ ?_ edges.increasing
      intro x y hxy
      have hsymbols : compare (Symbol.char x.1) (Symbol.char y.1) = .lt := hxy
      exact Ordering.then_eq_lt.mpr (Or.inl hsymbols)

theorem target_unique {r : Nat} (hq : d.definition.HasEdge p s q)
    (hr : d.definition.HasEdge p s r) : q = r := by
  rcases hasEdge_definition.mp hq with ⟨c, hc, hnext⟩
  rcases hasEdge_definition.mp hr with ⟨b, hb, hother⟩
  injection hc.symm.trans hb with hcb
  rw [hcb, hother] at hnext
  exact (Option.some.inj hnext).symm

theorem WellFormed.definition (hd : d.WellFormed) : d.definition.WellFormed where
  inPlace := hd.inPlace
  edges_size := by
    show (d.edges.map _).size = d.states.size
    rw [Array.size_map, hd.edges_size]
  start_lt := hd.start_lt
  accepting_lt := hd.accepting_lt
  target_lt := by
    intro p s q h
    rcases hasEdge_definition.mp h with ⟨c, _, hnext⟩
    exact (hd.next_within hnext).2.2
  symbol_mem := by
    intro p c q h
    rcases hasEdge_definition.mp h with ⟨b, hb, hnext⟩
    injection hb with hb
    exact hb ▸ (hd.next_within hnext).2.1

theorem pathTo_definition {r : Nat} {w : List Char} :
    PathTo d.definition.HasEdge r q w ↔ d.runFrom q w = some r := by
  have hepsilon : ∀ q r, ¬ d.definition.HasEdge q .epsilon r := by
    intro q r h
    rcases hasEdge_definition.mp h with ⟨c, hs, _⟩
    cases hs
  induction w generalizing q with
  | nil =>
      rw [pathTo_iff]
      simp [runFrom, hepsilon]
  | cons c w ih =>
      rw [runFrom_cons, Option.bind_eq_some_iff, pathTo_iff]
      constructor
      · intro h
        rcases h with ⟨_, hword⟩ | ⟨p, hedge, _⟩ | ⟨b, v, p, hword, hedge, hrest⟩
        · cases hword
        · exact absurd hedge (hepsilon q p)
        · injection hword with hc hw
          subst hc hw
          rcases hasEdge_definition.mp hedge with ⟨b, hs, hnext⟩
          injection hs with hb
          exact ⟨p, hb ▸ hnext, ih.mp hrest⟩
      · intro h
        rcases h with ⟨p, hnext, hrest⟩
        exact Or.inr (Or.inr
          ⟨c, w, p, rfl, hasEdge_definition.mpr ⟨c, rfl, hnext⟩, ih.mpr hrest⟩)

theorem acceptsFrom_definition {w : List Char} :
    d.definition.AcceptsFrom q w ↔ d.AcceptsFrom q w :=
  exists_congr fun _ => and_congr_right fun _ => pathTo_definition

end Dfa

end Recognizer
