import Recognizer.Automaton.Lookup
import Recognizer.Proofs.Automaton.Aggregation

/-!
# Looking up edges

The cell of a state and a symbol is looked up in the edges of the state.  A table with a cell
for each state and each column can be filled in one pass over all edges, too, and has the
same cells.  So the edges, the merged edges and the cells of an automaton of an expression
show the same, and the cells lead where the automaton leads.
-/

namespace Recognizer

namespace Definition

variable {a : Definition} {q r i : Nat} {s : Symbol} {ts : List Transition}

/-!
# Columns
-/

theorem char_mem_columns {c : Char} : .char c ∈ a.columns ↔ c ∈ a.alphabet := by
  unfold columns
  rw [List.mem_append, List.mem_map]
  constructor
  · intro h
    cases h with
    | inl h =>
        rcases h with ⟨b, hb, hbc⟩
        injection hbc with hbc
        exact hbc ▸ hb
    | inr h =>
        split at h
        · cases List.mem_singleton.mp h
        · cases h
  · intro h
    exact Or.inl ⟨c, h, rfl⟩

theorem WellFormed.epsilon_mem_columns (ha : a.WellFormed) :
    .epsilon ∈ a.columns ↔ ∃ t ∈ a.transitions, t.symbol = .epsilon := by
  constructor
  · intro h
    have hreads : a.readsNothing = true := by
      unfold columns at h
      rw [List.mem_append, List.mem_map] at h
      rcases h with ⟨c, _, hc⟩ | h
      · cases hc
      · split at h
        · assumption
        · cases h
    rw [readsNothing, Array.any_eq_true'] at hreads
    rcases hreads with ⟨edges, hedges, hany⟩
    rcases List.any_eq_true.mp hany with ⟨e, he, hsymbol⟩
    rcases Array.mem_iff_getElem?.mp hedges with ⟨q, hq⟩
    have hedge : a.HasEdge q e.symbol e.target := by
      unfold HasEdge edgesFrom
      rw [Array.getD_eq_getD_getElem?, hq]
      exact he
    exact ⟨⟨q, e.symbol, e.target⟩, mem_transitions.mpr ⟨ha.source_lt hedge, hedge⟩,
      of_decide_eq_true hsymbol⟩
  · intro h
    rcases h with ⟨t, ht, hsymbol⟩
    exact hsymbol ▸ ha.symbol_mem_columns ht

theorem WellFormed.not_mem_columns_iff (ha : a.WellFormed) :
    s ∉ a.columns ↔ (∃ c, s = .char c ∧ c ∉ a.alphabet) ∨
      (s = .epsilon ∧ ∀ t ∈ a.transitions, t.symbol ≠ .epsilon) := by
  cases s with
  | epsilon => simp [ha.epsilon_mem_columns]
  | char c => simp [char_mem_columns]

/-!
# Cells filled in one pass
-/

/-- A row for each state with a cell for each column; every edge puts its target into the
cell of its source and its symbol. -/
def filledCells (a : Definition) (ts : List Transition) : Array (Array (SortedSet Nat)) :=
  ts.foldl
    (fun rows t => rows.modify t.source fun row =>
      row.modify (a.columns.idxOf t.symbol) fun targets => targets.insert t.target)
    (Array.replicate a.states.size (Array.replicate a.columns.length .empty))

def filledCell? (a : Definition) (q : Nat) (s : Symbol) :
    Except OutOfRange (Option (SortedSet Nat)) :=
  if s ∈ a.columns then do
    let row ← entryAt (a.filledCells a.transitions) q
    (entryAt row (a.columns.idxOf s)).map some
  else .ok none

theorem filledCells_append_singleton (t : Transition) :
    a.filledCells (ts ++ [t]) = (a.filledCells ts).modify t.source fun row =>
      row.modify (a.columns.idxOf t.symbol) fun targets => targets.insert t.target := by
  rw [filledCells, List.foldl_append]
  rfl

theorem size_filledCells (ts : List Transition) : (a.filledCells ts).size = a.states.size := by
  induction ts using List.reverseRecOn with
  | nil => exact Array.size_replicate
  | append_singleton ts t ih => rw [filledCells_append_singleton, Array.size_modify, ih]

theorem exists_filledCell (hq : q < a.states.size) (hi : i < a.columns.length)
    (ts : List Transition) :
    ∃ row targets, (a.filledCells ts)[q]? = some row ∧ row[i]? = some targets ∧
      ∀ r, r ∈ targets ↔
        ∃ t ∈ ts, t.source = q ∧ a.columns.idxOf t.symbol = i ∧ t.target = r := by
  induction ts using List.reverseRecOn with
  | nil =>
      refine ⟨Array.replicate a.columns.length .empty, .empty, ?_, ?_, ?_⟩
      · simp [filledCells, hq]
      · simp [hi]
      · simp
  | append_singleton ts t ih =>
      rcases ih with ⟨row, targets, hrow, htargets, hmem⟩
      rw [filledCells_append_singleton, Array.getElem?_modify, hrow]
      by_cases hsource : t.source = q
      · by_cases hcolumn : a.columns.idxOf t.symbol = i
        · refine ⟨_, targets.insert t.target, by rw [if_pos hsource]; rfl, ?_, ?_⟩
          · rw [Array.getElem?_modify, if_pos hcolumn, htargets]
            rfl
          · intro r
            rw [SortedSet.mem_insert, hmem]
            simp [hsource, hcolumn, or_and_right, exists_or, or_comm, eq_comm]
        · refine ⟨_, targets, by rw [if_pos hsource]; rfl, ?_, ?_⟩
          · rw [Array.getElem?_modify, if_neg hcolumn, htargets]
          · intro r
            rw [hmem]
            simp [hcolumn, or_and_right, exists_or]
      · refine ⟨row, targets, by rw [if_neg hsource], htargets, ?_⟩
        intro r
        rw [hmem]
        simp [hsource, or_and_right, exists_or]

theorem cell?_eq_filledCell? (a : Definition) (q : Nat) (s : Symbol) :
    a.cell? q s = a.filledCell? q s := by
  unfold cell? filledCell?
  by_cases hs : s ∈ a.columns
  · rw [if_pos hs, if_pos hs]
    by_cases hq : q < a.states.size
    · rcases exists_filledCell hq (List.idxOf_lt_length_of_mem hs) a.transitions with
        ⟨row, targets, hrow, htargets, hmem⟩
      have hcell : a.cell q s = targets := by
        apply SortedSet.ext
        intro r
        rw [mem_cell, hmem]
        constructor
        · intro hedge
          exact ⟨⟨q, s, r⟩, mem_transitions.mpr ⟨hq, hedge⟩, rfl, rfl, rfl⟩
        · intro h
          rcases h with ⟨t, ht, rfl, hsymbol, rfl⟩
          have hsymbol := (List.idxOf_inj hs).mp hsymbol.symm
          exact hsymbol ▸ (mem_transitions.mp ht).2
      rw [if_pos hq, hcell, entryAt_eq_ok_iff.mpr hrow, ok_bind, entryAt_eq_ok_iff.mpr htargets,
        ok_map]
    · have hnone : (a.filledCells a.transitions)[q]? = none :=
        Array.getElem?_eq_none (size_filledCells _ ▸ Nat.le_of_not_lt hq)
      rw [if_neg hq, entryAt, hnone, size_filledCells]
      rfl
  · rw [if_neg hs, if_neg hs]

theorem cell?_eq_none_iff (hq : q < a.states.size) : a.cell? q s = .ok none ↔ s ∉ a.columns := by
  unfold cell?
  rw [if_pos hq]
  split
  · simp_all
  · simp_all

theorem cell?_eq_cell (hq : q < a.states.size) (hs : s ∈ a.columns) :
    a.cell? q s = .ok (some (a.cell q s)) := by
  rw [cell?, if_pos hs, if_pos hq]

theorem mem_cell_iff_transition (hq : q < a.states.size) :
    r ∈ a.cell q s ↔ ⟨q, s, r⟩ ∈ a.transitions := by
  rw [mem_cell, mem_transitions, and_iff_right hq]

end Definition

/-!
# The automata of an expression
-/

namespace Machine

/-- Where an automaton leads from a state on a symbol; if it is deterministic, to one state at
the most, and nowhere without reading. -/
def targets (m : Machine) (q : Nat) (s : Symbol) : List Nat :=
  match m with
  | nfa n => (n.targets q s).toList
  | dfa d => (s.char?.bind (d.next q)).toList

structure ViewsAgree (m : Machine) : Prop where
  ordered : m.definition.transitions.Pairwise Transition.Before
  merged_ordered : m.definition.mergedEdges.Pairwise MergedEdge.Before
  merged_symbols : ∀ e ∈ m.definition.mergedEdges,
    e.symbols ≠ [] ∧ e.symbols.Pairwise Symbol.Before
  merged_nodup : (m.definition.mergedEdges.flatMap MergedEdge.expand).Nodup
  merged_perm : (m.definition.mergedEdges.flatMap MergedEdge.expand).Perm m.definition.transitions
  merged_eq : m.definition.mergedEdges = MergedEdge.merge m.definition.transitions
  cell_eq : ∀ q s, m.definition.cell? q s = m.definition.filledCell? q s
  cell_none_iff : ∀ q s, q < m.definition.states.size →
    (m.definition.cell? q s = .ok none ↔
      (∃ c, s = .char c ∧ c ∉ m.definition.alphabet) ∨
        (s = .epsilon ∧ ∀ t ∈ m.definition.transitions, t.symbol ≠ .epsilon))
  cell_some : ∀ q s, q < m.definition.states.size → m.definition.cell? q s ≠ .ok none →
    ∃ cell, m.definition.cell? q s = .ok (some cell) ∧
      (∀ r, r ∈ cell ↔ ⟨q, s, r⟩ ∈ m.definition.transitions) ∧ cell.toList = m.targets q s

theorem toList_cell (m : Machine) (q : Nat) (s : Symbol) :
    (m.definition.cell q s).toList = m.targets q s := by
  have hincreasing : SortedSet.Increasing (m.targets q s) := by
    cases m with
    | nfa n => exact (n.targets q s).increasing
    | dfa d =>
        show SortedSet.Increasing (s.char?.bind (d.next q)).toList
        cases s.char?.bind (d.next q) with
        | none => exact List.Pairwise.nil
        | some r => exact List.pairwise_singleton _ r
  apply SortedSet.eq_of_increasing (m.definition.cell q s).increasing hincreasing
  intro r
  rw [SortedSet.mem_toList, Definition.mem_cell]
  cases m with
  | nfa n => exact Nfa.hasEdge_definition.trans Nfa.mem_targets.symm
  | dfa d =>
      refine Dfa.hasEdge_definition.trans ?_
      unfold targets
      cases s with
      | epsilon => simp [Symbol.char?]
      | char c => simp [Symbol.char?]

theorem viewsAgree (m : Machine) (hm : m.definition.WellFormed) : m.ViewsAgree := by
  have hordered := Definition.ordered_transitions m.increasing_definition
  have hmerges := m.definition.merges_mergedEdges
  have hnodup : m.definition.transitions.Nodup := by
    apply hordered.imp
    rintro t _ h rfl
    exact Transition.not_before_self h
  exact
    { ordered := hordered
      merged_ordered := hmerges.ordered
      merged_symbols := by
        intro e he
        rcases hmerges.mem_iff.mp he with ⟨hnonempty, hsymbols⟩
        exact ⟨hnonempty, hsymbols ▸ ordered_symbolsBetween hordered e.source e.target⟩
      merged_nodup := hmerges.perm.nodup_iff.mpr hnodup
      merged_perm := hmerges.perm
      merged_eq := m.definition.mergedEdges_eq_merge
      cell_eq := m.definition.cell?_eq_filledCell?
      cell_none_iff := by
        intro q s hq
        rw [Definition.cell?_eq_none_iff hq, hm.not_mem_columns_iff]
      cell_some := by
        intro q s hq hsome
        have hs : s ∈ m.definition.columns := by
          by_contra hs
          exact hsome ((Definition.cell?_eq_none_iff hq).mpr hs)
        exact ⟨m.definition.cell q s, Definition.cell?_eq_cell hq hs,
          fun _ => Definition.mem_cell_iff_transition hq, m.toList_cell q s⟩ }

end Machine

/-- The edges of an automaton of an expression are listed in order, and its merged edges are
these edges by their two ends, each one once.  The cell of a state and a symbol is missing
just where the symbol is a character outside of the alphabet, or ε in an automaton without
ε edges; else it holds the states that the automaton leads to. -/
theorem Plan.viewsAgree_build (e : Expr) (p : Plan) : (p.build e).ViewsAgree :=
  (p.build e).viewsAgree (p.presents_build e).formedOver.wellFormed

end Recognizer
