import Recognizer.Automaton.Drawing
import Recognizer.Automaton.Table
import Recognizer.Proofs.Automaton.Definition
import Recognizer.Proofs.Checked.Lookup

/-!
# Checked views

What is shown of an automaton looks up states by their numbers: the ends of edges, the
names of states and the columns of symbols.  All of it is there when the formal definition
is well formed.
-/

namespace Recognizer

namespace Definition

section Checked

variable (a : Definition)

def transitionsChecked : Except OutOfRange (List Transition) :=
  (List.range a.states.size).flatMapM fun q =>
    (entryAt a.edges q).map fun edges => edges.map fun e => ⟨q, e.symbol, e.target⟩

def predecessorsChecked : Except OutOfRange (Array (List Nat)) := do
  (← a.transitionsChecked).foldlM (fun table t => consAtChecked table t.target t.source)
    (Array.replicate a.states.size [])

def deadStatesChecked : Except OutOfRange (SortedSet Nat) := do
  let table ← a.predecessorsChecked
  let alive ← breadthFirstChecked (fun q => entryAt table q) a.states.size a.accepting.toList
  return (SortedSet.range a.states.size).filter (fun q => q ∉ alive)

def discoveryOrderChecked : Except OutOfRange (List Nat) := do
  let met ← breadthFirstChecked
    (fun q => (entryAt a.edges q).map fun edges => edges.map Edge.target) a.states.size [a.start]
  return met ++ (List.range a.states.size).filter (fun q => q ∉ met)

/-- Everything in the order of discovery has to be a state, and every state has to be there. -/
def aliasesChecked : Except OutOfRange (List String) := do
  let order ← a.discoveryOrderChecked
  let _ ← order.mapM (below a.states.size)
  (List.range a.states.size).mapM fun q => (placeOf order q).map fun i => "q" ++ toString i

def mergedEdgesChecked : Except OutOfRange (List MergedEdge) :=
  (List.range a.states.size).flatMapM fun q => (entryAt a.edges q).map fun _ => a.mergedEdgesFrom q

def namesForChecked : Naming → Except OutOfRange (List String)
  | .labels => .ok a.labels
  | .aliases => do
      let aliases ← a.aliasesChecked
      (a.states.toList.map State.id).mapM fun q => entryAt aliases.toArray q
  | .blank => a.deadStatesChecked.map fun dead =>
      (List.range a.states.size).map fun q => if q ∈ dead then trapLabel else ""

def drawingChecked (naming : Naming) : Except OutOfRange Drawing := do
  let names ← a.namesForChecked naming
  let edges ← (← a.mergedEdgesChecked).mapM fun e => do
    let source ← below a.states.size e.source
    let target ← below a.states.size e.target
    return (⟨source, target, e.label⟩ : DrawnEdge)
  return {
    start := a.start
    states := names.mapIdx fun q name => ⟨name, decide (q = a.start), a.isAccepting q⟩
    edges }

def cellChecked (q : Nat) (s : Symbol) : Except OutOfRange (SortedSet Nat) :=
  (entryAt a.edges q).map fun edges =>
    .ofList ((edges.filter (fun e => e.symbol = s)).map Edge.target)

end Checked

section WellFormed

variable {a : Definition} (ha : a.WellFormed)

include ha

theorem edgesAt_eq {q : Nat} (hq : q < a.states.size) :
    entryAt a.edges q = .ok (a.edgesFrom q) :=
  entryAt_getD (ha.edges_size ▸ hq) []

theorem transitionsChecked_eq : a.transitionsChecked = .ok a.transitions := by
  apply flatMapM_eq_ok
  intro q hq
  rw [edgesAt_eq ha (List.mem_range.mp hq)]
  rfl

theorem WellFormed.transition_lt {t : Transition} (ht : t ∈ a.transitions) :
    t.source < a.states.size ∧ t.target < a.states.size := by
  have ht := mem_transitions.mp ht
  exact ⟨ht.1, ha.target_lt _ _ _ ht.2⟩

/-!
# Dead states
-/

theorem predecessorsChecked_eq :
    a.predecessorsChecked = .ok a.predecessors ∧ a.predecessors.size = a.states.size := by
  rw [predecessorsChecked, transitionsChecked_eq ha, ok_bind]
  refine foldlM_eq_ok (I := fun table : Array (List Nat) => table.size = a.states.size) ?_
    Array.size_replicate
  intro table t htable ht
  constructor
  · exact consAtChecked_eq (htable ▸ (ha.transition_lt ht).2) t.source
  · rw [Array.size_modify, htable]

theorem deadStatesChecked_eq : a.deadStatesChecked = .ok a.deadStates := by
  have halive : ∀ q, Search.Reached (fun q => a.predecessors.getD q []) a.accepting.toList q →
      entryAt a.predecessors q = .ok (a.predecessors.getD q []) := by
    intro q hq
    rcases ha.reached_iff.mp hq with ⟨w, hw⟩
    exact entryAt_getD ((predecessorsChecked_eq ha).2 ▸ ha.lt_of_acceptsFrom hw) []
  rw [deadStatesChecked, (predecessorsChecked_eq ha).1, ok_bind, breadthFirstChecked_eq halive]
  rfl

/-!
# Short names
-/

theorem lt_of_discovered {q : Nat}
    (h : Search.Reached (fun q => (a.edgesFrom q).map Edge.target) [a.start] q) :
    q < a.states.size := by
  cases h with
  | seed hseed => exact List.mem_singleton.mp hseed ▸ ha.start_lt
  | next _ htarget =>
      rcases List.mem_map.mp htarget with ⟨e, he, rfl⟩
      exact ha.target_lt _ e.symbol e.target he

theorem discoveryOrderChecked_eq : a.discoveryOrderChecked = .ok a.discoveryOrder := by
  have hsuccessors : ∀ q, Search.Reached (fun q => (a.edgesFrom q).map Edge.target) [a.start] q →
      (entryAt a.edges q).map (fun edges => edges.map Edge.target) =
        .ok ((a.edgesFrom q).map Edge.target) := by
    intro q hq
    rw [edgesAt_eq ha (lt_of_discovered ha hq)]
    rfl
  rw [discoveryOrderChecked, breadthFirstChecked_eq hsuccessors]
  rfl

theorem mem_discoveryOrder {q : Nat} : q ∈ a.discoveryOrder ↔ q < a.states.size := by
  unfold discoveryOrder
  rw [List.mem_append, List.mem_filter, List.mem_range, decide_eq_true_eq]
  constructor
  · intro h
    cases h with
    | inl hmet => exact lt_of_discovered ha (reached_of_mem_breadthFirst hmet)
    | inr hrest => exact hrest.1
  · intro hq
    by_cases hmet : q ∈ breadthFirst (fun q => (a.edgesFrom q).map Edge.target) a.states.size
        [a.start]
    · exact Or.inl hmet
    · exact Or.inr ⟨hq, hmet⟩

theorem aliasesChecked_eq : a.aliasesChecked = .ok a.aliases := by
  have hbelow := mapM_eq_ok fun q (hq : q ∈ a.discoveryOrder) =>
    below_eq ((mem_discoveryOrder ha).mp hq)
  rw [aliasesChecked, discoveryOrderChecked_eq ha, ok_bind, hbelow, ok_bind]
  apply mapM_eq_ok
  intro q hq
  rw [placeOf_eq ((mem_discoveryOrder ha).mpr (List.mem_range.mp hq))]
  rfl

/-!
# Drawings
-/

theorem mergedEdgesChecked_eq : a.mergedEdgesChecked = .ok a.mergedEdges := by
  apply flatMapM_eq_ok
  intro q hq
  exact map_entryAt (ha.edges_size ▸ List.mem_range.mp hq) _

theorem mergedEdge_lt {e : MergedEdge} (he : e ∈ a.mergedEdges) :
    e.source < a.states.size ∧ e.target < a.states.size := by
  rcases List.mem_flatMap.mp he with ⟨q, hq, he⟩
  rcases List.mem_map.mp he with ⟨target, htarget, rfl⟩
  rw [SortedSet.mem_toList, SortedSet.mem_ofList] at htarget
  rcases List.mem_map.mp htarget with ⟨edge, hedge, rfl⟩
  exact ⟨List.mem_range.mp hq, ha.target_lt q edge.symbol edge.target hedge⟩

theorem namesForChecked_eq (naming : Naming) :
    a.namesForChecked naming = .ok (a.namesFor naming) := by
  cases naming with
  | labels => rfl
  | aliases =>
      have hlength : a.aliases.length = a.states.size := by
        rw [aliases, List.length_map, List.length_range]
      rw [namesForChecked, aliasesChecked_eq ha, ok_bind, ha.inPlace, ← hlength]
      exact mapM_entryAt_range a.aliases
  | blank =>
      rw [namesForChecked, deadStatesChecked_eq ha]
      rfl

theorem drawingChecked_eq (naming : Naming) : a.drawingChecked naming = .ok (a.drawing naming) := by
  have hedges : a.mergedEdges.mapM (fun e => do
      let source ← below a.states.size e.source
      let target ← below a.states.size e.target
      return (⟨source, target, e.label⟩ : DrawnEdge)) =
      .ok (a.mergedEdges.map fun e => ⟨e.source, e.target, e.label⟩) := by
    apply mapM_eq_ok
    intro e he
    rw [below_eq (mergedEdge_lt ha he).1, ok_bind, below_eq (mergedEdge_lt ha he).2]
    rfl
  rw [drawingChecked, namesForChecked_eq ha, ok_bind, mergedEdgesChecked_eq ha, ok_bind, hedges]
  rfl

theorem cellChecked_eq {q : Nat} (hq : q < a.states.size) (s : Symbol) :
    a.cellChecked q s = .ok (a.cell q s) := by
  rw [cellChecked, edgesAt_eq ha hq]
  rfl

omit ha in
theorem mem_cell {q r : Nat} {s : Symbol} : r ∈ a.cell q s ↔ a.HasEdge q s r := by
  unfold cell HasEdge
  rw [SortedSet.mem_ofList, List.mem_map]
  constructor
  · intro h
    rcases h with ⟨e, he, rfl⟩
    rcases List.mem_filter.mp he with ⟨hmem, hs⟩
    rw [← of_decide_eq_true hs]
    exact hmem
  · intro h
    exact ⟨⟨s, r⟩, List.mem_filter.mpr ⟨h, decide_eq_true rfl⟩, rfl⟩

theorem WellFormed.lt_of_mem_cell {q : Nat} {s : Symbol} : ∀ r ∈ a.cell q s, r < a.states.size :=
  fun r hr => ha.target_lt q s r (mem_cell.mp hr)

theorem WellFormed.symbol_mem_columns {t : Transition} (ht : t ∈ a.transitions) :
    t.symbol ∈ a.columns := by
  have hedge := (mem_transitions.mp ht).2
  unfold columns
  rw [List.mem_append]
  cases hs : t.symbol with
  | char c =>
      rw [hs] at hedge
      exact Or.inl (List.mem_map.mpr ⟨c, ha.symbol_mem _ c _ hedge, rfl⟩)
  | epsilon =>
      rw [hs] at hedge
      rcases getElem?_edges_of_hasEdge hedge with ⟨edges, hedges, hmem⟩
      have hreads : a.readsNothing = true := by
        unfold readsNothing
        rw [Array.any_eq_true']
        refine ⟨edges, Array.mem_of_getElem? hedges, ?_⟩
        rw [List.any_eq_true]
        exact ⟨_, hmem, decide_eq_true rfl⟩
      rw [if_pos hreads]
      exact Or.inr List.mem_cons_self

end WellFormed

end Definition

/-!
# Transition tables
-/

namespace Table

def withNamesChecked (a : Definition) (names : Array String) : Except OutOfRange Table := do
  let _ ← (← a.transitionsChecked).mapM fun t => do
    let _ ← below a.states.size t.source
    placeOf a.columns t.symbol
  return ⟨a, names⟩

def ofLabelsChecked (a : Definition) : Except OutOfRange Table :=
  withNamesChecked a a.labels.toArray

def ofAliasesChecked (a : Definition) : Except OutOfRange Table := do
  withNamesChecked a (← a.aliasesChecked).toArray

section Checked

variable (t : Table)

def nameChecked (q : Nat) : Except OutOfRange String := entryAt t.names q

def setTextChecked (s : SortedSet Nat) : Except OutOfRange String :=
  (s.toList.mapM t.nameChecked).map Text.braced

def cellTextChecked (targets : SortedSet Nat) : Except OutOfRange String :=
  match t.definition.kind, targets.toList with
  | _, [] => .ok trapLabel
  | .dfa, q :: _ => t.nameChecked q
  | .nfa, _ => t.setTextChecked targets

def rowNameChecked (q : Nat) : Except OutOfRange String :=
  (t.nameChecked q).map fun name => t.marker q ++ " " ++ name

def rowCellsChecked (q : Nat) : Except OutOfRange (List String) :=
  t.definition.columns.mapM fun s => t.definition.cellChecked q s >>= t.cellTextChecked

def columnWidthChecked (header : List String) (rows : List (List String)) (i : Nat) :
    Except OutOfRange Nat := do
  let title ← entryAt header.toArray i
  let column ← rows.mapM fun cells => entryAt cells.toArray i
  return Text.widest (title :: column)

def gridLinesChecked : Except OutOfRange (List String) := do
  let states := List.range t.definition.states.size
  let names ← states.mapM t.rowNameChecked
  let rows ← states.mapM t.rowCellsChecked
  let header := t.definition.columns.map Symbol.text
  let firstWidth := Text.widest names
  let widths ← (List.range header.length).mapM fun i => columnWidthChecked header rows i
  return line firstWidth widths "" header
    :: (names.zip rows).map fun (name, cells) => line firstWidth widths name cells

def textChecked : Except OutOfRange String := do
  let a := t.definition
  let states ← t.setTextChecked (.range a.states.size)
  let start ← t.nameChecked a.start
  let accepting ← t.setTextChecked a.accepting
  let grid ← t.gridLinesChecked
  return Text.lines
    (["Q  = " ++ states,
      "Σ  = " ++ Text.braced (a.alphabet.toList.map Char.toString),
      "q0 = " ++ start,
      "F  = " ++ accepting,
      "δ:"] ++ grid)

end Checked

section WellFormed

variable {a : Definition} (ha : a.WellFormed)

include ha

theorem withNamesChecked_eq (names : Array String) : withNamesChecked a names = .ok ⟨a, names⟩ := by
  have hcells : ∀ t ∈ a.transitions, (do
      let _ ← below a.states.size t.source
      placeOf a.columns t.symbol) = .ok (a.columns.idxOf t.symbol) := by
    intro t ht
    rw [below_eq (ha.transition_lt ht).1, ok_bind, placeOf_eq (ha.symbol_mem_columns ht)]
  rw [withNamesChecked, Definition.transitionsChecked_eq ha, ok_bind, mapM_eq_ok hcells]
  rfl

theorem ofLabelsChecked_eq : ofLabelsChecked a = .ok (ofLabels a) := withNamesChecked_eq ha _

theorem ofAliasesChecked_eq : ofAliasesChecked a = .ok (ofAliases a) := by
  rw [ofAliasesChecked, Definition.aliasesChecked_eq ha, ok_bind]
  exact withNamesChecked_eq ha _

end WellFormed

theorem columnWidthChecked_eq {header : List String} {rows : List (List String)} {i : Nat}
    (hi : i < header.length) (hrows : ∀ cells ∈ rows, i < cells.length) :
    columnWidthChecked header rows i =
      .ok (Text.widest (header.getD i "" :: rows.map fun cells => cells.getD i "")) := by
  rw [columnWidthChecked, entryAt_toArray hi "", ok_bind,
    mapM_eq_ok (fun cells hcells => entryAt_toArray (hrows cells hcells) "")]
  rfl

structure NamesStates (t : Table) : Prop where
  wellFormed : t.definition.WellFormed
  size_eq : t.names.size = t.definition.states.size

theorem namesStates_ofLabels {a : Definition} (ha : a.WellFormed) : (ofLabels a).NamesStates where
  wellFormed := ha
  size_eq := by
    show a.labels.toArray.size = a.states.size
    rw [List.size_toArray, Definition.labels, List.length_map, Array.length_toList]

theorem namesStates_ofAliases {a : Definition} (ha : a.WellFormed) : (ofAliases a).NamesStates where
  wellFormed := ha
  size_eq := by
    show a.aliases.toArray.size = a.states.size
    rw [List.size_toArray, Definition.aliases, List.length_map, List.length_range]

section NamesStates

variable {t : Table} (ht : t.NamesStates) {q : Nat}

include ht

theorem nameChecked_eq (hq : q < t.definition.states.size) : t.nameChecked q = .ok (t.name q) :=
  entryAt_getD (ht.size_eq ▸ hq) ""

theorem setTextChecked_eq {s : SortedSet Nat} (hs : ∀ q ∈ s, q < t.definition.states.size) :
    t.setTextChecked s = .ok (t.setText s) := by
  rw [setTextChecked, mapM_eq_ok (fun q hq => nameChecked_eq ht (hs q hq))]
  rfl

theorem cellTextChecked_eq {targets : SortedSet Nat}
    (htargets : ∀ q ∈ targets, q < t.definition.states.size) :
    t.cellTextChecked targets = .ok (t.cellText targets) := by
  have hset := setTextChecked_eq ht htargets
  unfold cellTextChecked cellText
  cases hlist : targets.toList with
  | nil => rfl
  | cons q rest =>
      have hq : q ∈ targets := SortedSet.mem_toList.mp (hlist ▸ List.mem_cons_self)
      cases t.definition.kind with
      | nfa => exact hset
      | dfa => exact nameChecked_eq ht (htargets q hq)

theorem rowNameChecked_eq (hq : q < t.definition.states.size) :
    t.rowNameChecked q = .ok (t.rowName q) := by
  rw [rowNameChecked, nameChecked_eq ht hq]
  rfl

theorem rowCellsChecked_eq (hq : q < t.definition.states.size) :
    t.rowCellsChecked q = .ok (t.rowCells q) := by
  apply mapM_eq_ok
  intro s _
  rw [Definition.cellChecked_eq ht.wellFormed hq, ok_bind]
  exact cellTextChecked_eq ht ht.wellFormed.lt_of_mem_cell

theorem gridLinesChecked_eq : t.gridLinesChecked = .ok t.gridLines := by
  have hnames := mapM_eq_ok fun q (hq : q ∈ List.range t.definition.states.size) =>
    rowNameChecked_eq ht (List.mem_range.mp hq)
  have hrows := mapM_eq_ok fun q (hq : q ∈ List.range t.definition.states.size) =>
    rowCellsChecked_eq ht (List.mem_range.mp hq)
  let header := t.definition.columns.map Symbol.text
  have hlength : ∀ cells ∈ (List.range t.definition.states.size).map t.rowCells,
      cells.length = header.length := by
    intro cells hcells
    rcases List.mem_map.mp hcells with ⟨q, _, rfl⟩
    simp [rowCells, header]
  have hwidths := mapM_eq_ok fun i (hi : i ∈ List.range header.length) =>
    columnWidthChecked_eq (List.mem_range.mp hi)
      (fun cells hcells => hlength cells hcells ▸ List.mem_range.mp hi)
  unfold gridLinesChecked
  dsimp only
  rw [hnames, ok_bind, hrows, ok_bind, hwidths, ok_bind,
    map_range_getD (fun i title => Text.widest (title :: _))]
  rfl

theorem textChecked_eq : t.textChecked = .ok t.text := by
  have hstates := setTextChecked_eq ht
    (fun q (hq : q ∈ SortedSet.range t.definition.states.size) => SortedSet.mem_range.mp hq)
  unfold textChecked
  dsimp only
  rw [hstates, ok_bind, nameChecked_eq ht ht.wellFormed.start_lt, ok_bind,
    setTextChecked_eq ht ht.wellFormed.accepting_lt, ok_bind, gridLinesChecked_eq ht]
  rfl

end NamesStates

end Table

end Recognizer
