import Recognizer.Automaton.Partition
import Recognizer.Proofs.Automaton.Basic
import Mathlib.Data.List.Perm.Subperm

/-!
# Runs of deterministic automata

What a deterministic automaton accepts from each of its states.  States that accept
the same words are equivalent.  Where an edge is missing the trap stands in, which
accepts nothing.
-/

namespace Recognizer

namespace Dfa

variable {d : Dfa}

/-- The ids count from zero, and edges lead to states and read symbols of the alphabet.
There may be states without edges, and states that no word leads to. -/
structure WellFormed (d : Dfa) : Prop where
  inPlace : State.InPlace d.states
  edges_size : d.edges.size = d.states.size
  start_lt : d.start < d.states.size
  accepting_lt : ∀ q ∈ d.accepting, q < d.states.size
  edges_within : ∀ edges ∈ d.edges, ∀ e ∈ edges.toList, e.1 ∈ d.alphabet ∧ e.2 < d.states.size

theorem next_eq_some_iff {q r : Nat} {c : Char} :
    d.next q c = some r ↔ ∃ edges, d.edges[q]? = some edges ∧ (c, r) ∈ edges.toList := by
  rw [next, Option.bind_eq_some_iff]
  exact exists_congr fun edges => and_congr_right fun _ => SortedMap.get?_eq_some_iff

theorem next_eq_some_iff_of_tabulate {α : Type} {xs : List α} {f : α → Char → Option Nat}
    (hedges : d.edges = (xs.map (fun x => SortedMap.tabulate d.alphabet (f x))).toArray)
    {i j : Nat} {c : Char} :
    d.next i c = some j ↔ c ∈ d.alphabet ∧ ∃ x, xs[i]? = some x ∧ f x c = some j := by
  rw [next, hedges, List.getElem?_toArray, List.getElem?_map]
  cases xs[i]? with
  | none => simp
  | some x =>
      simp only [Option.map_some, Option.bind_some, SortedMap.get?_tabulate, Option.some.injEq,
        exists_eq_left']
      split
      · rename_i hc
        rw [and_iff_right hc]
      · rename_i hc
        simp [hc]

theorem edges_eq_of_next {m : Dfa} (hsize : d.edges.size = m.edges.size)
    (hnext : ∀ q c, q < d.edges.size → d.next q c = m.next q c) : d.edges = m.edges := by
  apply Array.ext hsize
  intro q hq hq'
  apply SortedMap.ext
  intro c
  have h := hnext q c hq
  rwa [next, next, Array.getElem?_eq_getElem hq, Array.getElem?_eq_getElem hq'] at h

theorem edges_within_of_next
    (h : ∀ i c j, d.next i c = some j → c ∈ d.alphabet ∧ j < d.states.size) :
    ∀ edges ∈ d.edges, ∀ e ∈ edges.toList, e.1 ∈ d.alphabet ∧ e.2 < d.states.size := by
  intro edges hedges e he
  rcases Array.mem_iff_getElem?.mp hedges with ⟨i, hi⟩
  exact h i e.1 e.2 (next_eq_some_iff.mpr ⟨edges, hi, he⟩)

section WellFormed

variable (hd : d.WellFormed) {q r : Nat} {c : Char}

include hd

theorem WellFormed.next_within (h : d.next q c = some r) :
    q < d.states.size ∧ c ∈ d.alphabet ∧ r < d.states.size := by
  rcases next_eq_some_iff.mp h with ⟨edges, hedges, hr⟩
  have hq := (Array.getElem?_eq_some_iff.mp hedges).1
  rw [hd.edges_size] at hq
  exact ⟨hq, hd.edges_within edges (Array.mem_of_getElem? hedges) (c, r) hr⟩

theorem WellFormed.exists_next (hcomplete : d.isComplete = true) (hq : q < d.states.size)
    (hc : c ∈ d.alphabet) : ∃ r, d.next q c = some r := by
  rw [← hd.edges_size] at hq
  let edges := d.edges[q]
  have hedges : edges ∈ d.edges := Array.getElem_mem hq
  have hsize : edges.size = d.alphabet.size := by
    rw [isComplete, Array.all_eq_true'] at hcomplete
    exact of_decide_eq_true (hcomplete edges hedges)
  have hnodup : (edges.toList.map Prod.fst).Nodup := by
    apply List.pairwise_map.mpr
    apply edges.increasing.imp
    intro a b hab heq
    rw [heq, Std.ReflOrd.compare_self] at hab
    cases hab
  have hsubset : edges.toList.map Prod.fst ⊆ d.alphabet.toList := by
    intro b hb
    rcases List.mem_map.mp hb with ⟨e, he, rfl⟩
    exact (hd.edges_within edges hedges e he).1
  have hperm := (List.subperm_of_subset hnodup hsubset).perm_of_length_le (by
    rw [List.length_map]
    exact Nat.le_of_eq hsize.symm)
  rcases List.mem_map.mp (hperm.mem_iff.mpr hc) with ⟨e, he, rfl⟩
  exact ⟨e.2, next_eq_some_iff.mpr ⟨edges, Array.getElem?_eq_getElem hq, he⟩⟩

theorem WellFormed.isComplete_iff :
    d.isComplete = true ↔ ∀ q, q < d.states.size → ∀ c ∈ d.alphabet, ∃ r, d.next q c = some r := by
  constructor
  · intro hcomplete q hq c hc
    exact hd.exists_next hcomplete hq hc
  · intro hnext
    rw [isComplete, Array.all_eq_true']
    intro edges hedges
    rcases Array.mem_iff_getElem?.mp hedges with ⟨q, hq⟩
    have hq_lt : q < d.states.size := hd.edges_size ▸ (Array.getElem?_eq_some_iff.mp hq).1
    have hkeys : edges.toList.map Prod.fst = d.alphabet.toList := by
      apply SortedSet.eq_of_increasing (List.pairwise_map.mpr edges.increasing)
        d.alphabet.increasing
      intro c
      constructor
      · intro hc
        rcases List.mem_map.mp hc with ⟨e, he, rfl⟩
        exact (hd.edges_within edges hedges e he).1
      · intro hc
        rcases hnext q hq_lt c hc with ⟨r, hr⟩
        rcases next_eq_some_iff.mp hr with ⟨found, hfound, hmem⟩
        rw [hq] at hfound
        injection hfound with hfound
        exact List.mem_map.mpr ⟨(c, r), hfound ▸ hmem, rfl⟩
    apply decide_eq_true
    show edges.toList.length = d.alphabet.toList.length
    rw [← hkeys, List.length_map]

end WellFormed

/-!
# Acceptance from a state
-/

def AcceptsFrom (d : Dfa) (q : Nat) (w : List Char) : Prop :=
  ∃ r ∈ d.accepting, d.runFrom q w = some r

theorem accepts_iff_acceptsFrom {w : List Char} :
    d.accepts w = true ↔ d.AcceptsFrom d.start w := by
  unfold accepts simulate AcceptsFrom run
  cases d.runFrom d.start w with
  | none => simp
  | some r => simp

theorem runFrom_append (d : Dfa) (q : Nat) (u v : List Char) :
    d.runFrom q (u ++ v) = (d.runFrom q u).bind (fun r => d.runFrom r v) :=
  List.foldlM_append

theorem runFrom_cons (d : Dfa) (q : Nat) (c : Char) (w : List Char) :
    d.runFrom q (c :: w) = (d.next q c).bind (fun r => d.runFrom r w) :=
  List.foldlM_cons

theorem acceptsFrom_nil {q : Nat} : d.AcceptsFrom q [] ↔ q ∈ d.accepting := by
  constructor
  · intro h
    rcases h with ⟨r, hr, hrun⟩
    injection hrun with hrun
    exact hrun ▸ hr
  · intro h
    exact ⟨q, h, rfl⟩

theorem acceptsFrom_append {q : Nat} {u v : List Char} :
    d.AcceptsFrom q (u ++ v) ↔ ∃ r, d.runFrom q u = some r ∧ d.AcceptsFrom r v := by
  unfold AcceptsFrom
  rw [runFrom_append]
  cases d.runFrom q u with
  | none => simp
  | some r => simp

theorem acceptsFrom_cons {q : Nat} {c : Char} {w : List Char} :
    d.AcceptsFrom q (c :: w) ↔ ∃ r, d.next q c = some r ∧ d.AcceptsFrom r w := by
  have hrun : d.runFrom q [c] = d.next q c := by
    simp [runFrom]
  rw [← hrun]
  exact acceptsFrom_append (u := [c])

def Equivalent (d : Dfa) (p q : Nat) : Prop := ∀ w, d.AcceptsFrom p w ↔ d.AcceptsFrom q w

theorem Equivalent.symm {p q : Nat} (h : d.Equivalent p q) : d.Equivalent q p :=
  fun w => (h w).symm

/-!
# The trap

It is one more state where edges are missing, and the number of no state where they
are not.
-/

theorem totalNext_of_next {q r : Nat} {c : Char} (h : d.next q c = some r) :
    d.totalNext q c = r := by
  rw [totalNext, h]
  exact rfl

theorem totalNext_of_none {q : Nat} {c : Char} (h : d.next q c = none) :
    d.totalNext q c = d.states.size := by
  rw [totalNext, h]
  exact rfl

theorem size_le_totalSize : d.states.size ≤ d.totalSize := by
  unfold totalSize
  split
  · exact Nat.le_refl _
  · exact Nat.le_succ _

section Trap

variable (hd : d.WellFormed)

include hd

theorem WellFormed.not_acceptsFrom_trap (w : List Char) : ¬ d.AcceptsFrom d.states.size w := by
  intro h
  cases w with
  | nil => exact Nat.lt_irrefl _ (hd.accepting_lt _ (acceptsFrom_nil.mp h))
  | cons c w =>
      rcases acceptsFrom_cons.mp h with ⟨r, hr, _⟩
      exact Nat.lt_irrefl _ (hd.next_within hr).1

theorem WellFormed.acceptsFrom_totalNext {q : Nat} {c : Char} {w : List Char} :
    d.AcceptsFrom q (c :: w) ↔ d.AcceptsFrom (d.totalNext q c) w := by
  rw [acceptsFrom_cons]
  cases hnext : d.next q c with
  | none =>
      rw [totalNext_of_none hnext]
      constructor
      · intro h
        rcases h with ⟨r, hr, _⟩
        cases hr
      · intro h
        exact absurd h (hd.not_acceptsFrom_trap w)
  | some r =>
      rw [totalNext_of_next hnext]
      constructor
      · intro h
        rcases h with ⟨s, hs, hw⟩
        injection hs with hs
        exact hs ▸ hw
      · intro h
        exact ⟨r, rfl, h⟩

theorem WellFormed.equivalent_totalNext {p q : Nat} (h : d.Equivalent p q) (c : Char) :
    d.Equivalent (d.totalNext p c) (d.totalNext q c) := by
  intro w
  rw [← hd.acceptsFrom_totalNext, ← hd.acceptsFrom_totalNext]
  exact h (c :: w)

theorem WellFormed.totalNext_lt {q : Nat} {c : Char} (hq : q < d.totalSize)
    (hc : c ∈ d.alphabet) : d.totalNext q c < d.totalSize := by
  cases hnext : d.next q c with
  | some r =>
      rw [totalNext_of_next hnext]
      exact Nat.lt_of_lt_of_le (hd.next_within hnext).2.2 size_le_totalSize
  | none =>
      rw [totalNext_of_none hnext]
      unfold totalSize at hq ⊢
      split
      · rename_i hcomplete
        rw [if_pos hcomplete] at hq
        rcases hd.exists_next hcomplete hq hc with ⟨r, hr⟩
        rw [hnext] at hr
        cases hr
      · exact Nat.lt_succ_self _

end Trap

end Dfa

end Recognizer
