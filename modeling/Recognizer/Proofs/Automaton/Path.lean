import Recognizer.Automaton.Nfa
import Recognizer.Proofs.Search
import Recognizer.Proofs.Automaton.Basic
import Mathlib.Computability.Language
import Mathlib.Data.List.Nodup
import Mathlib.Data.List.Induction

/-!
# Paths and runs

The sets of a run are made for running.  What an automaton accepts is easier to
say with paths: a path follows one edge after the other, and reads the characters
of those that are not ε edges.  The main result of this module is that both views
agree, although the sets of a run leave out the states that only pass on.
-/

namespace Recognizer

/-!
# Paths

Paths are followed towards a fixed target, from any graph whose edges read a
character or nothing.
-/

inductive PathTo (E : Nat → Symbol → Nat → Prop) (target : Nat) : Nat → List Char → Prop where
  | here : PathTo E target target []
  | epsilon {p q : Nat} {w : List Char} :
      E p .epsilon q → PathTo E target q w → PathTo E target p w
  | char {p q : Nat} {c : Char} {w : List Char} :
      E p (.char c) q → PathTo E target q w → PathTo E target p (c :: w)

section PathTo

variable {E F : Nat → Symbol → Nat → Prop} {p q r t : Nat} {c : Char} {u v w : List Char}

theorem pathTo_append (hu : PathTo E q p u) (hv : PathTo E t q v) : PathTo E t p (u ++ v) := by
  induction hu with
  | here => exact hv
  | epsilon hedge _ ih => exact PathTo.epsilon hedge ih
  | char hedge _ ih => exact PathTo.char hedge ih

theorem pathTo_map {g : Nat → Nat} (hedges : ∀ p s q, E p s q → F (g p) s (g q))
    (h : PathTo E t p w) : PathTo F (g t) (g p) w := by
  induction h with
  | here => exact PathTo.here
  | epsilon hedge _ ih => exact PathTo.epsilon (hedges _ _ _ hedge) ih
  | char hedge _ ih => exact PathTo.char (hedges _ _ _ hedge) ih

theorem pathTo_mono (hedges : ∀ p s q, E p s q → F p s q) (h : PathTo E t p w) : PathTo F t p w :=
  pathTo_map (g := id) hedges h

theorem pathTo_of_epsilon (h : E p .epsilon q) : PathTo E q p [] := PathTo.epsilon h PathTo.here

theorem pathTo_of_char (h : E p (.char c) q) : PathTo E q p [c] := PathTo.char h PathTo.here

theorem pathTo_iff :
    PathTo E t p w ↔
      (p = t ∧ w = []) ∨ (∃ q, E p .epsilon q ∧ PathTo E t q w) ∨
        ∃ c v q, w = c :: v ∧ E p (.char c) q ∧ PathTo E t q v := by
  constructor
  · intro h
    cases h with
    | here => exact Or.inl ⟨rfl, rfl⟩
    | epsilon hedge hrest => exact Or.inr (Or.inl ⟨_, hedge, hrest⟩)
    | char hedge hrest => exact Or.inr (Or.inr ⟨_, _, _, rfl, hedge, hrest⟩)
  · intro h
    rcases h with ⟨rfl, rfl⟩ | ⟨q, hedge, hrest⟩ | ⟨c, v, q, rfl, hedge, hrest⟩
    · exact PathTo.here
    · exact PathTo.epsilon hedge hrest
    · exact PathTo.char hedge hrest

theorem pathTo_of_no_edge (hedges : ∀ s q, ¬ E p s q) (h : PathTo E t p w) : p = t ∧ w = [] := by
  rcases pathTo_iff.mp h with h | ⟨q, hedge, _⟩ | ⟨c, v, q, _, hedge, _⟩
  · exact h
  · exact absurd hedge (hedges _ _)
  · exact absurd hedge (hedges _ _)

theorem pathTo_restrict {A : Nat → Prop} (hedges : ∀ p s q, A p → F p s q → E p s q ∧ A q)
    (hp : A p) (h : PathTo F t p w) : PathTo E t p w := by
  induction h with
  | here => exact PathTo.here
  | epsilon hedge _ ih =>
      have hedge := hedges _ _ _ hp hedge
      exact PathTo.epsilon hedge.1 (ih hedge.2)
  | char hedge _ ih =>
      have hedge := hedges _ _ _ hp hedge
      exact PathTo.char hedge.1 (ih hedge.2)

theorem pathTo_snoc_iff :
    PathTo E t p (w ++ [c]) ↔
      ∃ q r, PathTo E q p w ∧ E q (.char c) r ∧ PathTo E t r [] := by
  constructor
  · intro h
    generalize hword : w ++ [c] = x at h
    induction h generalizing w with
    | here => cases w <;> cases hword
    | epsilon hedge _ ih =>
        rcases ih hword with ⟨q, r, hq, hqr, hr⟩
        exact ⟨q, r, PathTo.epsilon hedge hq, hqr, hr⟩
    | char hedge hrest ih =>
        cases w with
        | nil =>
            injection hword with hc hnil
            subst hc hnil
            exact ⟨_, _, PathTo.here, hedge, hrest⟩
        | cons d w =>
            injection hword with hd hw
            subst hd
            rcases ih hw with ⟨q, r, hq, hqr, hr⟩
            exact ⟨q, r, PathTo.char hedge hq, hqr, hr⟩
  · intro h
    rcases h with ⟨q, r, hq, hqr, hr⟩
    exact pathTo_append hq (PathTo.char hqr hr)

theorem pathTo_append_epsilon (h : PathTo E q p w) (hedge : E q .epsilon r) : PathTo E r p w := by
  have hpath := pathTo_append h (pathTo_of_epsilon hedge)
  rwa [List.append_nil] at hpath

end PathTo

namespace Nfa

variable {n : Nfa}

/-!
# Automata whose edges lead to states
-/

def HasEdge (n : Nfa) (p : Nat) (s : Symbol) (q : Nat) : Prop := ⟨s, q⟩ ∈ n.edgesFrom p

instance (n : Nfa) (p : Nat) (s : Symbol) (q : Nat) : Decidable (n.HasEdge p s q) :=
  inferInstanceAs (Decidable (⟨s, q⟩ ∈ n.edgesFrom p))

theorem mem_targets {p q : Nat} {s : Symbol} : q ∈ n.targets p s ↔ n.HasEdge p s q := by
  rw [targets, SortedSet.mem_image]
  constructor
  · intro h
    rcases h with ⟨e, he, rfl⟩
    have he := SortedSet.mem_filter.mp he
    have hs : e.symbol = s := of_decide_eq_true he.2
    exact hs ▸ he.1
  · intro h
    exact ⟨⟨s, q⟩, SortedSet.mem_filter.mpr ⟨h, decide_eq_true rfl⟩, rfl⟩

theorem hasEdge_iff {p q : Nat} {s : Symbol} :
    n.HasEdge p s q ↔ ∃ edges, n.edges[p]? = some edges ∧ ⟨s, q⟩ ∈ edges := by
  unfold HasEdge edgesFrom
  rw [Array.getD_eq_getD_getElem?]
  cases n.edges[p]? with
  | none => simp
  | some edges => simp

structure WellFormed (n : Nfa) : Prop where
  inPlace : State.InPlace n.states
  edges_size : n.edges.size = n.states.size
  start_lt : n.start < n.states.size
  accepting_lt : ∀ q ∈ n.accepting, q < n.states.size
  target_lt : ∀ (p : Nat) (s : Symbol) (q : Nat), n.HasEdge p s q → q < n.states.size
  symbol_mem : ∀ (p : Nat) (c : Char) (q : Nat), n.HasEdge p (.char c) q → c ∈ n.alphabet

theorem WellFormed.pathTo_lt (hn : n.WellFormed) {p t : Nat} {w : List Char}
    (hp : p < n.states.size) (h : PathTo n.HasEdge t p w) : t < n.states.size := by
  induction h with
  | here => exact hp
  | epsilon hedge _ ih => exact ih (hn.target_lt _ _ _ hedge)
  | char hedge _ ih => exact ih (hn.target_lt _ _ _ hedge)

theorem WellFormed.pathTo_alphabet (hn : n.WellFormed) {p t : Nat} {w : List Char}
    (h : PathTo n.HasEdge t p w) : ∀ c ∈ w, c ∈ n.alphabet := by
  induction h with
  | here =>
      intro c hc
      cases hc
  | epsilon _ _ ih => exact ih
  | char hedge _ ih =>
      intro c hc
      cases List.mem_cons.mp hc with
      | inl hc => exact hc ▸ hn.symbol_mem _ _ _ hedge
      | inr hc => exact ih c hc

/-!
# States that only pass on
-/

theorem isIntermediate_iff {q : Nat} :
    n.isIntermediate q = true ↔
      (∃ r, n.HasEdge q .epsilon r) ∧ (∀ c r, ¬ n.HasEdge q (.char c) r) ∧ q ∉ n.accepting := by
  have hall : (n.edgesFrom q).toList.all (fun e => e.symbol = .epsilon) = true ↔
      ∀ c r, ¬ n.HasEdge q (.char c) r := by
    rw [List.all_eq_true]
    constructor
    · intro h c r hedge
      have := of_decide_eq_true (h _ hedge)
      cases this
    · intro h e he
      apply decide_eq_true
      cases hs : e.symbol with
      | epsilon => rfl
      | char c => exact absurd (show n.HasEdge q (.char c) e.target from hs ▸ he) (h c e.target)
  have hsome : (∀ c r, ¬ n.HasEdge q (.char c) r) →
      ((!(n.edgesFrom q).toList.isEmpty) = true ↔ ∃ r, n.HasEdge q .epsilon r) := by
    intro hnone
    rw [Bool.not_eq_true', List.isEmpty_eq_false_iff_exists_mem]
    constructor
    · intro h
      rcases h with ⟨e, he⟩
      cases hs : e.symbol with
      | epsilon => exact ⟨e.target, show n.HasEdge q .epsilon e.target from hs ▸ he⟩
      | char c => exact absurd (show n.HasEdge q (.char c) e.target from hs ▸ he) (hnone c e.target)
    · intro h
      rcases h with ⟨r, hr⟩
      exact ⟨_, hr⟩
  simp only [isIntermediate, Bool.and_eq_true, decide_eq_true_eq, hall]
  constructor
  · intro h
    exact ⟨(hsome h.1.2).mp h.1.1, h.1.2, h.2⟩
  · intro h
    exact ⟨⟨(hsome h.2.1).mpr h.1, h.2.1⟩, h.2.2⟩

/-!
# Closures
-/

theorem reached_iff_pathTo {seeds : SortedSet Nat} {r : Nat} :
    Search.Reached (fun q => (n.targets q .epsilon).toList) seeds.toList r ↔
      ∃ q ∈ seeds, PathTo n.HasEdge r q [] := by
  constructor
  · intro h
    induction h with
    | seed hseed => exact ⟨_, hseed, PathTo.here⟩
    | next _ hedge ih =>
        rcases ih with ⟨q, hq, hpath⟩
        exact ⟨q, hq, pathTo_append_epsilon hpath (mem_targets.mp hedge)⟩
  · intro h
    rcases h with ⟨q, hq, hpath⟩
    have hreached : Search.Reached (fun q => (n.targets q .epsilon).toList) seeds.toList q :=
      Search.Reached.seed hq
    generalize hword : ([] : List Char) = w at hpath
    clear hq
    induction hpath with
    | here => exact hreached
    | epsilon hedge _ ih => exact ih (Search.Reached.next hreached (mem_targets.mpr hedge)) hword
    | char _ _ _ => cases hword

theorem covers_epsilonReach (hn : n.WellFormed) {s : SortedSet Nat}
    (hs : ∀ q ∈ s, q < n.states.size) :
    Search.Covers (fun q => (n.targets q .epsilon).toList) s.toList n.states.size := by
  apply Search.covers_of_lt
  intro r hr
  rcases reached_iff_pathTo.mp hr with ⟨q, hq, hpath⟩
  exact hn.pathTo_lt (hs q hq) hpath

theorem mem_epsilonReach (hn : n.WellFormed) {s : SortedSet Nat}
    (hs : ∀ q ∈ s, q < n.states.size) {r : Nat} :
    r ∈ n.epsilonReach s ↔ ∃ q ∈ s, PathTo n.HasEdge r q [] :=
  (mem_breadthFirst (covers_epsilonReach hn hs)).trans reached_iff_pathTo

theorem mem_closure (hn : n.WellFormed) {s : SortedSet Nat}
    (hs : ∀ q ∈ s, q < n.states.size) {r : Nat} :
    r ∈ n.closure s ↔ (∃ q ∈ s, PathTo n.HasEdge r q []) ∧ n.isIntermediate r = false := by
  rw [closure, SortedSet.mem_ofList, List.mem_filter, mem_epsilonReach hn hs, Bool.not_eq_true']

/-!
# Runs
-/

theorem mem_successors {s : SortedSet Nat} {c : Char} {r : Nat} :
    r ∈ n.successors s c ↔ ∃ q ∈ s, n.HasEdge q (.char c) r := by
  rw [successors, SortedSet.mem_bind]
  exact exists_congr fun q => and_congr_right fun _ => mem_targets

theorem lt_of_mem_successors (hn : n.WellFormed) {s : SortedSet Nat} {c : Char} :
    ∀ q ∈ n.successors s c, q < n.states.size := by
  intro q hq
  rcases mem_successors.mp hq with ⟨p, _, hedge⟩
  exact hn.target_lt p (.char c) q hedge

theorem mem_step (hn : n.WellFormed) {s : SortedSet Nat} {c : Char} {r : Nat} :
    r ∈ n.step s c ↔
      (∃ q ∈ s, ∃ p, n.HasEdge q (.char c) p ∧ PathTo n.HasEdge r p []) ∧
        n.isIntermediate r = false := by
  rw [step, mem_closure hn (lt_of_mem_successors hn)]
  apply and_congr_left
  intro _
  constructor
  · intro h
    rcases h with ⟨p, hp, hpath⟩
    rcases mem_successors.mp hp with ⟨q, hq, hedge⟩
    exact ⟨q, hq, p, hedge, hpath⟩
  · intro h
    rcases h with ⟨q, hq, p, hedge, hpath⟩
    exact ⟨p, mem_successors.mpr ⟨q, hq, hedge⟩, hpath⟩

/-- A step can be taken for one state after the other. -/
theorem step_eq_bind (hn : n.WellFormed) (s : SortedSet Nat) (c : Char) :
    n.step s c = s.bind fun q => n.closure (n.targets q (.char c)) := by
  apply SortedSet.ext
  intro r
  have htargets : ∀ q, ∀ p ∈ n.targets q (.char c), p < n.states.size :=
    fun q p hp => hn.target_lt q (.char c) p (mem_targets.mp hp)
  have hclosure : ∀ q, r ∈ n.closure (n.targets q (.char c)) ↔
      (∃ p, n.HasEdge q (.char c) p ∧ PathTo n.HasEdge r p []) ∧ n.isIntermediate r = false := by
    intro q
    rw [mem_closure hn (htargets q)]
    exact and_congr_left' (exists_congr fun p => and_congr_left' mem_targets)
  rw [mem_step hn, SortedSet.mem_bind]
  constructor
  · intro h
    rcases h with ⟨⟨q, hq, hpath⟩, hshown⟩
    exact ⟨q, hq, (hclosure q).mpr ⟨hpath, hshown⟩⟩
  · intro h
    rcases h with ⟨q, hq, hr⟩
    have hr := (hclosure q).mp hr
    exact ⟨⟨q, hq, hr.1⟩, hr.2⟩

theorem lt_of_mem_start (hn : n.WellFormed) :
    ∀ q ∈ SortedSet.singleton n.start, q < n.states.size := by
  intro q hq
  exact SortedSet.mem_singleton.mp hq ▸ hn.start_lt

theorem mem_startSet (hn : n.WellFormed) {r : Nat} :
    r ∈ n.startSet ↔ PathTo n.HasEdge r n.start [] ∧ n.isIntermediate r = false := by
  rw [startSet, mem_closure hn (lt_of_mem_start hn)]
  simp

theorem run_append_singleton (n : Nfa) (w : List Char) (c : Char) :
    n.run (w ++ [c]) = n.step (n.run w) c := by
  rw [run, List.foldl_append]
  exact rfl

/-- The states after a word are those at the end of its paths, without those that
only pass on: a state that reads the next character is never left out. -/
theorem mem_run (hn : n.WellFormed) {w : List Char} {r : Nat} :
    r ∈ n.run w ↔ PathTo n.HasEdge r n.start w ∧ n.isIntermediate r = false := by
  induction w using List.reverseRecOn generalizing r with
  | nil => exact mem_startSet hn
  | append_singleton w c ih =>
      rw [run_append_singleton, mem_step hn, pathTo_snoc_iff]
      apply and_congr_left
      intro _
      constructor
      · intro h
        rcases h with ⟨q, hq, p, hedge, hpath⟩
        exact ⟨q, p, (ih.mp hq).1, hedge, hpath⟩
      · intro h
        rcases h with ⟨q, p, hq, hedge, hpath⟩
        have hreads : n.isIntermediate q = false := by
          apply Bool.eq_false_iff.mpr
          intro hq
          exact (isIntermediate_iff.mp hq).2.1 c p hedge
        exact ⟨q, ih.mpr ⟨hq, hreads⟩, p, hedge, hpath⟩

theorem anyAccepting_iff {s : SortedSet Nat} :
    n.anyAccepting s = true ↔ ∃ q ∈ s, q ∈ n.accepting := by
  simp [anyAccepting, List.any_eq_true, SortedSet.mem_toList]

def AcceptsFrom (n : Nfa) (q : Nat) (w : List Char) : Prop :=
  ∃ r ∈ n.accepting, PathTo n.HasEdge r q w

theorem anyAccepting_run (hn : n.WellFormed) {w : List Char} :
    n.anyAccepting (n.run w) = true ↔ n.AcceptsFrom n.start w := by
  rw [anyAccepting_iff]
  constructor
  · intro h
    rcases h with ⟨r, hr, haccepting⟩
    exact ⟨r, haccepting, ((mem_run hn).mp hr).1⟩
  · intro h
    rcases h with ⟨r, haccepting, hpath⟩
    have hstays : n.isIntermediate r = false := by
      apply Bool.eq_false_iff.mpr
      intro hr
      exact (isIntermediate_iff.mp hr).2.2 haccepting
    exact ⟨r, (mem_run hn).mpr ⟨hpath, hstays⟩, haccepting⟩

theorem accepts_iff_acceptsFrom (hn : n.WellFormed) {w : List Char} :
    n.accepts w = true ↔ n.AcceptsFrom n.start w :=
  anyAccepting_run hn

section WithoutEpsilon

variable (hepsilon : ∀ p q, ¬ n.HasEdge p .epsilon q)

include hepsilon

theorem acceptsFrom_nil {q : Nat} : n.AcceptsFrom q [] ↔ q ∈ n.accepting := by
  constructor
  · intro h
    rcases h with ⟨r, hr, hpath⟩
    rcases pathTo_iff.mp hpath with ⟨rfl, _⟩ | ⟨p, hedge, _⟩ | ⟨c, v, p, hword, _⟩
    · exact hr
    · exact absurd hedge (hepsilon q p)
    · cases hword
  · intro h
    exact ⟨q, h, PathTo.here⟩

theorem acceptsFrom_cons {q : Nat} {c : Char} {w : List Char} :
    n.AcceptsFrom q (c :: w) ↔ ∃ p, n.HasEdge q (.char c) p ∧ n.AcceptsFrom p w := by
  constructor
  · intro h
    rcases h with ⟨r, hr, hpath⟩
    rcases pathTo_iff.mp hpath with ⟨_, hword⟩ | ⟨p, hedge, _⟩ | ⟨d, v, p, hword, hedge, hrest⟩
    · cases hword
    · exact absurd hedge (hepsilon q p)
    · injection hword with hc hw
      subst hc hw
      exact ⟨p, hedge, r, hr, hrest⟩
  · intro h
    rcases h with ⟨p, hedge, r, hr, hrest⟩
    exact ⟨r, hr, PathTo.char hedge hrest⟩

end WithoutEpsilon

/-!
# Recognition

An automaton for a language has no symbol that none of the words reads, and no state
from which nothing is accepted.
-/

structure Recognizes (n : Nfa) (L : Language Char) : Prop where
  wellFormed : n.WellFormed
  mem_alphabet : ∀ c, c ∈ n.alphabet ↔ ∃ w ∈ L, c ∈ w
  words : ∀ w, n.AcceptsFrom n.start w ↔ w ∈ L
  live : ∀ q, q < n.states.size → ∃ w, n.AcceptsFrom q w

theorem Recognizes.accepts_iff {L : Language Char} (h : n.Recognizes L) {w : List Char} :
    n.accepts w = true ↔ w ∈ L := by
  rw [accepts_iff_acceptsFrom h.wellFormed, h.words]

end Nfa

end Recognizer
