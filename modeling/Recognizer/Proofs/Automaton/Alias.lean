import Recognizer.Proofs.Automaton.Liveness
import Recognizer.Proofs.Checked.Pipeline
import Recognizer.Proofs.Discovery
import Mathlib.Order.Bounds.Defs

/-!
# Short names

The short names of an automaton of an expression number its states from zero.  The number of
a state is settled by its entry: the edge on which it is met first, which leaves the state
with the least number that has an edge to it, and is the first of the edges between the two.
Numbers go up with the distance from the start.
-/

namespace Recognizer

/-!
# The order of edges
-/

def Symbol.Before : Symbol → Symbol → Prop
  | .epsilon, .char _ => True
  | .char b, .char c => b < c
  | _, .epsilon => False

theorem Symbol.compare_eq_lt_iff {s r : Symbol} : compare s r = .lt ↔ s.Before r := by
  cases s with
  | epsilon =>
      cases r with
      | epsilon => exact iff_of_false nofun id
      | char c => exact iff_of_true rfl trivial
  | char b =>
      cases r with
      | epsilon => exact iff_of_false nofun id
      | char c =>
          show compare b c = .lt ↔ b < c
          exact compareOfLessAndEq_eq_lt

namespace Edge

variable {e f g : Edge}

def Before (e f : Edge) : Prop :=
  e.symbol.Before f.symbol ∨ e.symbol = f.symbol ∧ e.target < f.target

theorem compare_eq_lt_iff : compare e f = .lt ↔ e.Before f := by
  show (compare e.symbol f.symbol).then (compare e.target f.target) = .lt ↔ _
  rw [Ordering.then_eq_lt, Symbol.compare_eq_lt_iff, Std.compare_eq_iff_eq, Std.compare_eq_lt]
  rfl

theorem Before.trans (hef : e.Before f) (hfg : f.Before g) : e.Before g :=
  compare_eq_lt_iff.mp
    (Std.TransCmp.lt_trans (compare_eq_lt_iff.mpr hef) (compare_eq_lt_iff.mpr hfg))

theorem not_before_self : ¬ e.Before e := by
  intro h
  have hlt := compare_eq_lt_iff.mpr h
  rw [Std.compare_self] at hlt
  cases hlt

theorem exists_first {edges : List Edge} (h : SortedSet.Increasing edges) {t : Nat}
    (hedge : ∃ s, ⟨s, t⟩ ∈ edges) :
    ∃ s, ⟨s, t⟩ ∈ edges ∧ ∀ r, ⟨r, t⟩ ∈ edges → s = r ∨ s.Before r := by
  induction edges with
  | nil =>
      rcases hedge with ⟨s, hs⟩
      cases hs
  | cons e edges ih =>
      have hincreasing := List.pairwise_cons.mp h
      by_cases ht : e.target = t
      · subst ht
        refine ⟨e.symbol, List.mem_cons_self, ?_⟩
        intro r hr
        rcases List.mem_cons.mp hr with heq | hr
        · exact Or.inl (congrArg symbol heq).symm
        · rcases compare_eq_lt_iff.mp (hincreasing.1 _ hr) with hbefore | ⟨_, hlt⟩
          · exact Or.inr hbefore
          · exact absurd hlt (Nat.lt_irrefl _)
      · have hrest : ∀ {r : Symbol}, (⟨r, t⟩ : Edge) ∈ e :: edges → (⟨r, t⟩ : Edge) ∈ edges :=
          fun hr => List.mem_of_ne_of_mem (fun heq => ht (congrArg target heq).symm) hr
        rcases hedge with ⟨s, hs⟩
        rcases ih hincreasing.2 ⟨s, hrest hs⟩ with ⟨s, hs, hfirst⟩
        exact ⟨s, List.mem_cons_of_mem e hs, fun r hr => hfirst r (hrest hr)⟩

end Edge

namespace Definition

/-!
# Numberings
-/

def targetsFrom (a : Definition) (q : Nat) : List Nat := (a.edgesFrom q).map Edge.target

/-- The least number of edges, with those that read nothing, on a walk from the start. -/
def IsDistance (a : Definition) (q k : Nat) : Prop :=
  IsLeast {k | Search.Walk a.targetsFrom a.start k q} k

/-- Of the states with an edge to a state, the one with the least number, and the symbol of
the first edge from there. -/
structure Entry (a : Definition) (number : Nat → Nat) (t p : Nat) (s : Symbol) : Prop where
  edge : a.HasEdge p s t
  least : ∀ q r, a.HasEdge q r t → number p ≤ number q
  first : ∀ r, a.HasEdge p r t → s = r ∨ s.Before r

/-- The states are numbered from zero, each one according to its entry. -/
structure NumberedByEntry (a : Definition) (number : Nat → Nat) : Prop where
  perm : ((List.range a.states.size).map number).Perm (List.range a.states.size)
  start_eq : number a.start = 0
  exists_entry : ∀ t, t < a.states.size → t ≠ a.start →
    ∃ p s, a.Entry number t p s ∧ number p < number t
  lt_iff : ∀ t u p q s r, t ≠ a.start → u ≠ a.start →
    a.Entry number t p s → a.Entry number u q r →
      (number t < number u ↔ number p < number q ∨ p = q ∧ Edge.Before ⟨s, t⟩ ⟨r, u⟩)
  exists_distance : ∀ t, t < a.states.size → ∃ k, a.IsDistance t k
  lt_of_nearer : ∀ t u j k, a.IsDistance t j → a.IsDistance u k → j < k → number t < number u

section Numbering

variable {a : Definition} {t u p q : Nat} {s r : Symbol}

theorem mem_targetsFrom : t ∈ a.targetsFrom p ↔ ∃ s, a.HasEdge p s t := by
  unfold targetsFrom HasEdge
  rw [List.mem_map]
  constructor
  · intro h
    rcases h with ⟨e, he, rfl⟩
    exact ⟨e.symbol, he⟩
  · intro h
    rcases h with ⟨s, hs⟩
    exact ⟨_, hs, rfl⟩

theorem reached_of_path {w : List Char} (h : PathTo a.HasEdge t q w)
    (hq : Search.Reached a.targetsFrom [a.start] q) :
    Search.Reached a.targetsFrom [a.start] t := by
  induction h with
  | here => exact hq
  | epsilon hedge _ ih => exact ih (Search.Reached.next hq (mem_targetsFrom.mpr ⟨_, hedge⟩))
  | char hedge _ ih => exact ih (Search.Reached.next hq (mem_targetsFrom.mpr ⟨_, hedge⟩))

theorem exists_distance_of_reached (h : Search.Reached a.targetsFrom [a.start] q) :
    ∃ k, a.IsDistance q k := by
  have hwalk : ∃ k, Search.Walk a.targetsFrom a.start k q := by
    induction h with
    | seed hseed => exact ⟨0, List.mem_singleton.mp hseed ▸ Search.Walk.here⟩
    | next _ hnext ih =>
        rcases ih with ⟨k, hk⟩
        exact ⟨k + 1, Search.Walk.step hk hnext⟩
  rcases wellFounded_lt.has_min {k | Search.Walk a.targetsFrom a.start k q} hwalk with
    ⟨k, hk, hmin⟩
  exact ⟨k, hk, fun l hl => Nat.le_of_not_lt (hmin l hl)⟩

variable (ha : a.WellFormed)
  (hreached : ∀ q, q < a.states.size → Search.Reached a.targetsFrom [a.start] q)

include ha

theorem Entry.firstParent (h : a.Entry a.discoveryOrder.idxOf t p s) :
    Search.FirstParent a.targetsFrom a.discoveryOrder t p where
  mem := (mem_discoveryOrder ha).mpr (ha.source_lt h.edge)
  next := mem_targetsFrom.mpr ⟨s, h.edge⟩
  le := by
    intro q _ hq
    rcases mem_targetsFrom.mp hq with ⟨r, hr⟩
    exact h.least q r hr

include hreached

theorem WellFormed.discovers : Search.Discovers a.targetsFrom a.start a.discoveryOrder := by
  have hbound : Search.Covers a.targetsFrom [a.start] a.states.size :=
    Search.covers_of_lt fun _ => lt_of_discovered ha
  have hrest : (List.range a.states.size).filter
      (fun q => q ∉ breadthFirst a.targetsFrom a.states.size [a.start]) = [] := by
    rw [List.filter_eq_nil_iff]
    intro q hq
    have hmet := (mem_breadthFirst hbound).mpr (hreached q (List.mem_range.mp hq))
    simpa using hmet
  have horder : a.discoveryOrder = breadthFirst a.targetsFrom a.states.size [a.start] := by
    show _ ++ (List.range a.states.size).filter
      (fun q => q ∉ breadthFirst a.targetsFrom a.states.size [a.start]) = _
    rw [hrest, List.append_nil]
    rfl
  rw [horder]
  exact Search.discovers_breadthFirst hbound

theorem WellFormed.perm_idxOf :
    ((List.range a.states.size).map a.discoveryOrder.idxOf).Perm (List.range a.states.size) := by
  have hnodup := (ha.discovers hreached).nodup
  have hperm : a.discoveryOrder.Perm (List.range a.states.size) := by
    rw [List.perm_ext_iff_of_nodup hnodup List.nodup_range]
    intro q
    rw [mem_discoveryOrder ha, List.mem_range]
  have hplaces : a.discoveryOrder.map a.discoveryOrder.idxOf = List.range a.states.size := by
    apply List.ext_getElem
    · rw [List.length_map, hperm.length_eq]
    · intro i hi _
      rw [List.getElem_map, List.getElem_range]
      exact hnodup.idxOf_getElem i _
  exact (hperm.symm.map _).trans (List.Perm.of_eq hplaces)

theorem WellFormed.idxOf_lt_of_nearer {j k : Nat} (ht : a.IsDistance t j)
    (hu : a.IsDistance u k) (hjk : j < k) :
    a.discoveryOrder.idxOf t < a.discoveryOrder.idxOf u := by
  have hdiscovers := ha.discovers hreached
  apply hdiscovers.idxOf_lt_of_walk ht.1 (hdiscovers.mem_of_walk hu.1)
  intro l hl hwalk
  exact Nat.not_le_of_lt (Nat.lt_of_le_of_lt hl hjk) (hu.2 hwalk)

variable (hedges : ∀ q, SortedSet.Increasing (a.edgesFrom q))

include hedges

theorem WellFormed.exists_entry (ht : t < a.states.size) (hstart : t ≠ a.start) :
    ∃ p s, a.Entry a.discoveryOrder.idxOf t p s ∧
      a.discoveryOrder.idxOf p < a.discoveryOrder.idxOf t := by
  have hmem : t ∈ a.discoveryOrder := (mem_discoveryOrder ha).mpr ht
  rcases (ha.discovers hreached).exists_firstParent hmem hstart with ⟨p, hp, hlt⟩
  rcases Edge.exists_first (hedges p) (mem_targetsFrom.mp hp.next) with ⟨s, hs, hfirst⟩
  refine ⟨p, s, ⟨hs, ?_, hfirst⟩, hlt⟩
  intro q r hqr
  exact hp.le q ((mem_discoveryOrder ha).mpr (ha.source_lt hqr)) (mem_targetsFrom.mpr ⟨r, hqr⟩)

/-- The state that is met first has the entry that comes first. -/
theorem WellFormed.entry_before (ht : a.Entry a.discoveryOrder.idxOf t p s)
    (hu : a.Entry a.discoveryOrder.idxOf u q r) (hstart : t ≠ a.start)
    (hlt : a.discoveryOrder.idxOf t < a.discoveryOrder.idxOf u) :
    a.discoveryOrder.idxOf p < a.discoveryOrder.idxOf q ∨
      p = q ∧ Edge.Before ⟨s, t⟩ ⟨r, u⟩ := by
  rcases List.append_of_mem hu.edge with ⟨front, back, hsplit⟩
  have htargets : a.targetsFrom q = front.map Edge.target ++ u :: back.map Edge.target := by
    rw [targetsFrom, hsplit, List.map_append, List.map_cons]
  have hq : q ∈ a.discoveryOrder := (mem_discoveryOrder ha).mpr (ha.source_lt hu.edge)
  rcases (ha.discovers hreached).firstParent_of_lt (ht.firstParent ha) hstart hlt hq htargets with
    hpq | ⟨rfl, hfront⟩
  · exact Or.inl hpq
  · rcases List.mem_map.mp hfront with ⟨e, he, rfl⟩
    have hincreasing := hsplit ▸ hedges p
    have hbefore : e.Before ⟨r, u⟩ := Edge.compare_eq_lt_iff.mp
      ((List.pairwise_append.mp hincreasing).2.2 e he _ List.mem_cons_self)
    have hedge : a.HasEdge p e.symbol e.target := by
      show e ∈ a.edgesFrom p
      rw [hsplit]
      exact List.mem_append_left _ he
    refine Or.inr ⟨rfl, ?_⟩
    rcases ht.first e.symbol hedge with rfl | hs
    · exact hbefore
    · have hfirst : Edge.Before ⟨s, e.target⟩ e := Or.inl hs
      exact hfirst.trans hbefore

theorem WellFormed.idxOf_lt_iff (ht : a.Entry a.discoveryOrder.idxOf t p s)
    (hu : a.Entry a.discoveryOrder.idxOf u q r) (htstart : t ≠ a.start) (hustart : u ≠ a.start) :
    a.discoveryOrder.idxOf t < a.discoveryOrder.idxOf u ↔
      a.discoveryOrder.idxOf p < a.discoveryOrder.idxOf q ∨
        p = q ∧ Edge.Before ⟨s, t⟩ ⟨r, u⟩ := by
  have hmem : t ∈ a.discoveryOrder := (mem_discoveryOrder ha).mpr (ha.target_lt p s t ht.edge)
  constructor
  · exact ha.entry_before hreached hedges ht hu htstart
  · intro hbefore
    rcases Nat.lt_trichotomy (a.discoveryOrder.idxOf t) (a.discoveryOrder.idxOf u) with
      hlt | heq | hlt
    · exact hlt
    · have htu : t = u := (List.idxOf_inj hmem).mp heq
      subst htu
      rcases hbefore with hpq | ⟨rfl, hedge⟩
      · exact absurd (hu.least p s ht.edge) (Nat.not_le_of_lt hpq)
      · rcases hu.first s ht.edge with rfl | hrs
        · exact absurd hedge Edge.not_before_self
        · exact absurd (hedge.trans (Or.inl hrs)) Edge.not_before_self
    · rcases ha.entry_before hreached hedges hu ht hustart hlt with hqp | ⟨rfl, hother⟩
      · rcases hbefore with hpq | ⟨rfl, _⟩
        · exact absurd hpq (Nat.lt_asymm hqp)
        · exact absurd hqp (Nat.lt_irrefl _)
      · rcases hbefore with hpq | ⟨_, hedge⟩
        · exact absurd hpq (Nat.lt_irrefl _)
        · exact absurd (hedge.trans hother) Edge.not_before_self

theorem WellFormed.numberedByEntry : a.NumberedByEntry a.discoveryOrder.idxOf where
  perm := ha.perm_idxOf hreached
  start_eq := (ha.discovers hreached).idxOf_start
  exists_entry := fun _ ht hstart => ha.exists_entry hreached hedges ht hstart
  lt_iff := fun _ _ _ _ _ _ htstart hustart ht hu =>
    ha.idxOf_lt_iff hreached hedges ht hu htstart hustart
  exists_distance := fun _ ht => exists_distance_of_reached (hreached _ ht)
  lt_of_nearer := fun _ _ _ _ ht hu hjk => ha.idxOf_lt_of_nearer hreached ht hu hjk

end Numbering

end Definition

/-!
# The automata of an expression
-/

theorem Machine.increasing_definition (m : Machine) (q : Nat) :
    SortedSet.Increasing (m.definition.edgesFrom q) := by
  cases m with
  | nfa n => exact n.increasing_definition q
  | dfa d => exact d.increasing_definition q

theorem Plan.exists_path_build (e : Expr) (p : Plan) {q : Nat}
    (hq : q < (p.build e).definition.states.size) :
    ∃ u, PathTo (p.build e).definition.HasEdge q (p.build e).definition.start u := by
  rcases p with ⟨construction, determinization⟩
  cases determinization with
  | none =>
      rcases (construction.trim_build e).reachable q hq with ⟨u, hu⟩
      exact ⟨u, pathTo_mono (fun _ _ _ => Nfa.hasEdge_definition.mpr) hu⟩
  | some k =>
      have hpresents := k.presents_build (construction.build_recognizes e)
      rcases hpresents.breadthFirst.exists_run q hq with ⟨u, hu⟩
      exact ⟨u, Dfa.pathTo_definition.mpr hu⟩

theorem Plan.numberedByEntry_build (e : Expr) (p : Plan) :
    (p.build e).definition.NumberedByEntry (p.build e).definition.discoveryOrder.idxOf := by
  have hwellFormed := (p.presents_build e).formedOver.wellFormed
  apply hwellFormed.numberedByEntry
  · intro q hq
    rcases p.exists_path_build e hq with ⟨u, hu⟩
    exact Definition.reached_of_path hu (Search.Reached.seed (List.mem_singleton.mpr rfl))
  · exact (p.build e).increasing_definition

/-- The short names of the states of an automaton of an expression are `q0, q1, …`, handed
out from the start on by entries, and so by distances. -/
theorem Plan.aliases_build (e : Expr) (p : Plan) :
    let a := (p.build e).definition
    (a.aliases.Perm ((List.range a.states.size).map fun i => "q" ++ toString i) ∧
      a.aliases[a.start]? = some "q0") ∧
    ∃ number : Nat → Nat, a.NumberedByEntry number ∧
      a.aliases = (List.range a.states.size).map fun q => "q" ++ toString (number q) := by
  intro a
  have hnumbered : a.NumberedByEntry a.discoveryOrder.idxOf := p.numberedByEntry_build e
  have hstart := (p.presents_build e).formedOver.wellFormed.start_lt
  refine ⟨⟨?_, ?_⟩, _, hnumbered, rfl⟩
  · have hnames := hnumbered.perm.map fun i => "q" ++ toString i
    rwa [List.map_map] at hnames
  · rw [Definition.aliases, List.getElem?_map, List.getElem?_range hstart]
    show some ("q" ++ toString (a.discoveryOrder.idxOf a.start)) = _
    rw [hnumbered.start_eq]
    rfl

end Recognizer
