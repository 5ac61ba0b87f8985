import Recognizer.Proofs.Automaton.Definition
import Recognizer.Proofs.Automaton.Minimal
import Mathlib.Data.List.Shortlex

/-!
# States in the order of their words

In an automaton that is numbered by a search, the states stand in the order of the first
words that lead to them, where shorter words come before longer ones and words of the same
length are ordered by their characters.  A second search, along all edges of the formal
definition, meets the states in this order again, so their short names are their ids.
-/

namespace Recognizer

/-!
# Shorter words first
-/

/-- Shorter words come first, and words of the same length in the order of their characters. -/
abbrev Precedes (u v : List Char) : Prop := List.Shortlex (· < ·) u v

section Precedes

variable {u v w : List Char} {b c : Char}

theorem precedes_wellFounded : WellFounded Precedes :=
  List.Shortlex.wf (InvImage.wf Char.toNat Nat.lt_wfRel.wf)

theorem Precedes.asymm (h : Precedes u v) : ¬ Precedes v u :=
  precedes_wellFounded.asymmetric u v h

theorem precedes_or_eq_or_precedes (u v : List Char) : Precedes u v ∨ u = v ∨ Precedes v u := by
  by_contra h
  rw [not_or, not_or] at h
  exact h.2.1 (Std.Trichotomous.trichotomous u v h.1 h.2.2)

theorem Precedes.trans (huv : Precedes u v) (hvw : Precedes v w) : Precedes u w := by
  rcases precedes_or_eq_or_precedes u w with huw | rfl | hwu
  · exact huw
  · exact absurd hvw huv.asymm
  · exact absurd hwu (precedes_wellFounded.asymmetric₃ u v w huv hvw)

theorem lex_append_singleton (hlength : u.length = v.length) (h : List.Lex (· < ·) u v) :
    List.Lex (· < ·) (u ++ [b]) (v ++ [c]) := by
  induction h with
  | nil => cases hlength
  | cons _ ih =>
      injection hlength with hlength
      exact List.Lex.cons (ih hlength)
  | rel hab => exact List.Lex.rel hab

theorem Precedes.append_singleton (h : Precedes u v) : Precedes (u ++ [b]) (v ++ [c]) := by
  rcases List.shortlex_def.mp h with hlength | ⟨hlength, hlex⟩
  · apply List.Shortlex.of_length_lt
    simpa using hlength
  · apply List.Shortlex.of_lex
    · simpa using hlength
    · exact lex_append_singleton hlength hlex

theorem precedes_append_singleton (h : b < c) : Precedes (u ++ [b]) (u ++ [c]) :=
  List.Shortlex.append_left ((List.shortlex_singleton_iff b c).mpr h) u

end Precedes

namespace Dfa

variable {d : Dfa} {i j p q : Nat} {u v : List Char}

/-!
# First words
-/

/-- The word leads to the state, and comes before every other word that does. -/
def IsFirstWord (d : Dfa) (q : Nat) (u : List Char) : Prop :=
  d.run u = some q ∧ ∀ v, d.run v = some q → u = v ∨ Precedes u v

/-- Every word that leads to a state comes behind one that leads to an earlier state. -/
theorem BreadthFirst.exists_precedes (hd : d.BreadthFirst) (hv : d.run v = some j) (hij : i < j) :
    ∃ u, d.run u = some i ∧ Precedes u v := by
  induction v using List.reverseRecOn generalizing i j with
  | nil =>
      have hj : d.start = j := Option.some.inj hv
      rw [hd.start_eq] at hj
      omega
  | append_singleton v c ih =>
      rw [run_append_singleton] at hv
      rcases Option.bind_eq_some_iff.mp hv with ⟨p, hp, hnext⟩
      by_cases hi : i = 0
      · refine ⟨[], congrArg some (hd.start_eq.trans hi.symm), List.Shortlex.of_length_lt ?_⟩
        simp
      · rcases hd.earlier i j p c (Nat.pos_of_ne_zero hi) hij hnext with
          ⟨q, b, hqp | ⟨rfl, hbc⟩, hedge⟩
        · rcases ih hp hqp with ⟨u, hu, huv⟩
          refine ⟨u ++ [b], ?_, huv.append_singleton⟩
          rw [run_append_singleton, hu]
          exact hedge
        · refine ⟨v ++ [b], ?_, precedes_append_singleton hbc⟩
          rw [run_append_singleton, hp]
          exact hedge

theorem exists_isFirstWord (h : ∃ u, d.run u = some q) : ∃ u, d.IsFirstWord q u := by
  rcases precedes_wellFounded.has_min {u | d.run u = some q} h with ⟨u, hu, hmin⟩
  refine ⟨u, hu, fun v hv => ?_⟩
  rcases precedes_or_eq_or_precedes u v with huv | huv | hvu
  · exact Or.inr huv
  · exact Or.inl huv
  · exact absurd hvu (hmin v hv)

theorem BreadthFirst.precedes_of_lt (hd : d.BreadthFirst) (hu : d.IsFirstWord p u)
    (hv : d.IsFirstWord q v) (hpq : p < q) : Precedes u v := by
  rcases hd.exists_precedes hv.1 hpq with ⟨w, hw, hwv⟩
  rcases hu.2 w hw with rfl | huw
  · exact hwv
  · exact huw.trans hwv

theorem BreadthFirst.lt_iff_precedes (hd : d.BreadthFirst) (hu : d.IsFirstWord p u)
    (hv : d.IsFirstWord q v) : p < q ↔ Precedes u v := by
  constructor
  · exact hd.precedes_of_lt hu hv
  · intro huv
    rcases Nat.lt_trichotomy p q with hpq | rfl | hqp
    · exact hpq
    · rcases hv.2 u hu.1 with rfl | hvu
      · exact absurd huv huv.asymm
      · exact absurd huv hvu.asymm
    · exact absurd (hd.precedes_of_lt hv hu hqp) huv.asymm

/-!
# Short names
-/

theorem mem_targets_definition :
    q ∈ (d.definition.edgesFrom p).map Edge.target ↔ ∃ c, d.next p c = some q := by
  rw [List.mem_map]
  constructor
  · intro h
    rcases h with ⟨⟨s, t⟩, hedge, rfl⟩
    rcases hasEdge_definition.mp hedge with ⟨c, _, hnext⟩
    exact ⟨c, hnext⟩
  · intro h
    rcases h with ⟨c, hnext⟩
    exact ⟨⟨.char c, q⟩, hasEdge_definition.mpr ⟨c, rfl, hnext⟩, rfl⟩

theorem exists_next_of_targets_definition {u v : List Nat}
    (h : (d.definition.edgesFrom p).map Edge.target = u ++ q :: v) :
    ∃ c, d.next p c = some q ∧ ∀ b r, b < c → d.next p b = some r → r ∈ u := by
  rw [edgesFrom_definition] at h
  cases hp : d.edges[p]? with
  | none => simp [hp] at h
  | some edges =>
      have htargets : edges.toList.map Prod.snd = u ++ q :: v := by
        simpa [hp, Function.comp_def] using h
      rcases List.map_eq_append_iff.mp htargets with ⟨before, rest, hsplit, rfl, hrest⟩
      rcases List.map_eq_cons_iff.mp hrest with ⟨⟨c, _⟩, after, rfl, rfl, _⟩
      have hincreasing := edges.increasing
      rw [hsplit, List.pairwise_append] at hincreasing
      refine ⟨c, next_eq_some_iff.mpr ⟨edges, hp, by simp [hsplit]⟩, ?_⟩
      intro b r hbc hr
      rcases next_eq_some_iff.mp hr with ⟨found, hfound, hmem⟩
      rw [hp] at hfound
      injection hfound with hfound
      rw [← hfound, hsplit] at hmem
      rcases List.mem_append.mp hmem with hbefore | hafter
      · exact List.mem_map.mpr ⟨_, hbefore, rfl⟩
      · have hle : ¬ b < c := by
          rcases List.mem_cons.mp hafter with heq | hafter
          · injection heq with heq
            exact heq ▸ Char.lt_irrefl b
          · have hcb := (List.pairwise_cons.mp hincreasing.2.1).1 _ hafter
            exact Char.lt_asymm (compareOfLessAndEq_eq_lt.mp hcb)
        exact absurd hbc hle

theorem BreadthFirst.inOrder (hd : d.BreadthFirst) (hwellFormed : d.WellFormed) :
    Search.InOrder (fun q => (d.definition.edgesFrom q).map Edge.target) d.states.size where
  lt := by
    intro p q hq
    rcases mem_targets_definition.mp hq with ⟨c, hnext⟩
    exact (hwellFormed.next_within hnext).2.2
  parent := by
    intro j hj hlt
    rcases hd.parent j hj hlt with ⟨p, c, hp, hnext⟩
    exact ⟨p, hp, mem_targets_definition.mpr ⟨c, hnext⟩⟩
  earlier := by
    intro i j p u v hi hij hsplit
    rcases exists_next_of_targets_definition hsplit with ⟨c, hnext, hbefore⟩
    rcases hd.earlier i j p c hi hij hnext with ⟨q, b, hq | ⟨rfl, hbc⟩, hedge⟩
    · exact Or.inr ⟨q, hq, mem_targets_definition.mpr ⟨b, hedge⟩⟩
    · exact Or.inl (hbefore b i hbc hedge)

theorem BreadthFirst.discoveryOrder_eq (hd : d.BreadthFirst) (hwellFormed : d.WellFormed) :
    d.definition.discoveryOrder = List.range d.states.size := by
  have hsize : 0 < d.states.size := Nat.zero_lt_of_lt hwellFormed.start_lt
  have hmet : breadthFirst (fun q => (d.definition.edgesFrom q).map Edge.target)
      d.definition.states.size [d.definition.start] = List.range d.states.size := by
    show breadthFirst _ d.states.size [d.start] = _
    rw [hd.start_eq, (hd.inOrder hwellFormed).breadthFirst_eq hsize]
  have hrest : (List.range d.states.size).filter (fun q => q ∉ List.range d.states.size) = [] := by
    apply List.filter_eq_nil_iff.mpr
    intro q hq
    simpa using hq
  unfold Definition.discoveryOrder
  rw [hmet]
  show _ ++ (List.range d.states.size).filter _ = _
  rw [hrest, List.append_nil]

theorem BreadthFirst.aliases_eq (hd : d.BreadthFirst) (hwellFormed : d.WellFormed) :
    d.definition.aliases = (List.range d.states.size).map (fun q => "q" ++ toString q) := by
  unfold Definition.aliases
  rw [hd.discoveryOrder_eq hwellFormed]
  apply List.map_congr_left
  intro q hq
  have hq : q < d.states.size := List.mem_range.mp hq
  have hplace : (List.range d.states.size).idxOf q = q := by
    have hidx := List.nodup_range.idxOf_getElem q (by simpa using hq)
    rwa [List.getElem_range] at hidx
  rw [hplace]

/-- The ids are in the order of the first words that lead to the states, so the start is
the first state, and each short name has the number of its state. -/
structure NumberedByWords (d : Dfa) : Prop where
  inPlace : State.InPlace d.states
  exists_isFirstWord : ∀ q, q < d.states.size → ∃ u, d.IsFirstWord q u
  lt_iff_precedes : ∀ p q u v, d.IsFirstWord p u → d.IsFirstWord q v → (p < q ↔ Precedes u v)
  start_eq : d.start = 0
  aliases_eq : d.definition.aliases = (List.range d.states.size).map (fun q => "q" ++ toString q)

theorem BreadthFirst.numberedByWords (hd : d.BreadthFirst) (hwellFormed : d.WellFormed) :
    d.NumberedByWords where
  inPlace := hwellFormed.inPlace
  exists_isFirstWord := fun q hq => exists_isFirstWord (hd.exists_run q hq)
  lt_iff_precedes := fun _ _ _ _ hu hv => hd.lt_iff_precedes hu hv
  start_eq := hd.start_eq
  aliases_eq := hd.aliases_eq hwellFormed

end Dfa

/-- The deterministic automata of an expression are numbered by words, with or without a
trap and however many quotients are taken. -/
theorem Construction.numberedByWords_build (k : Construction) (e : Expr) (p : Determinization) :
    (p.build (k.build e)).NumberedByWords := by
  have hpresents := Determinization.presents_build (k.build_recognizes e) p
  exact hpresents.breadthFirst.numberedByWords hpresents.wellFormed

end Recognizer
