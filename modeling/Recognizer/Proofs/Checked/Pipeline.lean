import Recognizer.Proofs.Checked.Construction
import Recognizer.Proofs.Checked.Quotient
import Recognizer.Proofs.Checked.View
import Recognizer.Proofs.Trace.Outcome

/-!
# Checked automata of an expression

However an automaton is made of an expression, it is well formed.  So everything that is
looked up while it is made, while it runs and while it is shown is there.
-/

namespace Recognizer

/-!
# Making an automaton
-/

def Construction.buildChecked (e : Expr) : Construction → Except OutOfRange Nfa
  | positions => Nfa.ofPositionsChecked e
  | fragments => Nfa.ofFragmentsChecked e

def Dfa.quotientsChecked : Nat → Dfa → Except OutOfRange Dfa
  | 0, d => .ok d
  | k + 1, d => d.quotientsChecked k >>= quotientChecked

def Determinization.buildChecked (n : Nfa) (p : Determinization) : Except OutOfRange Dfa := do
  (← Dfa.ofSubsetsChecked n p.trap).quotientsChecked p.quotients

def Plan.buildChecked (e : Expr) (p : Plan) : Except OutOfRange Machine := do
  let n ← p.construction.buildChecked e
  match p.determinization with
  | none => return .nfa n
  | some q => (q.buildChecked n).map .dfa

theorem Construction.buildChecked_eq (e : Expr) (k : Construction) :
    k.buildChecked e = .ok (k.build e) := by
  cases k with
  | positions => exact Nfa.ofPositionsChecked_eq e
  | fragments => exact Nfa.ofFragmentsChecked_eq e

theorem Dfa.quotientsChecked_eq {d : Dfa} (hd : d.WellFormed) (k : Nat) :
    d.quotientsChecked k = .ok (Nat.repeat quotient k d) ∧
      (Nat.repeat quotient k d).WellFormed := by
  induction k with
  | zero => exact ⟨rfl, hd⟩
  | succ k ih =>
      rw [quotientsChecked, ih.1, ok_bind]
      exact ⟨quotientChecked_eq ih.2, wellFormed_quotient ih.2⟩

theorem Determinization.buildChecked_eq {n : Nfa} (hn : n.WellFormed) (p : Determinization) :
    p.buildChecked n = .ok (p.build n) := by
  rw [buildChecked, Dfa.ofSubsetsChecked_eq hn, ok_bind]
  exact (Dfa.quotientsChecked_eq (Dfa.wellFormed_ofSubsets hn) p.quotients).1

theorem Plan.buildChecked_eq (e : Expr) (p : Plan) : p.buildChecked e = .ok (p.build e) := by
  rcases p with ⟨construction, determinization⟩
  rw [buildChecked, Construction.buildChecked_eq, ok_bind]
  cases determinization with
  | none => rfl
  | some q =>
      dsimp only
      rw [q.buildChecked_eq (construction.build_recognizes e).wellFormed]
      rfl

/-!
# Using an automaton
-/

namespace Machine

def acceptsChecked (m : Machine) (input : String) : Except OutOfRange Bool :=
  match m with
  | nfa n => n.acceptsChecked input.toList
  | dfa d => d.acceptsChecked input.toList

def traceChecked (m : Machine) (input : String) : Except OutOfRange Trace :=
  match m with
  | nfa n => n.traceChecked input
  | dfa d => d.traceChecked input

/-- Running the automaton and showing it look up nothing that is not there. -/
structure Safe (m : Machine) : Prop where
  accepts : ∀ input, m.acceptsChecked input = .ok (m.accepts input)
  trace : ∀ input, m.traceChecked input = .ok (m.trace input)
  deadStates : m.definition.deadStatesChecked = .ok m.definition.deadStates
  aliases : m.definition.aliasesChecked = .ok m.definition.aliases
  labelTable : (Table.ofLabelsChecked m.definition >>= Table.textChecked) =
    .ok (Table.ofLabels m.definition).text
  aliasTable : (Table.ofAliasesChecked m.definition >>= Table.textChecked) =
    .ok (Table.ofAliases m.definition).text
  drawing : ∀ naming, m.definition.drawingChecked naming = .ok (m.definition.drawing naming)

/-- An automaton that has what every automaton of an expression has: the ids of its states
count from zero, edges lead from states to states, and read nothing or a symbol of the
alphabet of the expression. -/
structure FormedOver (m : Machine) (e : Expr) : Prop where
  wellFormed : m.definition.WellFormed
  alphabet_eq : m.definition.alphabet = e.alphabet
  transitions_within : ∀ t ∈ m.definition.transitions,
    t.source < m.definition.states.size ∧ t.target < m.definition.states.size ∧
      (t.symbol = .epsilon ∨ ∃ c ∈ e.alphabet, t.symbol = .char c)

theorem Presents.formedOver {m : Machine} {e : Expr} {trap : Bool}
    (h : m.Presents e.language trap) : m.FormedOver e := by
  have hwellFormed : m.definition.WellFormed ∧ m.definition.alphabet = e.alphabet := by
    cases m with
    | nfa n => exact ⟨h.1.wellFormed.definition, h.1.alphabet_eq⟩
    | dfa d => exact ⟨h.wellFormed.definition, h.alphabet_eq⟩
  refine ⟨hwellFormed.1, hwellFormed.2, ?_⟩
  intro t ht
  have hlt := hwellFormed.1.transition_lt ht
  refine ⟨hlt.1, hlt.2, ?_⟩
  have hedge := (Definition.mem_transitions.mp ht).2
  cases hs : t.symbol with
  | epsilon => exact Or.inl rfl
  | char c => exact Or.inr ⟨c, hwellFormed.2 ▸ hwellFormed.1.symbol_mem _ c _ (hs ▸ hedge), rfl⟩

theorem Presents.safe {m : Machine} {e : Expr} {trap : Bool}
    (h : m.Presents e.language trap) : m.Safe := by
  have hformed := h.formedOver.wellFormed
  refine ⟨?_, ?_, Definition.deadStatesChecked_eq hformed, Definition.aliasesChecked_eq hformed,
    ?_, ?_, Definition.drawingChecked_eq hformed⟩
  · intro input
    cases m with
    | nfa n => exact Nfa.acceptsChecked_eq h.1.wellFormed input.toList
    | dfa d => exact Dfa.acceptsChecked_eq h.wellFormed input.toList
  · intro input
    cases m with
    | nfa n => exact Nfa.traceChecked_eq h.1.wellFormed input
    | dfa d => exact Dfa.traceChecked_eq h.wellFormed input
  · rw [Table.ofLabelsChecked_eq hformed]
    exact Table.textChecked_eq (Table.namesStates_ofLabels hformed)
  · rw [Table.ofAliasesChecked_eq hformed]
    exact Table.textChecked_eq (Table.namesStates_ofAliases hformed)

end Machine

/-- Only the fragment construction makes edges that read nothing. -/
theorem Plan.no_epsilon_build (e : Expr) {p : Plan} (hp : p ≠ ⟨.fragments, none⟩) :
    ∀ t ∈ (p.build e).definition.transitions, t.symbol ≠ .epsilon := by
  intro t ht hs
  have hedge := (Definition.mem_transitions.mp ht).2
  rw [hs] at hedge
  rcases p with ⟨construction, determinization⟩
  cases determinization with
  | some q =>
      rcases Dfa.hasEdge_definition.mp hedge with ⟨c, hc, _⟩
      cases hc
  | none =>
      cases construction with
      | fragments => exact hp rfl
      | positions => exact Nfa.no_epsilon_ofPositions _ _ (Nfa.hasEdge_definition.mp hedge)

/-- Every automaton of an expression can be made, run and shown without looking up
anything that is not there. -/
theorem Plan.build_safe (e : Expr) (p : Plan) :
    p.buildChecked e = .ok (p.build e) ∧ (p.build e).FormedOver e ∧
      (p ≠ ⟨.fragments, none⟩ →
        ∀ t ∈ (p.build e).definition.transitions, t.symbol ≠ .epsilon) ∧
      (p.build e).Safe :=
  ⟨p.buildChecked_eq e, (p.presents_build e).formedOver, p.no_epsilon_build e,
    (p.presents_build e).safe⟩

end Recognizer
