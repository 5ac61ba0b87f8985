import Recognizer.Proofs.Automaton.Tracking
import Recognizer.Proofs.Trace.Outcome

/-!
# What recorded runs show

The steps of a trace are compared with runs on the beginnings of the input, each one
made for itself.  A trace shows these runs in their order and without gaps, and has one
more step where it ends.
-/

namespace Recognizer

namespace Machine

def alphabet : Machine → SortedSet Char
  | nfa n => n.alphabet
  | dfa d => d.alphabet

/-- The states that a run on the word reports.  A deterministic run that has stopped
reports none. -/
def statesAfter (m : Machine) (w : List Char) : SortedSet Nat :=
  match m with
  | nfa n => (n.simulate w).2
  | dfa d =>
      match (d.simulate w).2 with
      | some q => .singleton q
      | none => .empty

def edgesToStart : Machine → List Transition
  | nfa n => n.epsilonEdges (.singleton n.start)
  | dfa _ => []

def edgesOver (m : Machine) (w : List Char) (c : Char) : List Transition :=
  match m with
  | nfa n => n.readingEdges (n.run w) c ++ n.epsilonEdges (n.successors (n.run w) c)
  | dfa d =>
      match d.run w, d.run (w ++ [c]) with
      | some q, some r => [⟨q, .char c, r⟩]
      | _, _ => []

variable {m : Machine} {n : Nfa} {d : Dfa} {u w : List Char} {c : Char} {q : Nat}

theorem statesAfter_nfa : (nfa n).statesAfter w = n.run w := rfl

theorem statesAfter_dfa_of_run (h : d.run w = some q) :
    (dfa d).statesAfter w = .singleton q := by
  unfold statesAfter
  simp only [Dfa.simulate_snd]
  rw [h]

theorem statesAfter_dfa_of_no_run (h : d.run w = none) : (dfa d).statesAfter w = .empty := by
  unfold statesAfter
  simp only [Dfa.simulate_snd]
  rw [h]

/-!
# The steps of a reading
-/

/-- The two steps for a character at a place of the word: the edges that lead over it, and
the states of the run up to it. -/
def stepsFor (m : Machine) (w : List Char) (c : Char) (i : Nat) : List Step :=
  [.transition i c (m.edgesOver (w.take i) c), .state (some i) (m.statesAfter (w.take (i + 1)))]

/-- The steps behind those of the characters read, whose number is given.  All characters
have been read, or the next one is not in the alphabet, or there are no more states: a
nondeterministic run is recorded up to the empty set, a deterministic one up to the
missing edge. -/
inductive EndsWith (m : Machine) (w : List Char) (k : Nat) : List Step → Prop where
  | completed {status : Status} : k = w.length → m.statesAfter w ≠ .empty →
      status ≠ .immatureAbort → EndsWith m w k [.complete status (m.statesAfter w)]
  | unknown {c : Char} : w[k]? = some c → c ∉ m.alphabet →
      m.statesAfter (w.take k) ≠ .empty → EndsWith m w k [.error k c]
  | emptied {n : Nfa} {i : Nat} : m = .nfa n → k = i + 1 → m.statesAfter (w.take k) = .empty →
      EndsWith m w k [.complete .immatureAbort .empty]
  | stuck {d : Dfa} {c : Char} : m = .dfa d → w[k]? = some c → c ∈ m.alphabet →
      m.statesAfter (w.take k) ≠ .empty → m.statesAfter (w.take (k + 1)) = .empty →
      EndsWith m w k [.transition k c [], .complete .immatureAbort .empty]

/-- Steps that record a run on `u ++ w` from behind `u`: first those of some characters,
which all are in the alphabet and are met with states left, then the end. -/
def Records (m : Machine) (u w : List Char) (steps : List Step) : Prop :=
  ∃ v last, v <+: w ∧ (∀ c ∈ v, c ∈ m.alphabet) ∧
    (∀ j, u.length ≤ j → j < u.length + v.length → m.statesAfter ((u ++ w).take j) ≠ .empty) ∧
    m.EndsWith (u ++ w) (u.length + v.length) last ∧
    steps = (v.zipIdx u.length).flatMap (fun x => m.stepsFor (u ++ w) x.1 x.2) ++ last

theorem stepsFor_length :
    m.stepsFor (u ++ c :: w) c u.length =
      [.transition u.length c (m.edgesOver u c),
        .state (some u.length) (m.statesAfter (u ++ [c]))] := by
  unfold stepsFor
  rw [List.take_left, take_length_append_cons]

theorem records_of_endsWith {last : List Step} (h : m.EndsWith (u ++ w) u.length last) :
    m.Records u w last := by
  refine ⟨[], last, List.nil_prefix, ?_, ?_, h, rfl⟩
  · intro c hc
    cases hc
  · intro j hj hlt
    exact absurd hlt (Nat.not_lt_of_le hj)

theorem Records.cons {steps : List Step} (hc : c ∈ m.alphabet) (hu : m.statesAfter u ≠ .empty)
    (h : m.Records (u ++ [c]) w steps) :
    m.Records u (c :: w)
      (.transition u.length c (m.edgesOver u c) ::
        .state (some u.length) (m.statesAfter (u ++ [c])) :: steps) := by
  rcases h with ⟨v, last, hprefix, halphabet, hstates, hend, rfl⟩
  have hword : u ++ [c] ++ w = u ++ c :: w := by simp
  have hlength : (u ++ [c]).length + v.length = u.length + (c :: v).length := by
    simp only [List.length_append, List.length_cons, List.length_nil]
    omega
  rw [hword] at hstates hend ⊢
  rw [hlength] at hstates hend
  refine ⟨c :: v, last, ?_, ?_, ?_, hend, ?_⟩
  · exact (List.prefix_cons_inj c).mpr hprefix
  · intro b hb
    cases List.mem_cons.mp hb with
    | inl hb => exact hb ▸ hc
    | inr hb => exact halphabet b hb
  · intro j hj hlt
    by_cases hju : j = u.length
    · rw [hju, List.take_left]
      exact hu
    · exact hstates j (by simp; omega) hlt
  · rw [List.zipIdx_cons, List.flatMap_cons, stepsFor_length, List.length_append]
    exact rfl

/-!
# The two kinds of runs
-/

section Nfa

theorem statesAfter_nfa_ne_empty_iff :
    (nfa n).statesAfter w ≠ .empty ↔ (n.run w).isEmpty = false := by
  rw [statesAfter_nfa, Bool.eq_false_iff]
  exact not_congr SortedSet.isEmpty_iff.symm

theorem records_stepsFrom_nfa (w u : List Char) (hu : (nfa n).statesAfter u ≠ .empty) :
    (nfa n).Records u w (n.stepsFrom (n.run u) u.length w) := by
  induction w generalizing u with
  | nil =>
      apply records_of_endsWith
      rw [List.append_nil]
      apply EndsWith.completed rfl hu
      split
      · exact Status.noConfusion
      · exact Status.noConfusion
  | cons c w ih =>
      unfold Nfa.stepsFrom
      split
      · rename_i hc
        rw [← Nfa.run_append_singleton]
        dsimp only
        cases hempty : (n.run (u ++ [c])).isEmpty with
        | true =>
            refine Records.cons hc hu (records_of_endsWith ?_)
            have hlength : (u ++ [c]).length = u.length + 1 := by simp
            rw [hlength]
            apply EndsWith.emptied rfl rfl
            rw [List.append_assoc]
            show n.run ((u ++ c :: w).take (u.length + 1)) = .empty
            rw [take_length_append_cons]
            exact SortedSet.isEmpty_iff.mp hempty
        | false =>
            have hrest := ih (u ++ [c]) (statesAfter_nfa_ne_empty_iff.mpr hempty)
            rw [List.length_append] at hrest
            exact Records.cons hc hu hrest
      · rename_i hc
        apply records_of_endsWith
        apply EndsWith.unknown (by simp) hc
        rw [List.take_left]
        exact hu

end Nfa

section Dfa

theorem statesAfter_dfa_ne_empty (h : d.run w = some q) : (dfa d).statesAfter w ≠ .empty := by
  rw [statesAfter_dfa_of_run h, SortedSet.ne_empty_iff]
  exact ⟨q, SortedSet.mem_singleton.mpr rfl⟩

theorem records_stepsFrom_dfa (w u : List Char) (q : Nat) (hu : d.run u = some q) :
    (dfa d).Records u w (d.stepsFrom q u.length w) := by
  have hstates := statesAfter_dfa_ne_empty hu
  induction w generalizing u q with
  | nil =>
      apply records_of_endsWith
      rw [List.append_nil]
      unfold Dfa.stepsFrom
      rw [← statesAfter_dfa_of_run hu]
      apply EndsWith.completed rfl hstates
      split
      · exact Status.noConfusion
      · exact Status.noConfusion
  | cons c w ih =>
      have hnext : d.run (u ++ [c]) = d.next q c := by
        rw [Dfa.run_append_singleton, hu, Option.bind_some]
      unfold Dfa.stepsFrom
      split
      · rename_i hc
        split
        · rename_i hnone
          apply records_of_endsWith
          apply EndsWith.stuck rfl (by simp) hc
          · rw [List.take_left]
            exact hstates
          · rw [take_length_append_cons]
            exact statesAfter_dfa_of_no_run (hnext.trans hnone)
        · rename_i r hr
          have hrun : d.run (u ++ [c]) = some r := hnext.trans hr
          have hrest := ih (u ++ [c]) r hrun (statesAfter_dfa_ne_empty hrun)
          have hedges : (dfa d).edgesOver u c = [⟨q, .char c, r⟩] := by
            unfold edgesOver
            dsimp only
            rw [hu, hrun]
          rw [← hedges, ← statesAfter_dfa_of_run hrun]
          rw [List.length_append] at hrest
          exact Records.cons hc hstates hrest
      · rename_i hc
        apply records_of_endsWith
        apply EndsWith.unknown (by simp) hc
        rw [List.take_left]
        exact hstates

end Dfa

/-!
# Whole traces
-/

variable {e : Expr} {trap : Bool}

theorem Presents.accepts_iff (h : m.Presents e.language trap) {input : String} :
    m.accepts input = true ↔ input.toList ∈ e.language := by
  cases m with
  | nfa n => exact h.1.accepts_iff
  | dfa d => exact Dfa.accepts_iff_acceptsFrom.trans (h.words _)

theorem Presents.statesAfter_nil_ne_empty (h : m.Presents e.language trap) :
    m.statesAfter [] ≠ .empty := by
  cases m with
  | nfa n =>
      rw [statesAfter_nfa, SortedSet.ne_empty_iff]
      exact Dfa.exists_mem_run_nil h.1
  | dfa d => exact statesAfter_dfa_ne_empty (w := []) (q := d.start) rfl

end Machine

theorem Outcome.accepted_iff {e : Expr} {trap : Bool} {w : List Char} {t : Trace}
    (h : Outcome e trap w t.steps) : t.accepted = true ↔ w ∈ e.language := by
  unfold Trace.accepted
  rw [decide_eq_true_eq, Trace.status]
  cases h with
  | recognized s _ hw hlast => simp [hlast, hw]
  | notRecognized s _ hw hlast => simp [hlast, hw]
  | unknown i c hi _ _ hlast => simp [hlast, hi.1.not_mem]
  | aborted i c s hi _ _ hlast _ => simp [hlast, hi.1.not_mem]

/-- A trace shows the states at the start, then for some first characters of the input the
edges and the states of a run up to there, and then its end.  The characters read are all
in the alphabet, and there are states left before each of them. -/
structure Trace.Retells (t : Trace) (m : Machine) (input : String) : Prop where
  steps_eq : ∃ k last, k ≤ input.toList.length ∧
    (∀ c ∈ input.toList.take k, c ∈ m.alphabet) ∧
    (∀ j, j < k → m.statesAfter (input.toList.take j) ≠ .empty) ∧
    m.EndsWith input.toList k last ∧
    t.steps = .initial (m.statesAfter []) m.edgesToStart :: .state none (m.statesAfter []) ::
      ((input.toList.take k).zipIdx.flatMap (fun x => m.stepsFor input.toList x.1 x.2) ++ last)
  accepted_eq : t.accepted = m.accepts input

theorem Machine.retells_of_records {m : Machine} {input : String} {steps : List Step}
    (htrace : (m.trace input).steps =
      .initial (m.statesAfter []) m.edgesToStart :: .state none (m.statesAfter []) :: steps)
    (hsteps : m.Records [] input.toList steps)
    (haccepted : (m.trace input).accepted = m.accepts input) :
    (m.trace input).Retells m input := by
  rcases hsteps with ⟨v, last, hprefix, halphabet, hstates, hend, hsteps⟩
  have hv : input.toList.take v.length = v := (List.prefix_iff_eq_take.mp hprefix).symm
  rw [List.nil_append, List.length_nil, Nat.zero_add] at hend
  refine ⟨⟨v.length, last, hprefix.length_le, ?_, ?_, hend, ?_⟩, haccepted⟩
  · rwa [hv]
  · intro j hj
    exact hstates j (Nat.zero_le j) (by simpa using hj)
  · rw [htrace, hsteps, hv]
    exact rfl

/-- The traces of all automata that can be made of an expression agree with their runs. -/
theorem Plan.trace_retells (e : Expr) (p : Plan) (input : String) :
    ((p.build e).trace input).Retells (p.build e) input := by
  have hpresents := p.presents_build e
  have haccepted : ((p.build e).trace input).accepted = (p.build e).accepts input := by
    rw [Bool.eq_iff_iff, hpresents.accepts_iff]
    exact (Machine.outcome_trace hpresents input).accepted_iff
  have hstart := hpresents.statesAfter_nil_ne_empty
  cases hm : p.build e with
  | nfa n =>
      rw [hm] at haccepted hstart
      exact Machine.retells_of_records rfl
        (Machine.records_stepsFrom_nfa input.toList [] hstart) haccepted
  | dfa d =>
      rw [hm] at haccepted
      exact Machine.retells_of_records rfl
        (Machine.records_stepsFrom_dfa input.toList [] d.start rfl) haccepted

end Recognizer
