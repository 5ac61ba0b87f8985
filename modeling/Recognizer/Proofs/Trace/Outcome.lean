import Recognizer.Proofs.Automaton.Tracking

/-!
# How recorded runs end

The automata of an expression differ in their states and in their steps, but their runs
on a word all end in the same way.  A run goes on while the characters are in the
alphabet and some word begins with what has been read, and so it is the language that
tells where it stops.  An automaton with a trap goes on in any case.
-/

namespace Recognizer

theorem take_length_append_cons {α : Type} {u w : List α} {a : α} :
    (u ++ a :: w).take (u.length + 1) = u ++ [a] := by
  rw [List.take_length_add_append]
  exact rfl

/-!
# Where a word leaves an expression
-/

namespace Expr

/-- The word leaves the expression at this place: the character is not in the alphabet, or
no word of the expression begins like this, where there is no trap for such words. -/
def LeavesAt (e : Expr) (trap : Bool) (w : List Char) (i : Nat) : Prop :=
  ∃ c, w[i]? = some c ∧ (c ∉ e.alphabet ∨ trap = false ∧ ∀ v, w.take (i + 1) ++ v ∉ e.language)

def FirstLeavesAt (e : Expr) (trap : Bool) (w : List Char) (i : Nat) : Prop :=
  e.LeavesAt trap w i ∧ ∀ j, j < i → ¬ e.LeavesAt trap w j

variable {e : Expr} {trap : Bool} {u v w : List Char} {c : Char} {i j : Nat}

theorem FirstLeavesAt.unique (hi : e.FirstLeavesAt trap w i) (hj : e.FirstLeavesAt trap w j) :
    i = j := by
  rcases Nat.lt_trichotomy i j with hlt | heq | hgt
  · exact absurd hi.1 (hj.2 i hlt)
  · exact heq
  · exact absurd hj.1 (hi.2 j hgt)

theorem FirstLeavesAt.symbol_unique {b : Char} (hi : e.FirstLeavesAt trap w i)
    (hj : e.FirstLeavesAt trap w j) (hc : w[i]? = some c) (hb : w[j]? = some b) :
    j = i ∧ b = c := by
  have hji : j = i := hj.unique hi
  rw [hji, hc] at hb
  injection hb with hcb
  exact ⟨hji, hcb.symm⟩

theorem leavesAt_length :
    e.LeavesAt trap (u ++ c :: w) u.length ↔
      c ∉ e.alphabet ∨ trap = false ∧ ∀ v, u ++ [c] ++ v ∉ e.language := by
  unfold LeavesAt
  rw [take_length_append_cons, List.getElem?_append_right (Nat.le_refl _), Nat.sub_self]
  simp

theorem LeavesAt.not_mem (h : e.LeavesAt trap w i) : w ∉ e.language := by
  intro hw
  rcases h with ⟨c, hc, hc_outside | ⟨_, hnone⟩⟩
  · exact hc_outside (mem_alphabet_iff.mpr ⟨w, hw, List.mem_of_getElem? hc⟩)
  · apply hnone (w.drop (i + 1))
    rwa [List.take_append_drop]

theorem lt_length_of_leavesAt (h : e.LeavesAt trap w i) : i < w.length := by
  rcases h with ⟨c, hc, _⟩
  exact (List.getElem?_eq_some_iff.mp hc).1

end Expr

/-!
# Ends of lists of steps
-/

def Step.transitionIndex? : Step → Option Nat
  | .transition index _ _ => some index
  | _ => none

def Step.lastTransition? (steps : List Step) : Option Nat :=
  (steps.filterMap Step.transitionIndex?).getLast?

inductive Outcome (e : Expr) (trap : Bool) (w : List Char) (steps : List Step) : Prop where
  | recognized (s : SortedSet Nat) :
      (∀ i, ¬ e.LeavesAt trap w i) → w ∈ e.language →
      steps.getLast? = some (.complete .recognized s) → Outcome e trap w steps
  | notRecognized (s : SortedSet Nat) :
      (∀ i, ¬ e.LeavesAt trap w i) → w ∉ e.language →
      steps.getLast? = some (.complete .notRecognized s) → Outcome e trap w steps
  | unknown (i : Nat) (c : Char) :
      e.FirstLeavesAt trap w i → w[i]? = some c → c ∉ e.alphabet →
      steps.getLast? = some (.error i c) → Outcome e trap w steps
  | aborted (i : Nat) (c : Char) (s : SortedSet Nat) :
      e.FirstLeavesAt trap w i → w[i]? = some c → c ∈ e.alphabet →
      steps.getLast? = some (.complete .immatureAbort s) →
      Step.lastTransition? steps = some i → Outcome e trap w steps

section Outcome

variable {e : Expr} {trap : Bool} {u w : List Char} {c : Char} {steps : List Step}

theorem Outcome.append (before : List Step) (h : Outcome e trap w steps) :
    Outcome e trap w (before ++ steps) := by
  have hend : ∀ step, steps.getLast? = some step → (before ++ steps).getLast? = some step :=
    fun _ hlast => List.mem_getLast?_append_of_mem_getLast? hlast
  cases h with
  | recognized s hstays hw hlast => exact Outcome.recognized s hstays hw (hend _ hlast)
  | notRecognized s hstays hw hlast => exact Outcome.notRecognized s hstays hw (hend _ hlast)
  | unknown i c hi hc hc_outside hlast => exact Outcome.unknown i c hi hc hc_outside (hend _ hlast)
  | aborted i c s hi hc hc_mem hlast htransition =>
      refine Outcome.aborted i c s hi hc hc_mem (hend _ hlast) ?_
      unfold Step.lastTransition?
      rw [List.filterMap_append]
      exact List.mem_getLast?_append_of_mem_getLast? htransition

/-!
The next character of a run that has read `u` is at place `u.length`.
-/

section Reading

variable (hbefore : ∀ j, j < u.length → ¬ e.LeavesAt trap (u ++ c :: w) j)

include hbefore

theorem not_leavesAt_append_singleton (h : ¬ e.LeavesAt trap (u ++ c :: w) u.length) :
    ∀ j, j < (u ++ [c]).length → ¬ e.LeavesAt trap (u ++ [c] ++ w) j := by
  intro j hj
  rw [List.append_assoc]
  rw [List.length_append, List.length_singleton] at hj
  rcases Nat.lt_succ_iff_lt_or_eq.mp hj with hj | hj
  · exact hbefore j hj
  · exact hj ▸ h

theorem outcome_unknown (hc : c ∉ e.alphabet) :
    Outcome e trap (u ++ c :: w) [.error u.length c] := by
  refine Outcome.unknown u.length c ⟨?_, hbefore⟩ (by simp) hc rfl
  exact Expr.leavesAt_length.mpr (Or.inl hc)

theorem outcome_aborted (hleaves : e.LeavesAt trap (u ++ c :: w) u.length) (hc : c ∈ e.alphabet)
    {edges : List Transition} {after : List Step} {s : SortedSet Nat}
    (hlast : after.getLast? = some (.complete .immatureAbort s))
    (hafter : after.filterMap Step.transitionIndex? = []) :
    Outcome e trap (u ++ c :: w) (.transition u.length c edges :: after) := by
  have hend : ([Step.transition u.length c edges] ++ after).getLast? =
      some (.complete .immatureAbort s) := List.mem_getLast?_append_of_mem_getLast? hlast
  refine Outcome.aborted u.length c s ⟨hleaves, hbefore⟩ (by simp) hc hend ?_
  unfold Step.lastTransition?
  rw [List.filterMap_cons_some (f := Step.transitionIndex?) rfl, hafter]
  exact rfl

end Reading

theorem outcome_complete {s : SortedSet Nat} {accepting : Prop} [Decidable accepting]
    (hbefore : ∀ j, j < w.length → ¬ e.LeavesAt trap w j) (hw : accepting ↔ w ∈ e.language) :
    Outcome e trap w [.complete (if accepting then .recognized else .notRecognized) s] := by
  have hstays : ∀ i, ¬ e.LeavesAt trap w i :=
    fun i hi => hbefore i (Expr.lt_length_of_leavesAt hi) hi
  split
  · rename_i haccepting
    exact Outcome.recognized s hstays (hw.mp haccepting) rfl
  · rename_i hnot
    exact Outcome.notRecognized s hstays (fun h => hnot (hw.mpr h)) rfl

end Outcome

/-!
# Runs of nondeterministic automata
-/

section Nfa

variable {n : Nfa} {e : Expr} (h : n.Recognizes e.language)

include h

theorem Nfa.outcome_stepsFrom (w u : List Char)
    (hbefore : ∀ j, j < u.length → ¬ e.LeavesAt false (u ++ w) j) :
    Outcome e false (u ++ w) (n.stepsFrom (n.run u) u.length w) := by
  induction w generalizing u with
  | nil =>
      rw [List.append_nil] at hbefore ⊢
      exact outcome_complete hbefore ((Nfa.anyAccepting_run h.wellFormed).trans (h.words u))
  | cons c w ih =>
      unfold stepsFrom
      split
      · rename_i hc
        have hc := h.mem_alphabet_iff.mp hc
        rw [← Nfa.run_append_singleton]
        have hleaves : e.LeavesAt false (u ++ c :: w) u.length ↔
            (n.run (u ++ [c])).isEmpty = true := by
          rw [Expr.leavesAt_length, SortedSet.isEmpty_iff, h.run_eq_empty_iff]
          simp [hc]
        dsimp only
        split
        · rename_i hempty
          exact outcome_aborted hbefore (hleaves.mpr hempty) hc rfl rfl
        · rename_i hnonempty
          have hrest := ih (u ++ [c])
            (not_leavesAt_append_singleton hbefore (fun hl => hnonempty (hleaves.mp hl)))
          rw [List.append_assoc, List.length_append] at hrest
          exact hrest.append [_, _]
      · rename_i hc
        exact outcome_unknown hbefore (fun hmem => hc (h.mem_alphabet_iff.mpr hmem))

end Nfa

/-!
# Runs of deterministic automata
-/

section Dfa

variable {d : Dfa} {e : Expr} {trap : Bool} (h : Dfa.Presents d e.language trap)

include h

/-- An edge is missing just when the word leaves the expression. -/
theorem Dfa.Presents.next_eq_none_iff {u w : List Char} {c : Char} {q : Nat}
    (hrun : d.run u = some q) (hc : c ∈ e.alphabet) :
    d.next q c = none ↔ e.LeavesAt trap (u ++ c :: w) u.length := by
  have hnext : d.next q c = none ↔ ¬ Runnable e.language trap (u ++ [c]) := by
    rw [← h.runs, Dfa.run_append_singleton, hrun, Option.bind_some]
    cases d.next q c with
    | none => simp
    | some t => simp
  rw [hnext, Expr.leavesAt_length]
  cases trap with
  | true =>
      have hrunnable : Runnable e.language true (u ++ [c]) := by
        intro b hb
        cases List.mem_append.mp hb with
        | inl hb => exact (h.runs u).mp ⟨q, hrun⟩ b hb
        | inr hb => exact List.mem_singleton.mp hb ▸ Expr.mem_alphabet_iff.mp hc
      simp [hrunnable, hc]
  | false => simp [Runnable, hc]

theorem Dfa.outcome_stepsFrom (w u : List Char) (q : Nat) (hrun : d.run u = some q)
    (hbefore : ∀ j, j < u.length → ¬ e.LeavesAt trap (u ++ w) j) :
    Outcome e trap (u ++ w) (d.stepsFrom q u.length w) := by
  induction w generalizing u q with
  | nil =>
      rw [List.append_nil] at hbefore ⊢
      apply outcome_complete hbefore
      rw [← h.words u]
      constructor
      · intro hq
        exact ⟨q, hq, hrun⟩
      · intro haccepts
        rcases haccepts with ⟨r, hr, hr_run⟩
        have hrq : r = q := Option.some.inj (hr_run.symm.trans hrun)
        exact hrq ▸ hr
  | cons c w ih =>
      unfold stepsFrom
      split
      · rename_i hc
        have hc := h.mem_alphabet_iff.mp hc
        have hleaves := h.next_eq_none_iff (w := w) hrun hc
        split
        · rename_i hnone
          exact outcome_aborted hbefore (hleaves.mp hnone) hc rfl rfl
        · rename_i t hnext
          have hstays : ¬ e.LeavesAt trap (u ++ c :: w) u.length := by
            rw [← hleaves, hnext]
            exact Option.some_ne_none t
          have hrun_next : d.run (u ++ [c]) = some t := by
            rw [Dfa.run_append_singleton, hrun]
            exact hnext
          have hrest := ih (u ++ [c]) t hrun_next (not_leavesAt_append_singleton hbefore hstays)
          rw [List.append_assoc, List.length_append] at hrest
          exact hrest.append [_, _]
      · rename_i hc
        exact outcome_unknown hbefore (fun hmem => hc (h.mem_alphabet_iff.mpr hmem))

end Dfa

/-!
# The automata of an expression
-/

/-- A machine that runs over the words of a language, and perhaps over others into a trap. -/
def Machine.Presents (L : Language Char) (trap : Bool) : Machine → Prop
  | .nfa n => n.Recognizes L ∧ trap = false
  | .dfa d => Dfa.Presents d L trap

theorem Machine.outcome_trace {m : Machine} {e : Expr} {trap : Bool}
    (h : m.Presents e.language trap) (input : String) :
    Outcome e trap input.toList (m.trace input).steps := by
  have hbefore : ∀ j, j < ([] : List Char).length → ¬ e.LeavesAt trap ([] ++ input.toList) j := by
    intro j hj
    exact absurd hj (Nat.not_lt_zero j)
  cases m with
  | nfa n =>
      rcases h with ⟨hn, rfl⟩
      exact (Nfa.outcome_stepsFrom hn input.toList [] hbefore).append [_, _]
  | dfa d => exact (Dfa.outcome_stepsFrom h input.toList [] d.start rfl hbefore).append [_, _]

def Member.keepsTrap (o : Options) : Member → Bool
  | .positions => false
  | .fragments => false
  | .dfa => o.dfaTrap
  | .minimal => o.minimalTrap

theorem Suite.presents_get (e : Expr) (o : Options) (m : Member) :
    ((Suite.ofExpr e o).get m).Presents e.language (m.keepsTrap o) := by
  cases m with
  | positions => exact ⟨Nfa.ofPositions_recognizes e, rfl⟩
  | fragments => exact ⟨Nfa.ofFragments_recognizes e, rfl⟩
  | dfa => exact Dfa.presents_ofSubsets (Nfa.ofPositions_recognizes e) o.dfaTrap
  | minimal =>
      exact Dfa.presents_quotient
        (Dfa.presents_ofSubsets (Nfa.ofFragments_recognizes e) o.minimalTrap)

def Plan.keepsTrap (p : Plan) : Bool := p.determinization.any Determinization.trap

theorem Plan.presents_build (e : Expr) (p : Plan) :
    (p.build e).Presents e.language p.keepsTrap := by
  rcases p with ⟨construction, determinization⟩
  have hrecognizes := construction.build_recognizes e
  cases determinization with
  | none => exact ⟨hrecognizes, rfl⟩
  | some q => exact q.presents_build hrecognizes

/-- How the trace of a word ends: completely, if the word stays in the expression, and else
at the place where it first leaves.  There it meets an unknown symbol, or it is aborted,
which does not happen where there is a trap. -/
structure Trace.EndsAs (t : Trace) (e : Expr) (trap : Bool) (w : List Char) : Prop where
  completed : (∀ i, ¬ e.LeavesAt trap w i) →
    (w ∈ e.language ∧ t.status = some .recognized) ∨
      (w ∉ e.language ∧ t.status = some .notRecognized)
  unknown : ∀ i c, e.FirstLeavesAt trap w i → w[i]? = some c → c ∉ e.alphabet →
    t.steps.getLast? = some (.error i c) ∧ t.status = none
  aborted : ∀ i c, e.FirstLeavesAt trap w i → w[i]? = some c → c ∈ e.alphabet →
    t.status = some .immatureAbort ∧ Step.lastTransition? t.steps = some i
  not_aborted : trap = true → t.status ≠ some .immatureAbort

theorem Trace.status_of_complete {t : Trace} {status : Status} {s : SortedSet Nat}
    (hlast : t.steps.getLast? = some (.complete status s)) : t.status = some status := by
  rw [Trace.status, hlast]

theorem Trace.endsAs_of_outcome {t : Trace} {e : Expr} {trap : Bool} {w : List Char}
    (h : Outcome e trap w t.steps) : t.EndsAs e trap w := by
  cases h with
  | recognized s hstays hw hlast =>
      have hstatus := Trace.status_of_complete hlast
      exact ⟨fun _ => Or.inl ⟨hw, hstatus⟩, fun i c hi => absurd hi.1 (hstays i),
        fun i c hi => absurd hi.1 (hstays i), by simp [hstatus]⟩
  | notRecognized s hstays hw hlast =>
      have hstatus := Trace.status_of_complete hlast
      exact ⟨fun _ => Or.inr ⟨hw, hstatus⟩, fun i c hi => absurd hi.1 (hstays i),
        fun i c hi => absurd hi.1 (hstays i), by simp [hstatus]⟩
  | unknown i c hi hc hc_outside hlast =>
      have hstatus : t.status = none := by
        rw [Trace.status, hlast]
      refine ⟨fun hstays => absurd hi.1 (hstays i), ?_, ?_, by simp [hstatus]⟩
      · intro j b hj hb _
        rcases hi.symbol_unique hj hc hb with ⟨rfl, rfl⟩
        exact ⟨hlast, hstatus⟩
      · intro j b hj hb hb_mem
        rcases hi.symbol_unique hj hc hb with ⟨rfl, rfl⟩
        exact absurd hb_mem hc_outside
  | aborted i c s hi hc hc_mem hlast htransition =>
      refine ⟨fun hstays => absurd hi.1 (hstays i), ?_, ?_, ?_⟩
      · intro j b hj hb hb_outside
        rcases hi.symbol_unique hj hc hb with ⟨rfl, rfl⟩
        exact absurd hc_mem hb_outside
      · intro j b hj hb _
        rcases hi.symbol_unique hj hc hb with ⟨rfl, rfl⟩
        exact ⟨Trace.status_of_complete hlast, htransition⟩
      · rintro rfl
        rcases hi.1 with ⟨b, hb, hb_outside | ⟨htrap, _⟩⟩
        · rcases hi.symbol_unique hi hc hb with ⟨_, rfl⟩
          exact absurd hc_mem hb_outside
        · cases htrap

/-- The language alone decides how the traces of all four automata end. -/
theorem Suite.trace_endsAs (e : Expr) (o : Options) (m : Member) (input : String) :
    (((Suite.ofExpr e o).get m).trace input).EndsAs e (m.keepsTrap o) input.toList :=
  Trace.endsAs_of_outcome (Machine.outcome_trace (Suite.presents_get e o m) input)

end Recognizer
