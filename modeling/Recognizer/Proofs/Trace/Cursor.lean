import Recognizer.Proofs.Trace.Fits

/-!
# Looking through a recorded run

The place that a move aims at is a whole number, and it may lie in front of the first step
or behind the last one.  A cursor that once stands on a step stays on steps: a move is
refused when there is no step where it aims, and otherwise it shows the step there.  A trace
can be kept outside between two moves.
-/

namespace Recognizer

namespace Trace

variable {t : Trace} {m : Move} {moves : List Move} {place : UInt64} {s : Step}

def aim (t : Trace) : Move → Int
  | .forward => t.cursor.toNat + 1
  | .back => t.cursor.toNat - 1
  | .seek place => place.toNat
  | .current => t.cursor.toNat

def HasStepAt (t : Trace) (place : Int) : Prop := 0 ≤ place ∧ place < t.steps.length

/-- What a move does and answers.  It is refused, and nothing changes, or the cursor goes
where the move aims and the step there is shown. -/
inductive Answers (t : Trace) (m : Move) : Trace × Except OutOfRange (Option Step) → Prop where
  | refused : ¬ t.HasStepAt (t.aim m) → Answers t m (t, .ok none)
  | shown {place : UInt64} {s : Step} : t.aim m = place.toNat →
      t.steps[place.toNat]? = some s → Answers t m ({ t with cursor := place }, .ok (some s))

def after (t : Trace) (moves : List Move) : Trace := moves.foldl (fun t m => (t.move m).1) t

/-- The cursor stands on a step. -/
def OnStep (t : Trace) : Prop := t.cursor.toNat < t.steps.length

instance (t : Trace) : Decidable t.OnStep :=
  inferInstanceAs (Decidable (t.cursor.toNat < t.steps.length))

/-- The trace can be looked through: what was recorded never changes, the cursor stands on a
step after any moves, and then each move does what it should.  It can be written and read
again at any time, if its numbers fit. -/
structure Replays (t : Trace) : Prop where
  input : ∀ moves, (t.after moves).input = t.input
  steps : ∀ moves, (t.after moves).steps = t.steps
  onStep : ∀ moves, (t.after moves).OnStep
  answers : ∀ moves m, (t.after moves).Answers m ((t.after moves).move m)
  readBack : t.Fits → ∀ moves, decode? (t.after moves).encode = some (t.after moves)

/-!
# One move
-/

theorem move_of_refused (h : t.destination m = none) : t.move m = (t, .ok none) := by
  rw [move, h]

theorem move_of_destination (h : t.destination m = some place) :
    t.move m = ({ t with cursor := place },
      ({ t with cursor := place } : Trace).current.map some) := by
  rw [move, h]

theorem current_eq_ok (h : t.steps[t.cursor.toNat]? = some s) : t.current = .ok s := by
  rw [current, h]

/-- No move changes what was recorded, even if it leads away from all steps. -/
theorem move_recorded (t : Trace) (m : Move) :
    (t.move m).1.input = t.input ∧ (t.move m).1.steps = t.steps := by
  cases h : t.destination m with
  | none =>
      rw [move_of_refused h]
      exact ⟨rfl, rfl⟩
  | some place =>
      rw [move_of_destination h]
      exact ⟨rfl, rfl⟩

theorem destination_seek (t : Trace) (place : UInt64) :
    t.destination (.seek place) = if place.toNat < t.steps.length then some place else none := rfl

theorem OnStep.toNat_succ (h : t.OnStep) (hsize : t.steps.length < UInt64.size) :
    (t.cursor + 1).toNat = t.cursor.toNat + 1 := by
  rw [UInt64.toNat_add]
  exact Nat.mod_eq_of_lt (Nat.lt_of_le_of_lt h hsize)

theorem OnStep.isAtEnd_iff (h : t.OnStep) (hsize : t.steps.length < UInt64.size) :
    t.isAtEnd = true ↔ t.cursor.toNat + 1 = t.steps.length := by
  rw [isAtEnd, h.toNat_succ hsize, decide_eq_true_iff]

theorem OnStep.not_hasStepAt (h : t.OnStep) (hsize : t.steps.length < UInt64.size)
    (hm : t.destination m = none) : ¬ t.HasStepAt (t.aim m) := by
  rintro ⟨hleast, hlast⟩
  cases m with
  | forward =>
      have hend : t.isAtEnd = true := by_contra fun hne => nomatch ite_eq_left_iff.mp hm hne
      rw [h.isAtEnd_iff hsize] at hend
      exact Int.lt_irrefl _ (hend ▸ hlast)
  | back =>
      have hfirst : t.cursor = 0 := by_contra fun hne => nomatch ite_eq_left_iff.mp hm hne
      simp [aim, hfirst] at hleast
  | seek place =>
      exact nomatch ite_eq_right_iff.mp hm (Int.ofNat_lt.mp hlast)
  | current => cases hm

theorem OnStep.aim_eq (h : t.OnStep) (hsize : t.steps.length < UInt64.size)
    (hm : t.destination m = some place) :
    t.aim m = place.toNat ∧ place.toNat < t.steps.length := by
  have hlt : t.cursor.toNat < t.steps.length := h
  cases m with
  | forward =>
      rcases Option.ite_none_left_eq_some.mp hm with ⟨hend, heq⟩
      cases heq
      rw [h.isAtEnd_iff hsize] at hend
      rw [h.toNat_succ hsize]
      exact ⟨rfl, Nat.lt_of_le_of_ne hlt hend⟩
  | back =>
      rcases Option.ite_none_left_eq_some.mp hm with ⟨hfirst, heq⟩
      cases heq
      have hpos : t.cursor.toNat ≠ 0 := fun hzero => hfirst (UInt64.toNat.inj hzero)
      have hone : 1 ≤ t.cursor := UInt64.le_iff_toNat_le.mpr (Nat.pos_of_ne_zero hpos)
      rw [UInt64.toNat_sub_of_le _ _ hone]
      exact ⟨(Int.ofNat_sub (Nat.pos_of_ne_zero hpos)).symm, Nat.lt_of_le_of_lt (Nat.sub_le _ _) h⟩
  | seek sought =>
      rcases Option.ite_none_right_eq_some.mp hm with ⟨hplace, heq⟩
      cases heq
      exact ⟨rfl, hplace⟩
  | current =>
      cases hm
      exact ⟨rfl, h⟩

theorem OnStep.answers (h : t.OnStep) (hsize : t.steps.length < UInt64.size) (m : Move) :
    t.Answers m (t.move m) := by
  cases hm : t.destination m with
  | none =>
      rw [move_of_refused hm]
      exact .refused (h.not_hasStepAt hsize hm)
  | some place =>
      rcases h.aim_eq hsize hm with ⟨haim, hplace⟩
      have hshown := List.getElem?_eq_getElem hplace
      rw [move_of_destination hm, current_eq_ok hshown]
      exact .shown haim hshown

theorem Answers.onStep {result : Trace × Except OutOfRange (Option Step)}
    (hresult : t.Answers m result) (h : t.OnStep) : result.1.OnStep := by
  cases hresult with
  | refused => exact h
  | shown _ hs => exact (List.getElem?_eq_some_iff.mp hs).1

/-- From anywhere, a place that is found brings the cursor back to the steps. -/
theorem onStep_of_sought (h : (t.move (.seek place)).2 = .ok (some s)) :
    (t.move (.seek place)).1.OnStep := by
  by_cases hplace : place.toNat < t.steps.length
  · rw [move_of_destination ((destination_seek t place).trans (if_pos hplace))]
    exact hplace
  · rw [move_of_refused ((destination_seek t place).trans (if_neg hplace))] at h
    cases h

/-!
# Any number of moves
-/

theorem after_append (t : Trace) (moves later : List Move) :
    t.after (moves ++ later) = (t.after moves).after later := List.foldl_append

theorem after_recorded (t : Trace) (moves : List Move) :
    (t.after moves).input = t.input ∧ (t.after moves).steps = t.steps := by
  induction moves generalizing t with
  | nil => exact ⟨rfl, rfl⟩
  | cons m moves ih =>
      rcases move_recorded t m with ⟨hinput, hsteps⟩
      rcases ih (t.move m).1 with ⟨ihinput, ihsteps⟩
      exact ⟨ihinput.trans hinput, ihsteps.trans hsteps⟩

theorem OnStep.after (h : t.OnStep) (hsize : t.steps.length < UInt64.size) (moves : List Move) :
    (t.after moves).OnStep := by
  induction moves generalizing t with
  | nil => exact h
  | cons m moves ih =>
      have hmoved : (t.move m).1.steps.length < UInt64.size := by
        rwa [(move_recorded t m).2]
      exact ih ((h.answers hsize m).onStep h) hmoved

theorem OnStep.replays (h : t.OnStep) (hsize : t.steps.length < UInt64.size) : t.Replays where
  input moves := (after_recorded t moves).1
  steps moves := (after_recorded t moves).2
  onStep moves := h.after hsize moves
  answers moves m := by
    have hsize' : (t.after moves).steps.length < UInt64.size := by
      rwa [(after_recorded t moves).2]
    exact (h.after hsize moves).answers hsize' m
  readBack hfits moves := by
    apply decode?_encode
    rw [Fits, (after_recorded t moves).2]
    exact hfits

theorem onStep_trace (m : Machine) (input : String) : (m.trace input).OnStep := by
  cases m with
  | nfa n => exact Nat.succ_pos _
  | dfa d => exact Nat.succ_pos _

/-!
# Traces that were recorded or read
-/

/-- A run that was recorded can be looked through, and written and read on the way if the
automaton is that of an expression.  So can a trace that was read with its cursor on a step;
if the cursor was elsewhere, this holds as soon as a place was sought and found, whatever was
tried before.  The steps are as many as their places can count. -/
theorem replays_recorded_and_read :
    (∀ (m : Machine) (input : String), (m.trace input).steps.length < UInt64.size →
      (m.trace input).Replays) ∧
    (∀ (e : Expr) (p : Plan) (input : String),
      (p.build e).definition.states.size ≤ Nat.pow 2 32 →
        ((p.build e).trace input).steps.length < UInt64.size → ((p.build e).trace input).Fits) ∧
    ∀ (d : Document) (t : Trace), decode? d = some t → t.steps.length < UInt64.size →
      t.Fits ∧ (t.OnStep → t.Replays) ∧
        ∀ (moves : List Move) (place : UInt64) (s : Step),
          ((t.after moves).move (.seek place)).2 = .ok (some s) →
            (t.after (moves ++ [.seek place])).Replays := by
  refine ⟨fun m input => (onStep_trace m input).replays, fun e p _ => p.fits_trace_build e, ?_⟩
  intro d t hread hsize
  refine ⟨fits_of_decode? hread, fun h => h.replays hsize, ?_⟩
  intro moves place s hfound
  have hsame : (t.after (moves ++ [.seek place])).steps = t.steps :=
    (after_recorded t _).2
  rw [after_append] at hsame ⊢
  refine OnStep.replays (onStep_of_sought hfound) ?_
  rwa [hsame]

/-- A run on one letter, and a trace of two steps that was read: with its cursor on the
second one, and with its cursor far behind both, from where a step back finds nothing. -/
theorem replays_recorded_and_read_strayed :
    let m := Plan.build (.letter ⟨none, 'a'⟩) ⟨.positions, none⟩
    let run := fun cursor : Int => Document.record [("input", .text "a"),
      ("steps", .list [.record [("kind", .text "state"), ("states", .list [.integer 0])],
        .record [("kind", .text "error"), ("index", .integer 0), ("symbol", .text "a")]]),
      ("cursor", .integer cursor)]
    let t := fun cursor : UInt64 =>
      (⟨"a", [.state none (.singleton 0), .error 0 'a'], cursor⟩ : Trace)
    ((m.trace "a").Replays ∧ (m.trace "a").Fits) ∧
      (decode? (run 1) = some (t 1) ∧ (t 1).Replays) ∧
      decode? (run 7) = some (t 7) ∧ (t 7).move .back = (t 6, .error ⟨2, 6⟩) ∧
        ((t 7).after [.back, .seek 0]).Replays := by
  intro m run t
  have hplaces : (m.trace "a").steps.length < UInt64.size := by decide +kernel
  have hstates : m.definition.states.size ≤ Nat.pow 2 32 := by decide +kernel
  have hfirst : decode? (run 1) = some (t 1) := rfl
  have hfar : decode? (run 7) = some (t 7) := rfl
  have hstrayed : (t 7).move .back = (t 6, .error ⟨2, 6⟩) := by cbv
  refine ⟨⟨replays_recorded_and_read.1 m "a" hplaces, ?_⟩, ⟨hfirst, ?_⟩, hfar, hstrayed, ?_⟩
  · exact replays_recorded_and_read.2.1 _ _ "a" hstates hplaces
  · exact (replays_recorded_and_read.2.2 _ _ hfirst (by decide)).2.1 (by decide)
  · exact (replays_recorded_and_read.2.2 _ _ hfar (by decide)).2.2 [.back] 0 _ rfl

end Trace

end Recognizer
