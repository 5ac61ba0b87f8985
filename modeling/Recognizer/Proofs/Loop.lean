import Recognizer.Proofs.Search
import Mathlib.Data.Nat.Find

/-!
# The turns of a loop

A bound on a loop only says that it ends.  How many turns it takes is the least bound with
which it ends, and from there on a greater bound changes nothing.  A loop that is kept in
another form takes the same turns.
-/

namespace Recognizer

section Turns

variable {σ τ : Type} {finished : σ → Bool} {step : σ → σ} {I : σ → Prop} {start : σ}
  {turns bound k : Nat}

theorem repeatUntil_succ (k : Nat) (s : σ) :
    repeatUntil finished step (k + 1) s =
      if finished (repeatUntil finished step k s) then repeatUntil finished step k s
      else step (repeatUntil finished step k s) := by
  induction k generalizing s with
  | zero => rfl
  | succ k ih =>
      by_cases hs : finished s = true
      · have hstays : ∀ j, repeatUntil finished step j s = s := by
          intro j
          cases j with
          | zero => rfl
          | succ j => exact if_pos hs
        rw [hstays, hstays, if_pos hs]
      · have hgoes : ∀ j, repeatUntil finished step (j + 1) s =
            repeatUntil finished step j (step s) := fun j => if_neg hs
        rw [hgoes, hgoes]
        exact ih (step s)

/-- The loop goes on for a number of turns and then has ended. -/
structure TakesTurns (finished : σ → Bool) (step : σ → σ) (start : σ) (turns : Nat) : Prop where
  unfinished : ∀ k, k < turns → finished (repeatUntil finished step k start) = false
  finished : finished (repeatUntil finished step turns start) = true

theorem exists_takesTurns (h : finished (repeatUntil finished step bound start) = true) :
    ∃ turns, turns ≤ bound ∧ TakesTurns finished step start turns := by
  let ended (k : Nat) : Prop := finished (repeatUntil finished step k start) = true
  have hended : ∃ k, ended k := ⟨bound, h⟩
  refine ⟨Nat.find hended, Nat.find_min' hended h, fun k hk => ?_, Nat.find_spec hended⟩
  exact Bool.eq_false_iff.mpr (Nat.find_min hended hk)

namespace TakesTurns

variable (h : TakesTurns finished step start turns)

include h

theorem eq_of_le (hk : turns ≤ k) :
    repeatUntil finished step k start = repeatUntil finished step turns start := by
  induction k with
  | zero => rw [Nat.le_zero.mp hk]
  | succ k ih =>
      by_cases hlt : turns ≤ k
      · rw [repeatUntil_succ, ih hlt, if_pos h.finished]
      · rw [Nat.le_antisymm hk (Nat.lt_of_not_le hlt)]

theorem finished_iff (k : Nat) :
    finished (repeatUntil finished step k start) = true ↔ turns ≤ k := by
  constructor
  · intro hfinished
    by_contra hk
    rw [h.unfinished k (Nat.lt_of_not_le hk)] at hfinished
    cases hfinished
  · intro hk
    rw [h.eq_of_le hk]
    exact h.finished

theorem count_eq (count : σ → Nat) (hstart : I start)
    (hstep : ∀ s, I s → finished s = false → I (step s) ∧ count (step s) = count s + 1) (k : Nat) :
    count (repeatUntil finished step k start) = count start + min k turns := by
  have hI : ∀ k, I (repeatUntil finished step k start) := fun k =>
    repeatUntil_invariant (fun s hs hfinished => (hstep s hs hfinished).1) k hstart
  induction k with
  | zero => simp [repeatUntil]
  | succ k ih =>
      rw [repeatUntil_succ]
      split
      · rename_i hfinished
        have hk := (h.finished_iff k).mp hfinished
        rw [ih, Nat.min_eq_right hk, Nat.min_eq_right (Nat.le_succ_of_le hk)]
      · rename_i hfinished
        have hk : k < turns := Nat.lt_of_not_le fun hk => hfinished ((h.finished_iff k).mpr hk)
        rw [(hstep _ (hI k) (Bool.eq_false_iff.mpr hfinished)).2, ih,
          Nat.min_eq_left (Nat.le_of_lt hk), Nat.min_eq_left hk]
        rfl

end TakesTurns

theorem repeatUntil_map {finished' : τ → Bool} {step' : τ → τ} (f : σ → τ)
    (hfinished : ∀ s, I s → finished' (f s) = finished s)
    (hstep : ∀ s, I s → finished s = false → I (step s) ∧ step' (f s) = f (step s))
    (hstart : I start) (k : Nat) :
    repeatUntil finished' step' k (f start) = f (repeatUntil finished step k start) := by
  have hI : ∀ k, I (repeatUntil finished step k start) := fun k =>
    repeatUntil_invariant (fun s hs hs' => (hstep s hs hs').1) k hstart
  induction k with
  | zero => rfl
  | succ k ih =>
      rw [repeatUntil_succ, repeatUntil_succ, ih, hfinished _ (hI k)]
      split
      · rfl
      · rename_i hgoes
        exact (hstep _ (hI k) (Bool.eq_false_iff.mpr hgoes)).2

end Turns

end Recognizer
