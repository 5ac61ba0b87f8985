import Recognizer.Automaton.Basic

/-!
# States known by their places

Every automaton of the library lists its states in the order of their ids, which
count from zero.  Tables with an entry for each state say where edges come from.
-/

namespace Recognizer

namespace State

/-- The id of every state is the place at which it stands. -/
def InPlace (states : Array State) : Prop :=
  states.toList.map State.id = List.range states.size

instance (states : Array State) : Decidable (InPlace states) :=
  inferInstanceAs (Decidable (_ = _))

@[simp] theorem size_numbered (labels : List String) : (numbered labels).size = labels.length := by
  simp [numbered]

theorem numbered_append_singleton (labels : List String) (label : String) :
    numbered (labels ++ [label]) = (numbered labels).push ⟨labels.length, label⟩ := by
  simp [numbered]

theorem inPlace_numbered (labels : List String) : InPlace (numbered labels) := by
  unfold InPlace
  rw [size_numbered]
  apply List.ext_getElem?
  intro i
  by_cases hi : i < labels.length
  · simp [numbered, hi]
  · simp [numbered, hi]

end State

/-!
# Tables filled from a list

Each element of the list puts a number in front of one entry of the table.
-/

section Tables

variable {α : Type} {size : Nat} (key value : α → Nat) (xs : List α)

theorem size_foldr_modify :
    (xs.foldr (fun x table => table.modify (key x) (value x :: ·))
      (Array.replicate size ([] : List Nat))).size = size := by
  induction xs with
  | nil => exact Array.size_replicate
  | cons x xs ih => rw [List.foldr_cons, Array.size_modify, ih]

theorem getElem?_foldr_modify {t : Nat} (ht : t < size) :
    (xs.foldr (fun x table => table.modify (key x) (value x :: ·))
      (Array.replicate size ([] : List Nat)))[t]? =
        some ((xs.filter (fun x => key x = t)).map value) := by
  induction xs with
  | nil => simp [ht]
  | cons x xs ih =>
      rw [List.foldr_cons, Array.getElem?_modify, ih, List.filter_cons]
      by_cases hx : key x = t
      · simp [hx]
      · simp [hx]

theorem mem_foldr_modify {t p : Nat} (ht : t < size) :
    p ∈ (xs.foldr (fun x table => table.modify (key x) (value x :: ·))
      (Array.replicate size ([] : List Nat))).getD t [] ↔ ∃ x ∈ xs, key x = t ∧ value x = p := by
  rw [Array.getD_eq_getD_getElem?, getElem?_foldr_modify key value xs ht]
  simp [and_assoc]

end Tables

end Recognizer
