import Recognizer.SortedSet

/-!
# Sorted maps

Finite partial functions on an ordered type of keys, kept as lists of pairs with
strictly increasing keys.  A deterministic automaton keeps the edges of each
state in such a map, so a state has at most one edge for a symbol.
-/

namespace Recognizer

variable {κ ν : Type}

/-- A finite partial function, kept as a list of pairs with strictly increasing keys. -/
structure SortedMap (κ ν : Type) [Ord κ] where
  toList : List (κ × ν)
  increasing : toList.Pairwise (fun a b => compare a.1 b.1 = .lt)

namespace SortedMap

variable [Ord κ]

instance [DecidableEq κ] [DecidableEq ν] : DecidableEq (SortedMap κ ν) := fun m n =>
  decidable_of_iff (m.toList = n.toList)
    ⟨fun h => by cases m; cases n; cases h; rfl, fun h => h ▸ rfl⟩

def get? [DecidableEq κ] (m : SortedMap κ ν) (k : κ) : Option ν :=
  (m.toList.find? (fun entry => entry.1 = k)).map Prod.snd

def size (m : SortedMap κ ν) : Nat := m.toList.length

/-- The graph of a partial function on a set of keys. -/
def tabulate (keys : SortedSet κ) (f : κ → Option ν) : SortedMap κ ν where
  toList := keys.toList.filterMap (fun k => (f k).map (fun v => (k, v)))
  increasing := by
    refine List.Pairwise.filterMap _ ?_ keys.increasing
    intro a b hab p hp q hq
    obtain ⟨v, _, rfl⟩ := Option.map_eq_some_iff.mp hp
    obtain ⟨w, _, rfl⟩ := Option.map_eq_some_iff.mp hq
    exact hab

theorem mem_tabulate {keys : SortedSet κ} {f : κ → Option ν} {k : κ} {v : ν} :
    (k, v) ∈ (tabulate keys f).toList ↔ k ∈ keys ∧ f k = some v := by
  rw [tabulate, List.mem_filterMap]
  constructor
  · rintro ⟨c, hc, h⟩
    obtain ⟨w, hw, h⟩ := Option.map_eq_some_iff.mp h
    cases h
    exact ⟨hc, hw⟩
  · rintro ⟨hk, hf⟩
    exact ⟨k, hk, by simp [hf]⟩

section Laws

variable [DecidableEq κ] [Std.LawfulEqOrd κ]

theorem get?_eq_some_iff {m : SortedMap κ ν} {k : κ} {v : ν} :
    m.get? k = some v ↔ (k, v) ∈ m.toList := by
  obtain ⟨entries, increasing⟩ := m
  show (entries.find? _).map Prod.snd = some v ↔ (k, v) ∈ entries
  induction entries with
  | nil => simp
  | cons e entries ih =>
      have ⟨he, hentries⟩ := List.pairwise_cons.mp increasing
      rw [List.find?_cons, List.mem_cons]
      split
      · rename_i h
        have hk : e.1 = k := of_decide_eq_true h
        constructor
        · rintro h
          exact .inl (by rw [← hk]; injection h with h; rw [← h])
        · rintro (h | h)
          · rw [← h]; rfl
          · have := he _ h
            have : compare k k = .lt := hk ▸ this
            have := this.symm.trans Std.ReflOrd.compare_self
            cases this
      · rename_i h
        have hk : e.1 ≠ k := of_decide_eq_false h
        rw [ih hentries]
        constructor
        · exact .inr
        · rintro (h | h)
          · exact absurd (by rw [← h]) hk
          · exact h

theorem get?_tabulate {keys : SortedSet κ} {f : κ → Option ν} (k : κ) :
    (tabulate keys f).get? k = if k ∈ keys then f k else none := by
  apply Option.ext
  intro v
  rw [get?_eq_some_iff, mem_tabulate]
  split <;> simp_all

variable [Std.TransOrd κ] in
@[ext] theorem ext {m n : SortedMap κ ν} (h : ∀ k, m.get? k = n.get? k) : m = n := by
  have irrefl : ∀ a : κ, compare a a ≠ .lt := by
    intro a ha
    have := ha.symm.trans Std.ReflOrd.compare_self
    cases this
  have nodup : ∀ m : SortedMap κ ν, m.toList.Nodup := by
    intro m
    refine m.increasing.imp ?_
    rintro a _ hab rfl
    exact irrefl a.1 hab
  have mem : ∀ e, e ∈ m.toList ↔ e ∈ n.toList := by
    rintro ⟨k, v⟩
    rw [← get?_eq_some_iff, ← get?_eq_some_iff, h]
  have : m.toList = n.toList := by
    refine @List.Perm.eq_of_pairwise _ (fun a b => compare a.1 b.1 = .lt) _ _ ?_
      m.increasing n.increasing
      ((List.perm_ext_iff_of_nodup (nodup m) (nodup n)).mpr mem)
    intro a b _ _ hab hba
    exact absurd (Std.TransCmp.lt_trans hab hba) (irrefl a.1)
  cases m
  cases n
  cases this
  rfl

end Laws

end SortedMap

end Recognizer
