import Recognizer.Automaton.StateTable
import Recognizer.Proofs.Search
import Recognizer.SortedMap

/-!
# Checked look-ups

Where a table has no entry for a number, or a list no place for an element, the functions
of the library go on with something that stands in for it.  The functions in this part of
the library are the same ones with every look-up checked: they stop at the first thing
that is not there.  That they answer what the others answer means that everything is there.
-/

namespace Recognizer

section Results

variable {ε α β : Type}

@[simp] theorem ok_bind (a : α) (f : α → Except ε β) : (Except.ok a >>= f) = f a := rfl

@[simp] theorem ok_map (a : α) (f : α → β) : (Except.ok a : Except ε α).map f = .ok (f a) := rfl

@[simp] theorem pure_eq_ok (a : α) : (pure a : Except ε α) = .ok a := rfl

end Results

/-!
# Lists
-/

section Lists

variable {ε α β σ : Type} {xs : List α}

theorem mapM_eq_ok {f : α → Except ε β} {g : α → β} (h : ∀ x ∈ xs, f x = .ok (g x)) :
    xs.mapM f = .ok (xs.map g) := by
  induction xs with
  | nil => rfl
  | cons x xs ih =>
      rw [List.mapM_cons, h x List.mem_cons_self,
        ih (fun y hy => h y (List.mem_cons_of_mem x hy))]
      rfl

theorem foldlM_eq_ok {f : σ → α → Except ε σ} {g : σ → α → σ} {I : σ → Prop}
    (h : ∀ s x, I s → x ∈ xs → f s x = .ok (g s x) ∧ I (g s x)) {s : σ} (hs : I s) :
    xs.foldlM f s = .ok (xs.foldl g s) ∧ I (xs.foldl g s) := by
  induction xs generalizing s with
  | nil => exact ⟨rfl, hs⟩
  | cons x xs ih =>
      have hx := h s x hs List.mem_cons_self
      rw [List.foldlM_cons, hx.1]
      exact ih (fun t y ht hy => h t y ht (List.mem_cons_of_mem x hy)) hx.2

theorem foldrM_eq_ok {f : α → σ → Except ε σ} {g : α → σ → σ} {I : σ → Prop}
    (h : ∀ s x, I s → x ∈ xs → f x s = .ok (g x s) ∧ I (g x s)) {s : σ} (hs : I s) :
    xs.foldrM f s = .ok (xs.foldr g s) ∧ I (xs.foldr g s) := by
  induction xs with
  | nil => exact ⟨rfl, hs⟩
  | cons x xs ih =>
      have hrest := ih (fun t y ht hy => h t y ht (List.mem_cons_of_mem x hy))
      rw [List.foldrM_cons, hrest.1]
      exact h _ x hrest.2 List.mem_cons_self

theorem filterM_eq_ok {p : α → Except ε Bool} {q : α → Bool} (h : ∀ x ∈ xs, p x = .ok (q x)) :
    xs.filterM p = .ok (xs.filter q) := by
  have haux : ∀ before, xs.filterAuxM p before = .ok ((xs.filter q).reverse ++ before) := by
    induction xs with
    | nil => exact fun _ => rfl
    | cons x xs ih =>
        intro before
        have hrest := ih (fun y hy => h y (List.mem_cons_of_mem x hy))
        rw [List.filterAuxM, h x List.mem_cons_self, List.filter_cons]
        cases q x with
        | true =>
            rw [if_pos rfl, List.reverse_cons, List.append_assoc]
            exact hrest (x :: before)
        | false => exact hrest before
  rw [List.filterM, haux, ok_bind, List.append_nil, List.reverse_reverse, pure_eq_ok]

theorem filterMapM_eq_ok {f : α → Except ε (Option β)} {g : α → Option β}
    (h : ∀ x ∈ xs, f x = .ok (g x)) : xs.filterMapM f = .ok (xs.filterMap g) := by
  induction xs with
  | nil => rfl
  | cons x xs ih =>
      rw [List.filterMapM_cons, h x List.mem_cons_self, ok_bind, List.filterMap_cons,
        ih (fun y hy => h y (List.mem_cons_of_mem x hy))]
      cases g x with
      | none => rfl
      | some b => rfl

theorem flatMapM_eq_ok {f : α → Except ε (List β)} {g : α → List β}
    (h : ∀ x ∈ xs, f x = .ok (g x)) : xs.flatMapM f = .ok (xs.flatMap g) := by
  induction xs with
  | nil => rfl
  | cons x xs ih =>
      rw [List.flatMapM_cons, h x List.mem_cons_self, ok_bind, List.flatMap_cons,
        ih (fun y hy => h y (List.mem_cons_of_mem x hy))]
      rfl

end Lists

/-!
# Entries and places
-/

section Places

variable {α : Type}

theorem entryAt_eq_ok_iff {table : Array α} {id : Nat} {a : α} :
    entryAt table id = .ok a ↔ table[id]? = some a := by
  unfold entryAt
  split
  · rename_i b hb
    rw [hb, Except.ok.injEq, Option.some_inj]
  · rename_i hnone
    rw [hnone]
    simp

theorem entryAt_getElem {table : Array α} {id : Nat} (h : id < table.size) :
    entryAt table id = .ok table[id] :=
  entryAt_eq_ok_iff.mpr (Array.getElem?_eq_getElem h)

theorem map_entryAt {β : Type} {table : Array α} {id : Nat} (h : id < table.size) (f : α → β) :
    (entryAt table id).map f = .ok (f table[id]) := by
  rw [entryAt_getElem h]
  rfl

theorem entryAt_getD {table : Array α} {id : Nat} (h : id < table.size) (fallback : α) :
    entryAt table id = .ok (table.getD id fallback) := by
  rw [entryAt_getElem h, Array.getD_eq_getD_getElem?, Array.getElem?_eq_getElem h]
  rfl

theorem map_range_getD {β : Type} (f : Nat → α → β) (xs : List α) (fallback : α) :
    (List.range xs.length).map (fun i => f i (xs.getD i fallback)) = xs.mapIdx f := by
  apply List.ext_getElem?
  intro i
  by_cases hi : i < xs.length
  · simp [hi]
  · simp [hi]

theorem entryAt_toArray {xs : List α} {i : Nat} (h : i < xs.length) (fallback : α) :
    entryAt xs.toArray i = .ok (xs.getD i fallback) := by
  rw [entryAt_getD (by rwa [List.size_toArray]) fallback, Array.getD_eq_getD_getElem?,
    List.getElem?_toArray, List.getD_eq_getElem?_getD]

theorem mapM_entryAt_range [Inhabited α] (xs : List α) :
    (List.range xs.length).mapM (fun i => entryAt xs.toArray i) = .ok xs := by
  rw [mapM_eq_ok (fun i hi => entryAt_toArray (List.mem_range.mp hi) default),
    map_range_getD (fun _ a => a)]
  congr 1
  apply List.ext_getElem?
  intro i
  rw [List.getElem?_mapIdx, Option.map_id']

def placeOf [DecidableEq α] (xs : List α) (a : α) : Except OutOfRange Nat :=
  if a ∈ xs then .ok (xs.idxOf a) else .error ⟨xs.length, xs.idxOf a⟩

theorem placeOf_eq [DecidableEq α] {xs : List α} {a : α} (h : a ∈ xs) :
    placeOf xs a = .ok (xs.idxOf a) := if_pos h

def below (bound id : Nat) : Except OutOfRange Nat :=
  if id < bound then .ok id else .error ⟨bound, id⟩

theorem below_eq {bound id : Nat} (h : id < bound) : below bound id = .ok id := if_pos h

def consAtChecked (table : Array (List Nat)) (id p : Nat) : Except OutOfRange (Array (List Nat)) :=
  (entryAt table id).map fun _ => table.modify id (p :: ·)

theorem consAtChecked_eq {table : Array (List Nat)} {id : Nat} (h : id < table.size) (p : Nat) :
    consAtChecked table id p = .ok (table.modify id (p :: ·)) := map_entryAt h _

def labelsChecked (states : Array State) (qs : List Nat) : Except OutOfRange (List String) :=
  qs.mapM fun q => (entryAt states q).map State.label

theorem labelsChecked_eq {states : Array State} {qs : List Nat} (h : ∀ q ∈ qs, q < states.size) :
    labelsChecked states qs = .ok (qs.filterMap fun q => states[q]?.map State.label) := by
  induction qs with
  | nil => rfl
  | cons q qs ih =>
      have hq := h q List.mem_cons_self
      rw [labelsChecked, List.mapM_cons, map_entryAt hq, ok_bind, List.filterMap_cons,
        Array.getElem?_eq_getElem hq]
      have hrest := ih (fun p hp => h p (List.mem_cons_of_mem q hp))
      rw [labelsChecked] at hrest
      rw [hrest]
      rfl

end Places

def SortedMap.tabulateChecked {ε κ ν : Type} [Ord κ] (keys : SortedSet κ)
    (f : κ → Except ε (Option ν)) : Except ε (SortedMap κ ν) :=
  (keys.toList.mapM f).map fun _ => .tabulate keys fun k => (f k).toOption.join

theorem SortedMap.tabulateChecked_eq {ε κ ν : Type} [Ord κ] [DecidableEq κ] [Std.LawfulEqOrd κ]
    [Std.TransOrd κ] {keys : SortedSet κ} {f : κ → Except ε (Option ν)} {g : κ → Option ν}
    (h : ∀ k ∈ keys, f k = .ok (g k)) : tabulateChecked keys f = .ok (.tabulate keys g) := by
  have htable : tabulate keys (fun k => (f k).toOption.join) = tabulate keys g := by
    apply SortedMap.ext
    intro k
    rw [get?_tabulate, get?_tabulate]
    split
    · rename_i hk
      rw [h k hk]
      rfl
    · rfl
  rw [tabulateChecked, mapM_eq_ok h, ← htable]
  rfl

/-!
# Searches
-/

section Searches

variable {ε α σ : Type}

def repeatUntilChecked (finished : σ → Bool) (step : σ → Except ε σ) : Nat → σ → Except ε σ
  | 0, s => .ok s
  | bound + 1, s =>
      if finished s then .ok s else step s >>= repeatUntilChecked finished step bound

theorem repeatUntilChecked_eq {finished : σ → Bool} {stepChecked : σ → Except ε σ} {step : σ → σ}
    {I : σ → Prop} (hstep : ∀ s, I s → finished s = false → I (step s))
    (hchecked : ∀ s, I s → finished s = false → stepChecked s = .ok (step s))
    (bound : Nat) {s : σ} (hs : I s) :
    repeatUntilChecked finished stepChecked bound s = .ok (repeatUntil finished step bound s) := by
  induction bound generalizing s with
  | zero => rfl
  | succ bound ih =>
      unfold repeatUntilChecked repeatUntil
      split
      · rfl
      · rename_i hfinished
        have hfalse := Bool.eq_false_iff.mpr hfinished
        rw [hchecked s hs hfalse]
        exact ih (hstep s hs hfalse)

variable [DecidableEq α]

def Search.advanceChecked (successors : α → Except ε (List α)) (s : Search α) :
    Except ε (Search α) :=
  match s.found[s.taken]? with
  | none => .ok s
  | some a => (successors a).map fun next => ⟨next.foldl discover s.found, s.taken + 1⟩

def breadthFirstChecked (successors : α → Except ε (List α)) (bound : Nat) (seeds : List α) :
    Except ε (List α) :=
  (repeatUntilChecked Search.finished (Search.advanceChecked successors) bound
    (.ofSeeds seeds)).map fun s => s.found.toList

/-- A search looks at nothing but what can be reached. -/
theorem breadthFirstChecked_eq {successorsChecked : α → Except ε (List α)}
    {successors : α → List α} {seeds : List α}
    (h : ∀ a, Search.Reached successors seeds a → successorsChecked a = .ok (successors a))
    (bound : Nat) :
    breadthFirstChecked successorsChecked bound seeds =
      .ok (breadthFirst successors bound seeds) := by
  have hrun : repeatUntilChecked Search.finished (Search.advanceChecked successorsChecked) bound
      (.ofSeeds seeds) = .ok (Search.run successors bound seeds) := by
    apply repeatUntilChecked_eq (I := Search.Consistent successors seeds)
    · intro s hs hfinished
      exact (Search.consistent_advance hs hfinished).1
    · intro s hs _
      unfold Search.advanceChecked Search.advance
      cases ha : s.found[s.taken]? with
      | none => rfl
      | some a =>
          have hmem : a ∈ s.found.toList := Array.mem_toList_iff.mpr (Array.mem_of_getElem? ha)
          simp only [h a (hs.reached hmem)]
          rfl
    · exact Search.consistent_ofSeeds
  rw [breadthFirstChecked, hrun]
  rfl

end Searches

end Recognizer
