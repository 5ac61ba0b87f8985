/-!
# Sorted sets

Finite sets over an ordered type, kept as strictly increasing lists.  The order
is part of what the library shows: sets of states, symbols and letters are
listed, labelled and walked in increasing order.  Two sets with the same
members are equal, so equality of automata is equality of their parts.
-/

namespace Recognizer

variable {α β : Type}

/-- Lists with the same elements are the same list if one order, in which no two of them
come before each other, is that of both. -/
theorem eq_of_pairwise {r : α → α → Prop} {xs ys : List α}
    (hasymm : ∀ a ∈ xs, ∀ b ∈ xs, r a b → ¬ r b a) (hxs : xs.Pairwise r) (hys : ys.Pairwise r)
    (h : ∀ a, a ∈ xs ↔ a ∈ ys) : xs = ys := by
  have nodup : ∀ zs : List α, (∀ a ∈ zs, a ∈ xs) → zs.Pairwise r → zs.Nodup := by
    intro zs hmem hzs
    refine hzs.imp_of_mem ?_
    rintro a _ ha _ hab rfl
    exact hasymm a (hmem a ha) a (hmem a ha) hab hab
  refine List.Perm.eq_of_pairwise ?_ hxs hys ((List.perm_ext_iff_of_nodup
    (nodup xs (fun _ ha => ha) hxs) (nodup ys (fun a ha => (h a).mpr ha) hys)).mpr h)
  intro a b ha hb hab hba
  exact absurd hba (hasymm a ha b ((h b).mpr hb) hab)

/-- A finite set, kept as a strictly increasing list. -/
structure SortedSet (α : Type) [Ord α] where
  toList : List α
  increasing : toList.Pairwise (fun a b => compare a b = .lt)

namespace SortedSet

variable [Ord α] [Ord β]

instance [DecidableEq α] : DecidableEq (SortedSet α) := fun s t =>
  decidable_of_iff (s.toList = t.toList)
    ⟨fun h => by cases s; cases t; cases h; rfl, fun h => h ▸ rfl⟩

instance : Membership α (SortedSet α) := ⟨fun s a => a ∈ s.toList⟩

@[specialize]
instance [DecidableEq α] (a : α) (s : SortedSet α) : Decidable (a ∈ s) :=
  decidable_of_iff (s.toList.contains a = true) List.contains_iff_mem

theorem mem_toList {s : SortedSet α} {a : α} : a ∈ s.toList ↔ a ∈ s := Iff.rfl

/-!
# Lists that increase strictly
-/

abbrev Increasing (xs : List α) : Prop := xs.Pairwise (fun a b => compare a b = .lt)

@[specialize]
def insertList (a : α) : List α → List α
  | [] => [a]
  | x :: xs =>
      match compare a x with
      | .lt => a :: x :: xs
      | .eq => x :: xs
      | .gt => x :: insertList a xs

def mergeList (xs ys : List α) : List α :=
  match xs, ys with
  | [], ys => ys
  | xs, [] => xs
  | x :: xs, y :: ys =>
      match compare x y with
      | .lt => x :: mergeList xs (y :: ys)
      | .eq => x :: mergeList xs ys
      | .gt => y :: mergeList (x :: xs) ys
termination_by xs.length + ys.length

/-- Merging in front of elements that are already in place, the last of them first.
A loop: sets may be larger than the stack is deep. -/
@[specialize]
def mergeOnto (done xs ys : List α) : List α :=
  match xs, ys with
  | [], ys => done.reverse ++ ys
  | xs, [] => done.reverse ++ xs
  | x :: xs, y :: ys =>
      match compare x y with
      | .lt => mergeOnto (x :: done) xs (y :: ys)
      | .eq => mergeOnto (x :: done) xs ys
      | .gt => mergeOnto (y :: done) (x :: xs) ys
termination_by xs.length + ys.length

theorem mergeOnto_eq (done xs ys : List α) :
    mergeOnto done xs ys = done.reverse ++ mergeList xs ys := by
  fun_induction mergeList xs ys generalizing done with
  | case1 ys => simp [mergeOnto]
  | case2 xs h => cases xs <;> simp [mergeOnto]
  | case3 x xs y ys h ih => simp [mergeOnto, h, ih]
  | case4 x xs y ys h ih => simp [mergeOnto, h, ih]
  | case5 x xs y ys h ih => simp [mergeOnto, h, ih]

section Laws

variable [Std.LawfulEqOrd α]

theorem mem_insertList {a b : α} {xs : List α} :
    b ∈ insertList a xs ↔ b = a ∨ b ∈ xs := by
  induction xs with
  | nil => simp [insertList]
  | cons x xs ih =>
      simp only [insertList]
      split
      · simp
      · rename_i h
        have : a = x := Std.LawfulEqCmp.eq_of_compare h
        simp [this]
      · simp only [List.mem_cons, ih]
        exact or_left_comm

theorem mem_mergeList {b : α} {xs ys : List α} :
    b ∈ mergeList xs ys ↔ b ∈ xs ∨ b ∈ ys := by
  fun_induction mergeList xs ys with
  | case1 ys => simp
  | case2 xs h => simp
  | case3 x xs y ys h ih => simp [ih, or_assoc]
  | case4 x xs y ys h ih =>
      have : x = y := Std.LawfulEqCmp.eq_of_compare h
      subst this
      simp only [List.mem_cons, ih]
      constructor
      · rintro (h | h | h) <;> simp [h]
      · rintro ((h | h) | (h | h)) <;> simp [h]
  | case5 x xs y ys h ih =>
      simp only [List.mem_cons, ih]
      constructor
      · rintro (h | (h | h) | h) <;> simp [h]
      · rintro ((h | h) | (h | h)) <;> simp [h]

variable [Std.TransOrd α]

theorem increasing_insertList {a : α} {xs : List α} (h : Increasing xs) :
    Increasing (insertList a xs) := by
  induction xs with
  | nil => simp [insertList, Increasing]
  | cons x xs ih =>
      have ⟨hx, hxs⟩ := List.pairwise_cons.mp h
      simp only [insertList]
      split
      · rename_i hax
        refine List.pairwise_cons.mpr ⟨fun b hb => ?_, h⟩
        rcases List.mem_cons.mp hb with rfl | hb
        · exact hax
        · exact Std.TransCmp.lt_trans hax (hx b hb)
      · exact h
      · rename_i hax
        refine List.pairwise_cons.mpr ⟨fun b hb => ?_, ih hxs⟩
        rcases mem_insertList.mp hb with rfl | hb
        · exact Std.OrientedCmp.gt_iff_lt.mp hax
        · exact hx b hb

theorem increasing_mergeList {xs ys : List α} (hxs : Increasing xs) (hys : Increasing ys) :
    Increasing (mergeList xs ys) := by
  fun_induction mergeList xs ys with
  | case1 ys => exact hys
  | case2 xs h => exact hxs
  | case3 x xs y ys h ih =>
      have ⟨hx, hxs'⟩ := List.pairwise_cons.mp hxs
      have ⟨hy, _⟩ := List.pairwise_cons.mp hys
      refine List.pairwise_cons.mpr ⟨fun b hb => ?_, ih hxs' hys⟩
      cases mem_mergeList.mp hb with
      | inl hb =>
          exact hx b hb
      | inr hb =>
          rcases List.mem_cons.mp hb with rfl | hb
          · exact h
          · exact Std.TransCmp.lt_trans h (hy b hb)
  | case4 x xs y ys h ih =>
      have ⟨hx, hxs'⟩ := List.pairwise_cons.mp hxs
      have ⟨hy, hys'⟩ := List.pairwise_cons.mp hys
      have : x = y := Std.LawfulEqCmp.eq_of_compare h
      subst this
      refine List.pairwise_cons.mpr ⟨fun b hb => ?_, ih hxs' hys'⟩
      cases mem_mergeList.mp hb with
      | inl hb =>
          exact hx b hb
      | inr hb =>
          exact hy b hb
  | case5 x xs y ys h ih =>
      have ⟨hx, _⟩ := List.pairwise_cons.mp hxs
      have ⟨hy, hys'⟩ := List.pairwise_cons.mp hys
      have hyx : compare y x = .lt := Std.OrientedCmp.gt_iff_lt.mp h
      refine List.pairwise_cons.mpr ⟨fun b hb => ?_, ih hxs hys'⟩
      cases mem_mergeList.mp hb with
      | inl hb =>
          rcases List.mem_cons.mp hb with rfl | hb
          · exact hyx
          · exact Std.TransCmp.lt_trans hyx (hx b hb)
      | inr hb =>
          exact hy b hb

theorem eq_of_increasing {xs ys : List α} (hxs : Increasing xs) (hys : Increasing ys)
    (h : ∀ a, a ∈ xs ↔ a ∈ ys) : xs = ys := by
  refine eq_of_pairwise ?_ hxs hys h
  intro a _ b _ hab hba
  have haa := Std.TransCmp.lt_trans hab hba
  rw [Std.ReflOrd.compare_self] at haa
  cases haa

end Laws

/-!
# Sets
-/

def empty : SortedSet α := ⟨[], List.Pairwise.nil⟩

def singleton (a : α) : SortedSet α := ⟨[a], List.pairwise_singleton _ a⟩

def isEmpty (s : SortedSet α) : Bool := s.toList.isEmpty

def size (s : SortedSet α) : Nat := s.toList.length

def min? (s : SortedSet α) : Option α := s.toList.head?

def filter (p : α → Bool) (s : SortedSet α) : SortedSet α :=
  ⟨s.toList.filter p, s.increasing.filter p⟩

def range (n : Nat) : SortedSet Nat :=
  ⟨List.range n, List.pairwise_lt_range.imp (fun h => Nat.compare_eq_lt.mpr h)⟩

section Operations

variable [Std.LawfulEqOrd α] [Std.TransOrd α]

@[specialize]
def insert (s : SortedSet α) (a : α) : SortedSet α :=
  ⟨insertList a s.toList, increasing_insertList s.increasing⟩

@[specialize]
def union (s t : SortedSet α) : SortedSet α :=
  ⟨mergeOnto [] s.toList t.toList,
    by rw [mergeOnto_eq]; exact increasing_mergeList s.increasing t.increasing⟩

@[specialize]
def ofList (xs : List α) : SortedSet α := xs.foldr (fun a s => s.insert a) empty

@[specialize]
def image (f : β → α) (s : SortedSet β) : SortedSet α := ofList (s.toList.map f)

@[specialize]
def bind (s : SortedSet β) (f : β → SortedSet α) : SortedSet α :=
  s.toList.foldl (fun acc b => acc.union (f b)) empty

@[ext] theorem ext {s t : SortedSet α} (h : ∀ a, a ∈ s ↔ a ∈ t) : s = t := by
  have : s.toList = t.toList := eq_of_increasing s.increasing t.increasing h
  cases s
  cases t
  cases this
  rfl

@[simp] theorem mem_insert {s : SortedSet α} {a b : α} : b ∈ s.insert a ↔ b = a ∨ b ∈ s :=
  mem_insertList

@[simp] theorem mem_union {s t : SortedSet α} {a : α} : a ∈ s.union t ↔ a ∈ s ∨ a ∈ t := by
  show a ∈ mergeOnto [] s.toList t.toList ↔ _
  rw [mergeOnto_eq]
  exact mem_mergeList

@[simp] theorem mem_ofList {xs : List α} {a : α} : a ∈ ofList xs ↔ a ∈ xs := by
  induction xs with
  | nil => exact Iff.rfl
  | cons x xs ih =>
      show a ∈ (ofList xs).insert x ↔ _
      rw [mem_insert, ih, List.mem_cons]

@[simp] theorem mem_image {f : β → α} {s : SortedSet β} {a : α} :
    a ∈ s.image f ↔ ∃ b, b ∈ s ∧ f b = a := by
  rw [image, mem_ofList, List.mem_map]
  exact Iff.rfl

@[simp] theorem mem_bind {s : SortedSet β} {f : β → SortedSet α} {a : α} :
    a ∈ s.bind f ↔ ∃ b, b ∈ s ∧ a ∈ f b := by
  have general : ∀ (bs : List β) (acc : SortedSet α),
      a ∈ bs.foldl (fun acc b => acc.union (f b)) acc ↔
        a ∈ acc ∨ ∃ b, b ∈ bs ∧ a ∈ f b := by
    intro bs
    induction bs with
    | nil => simp
    | cons b bs ih =>
        intro acc
        simp only [List.foldl_cons, ih, mem_union, List.mem_cons]
        constructor
        · rintro ((h | h) | ⟨c, hc, h⟩)
          · exact .inl h
          · exact .inr ⟨b, .inl rfl, h⟩
          · exact .inr ⟨c, .inr hc, h⟩
        · rintro (h | ⟨c, rfl | hc, h⟩)
          · exact .inl (.inl h)
          · exact .inl (.inr h)
          · exact .inr ⟨c, hc, h⟩
  rw [bind, general]
  exact ⟨fun h => h.elim (fun h => nomatch h) id, .inr⟩

end Operations

@[simp] theorem not_mem_empty {a : α} : ¬ a ∈ (empty : SortedSet α) := by
  intro h
  cases h

@[simp] theorem mem_singleton {a b : α} : b ∈ singleton a ↔ b = a := List.mem_singleton

@[simp] theorem mem_filter {p : α → Bool} {s : SortedSet α} {a : α} :
    a ∈ s.filter p ↔ a ∈ s ∧ p a = true := List.mem_filter

@[simp] theorem mem_range {n k : Nat} : k ∈ range n ↔ k < n := List.mem_range

theorem isEmpty_iff {s : SortedSet α} : s.isEmpty = true ↔ s = empty := by
  rw [isEmpty, List.isEmpty_iff]
  exact ⟨fun h => by cases s; cases h; rfl, fun h => h ▸ rfl⟩

end SortedSet

end Recognizer
