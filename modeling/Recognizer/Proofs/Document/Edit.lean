import Recognizer.Automaton.Encoding
import Mathlib.Data.List.Nodup

/-!
# Edits of records

A record can be written in many ways: with its fields in another order, with fields that
no reader asks for, without those that are null, and with the members of a set listed in
another way.  No such edit changes what a reader finds in the record.
-/

namespace Recognizer

namespace Document

/-!
# Reading lists
-/

section Lists

variable {α : Type} {decode : Document → Option α} {items others : List Document} {xs : List α}

theorem mapM_eq_some_iff :
    items.mapM decode = some xs ↔ List.Forall₂ (fun d x => decode d = some x) items xs := by
  induction items generalizing xs with
  | nil =>
      rw [List.mapM_nil, List.forall₂_nil_left_iff]
      exact ⟨fun h => (Option.some.inj h).symm, fun h => congrArg some h.symm⟩
  | cons d items ih =>
      rw [List.mapM_cons, List.forall₂_cons_left_iff]
      simp only [Option.bind_eq_bind, Option.bind_eq_some_iff, ih]
      constructor
      · intro h
        rcases h with ⟨x, hx, rest, hrest, heq⟩
        exact ⟨x, rest, hx, hrest, (Option.some.inj heq).symm⟩
      · intro h
        rcases h with ⟨x, rest, hx, hrest, rfl⟩
        exact ⟨x, hx, rest, hrest, rfl⟩

theorem exists_mapM (h : ∀ d ∈ items, ∃ x, decode d = some x) :
    ∃ xs, items.mapM decode = some xs := by
  induction items with
  | nil => exact ⟨[], rfl⟩
  | cons d items ih =>
      rw [List.forall_mem_cons] at h
      rcases h.1 with ⟨x, hx⟩
      rcases ih h.2 with ⟨xs, hxs⟩
      exact ⟨x :: xs, mapM_eq_some_iff.mpr (List.Forall₂.cons hx (mapM_eq_some_iff.mp hxs))⟩

theorem mem_iff_of_mapM (h : items.mapM decode = some xs) (x : α) :
    x ∈ xs ↔ ∃ d ∈ items, decode d = some x := by
  have hread := mapM_eq_some_iff.mp h
  clear h
  induction hread with
  | nil => simp
  | cons hd _ ih => simp [ih, hd, eq_comm]

theorem exists_of_mapM (h : items.mapM decode = some xs) :
    ∀ d ∈ items, ∃ x, decode d = some x := by
  have hread := mapM_eq_some_iff.mp h
  clear h
  induction hread with
  | nil => simp
  | cons hd _ ih => exact List.forall_mem_cons.mpr ⟨⟨_, hd⟩, ih⟩

theorem list?_map {encode : α → Document} (h : ∀ x ∈ xs, decode (encode x) = some x) :
    list? decode (.list (xs.map encode)) = some xs := by
  show (xs.map encode).mapM decode = some xs
  rw [mapM_eq_some_iff, List.forall₂_map_left_iff, List.forall₂_same]
  exact h

theorem ids?_congr (h : ∀ d, d ∈ items ↔ d ∈ others) :
    ids? (.list items) = ids? (.list others) := by
  have hread : ∀ {items others : List Document}, (∀ d, d ∈ items ↔ d ∈ others) →
      ∀ s, ids? (.list items) = some s → ids? (.list others) = some s := by
    intro items others h s hs
    rcases Option.map_eq_some_iff.mp hs with ⟨xs, hxs, rfl⟩
    rcases exists_mapM fun d hd => exists_of_mapM hxs d ((h d).mpr hd) with ⟨ys, hys⟩
    refine Option.map_eq_some_iff.mpr ⟨ys, hys, ?_⟩
    apply SortedSet.ext
    intro x
    rw [SortedSet.mem_ofList, SortedSet.mem_ofList, mem_iff_of_mapM hxs, mem_iff_of_mapM hys]
    simp only [h]
  apply Option.ext
  intro s
  exact ⟨hread h s, hread (fun d => (h d).symm) s⟩

end Lists

/-!
# Looking up fields
-/

section Fields

variable {α : Type} {F G front back : List (String × Document)} {name other : String}
variable {d d' : Document}

theorem lookup_insert_of_ne (h : name ≠ other) :
    (front ++ (other, d) :: back).lookup name = (front ++ back).lookup name := by
  rw [List.lookup_append, List.lookup_append, List.lookup_cons, beq_false_of_ne h]

theorem lookup_replace_of_ne (h : name ≠ other) :
    (front ++ (other, d') :: back).lookup name = (front ++ (other, d) :: back).lookup name := by
  rw [lookup_insert_of_ne h, lookup_insert_of_ne h]

theorem required_replace {decode : Document → Option α} (h : decode d' = decode d) :
    required decode (front ++ (name, d') :: back) name =
      required decode (front ++ (name, d) :: back) name := by
  unfold required
  rw [List.lookup_append, List.lookup_append]
  cases front.lookup name with
  | some _ => rfl
  | none =>
      rw [List.lookup_cons_self, List.lookup_cons_self]
      exact h

theorem lookup_insert_self (h : name ∉ front.map Prod.fst) :
    (front ++ (name, d) :: back).lookup name = some d := by
  apply List.lookup_eq_some_iff.mpr
  refine ⟨front, back, rfl, fun p hp => ?_⟩
  rw [bne_iff_ne]
  rintro rfl
  exact h (List.mem_map_of_mem hp)

theorem lookup_eq_none_of_not_mem (h : name ∉ F.map Prod.fst) : F.lookup name = none := by
  apply List.lookup_eq_none_iff.mpr
  intro p hp
  rw [bne_iff_ne]
  rintro rfl
  exact h (List.mem_map_of_mem hp)

theorem lookup_eq_some_iff_mem (hF : (F.map Prod.fst).Nodup) :
    F.lookup name = some d ↔ (name, d) ∈ F := by
  constructor
  · intro h
    rcases List.lookup_eq_some_iff.mp h with ⟨front, back, rfl, _⟩
    simp
  · intro h
    rcases List.append_of_mem h with ⟨front, back, rfl⟩
    apply lookup_insert_self
    rw [List.map_append, List.nodup_append] at hF
    intro hname
    exact hF.2.2 name hname name (by simp) rfl

/-- Where every name stands once, the order of the fields does not matter. -/
theorem lookup_perm (hF : (F.map Prod.fst).Nodup) (h : F.Perm G) :
    G.lookup name = F.lookup name := by
  have hG : (G.map Prod.fst).Nodup := (h.map Prod.fst).nodup_iff.mp hF
  apply Option.ext
  intro d
  rw [lookup_eq_some_iff_mem hG, lookup_eq_some_iff_mem hF, h.mem_iff]

end Fields

/-!
# Edits
-/

/-- The names of the fields that a reader asks for: those whose values are taken as they
stand, those that may be null, and those that hold a set. -/
structure FieldNames where
  plain : List String
  nullable : List String
  sets : List String
  nodup : (plain ++ nullable ++ sets).Nodup

namespace FieldNames

variable (names : FieldNames)

def all : List String := names.plain ++ names.nullable ++ names.sets

variable {names} {name : String}

theorem mem_all : name ∈ names.all ↔
    name ∈ names.plain ∨ name ∈ names.nullable ∨ name ∈ names.sets := by
  simp [all]

theorem ne_of_mem_plain {other : String} (h : name ∈ names.plain)
    (hother : other ∈ names.nullable ∨ other ∈ names.sets) : name ≠ other := by
  have hnodup := names.nodup
  rw [List.append_assoc, List.nodup_append] at hnodup
  exact hnodup.2.2 name h other (List.mem_append.mpr hother)

theorem ne_of_mem_nullable {other : String} (h : name ∈ names.nullable)
    (hother : other ∈ names.sets) : name ≠ other := by
  have hnodup := names.nodup
  rw [List.nodup_append] at hnodup
  exact hnodup.2.2 name (List.mem_append_right _ h) other hother

end FieldNames

/-- Another way to write the fields of a record. -/
inductive FieldEdit (names : FieldNames) :
    List (String × Document) → List (String × Document) → Prop where
  | addUnknown (front back : List (String × Document)) {name : String} (d : Document) :
      name ∉ names.all → FieldEdit names (front ++ back) (front ++ (name, d) :: back)
  | dropNull (front back : List (String × Document)) {name : String} :
      name ∈ names.nullable → name ∉ (front ++ back).map Prod.fst →
        FieldEdit names (front ++ (name, .null) :: back) (front ++ back)
  | relist (front back : List (String × Document)) {name : String} {ids others : List Document} :
      name ∈ names.sets → (∀ d, d ∈ ids ↔ d ∈ others) →
        FieldEdit names (front ++ (name, .list ids) :: back) (front ++ (name, .list others) :: back)
  | reorder {F G : List (String × Document)} :
      (F.map Prod.fst).Nodup → F.Perm G → FieldEdit names F G

structure SameContents (names : FieldNames) (F G : List (String × Document)) : Prop where
  plain : ∀ name ∈ names.plain, G.lookup name = F.lookup name
  nullable : ∀ name ∈ names.nullable, (G.lookup name).getD .null = (F.lookup name).getD .null
  sets : ∀ name ∈ names.sets, required ids? G name = required ids? F name

theorem sameContents_of_lookup {names : FieldNames} {F G : List (String × Document)}
    (h : ∀ name ∈ names.all, G.lookup name = F.lookup name) : SameContents names F G where
  plain := fun name hname => h name (FieldNames.mem_all.mpr (Or.inl hname))
  nullable := fun name hname => by rw [h name (FieldNames.mem_all.mpr (Or.inr (Or.inl hname)))]
  sets := fun name hname => by
    rw [required, required, h name (FieldNames.mem_all.mpr (Or.inr (Or.inr hname)))]

theorem FieldEdit.sameContents {names : FieldNames} {F G : List (String × Document)}
    (h : FieldEdit names F G) : SameContents names F G := by
  cases h with
  | addUnknown front back d hunknown =>
      apply sameContents_of_lookup
      intro name hname
      exact lookup_insert_of_ne fun heq => hunknown (heq ▸ hname)
  | @dropNull front back other hnull honce =>
      have hne : ∀ name, name ≠ other →
          (front ++ back).lookup name = (front ++ (other, .null) :: back).lookup name :=
        fun name hname => (lookup_insert_of_ne hname).symm
      have hother : (front ++ (other, .null) :: back).lookup other = some .null :=
        lookup_insert_self fun hfront =>
          honce (List.map_append ▸ List.mem_append_left _ hfront)
      constructor
      · intro name hname
        exact hne name (FieldNames.ne_of_mem_plain hname (Or.inl hnull))
      · intro name hname
        by_cases heq : name = other
        -- the name stood nowhere else, and a field that is missing counts as null
        · rw [heq, hother, lookup_eq_none_of_not_mem honce]
          rfl
        · rw [hne name heq]
      · intro name hname
        rw [required, required, hne name (FieldNames.ne_of_mem_nullable hnull hname).symm]
  | @relist front back other ids others hset hsame =>
      constructor
      · intro name hname
        exact lookup_replace_of_ne (FieldNames.ne_of_mem_plain hname (Or.inr hset))
      · intro name hname
        rw [lookup_replace_of_ne (FieldNames.ne_of_mem_nullable hname hset)]
      · intro name hname
        by_cases heq : name = other
        · subst heq
          exact required_replace (ids?_congr hsame).symm
        · rw [required, required, lookup_replace_of_ne heq]
  | reorder hnodup hperm =>
      exact sameContents_of_lookup fun name _ => lookup_perm hnodup hperm

end Document

end Recognizer
