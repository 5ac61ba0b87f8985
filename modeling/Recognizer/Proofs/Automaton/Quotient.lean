import Recognizer.Automaton.Quotient
import Recognizer.Proofs.Automaton.Refinement

/-!
# What the quotient accepts

The states of the quotient are the classes of equivalent states, in the order of
their least members.  All edges of a class for one character lead into one class, so
it does not matter from which member an edge is taken.
-/

namespace Recognizer

/-!
# Least members
-/

section Least

variable {s : SortedSet Nat} {a b : Nat}

theorem SortedSet.mem_of_min? (h : s.min? = some a) : a ∈ s := List.mem_of_head? h

theorem SortedSet.min?_le (h : s.min? = some a) (hb : b ∈ s) : a ≤ b := by
  rcases List.head?_eq_some_iff.mp h with ⟨rest, hs⟩
  rw [← SortedSet.mem_toList, hs] at hb
  have hincreasing := s.increasing
  rw [hs, List.pairwise_cons] at hincreasing
  cases List.mem_cons.mp hb with
  | inl hb => exact Nat.le_of_eq hb.symm
  | inr hb => exact Nat.le_of_lt (Nat.compare_eq_lt.mp (hincreasing.1 b hb))

theorem SortedSet.exists_min? (hb : b ∈ s) : ∃ a, s.min? = some a :=
  Option.isSome_iff_exists.mp (List.isSome_head?.mpr (List.ne_nil_of_mem hb))

theorem SortedSet.min?_of_find? {xs : List (SortedSet Nat)}
    (h : xs.find? (fun t => t.min? = some a) = some s) : s.min? = some a := by
  simpa using List.find?_some h

end Least

namespace Dfa

variable {d : Dfa}

/-!
# The classes
-/

theorem mem_classes_iff_block (hd : d.WellFormed) {s : SortedSet Nat} :
    s ∈ d.classes ↔
      ∃ y, s = ((Refinement.ofDfa d).block y).filter (· < d.states.size) ∧ ∃ q, q ∈ s := by
  have hblock : ∀ y t, (Refinement.ofDfa d).blocks.toList[y]? = some t →
      t = (Refinement.ofDfa d).block y := by
    intro y t ht
    unfold Refinement.block
    rw [Array.getD_eq_getD_getElem?, ← Array.getElem?_toList, ht]
    exact rfl
  rw [classes, List.mem_filterMap]
  constructor
  · intro h
    rcases h with ⟨q, _, hfind⟩
    have hmin := SortedSet.min?_of_find? hfind
    rcases List.mem_map.mp (List.mem_of_find?_eq_some hfind) with ⟨t, ht, rfl⟩
    rcases List.mem_iff_getElem?.mp ht with ⟨y, hy⟩
    exact ⟨y, by rw [← hblock y t hy], q, SortedSet.mem_of_min? hmin⟩
  · intro h
    rcases h with ⟨y, rfl, q, hq⟩
    rcases SortedSet.exists_min? hq with ⟨a, ha⟩
    have ha_mem := SortedSet.mem_filter.mp (SortedSet.mem_of_min? ha)
    refine ⟨a, List.mem_range.mpr (of_decide_eq_true ha_mem.2), ?_⟩
    have hy := Refinement.lt_of_mem_block ha_mem.1
    have hmem : ((Refinement.ofDfa d).block y).filter (· < d.states.size) ∈
        (Refinement.ofDfa d).blocks.toList.map (·.filter (· < d.states.size)) := by
      have hy : y < (Refinement.ofDfa d).blocks.toList.length := by simpa using hy
      exact List.mem_map.mpr ⟨_, List.getElem_mem hy,
        by rw [hblock y _ (List.getElem?_eq_getElem hy)]⟩
    have hsome : ((Refinement.ofDfa d).blocks.toList.map (·.filter (· < d.states.size))).find?
        (fun s => s.min? = some a) ≠ none := by
      intro hnone
      exact List.find?_eq_none.mp hnone _ hmem (decide_eq_true ha)
    rcases Option.ne_none_iff_exists'.mp hsome with ⟨t, hfind⟩
    have hmin := SortedSet.min?_of_find? hfind
    rcases List.mem_map.mp (List.mem_of_find?_eq_some hfind) with ⟨u, hu, rfl⟩
    rcases List.mem_iff_getElem?.mp hu with ⟨z, hz⟩
    have haz := (SortedSet.mem_filter.mp (SortedSet.mem_of_min? hmin)).1
    rw [hblock z u hz] at haz hfind
    rwa [(Refinement.isPartition_ofDfa hd).disjoint z y a haz ha_mem.1] at hfind

section Members

variable (hd : d.WellFormed) {p q : Nat}

include hd

theorem mem_class_of_mem_block {y : Nat} (hq : q ∈ (Refinement.ofDfa d).block y)
    (hlt : q < d.states.size) :
    p ∈ ((Refinement.ofDfa d).block y).filter (· < d.states.size) ↔
      p < d.states.size ∧ d.Equivalent q p := by
  have htotal : ∀ q, q < d.states.size → q < d.totalSize :=
    fun q hq => Nat.lt_of_lt_of_le hq size_le_totalSize
  rw [SortedSet.mem_filter, decide_eq_true_eq, and_comm]
  apply and_congr_right
  intro hp
  rw [← Refinement.sameBlock_iff_equivalent hd (htotal q hlt) (htotal p hp)]
  constructor
  · intro h
    exact ⟨y, hq, h⟩
  · intro h
    rcases h with ⟨z, hqz, hpz⟩
    exact (Refinement.isPartition_ofDfa hd).disjoint z y q hqz hq ▸ hpz

theorem mem_class_iff {s : SortedSet Nat} (hs : s ∈ d.classes) (hq : q ∈ s) :
    p ∈ s ↔ p < d.states.size ∧ d.Equivalent q p := by
  rcases (mem_classes_iff_block hd).mp hs with ⟨y, rfl, _⟩
  have hq := SortedSet.mem_filter.mp hq
  exact mem_class_of_mem_block hd hq.1 (of_decide_eq_true hq.2)

theorem lt_of_mem_class {s : SortedSet Nat} (hs : s ∈ d.classes) (hq : q ∈ s) :
    q < d.states.size :=
  ((mem_class_iff hd hs hq).mp hq).1

theorem exists_mem_class {s : SortedSet Nat} (hs : s ∈ d.classes) : ∃ q, q ∈ s :=
  ((mem_classes_iff_block hd).mp hs).choose_spec.2

theorem exists_class (hq : q < d.states.size) : ∃ s ∈ d.classes, q ∈ s := by
  rcases ((Refinement.isPartition_ofDfa hd).covers q).mp
    (Nat.lt_of_lt_of_le hq size_le_totalSize) with ⟨y, hy⟩
  have hmem : q ∈ ((Refinement.ofDfa d).block y).filter (· < d.states.size) :=
    SortedSet.mem_filter.mpr ⟨hy, decide_eq_true hq⟩
  exact ⟨_, (mem_classes_iff_block hd).mpr ⟨y, rfl, q, hmem⟩, hmem⟩

end Members

theorem classes_increasing (d : Dfa) :
    d.classes.Pairwise (fun s t => ∃ a b, s.min? = some a ∧ t.min? = some b ∧ a < b) := by
  unfold classes
  apply List.Pairwise.filterMap _ _ List.pairwise_lt_range
  intro a b hab s hs t ht
  exact ⟨a, b, SortedSet.min?_of_find? hs, SortedSet.min?_of_find? ht, hab⟩

theorem nodup_classes (d : Dfa) : d.classes.Nodup := by
  apply (classes_increasing d).imp
  intro s t hmin hst
  rcases hmin with ⟨a, b, ha, hb, hab⟩
  rw [hst, hb] at ha
  injection ha with ha
  omega

/-!
# The class of a state
-/

/-- The place of the class of a state. -/
def classOf (d : Dfa) (q : Nat) : Nat := d.classes.findIdx (fun s => q ∈ s)

section ClassOf

variable (hd : d.WellFormed) {p q : Nat}

include hd

theorem classOf_lt (hq : q < d.states.size) : d.classOf q < d.classes.length := by
  rcases exists_class hd hq with ⟨s, hs, hqs⟩
  exact List.findIdx_lt_length_of_exists ⟨s, hs, decide_eq_true hqs⟩

theorem exists_getElem?_classOf (hq : q < d.states.size) :
    ∃ s, d.classes[d.classOf q]? = some s ∧ q ∈ s := by
  have hget := List.getElem?_eq_getElem (classOf_lt hd hq)
  have hmem := List.findIdx_of_getElem?_eq_some (p := fun s => decide (q ∈ s)) hget
  exact ⟨_, hget, of_decide_eq_true hmem⟩

theorem classOf_eq_iff (hp : p < d.states.size) (hq : q < d.states.size) :
    d.classOf p = d.classOf q ↔ d.Equivalent p q := by
  constructor
  · intro h
    rcases exists_getElem?_classOf hd hp with ⟨s, hs, hps⟩
    rcases exists_getElem?_classOf hd hq with ⟨t, ht, hqt⟩
    rw [← h, hs] at ht
    injection ht with hst
    exact ((mem_class_iff hd (List.mem_of_getElem? hs) hps).mp (hst ▸ hqt)).2
  · intro h
    have hle : ∀ p q, q < d.states.size → d.Equivalent p q → d.classOf q ≤ d.classOf p := by
      intro p q hq h
      apply List.findIdx_le_findIdx
      intro s hs hps
      have hps : p ∈ s := of_decide_eq_true hps
      exact decide_eq_true ((mem_class_iff hd hs hps).mpr ⟨hq, h⟩)
    exact Nat.le_antisymm (hle q p hp h.symm) (hle p q hq h)

theorem classOf_of_mem {i : Nat} {s : SortedSet Nat} (hs : d.classes[i]? = some s) (hq : q ∈ s) :
    d.classOf q = i := by
  have hs_mem := List.mem_of_getElem? hs
  rcases exists_getElem?_classOf hd (lt_of_mem_class hd hs_mem hq) with ⟨t, ht, hqt⟩
  have hst : s = t := by
    apply SortedSet.ext
    intro p
    rw [mem_class_iff hd hs_mem hq, mem_class_iff hd (List.mem_of_getElem? ht) hqt]
  rw [hst] at hs
  exact getElem?_inj_of_nodup (nodup_classes d) ht hs

theorem exists_classOf_eq {i : Nat} (hi : i < d.classes.length) :
    ∃ q, q < d.states.size ∧ d.classOf q = i := by
  have hs := List.getElem?_eq_getElem hi
  rcases exists_mem_class hd (List.mem_of_getElem? hs) with ⟨q, hq⟩
  exact ⟨q, lt_of_mem_class hd (List.mem_of_getElem? hs) hq, classOf_of_mem hd hs hq⟩

end ClassOf

/-!
# The edges of the quotient
-/

theorem size_quotient (d : Dfa) : d.quotient.states.size = d.classes.length := by
  simp [quotient]

theorem next_quotient_eq_some_iff {i j : Nat} {c : Char} :
    d.quotient.next i c = some j ↔
      c ∈ d.alphabet ∧ ∃ s, d.classes[i]? = some s ∧
        (s.toList.findSome? (fun q => d.next q c)).map d.classOf = some j := by
  let follow (s : SortedSet Nat) (c : Char) : Option Nat :=
    (s.toList.findSome? (fun q => d.next q c)).map d.classOf
  have hedges : d.quotient.edges =
      (d.classes.map (fun s => SortedMap.tabulate d.alphabet (follow s))).toArray := rfl
  exact next_eq_some_iff_of_tabulate hedges

section Quotient

variable (hd : d.WellFormed) {p q : Nat} {c : Char}

include hd

theorem exists_next_of_next_quotient {i j : Nat} (h : d.quotient.next i c = some j) :
    ∃ q t, q < d.states.size ∧ d.classOf q = i ∧ d.next q c = some t ∧ d.classOf t = j := by
  rcases next_quotient_eq_some_iff.mp h with ⟨_, s, hs, hfind⟩
  rcases Option.map_eq_some_iff.mp hfind with ⟨t, ht, hj⟩
  rcases List.exists_of_findSome?_eq_some ht with ⟨q, hq, hnext⟩
  exact ⟨q, t, lt_of_mem_class hd (List.mem_of_getElem? hs) hq, classOf_of_mem hd hs hq, hnext, hj⟩

theorem classOf_next (hp : p < d.states.size) (hq : q < d.states.size)
    (hpq : d.classOf p = d.classOf q) {t u : Nat} (ht : d.next p c = some t)
    (hu : d.next q c = some u) : d.classOf t = d.classOf u := by
  have hnext := hd.equivalent_totalNext ((classOf_eq_iff hd hp hq).mp hpq) c
  rw [totalNext_of_next ht, totalNext_of_next hu] at hnext
  exact (classOf_eq_iff hd (hd.next_within ht).2.2 (hd.next_within hu).2.2).mpr hnext

theorem next_quotient_of_next {t : Nat} (h : d.next q c = some t) :
    d.quotient.next (d.classOf q) c = some (d.classOf t) := by
  have hwithin := hd.next_within h
  rcases exists_getElem?_classOf hd hwithin.1 with ⟨s, hs, hq⟩
  have hsome : (s.toList.findSome? (fun q => d.next q c)).isSome = true := by
    rw [List.findSome?_isSome_iff]
    exact ⟨q, hq, by rw [h]; exact rfl⟩
  rcases Option.isSome_iff_exists.mp hsome with ⟨u, hu⟩
  rcases List.exists_of_findSome?_eq_some hu with ⟨p, hp, hnext⟩
  have hs_mem := List.mem_of_getElem? hs
  have hp_lt := lt_of_mem_class hd hs_mem hp
  refine next_quotient_eq_some_iff.mpr ⟨hwithin.2.1, s, hs, ?_⟩
  rw [hu, Option.map_some]
  exact congrArg some (classOf_next hd hp_lt hwithin.1 (classOf_of_mem hd hs hp) hnext h)

theorem classOf_mem_accepting (hq : q < d.states.size) :
    d.classOf q ∈ d.quotient.accepting ↔ q ∈ d.accepting := by
  have hmem : d.classOf q ∈ d.quotient.accepting ↔
      ∃ p, p ∈ d.accepting ∧ d.classOf p = d.classOf q := SortedSet.mem_image
  rw [hmem]
  constructor
  · intro h
    rcases h with ⟨p, hp, hpq⟩
    have hpq := (classOf_eq_iff hd (hd.accepting_lt p hp) hq).mp hpq
    exact acceptsFrom_nil.mp ((hpq []).mp (acceptsFrom_nil.mpr hp))
  · intro h
    exact ⟨q, h, rfl⟩

theorem acceptsFrom_quotient (hq : q < d.states.size) {w : List Char} :
    d.quotient.AcceptsFrom (d.classOf q) w ↔ d.AcceptsFrom q w := by
  induction w generalizing q with
  | nil =>
      rw [acceptsFrom_nil, acceptsFrom_nil]
      exact classOf_mem_accepting hd hq
  | cons c w ih =>
      constructor
      · intro h
        rcases acceptsFrom_cons.mp h with ⟨j, hj, hrest⟩
        rcases exists_next_of_next_quotient hd hj with ⟨p, t, hp, hpq, ht, rfl⟩
        have hpq := (classOf_eq_iff hd hp hq).mp hpq
        have hrest := (ih (hd.next_within ht).2.2).mp hrest
        exact (hpq (c :: w)).mp (acceptsFrom_cons.mpr ⟨t, ht, hrest⟩)
      · intro h
        rcases acceptsFrom_cons.mp h with ⟨t, ht, hrest⟩
        exact acceptsFrom_cons.mpr
          ⟨_, next_quotient_of_next hd ht, (ih (hd.next_within ht).2.2).mpr hrest⟩

theorem wellFormed_quotient : d.quotient.WellFormed where
  inPlace := State.inPlace_numbered _
  edges_size := by simp [quotient]
  start_lt := by
    rw [size_quotient]
    exact classOf_lt hd hd.start_lt
  accepting_lt := by
    intro i hi
    rcases SortedSet.mem_image.mp hi with ⟨q, hq, rfl⟩
    rw [size_quotient]
    exact classOf_lt hd (hd.accepting_lt q hq)
  edges_within := by
    apply edges_within_of_next
    intro i c j hnext
    rcases exists_next_of_next_quotient hd hnext with ⟨q, t, _, _, ht, rfl⟩
    have hwithin := hd.next_within ht
    rw [size_quotient]
    exact ⟨hwithin.2.1, classOf_lt hd hwithin.2.2⟩

end Quotient

/-!
# The quotient by equivalence
-/

/-- A map onto the states of another automaton that keeps the start state, the edges
and what is accepted, and makes no two states one unless they accept the same words. -/
structure IsNerodeQuotient (d m : Dfa) (f : Nat → Nat) : Prop where
  lt : ∀ q, q < d.states.size → f q < m.states.size
  onto : ∀ i, i < m.states.size → ∃ q, q < d.states.size ∧ f q = i
  start : f d.start = m.start
  next : ∀ q c t, d.next q c = some t → m.next (f q) c = some (f t)
  acceptsFrom : ∀ q, q < d.states.size → ∀ w, d.AcceptsFrom q w ↔ m.AcceptsFrom (f q) w
  eq_iff : ∀ p q, p < d.states.size → q < d.states.size →
    (f p = f q ↔ ∀ w, d.AcceptsFrom p w ↔ d.AcceptsFrom q w)

theorem exists_isNerodeQuotient_quotient (d : Dfa) (hd : d.WellFormed) :
    ∃ f, IsNerodeQuotient d d.quotient f := by
  refine ⟨d.classOf, ?_, ?_, rfl, ?_, ?_, ?_⟩
  · intro q hq
    rw [size_quotient]
    exact classOf_lt hd hq
  · intro i hi
    rw [size_quotient] at hi
    exact exists_classOf_eq hd hi
  · intro q c t h
    exact next_quotient_of_next hd h
  · intro q hq w
    exact (acceptsFrom_quotient hd hq).symm
  · intro p q hp hq
    exact classOf_eq_iff hd hp hq

/-- A partial automaton with a dead state, 3, and a state that no word leads to, 4. -/
def forked : Dfa where
  states := State.numbered ["q0", "q1", "q2", "q3", "q4"]
  alphabet := .ofList ['a', 'b']
  edges :=
    #[⟨[('a', 1), ('b', 2)], by decide⟩, ⟨[('b', 3)], by decide⟩, ⟨[], by decide⟩,
      ⟨[], by decide⟩, ⟨[], by decide⟩]
  start := 0
  accepting := .ofList [1, 2, 4]

theorem wellFormed_forked : forked.WellFormed where
  inPlace := by decide
  edges_size := by decide
  start_lt := by decide
  accepting_lt := by
    have haccepting : ∀ q ∈ forked.accepting.toList, q < forked.states.size := by decide
    exact haccepting
  edges_within := by decide

theorem exists_isNerodeQuotient_forked :
    forked.WellFormed ∧ forked.quotient.states.size = 3 ∧
      ∃ f, IsNerodeQuotient forked forked.quotient f :=
  ⟨wellFormed_forked, by decide +kernel, exists_isNerodeQuotient_quotient forked wellFormed_forked⟩

end Dfa

end Recognizer
