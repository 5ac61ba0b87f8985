import Recognizer.Proofs.Automaton.Reduced

/-!
# Automata without one of their states

When a state is taken out, the numbers behind it move up by one.  If it was the only dead
state, the others accept what they accepted before, and quotients keep the relation of the
two automata: the classes are the same, and the dead state is a class of its own.
-/

namespace Recognizer

/-!
# Numbers around a gap
-/

def openGap (x i : Nat) : Nat := if i < x then i else i + 1

def closeGap (x q : Nat) : Nat := if q < x then q else q - 1

section Gap

variable {x i j q : Nat}

theorem openGap_ne (x i : Nat) : openGap x i ≠ x := by
  unfold openGap
  split_ifs <;> omega

theorem openGap_lt_openGap (h : i < j) : openGap x i < openGap x j := by
  unfold openGap
  split_ifs <;> omega

theorem closeGap_openGap (x i : Nat) : closeGap x (openGap x i) = i := by
  unfold closeGap openGap
  split_ifs <;> omega

theorem openGap_closeGap (h : q ≠ x) : openGap x (closeGap x q) = q := by
  unfold closeGap openGap
  split_ifs <;> omega

theorem openGap_inj : openGap x i = openGap x j ↔ i = j := by
  constructor
  · intro h
    rw [← closeGap_openGap x i, h, closeGap_openGap]
  · exact congrArg (openGap x)

theorem closeGap_eq_iff (h : q ≠ x) : closeGap x q = i ↔ q = openGap x i := by
  rw [← openGap_inj (x := x), openGap_closeGap h]

theorem openGap_of_lt (h : i < x) : openGap x i = i := if_pos h

theorem le_openGap : i ≤ openGap x i := by
  unfold openGap
  split_ifs <;> omega

theorem exists_openGap_eq (h : q ≠ x) : ∃ i, openGap x i = q := ⟨_, openGap_closeGap h⟩

theorem getElem?_eraseIdx_eq {α : Type} (xs : List α) : (xs.eraseIdx x)[i]? = xs[openGap x i]? := by
  rw [List.getElem?_eraseIdx]
  unfold openGap
  split <;> rfl

theorem toList_image_openGap (s : SortedSet Nat) :
    (s.image (openGap x)).toList = s.toList.map (openGap x) := by
  apply SortedSet.eq_of_increasing (s.image (openGap x)).increasing
  · apply List.pairwise_map.mpr
    apply s.increasing.imp
    intro a b hab
    exact Nat.compare_eq_lt.mpr (openGap_lt_openGap (Nat.compare_eq_lt.mp hab))
  · intro a
    rw [SortedSet.mem_toList, SortedSet.mem_image, List.mem_map]
    exact Iff.rfl

theorem min?_image_openGap (s : SortedSet Nat) :
    (s.image (openGap x)).min? = s.min?.map (openGap x) := by
  unfold SortedSet.min?
  rw [toList_image_openGap, List.head?_map]

end Gap

theorem State.InPlace.eq_of_labels {states others : Array State} (h : State.InPlace states)
    (hothers : State.InPlace others)
    (hlabels : ∀ i : Nat, states[i]?.map State.label = others[i]?.map State.label) :
    states = others := by
  have hplaced : ∀ {states : Array State}, State.InPlace states → ∀ i : Nat,
      states[i]? = (states[i]?.map State.label).map (State.mk i) := by
    intro states h i
    by_cases hi : i < states.size
    · rcases h.getElem? hi with ⟨label, hlabel⟩
      rw [hlabel]
      rfl
    · rw [Array.getElem?_eq_none (Nat.le_of_not_lt hi)]
      rfl
  apply Array.ext_getElem?
  intro i
  rw [hplaced h, hplaced hothers, hlabels]

namespace Dfa

variable {d t : Dfa} {x i j q : Nat} {w : List Char}

/-!
# Taking out a state
-/

/-- The automaton without one of its states and the edges that lead to it.  The other states
keep their order and are numbered from zero again. -/
def without (t : Dfa) (x : Nat) : Dfa where
  states := State.numbered ((t.states.toList.eraseIdx x).map State.label)
  alphabet := t.alphabet
  edges :=
    ((t.edges.toList.eraseIdx x).map fun edges =>
      .tabulate t.alphabet fun c => ((edges.get? c).filter (· ≠ x)).map (closeGap x)).toArray
  start := closeGap x t.start
  accepting := (t.accepting.filter (· ≠ x)).image (closeGap x)

/-- One automaton has the states of the other in their order, but not the one with
number `x`, and has all edges between them.  If there is no such state, nothing is left out. -/
structure Omits (d t : Dfa) (x : Nat) : Prop where
  label : ∀ i, d.states[i]?.map State.label = t.states[openGap x i]?.map State.label
  alphabet : d.alphabet = t.alphabet
  next_iff : ∀ i c j, d.next i c = some j ↔ t.next (openGap x i) c = some (openGap x j)
  start : t.start = openGap x d.start
  accepting_iff : ∀ i, i ∈ d.accepting ↔ openGap x i ∈ t.accepting

theorem next_without (ht : t.WellFormed) {c : Char} :
    (t.without x).next i c = some j ↔ t.next (openGap x i) c = some (openGap x j) := by
  let follow (edges : SortedMap Char Nat) (c : Char) : Option Nat :=
    ((edges.get? c).filter (· ≠ x)).map (closeGap x)
  have hfollow : ∀ edges, follow edges c = some j ↔ edges.get? c = some (openGap x j) := by
    intro edges
    show ((edges.get? c).filter (· ≠ x)).map (closeGap x) = some j ↔ _
    rw [Option.map_eq_some_iff]
    constructor
    · intro h
      rcases h with ⟨q, hq, hj⟩
      rcases Option.filter_eq_some_iff.mp hq with ⟨hget, hqx⟩
      rw [hget, (closeGap_eq_iff (of_decide_eq_true hqx)).mp hj]
    · intro h
      refine ⟨openGap x j, Option.filter_eq_some_iff.mpr ⟨h, ?_⟩, closeGap_openGap x j⟩
      exact decide_eq_true (openGap_ne x j)
  have hedges : (t.without x).edges =
      ((t.edges.toList.eraseIdx x).map
        (fun edges => SortedMap.tabulate t.alphabet (follow edges))).toArray := rfl
  rw [next_eq_some_iff_of_tabulate hedges]
  constructor
  · intro h
    rcases h with ⟨_, edges, hget, hj⟩
    rw [getElem?_eraseIdx_eq, Array.getElem?_toList] at hget
    rw [next, hget]
    exact (hfollow edges).mp hj
  · intro h
    refine ⟨(ht.next_within h).2.1, ?_⟩
    rcases Option.bind_eq_some_iff.mp h with ⟨edges, hget, hj⟩
    refine ⟨edges, ?_, (hfollow edges).mpr hj⟩
    rw [getElem?_eraseIdx_eq, Array.getElem?_toList, hget]

theorem mem_accepting_without :
    i ∈ (t.without x).accepting ↔ openGap x i ∈ t.accepting := by
  show i ∈ (t.accepting.filter (· ≠ x)).image (closeGap x) ↔ _
  rw [SortedSet.mem_image]
  constructor
  · intro h
    rcases h with ⟨q, hq, hi⟩
    rcases SortedSet.mem_filter.mp hq with ⟨hq, hqx⟩
    exact (closeGap_eq_iff (of_decide_eq_true hqx)).mp hi ▸ hq
  · intro h
    exact ⟨_, SortedSet.mem_filter.mpr ⟨h, decide_eq_true (openGap_ne x i)⟩, closeGap_openGap x i⟩

theorem label_without :
    (t.without x).states[i]?.map State.label = t.states[openGap x i]?.map State.label := by
  show (State.numbered ((t.states.toList.eraseIdx x).map State.label))[i]?.map State.label = _
  rw [State.label_numbered, List.getElem?_map, getElem?_eraseIdx_eq, Array.getElem?_toList]

section Omits

variable (h : Omits d t x)

include h

/-- The automaton that leaves the state out is the one from which it was taken out. -/
theorem Omits.without_eq (hd : d.WellFormed) (ht : t.WellFormed) : t.without x = d := by
  have hinPlace : State.InPlace (t.without x).states := State.inPlace_numbered _
  have hstates : (t.without x).states = d.states := by
    apply hinPlace.eq_of_labels hd.inPlace
    intro i
    rw [label_without, h.label]
  have hsize : (t.without x).edges.size = d.edges.size := by
    have hlength : (t.without x).edges.size = (t.without x).states.size := by
      simp [without, List.length_eraseIdx, ht.edges_size]
    rw [hlength, hd.edges_size, hstates]
  apply eq_of_next hstates h.alphabet.symm hsize
  · intro i c
    apply Option.ext
    intro j
    rw [next_without ht, h.next_iff]
  · show closeGap x t.start = d.start
    rw [h.start, closeGap_openGap]
  · intro i
    rw [mem_accepting_without, h.accepting_iff]

theorem Omits.lt_iff : i < d.states.size ↔ openGap x i < t.states.size := by
  have hlabel := congrArg Option.isSome (h.label i)
  rw [Option.isSome_map, Option.isSome_map, Bool.eq_iff_iff] at hlabel
  simpa using hlabel

/-!
# Leaving out a dead state
-/

theorem Omits.acceptsFrom_iff (hx : t.Dead x) :
    d.AcceptsFrom i w ↔ t.AcceptsFrom (openGap x i) w := by
  induction w generalizing i with
  | nil =>
      rw [acceptsFrom_nil, acceptsFrom_nil]
      exact h.accepting_iff i
  | cons c w ih =>
      rw [acceptsFrom_cons, acceptsFrom_cons]
      constructor
      · intro haccepts
        rcases haccepts with ⟨j, hnext, hrest⟩
        exact ⟨openGap x j, (h.next_iff i c j).mp hnext, ih.mp hrest⟩
      · intro haccepts
        rcases haccepts with ⟨q, hnext, hrest⟩
        have hq : q ≠ x := by
          rintro rfl
          exact hx w hrest
        rcases exists_openGap_eq hq with ⟨j, rfl⟩
        exact ⟨j, (h.next_iff i c j).mpr hnext, ih.mpr hrest⟩

theorem Omits.equivalent_iff (hx : t.Dead x) :
    d.Equivalent i j ↔ t.Equivalent (openGap x i) (openGap x j) := by
  apply forall_congr'
  intro w
  rw [h.acceptsFrom_iff hx, h.acceptsFrom_iff hx]

end Omits

/-- The state is dead, and no other state is.  This is also said of the number of no state,
if none is dead. -/
structure OnlyDead (t : Dfa) (x : Nat) : Prop where
  dead : t.Dead x
  eq : ∀ q, q < t.states.size → t.Dead q → q = x

theorem WellFormed.dead_of_le (ht : t.WellFormed) (hq : t.states.size ≤ q) : t.Dead q := by
  intro w hw
  cases w with
  | nil => exact absurd (ht.accepting_lt q (acceptsFrom_nil.mp hw)) (Nat.not_lt_of_le hq)
  | cons c w =>
      rcases acceptsFrom_cons.mp hw with ⟨r, hnext, _⟩
      exact absurd (ht.next_within hnext).1 (Nat.not_lt_of_le hq)

theorem omits_self (ht : t.WellFormed) (hx : t.states.size ≤ x) : Omits t t x := by
  have hsame : ∀ i, i < t.states.size ∨ openGap x i < t.states.size → openGap x i = i := by
    intro i hi
    apply openGap_of_lt
    have := le_openGap (x := x) (i := i)
    omega
  refine ⟨?_, rfl, ?_, (hsame _ (Or.inl ht.start_lt)).symm, ?_⟩
  · intro i
    by_cases hi : openGap x i < t.states.size
    · rw [hsame i (Or.inr hi)]
    · have hle : t.states.size ≤ i := by
        by_contra hlt
        have hlt := Nat.lt_of_not_le hlt
        rw [hsame i (Or.inl hlt)] at hi
        exact hi hlt
      rw [Array.getElem?_eq_none hle, Array.getElem?_eq_none (Nat.le_of_not_lt hi)]
  · intro i c j
    constructor
    · intro hnext
      have hwithin := ht.next_within hnext
      rwa [hsame i (Or.inl hwithin.1), hsame j (Or.inl hwithin.2.2)]
    · intro hnext
      have hwithin := ht.next_within hnext
      rwa [hsame i (Or.inr hwithin.1), hsame j (Or.inr hwithin.2.2)] at hnext
  · intro i
    constructor
    · intro hi
      rwa [hsame i (Or.inl (ht.accepting_lt i hi))]
    · intro hi
      rwa [hsame i (Or.inr (ht.accepting_lt _ hi))] at hi

/-!
# Quotients without a dead state
-/

theorem label_quotient :
    d.quotient.states[i]?.map State.label = d.classes[i]?.map d.classLabel := by
  show (State.numbered (d.classes.map d.classLabel))[i]?.map State.label = _
  rw [State.label_numbered, List.getElem?_map]

theorem Omits.classLabel_eq (h : Omits d t x) (r : SortedSet Nat) :
    t.classLabel (r.image (openGap x)) = d.classLabel r := by
  have hlabels : (r.image (openGap x)).toList.filterMap (fun q => t.states[q]?.map State.label) =
      r.toList.filterMap (fun q => d.states[q]?.map State.label) := by
    rw [toList_image_openGap, List.filterMap_map]
    apply List.filterMap_congr
    intro q _
    exact (h.label q).symm
  unfold classLabel
  rw [hlabels]

section Quotient

variable (hd : d.WellFormed) (ht : t.WellFormed) (hx : t.OnlyDead x)

include ht

theorem mem_eraseIdx_classes {s : SortedSet Nat} :
    s ∈ t.classes.eraseIdx (t.classOf x) ↔ s ∈ t.classes ∧ x ∉ s := by
  rw [List.mem_eraseIdx_iff_getElem?]
  constructor
  · intro h
    rcases h with ⟨i, hi, hs⟩
    exact ⟨List.mem_of_getElem? hs, fun hxs => hi (classOf_of_mem ht hs hxs).symm⟩
  · intro h
    rcases List.mem_iff_getElem?.mp h.1 with ⟨i, hs⟩
    refine ⟨i, ?_, hs⟩
    rintro rfl
    have hmem := List.findIdx_of_getElem?_eq_some (p := fun s => decide (x ∈ s)) hs
    exact h.2 (of_decide_eq_true hmem)

include hx

theorem OnlyDead.quotient : t.quotient.OnlyDead (t.classOf x) where
  dead := by
    by_cases hlt : x < t.states.size
    · exact (dead_quotient_iff ht hlt).mpr hx.dead
    · apply (wellFormed_quotient ht).dead_of_le
      rw [size_quotient]
      apply Nat.le_of_eq
      apply Eq.symm
      apply List.findIdx_eq_length.mpr
      intro s hs
      apply decide_eq_false
      exact fun hxs => hlt (lt_of_mem_class ht hs hxs)
  eq := by
    intro i hi hdead
    rw [size_quotient] at hi
    rcases exists_classOf_eq ht hi with ⟨q, hq, rfl⟩
    rw [hx.eq q hq ((dead_quotient_iff ht hq).mp hdead)]

include hd

variable (h : Omits d t x)

include h

omit ht in
theorem Omits.mem_image_class {r : SortedSet Nat} (hr : r ∈ d.classes) (hq : q ∈ r) {p : Nat} :
    p ∈ r.image (openGap x) ↔ p < t.states.size ∧ t.Equivalent (openGap x q) p := by
  rw [SortedSet.mem_image]
  constructor
  · intro hp
    rcases hp with ⟨p, hp, rfl⟩
    have hp := (mem_class_iff hd hr hq).mp hp
    exact ⟨h.lt_iff.mp hp.1, (h.equivalent_iff hx.dead).mp hp.2⟩
  · intro hp
    -- what is equivalent to a state that is kept is kept, for it is not dead either
    have hpx : p ≠ x := by
      rintro rfl
      have hq_lt := h.lt_iff.mp (lt_of_mem_class hd hr hq)
      exact openGap_ne p q (hx.eq _ hq_lt (hx.dead.congr hp.2.symm))
    rcases exists_openGap_eq hpx with ⟨p, rfl⟩
    exact ⟨p, (mem_class_iff hd hr hq).mpr
      ⟨h.lt_iff.mpr hp.1, (h.equivalent_iff hx.dead).mpr hp.2⟩, rfl⟩

theorem Omits.mem_image_classes {s : SortedSet Nat} :
    s ∈ d.classes.map (SortedSet.image (openGap x)) ↔ s ∈ t.classes ∧ x ∉ s := by
  rw [List.mem_map]
  constructor
  · intro hs
    rcases hs with ⟨r, hr, rfl⟩
    rcases exists_mem_class hd hr with ⟨q, hq⟩
    refine ⟨(mem_classes_iff ht).mpr ⟨openGap x q, h.lt_iff.mp (lt_of_mem_class hd hr hq),
      fun p => h.mem_image_class hd hx hr hq⟩, ?_⟩
    intro hxr
    rcases SortedSet.mem_image.mp hxr with ⟨p, _, hp⟩
    exact openGap_ne x p hp
  · intro hs
    rcases hs with ⟨hs, hxs⟩
    rcases exists_mem_class ht hs with ⟨q, hq⟩
    have hqx : q ≠ x := fun hqx => hxs (hqx ▸ hq)
    rcases exists_openGap_eq hqx with ⟨q, rfl⟩
    rcases exists_class hd (h.lt_iff.mpr (lt_of_mem_class ht hs hq)) with ⟨r, hr, hqr⟩
    refine ⟨r, hr, SortedSet.ext fun p => ?_⟩
    rw [h.mem_image_class hd hx hr hqr, mem_class_iff ht hs hq]

theorem Omits.classes_eq :
    d.classes.map (SortedSet.image (openGap x)) = t.classes.eraseIdx (t.classOf x) := by
  apply SortedSet.eq_of_leastBefore
  · apply List.pairwise_map.mpr
    apply (classes_increasing d).imp
    intro r s hrs
    rcases hrs with ⟨a, b, ha, hb, hab⟩
    refine ⟨openGap x a, openGap x b, ?_, ?_, openGap_lt_openGap hab⟩
    · rw [min?_image_openGap, ha, Option.map_some]
    · rw [min?_image_openGap, hb, Option.map_some]
  · exact (classes_increasing t).sublist (List.eraseIdx_sublist _ _)
  · intro s
    rw [h.mem_image_classes hd ht hx, mem_eraseIdx_classes ht]

theorem Omits.getElem?_classes :
    t.classes[openGap (t.classOf x) i]? = d.classes[i]?.map (SortedSet.image (openGap x)) := by
  rw [← getElem?_eraseIdx_eq, ← h.classes_eq hd ht hx, List.getElem?_map]

theorem Omits.classOf_openGap (hq : q < d.states.size) :
    t.classOf (openGap x q) = openGap (t.classOf x) (d.classOf q) := by
  rcases exists_getElem?_classOf hd hq with ⟨r, hr, hqr⟩
  have hplace : t.classes[openGap (t.classOf x) (d.classOf q)]? = some (r.image (openGap x)) := by
    rw [h.getElem?_classes hd ht hx, hr, Option.map_some]
  exact classOf_of_mem ht hplace (SortedSet.mem_image.mpr ⟨q, hqr, rfl⟩)

theorem Omits.exists_of_classOf_eq (hq : q < t.states.size)
    (hqi : t.classOf q = openGap (t.classOf x) i) :
    ∃ p, p < d.states.size ∧ openGap x p = q ∧ d.classOf p = i := by
  have hqx : q ≠ x := by
    rintro rfl
    exact openGap_ne _ _ hqi.symm
  rcases exists_openGap_eq hqx with ⟨p, rfl⟩
  have hp := h.lt_iff.mpr hq
  rw [h.classOf_openGap hd ht hx hp, openGap_inj] at hqi
  exact ⟨p, hp, rfl, hqi⟩

theorem Omits.quotient : Omits d.quotient t.quotient (t.classOf x) where
  label := by
    intro i
    rw [label_quotient, label_quotient, h.getElem?_classes hd ht hx, Option.map_map]
    apply congrArg (d.classes[i]?.map ·)
    funext r
    exact (h.classLabel_eq r).symm
  alphabet := h.alphabet
  next_iff := by
    intro i c j
    constructor
    · intro hnext
      rcases exists_next_of_next_quotient hd hnext with ⟨p, u, hp, rfl, hu, rfl⟩
      have hquotient := next_quotient_of_next ht ((h.next_iff p c u).mp hu)
      rwa [h.classOf_openGap hd ht hx hp,
        h.classOf_openGap hd ht hx (hd.next_within hu).2.2] at hquotient
    · intro hnext
      rcases exists_next_of_next_quotient ht hnext with ⟨q, v, hq, hqi, hv, hvj⟩
      rcases h.exists_of_classOf_eq hd ht hx hq hqi with ⟨p, _, rfl, rfl⟩
      rcases h.exists_of_classOf_eq hd ht hx (ht.next_within hv).2.2 hvj with ⟨u, _, rfl, rfl⟩
      exact next_quotient_of_next hd ((h.next_iff p c u).mpr hv)
  start := by
    show t.classOf t.start = openGap (t.classOf x) (d.classOf d.start)
    rw [h.start, h.classOf_openGap hd ht hx hd.start_lt]
  accepting_iff := by
    have hclass : ∀ p, p < d.states.size → (d.classOf p ∈ d.quotient.accepting ↔
        openGap (t.classOf x) (d.classOf p) ∈ t.quotient.accepting) := by
      intro p hp
      rw [← h.classOf_openGap hd ht hx hp, classOf_mem_accepting hd hp,
        classOf_mem_accepting ht (h.lt_iff.mp hp), h.accepting_iff]
    intro i
    constructor
    · intro hi
      have hi_lt := (wellFormed_quotient hd).accepting_lt i hi
      rcases exists_classOf_eq hd (size_quotient d ▸ hi_lt) with ⟨p, hp, rfl⟩
      exact (hclass p hp).mp hi
    · intro hi
      have hi_lt := (wellFormed_quotient ht).accepting_lt _ hi
      rcases exists_classOf_eq ht (size_quotient t ▸ hi_lt) with ⟨q, hq, hqi⟩
      rcases h.exists_of_classOf_eq hd ht hx hq hqi with ⟨p, hp, _, rfl⟩
      exact (hclass p hp).mpr hi

end Quotient

end Dfa

end Recognizer
