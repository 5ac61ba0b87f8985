import Recognizer.Proofs.Automaton.Run
import Recognizer.Proofs.Search

/-!
# Refining a partition

What a split does to the blocks is said once.  A refinement that is made of splits
parts no two states unless one of them waits afterwards, which is why it is enough
that the smaller part of a block waits.  When nothing waits any more, the blocks are
the classes of equivalent states.
-/

namespace Recognizer

theorem SortedSet.exists_mem_of_isEmpty {α : Type} [Ord α] {s : SortedSet α}
    (h : s.isEmpty = false) : ∃ a, a ∈ s := by
  cases hs : s.toList with
  | nil =>
      rw [isEmpty, hs] at h
      cases h
  | cons a rest => exact ⟨a, by rw [← mem_toList, hs]; exact List.mem_cons_self⟩

theorem SortedSet.not_mem_of_isEmpty {α : Type} [Ord α] {s : SortedSet α}
    (h : s.isEmpty = true) (a : α) : a ∉ s := by
  rw [isEmpty_iff.mp h]
  exact not_mem_empty

theorem SortedSet.nodup_toList {α : Type} [Ord α] [Std.ReflOrd α] (s : SortedSet α) :
    s.toList.Nodup := by
  apply s.increasing.imp
  intro a b hab heq
  rw [heq, Std.ReflOrd.compare_self] at hab
  cases hab

namespace Refinement

/-- The members of a block; a number that belongs to no block has none. -/
def block (r : Refinement) (y : Nat) : SortedSet Nat := r.blocks.getD y .empty

def SameBlock (r : Refinement) (p q : Nat) : Prop := ∃ y, p ∈ r.block y ∧ q ∈ r.block y

/-- The block of the state still has to be taken as a splitter. -/
def Waits (r : Refinement) (q : Nat) : Prop := ∃ a ∈ r.waiting, q ∈ r.block a

/-- The blocks part the numbers below a bound. -/
structure IsPartition (n : Nat) (r : Refinement) : Prop where
  nonempty : ∀ y, y < r.blocks.size → ∃ q, q ∈ r.block y
  covers : ∀ q, q < n ↔ ∃ y, q ∈ r.block y
  disjoint : ∀ y z q, q ∈ r.block y → q ∈ r.block z → y = z

theorem block_eq_getElem {r : Refinement} {y : Nat} (hy : y < r.blocks.size) :
    r.block y = r.blocks[y] := by
  unfold block
  rw [Array.getD_eq_getD_getElem?, Array.getElem?_eq_getElem hy]
  rfl

theorem lt_of_mem_block {r : Refinement} {y q : Nat} (h : q ∈ r.block y) : y < r.blocks.size := by
  by_contra hy
  unfold block at h
  rw [Array.getD_eq_getD_getElem?, Array.getElem?_eq_none (Nat.le_of_not_lt hy)] at h
  exact SortedSet.not_mem_empty h

theorem IsPartition.size_le {n : Nat} {r : Refinement} (hr : IsPartition n r) :
    r.blocks.size ≤ n := by
  let member (y : Nat) : Nat := ((r.block y).min?).getD 0
  have hmember : ∀ y, y < r.blocks.size → member y ∈ r.block y := by
    intro y hy
    rcases hr.nonempty y hy with ⟨q, hq⟩
    show ((r.block y).toList.head?).getD 0 ∈ (r.block y).toList
    cases hs : (r.block y).toList with
    | nil =>
        rw [← SortedSet.mem_toList, hs] at hq
        cases hq
    | cons a rest => exact List.mem_cons_self
  have hnodup : ((List.range r.blocks.size).map member).Nodup := by
    apply List.Nodup.map_on _ List.nodup_range
    intro y hy z hz hyz
    have hy := hmember y (List.mem_range.mp hy)
    have hz := hmember z (List.mem_range.mp hz)
    exact hr.disjoint y z (member y) hy (hyz ▸ hz)
  have hsubset : (List.range r.blocks.size).map member ⊆ List.range n := by
    intro q hq
    rcases List.mem_map.mp hq with ⟨y, hy, rfl⟩
    exact List.mem_range.mpr ((hr.covers _).mpr ⟨y, hmember y (List.mem_range.mp hy)⟩)
  simpa using hnodup.length_le_of_subset hsubset

/-!
# One split
-/

/-- The block is split: the side of a set on which its members are decides whether
they are kept or moved to a new block, which waits. -/
structure IsSplit (x : SortedSet Nat) (r : Refinement) (y : Nat) (r' : Refinement)
    (kept moved : SortedSet Nat) (side : Prop) : Prop where
  mem_kept : ∀ q, q ∈ kept ↔ q ∈ r.block y ∧ (q ∈ x ↔ side)
  mem_moved : ∀ q, q ∈ moved ↔ q ∈ r.block y ∧ ¬ (q ∈ x ↔ side)
  kept_nonempty : ∃ q, q ∈ kept
  moved_nonempty : ∃ q, q ∈ moved
  blocks_eq : r'.blocks = (r.blocks.setIfInBounds y kept).push moved
  waiting_eq : r'.waiting = r.blocks.size :: r.waiting

theorem splitBlock_cases (x : SortedSet Nat) (r : Refinement) (y : Nat) :
    (splitBlock x r y = r ∧ ∀ p q, p ∈ r.block y → q ∈ r.block y → (p ∈ x ↔ q ∈ x)) ∨
      ∃ kept moved side, IsSplit x r y (splitBlock x r y) kept moved side := by
  let inside := (r.block y).filter (fun q => q ∈ x)
  let outside := (r.block y).filter (fun q => q ∉ x)
  have hinside : ∀ q, q ∈ inside ↔ q ∈ r.block y ∧ q ∈ x := by
    intro q
    exact SortedSet.mem_filter.trans (and_congr_right fun _ => decide_eq_true_iff)
  have houtside : ∀ q, q ∈ outside ↔ q ∈ r.block y ∧ q ∉ x := by
    intro q
    exact SortedSet.mem_filter.trans (and_congr_right fun _ => decide_eq_true_iff)
  cases hempty : inside.isEmpty || outside.isEmpty with
  | true =>
      left
      constructor
      · exact if_pos hempty
      · intro p q hp hq
        cases (Bool.or_eq_true _ _).mp hempty with
        | inl hempty =>
            have hout : ∀ q, q ∈ r.block y → q ∉ x := by
              intro q hq hx
              exact SortedSet.not_mem_of_isEmpty hempty q ((hinside q).mpr ⟨hq, hx⟩)
            exact iff_of_false (hout p hp) (hout q hq)
        | inr hempty =>
            have hin : ∀ q, q ∈ r.block y → q ∈ x := by
              intro q hq
              by_contra hx
              exact SortedSet.not_mem_of_isEmpty hempty q ((houtside q).mpr ⟨hq, hx⟩)
            exact iff_of_true (hin p hp) (hin q hq)
  | false =>
      right
      have hnonempty := (Bool.or_eq_false_iff).mp hempty
      let parts := if inside.size ≤ outside.size then (outside, inside) else (inside, outside)
      have hsplit : splitBlock x r y =
          ⟨(r.blocks.setIfInBounds y parts.1).push parts.2, r.blocks.size :: r.waiting,
            r.splits.push ⟨r.block y, inside, outside⟩⟩ :=
        if_neg (Bool.eq_false_iff.mp hempty)
      rw [hsplit]
      by_cases hsize : inside.size ≤ outside.size
      · have hparts : parts = (outside, inside) := if_pos hsize
        rw [hparts]
        refine ⟨outside, inside, False, ?_, ?_, ?_, ?_, rfl, rfl⟩
        · simpa using houtside
        · simpa using hinside
        · exact SortedSet.exists_mem_of_isEmpty hnonempty.2
        · exact SortedSet.exists_mem_of_isEmpty hnonempty.1
      · have hparts : parts = (inside, outside) := if_neg hsize
        rw [hparts]
        refine ⟨inside, outside, True, ?_, ?_, ?_, ?_, rfl, rfl⟩
        · simpa using hinside
        · simpa using houtside
        · exact SortedSet.exists_mem_of_isEmpty hnonempty.1
        · exact SortedSet.exists_mem_of_isEmpty hnonempty.2

section IsSplit

variable {n : Nat} {x : SortedSet Nat} {r r' : Refinement} {y : Nat} {kept moved : SortedSet Nat}
  {side : Prop} (h : IsSplit x r y r' kept moved side)

include h

theorem IsSplit.lt : y < r.blocks.size := by
  rcases h.kept_nonempty with ⟨q, hq⟩
  exact lt_of_mem_block ((h.mem_kept q).mp hq).1

theorem IsSplit.size_eq : r'.blocks.size = r.blocks.size + 1 := by
  rw [h.blocks_eq]
  simp

theorem IsSplit.block_eq (z : Nat) :
    r'.block z = if z = r.blocks.size then moved else if z = y then kept else r.block z := by
  have hy := h.lt
  unfold block
  rw [h.blocks_eq, Array.getD_eq_getD_getElem?, Array.getD_eq_getD_getElem?, Array.getElem?_push,
    Array.size_setIfInBounds, Array.getElem?_setIfInBounds]
  by_cases hz : z = r.blocks.size
  · simp [hz]
  · by_cases hzy : z = y
    · rw [hzy] at hz
      simp [hzy, hz, hy]
    · simp [hz, hzy, Ne.symm hzy]

theorem IsSplit.mem_block_kept {q : Nat} : q ∈ r'.block y ↔ q ∈ kept := by
  rw [h.block_eq, if_neg (Nat.ne_of_lt h.lt), if_pos rfl]

theorem IsSplit.mem_block_moved {q : Nat} : q ∈ r'.block r.blocks.size ↔ q ∈ moved := by
  rw [h.block_eq, if_pos rfl]

theorem IsSplit.mem_block_other {z q : Nat} (hz : z < r.blocks.size) (hzy : z ≠ y) :
    q ∈ r'.block z ↔ q ∈ r.block z := by
  rw [h.block_eq, if_neg (Nat.ne_of_lt hz), if_neg hzy]

theorem IsSplit.block_cases {z q : Nat} (hq : q ∈ r'.block z) :
    (z = y ∧ q ∈ kept) ∨ (z = r.blocks.size ∧ q ∈ moved) ∨
      (z < r.blocks.size ∧ z ≠ y ∧ q ∈ r.block z) := by
  have hz := lt_of_mem_block hq
  rw [h.size_eq] at hz
  by_cases hsize : z = r.blocks.size
  · rw [hsize] at hq ⊢
    exact Or.inr (Or.inl ⟨rfl, h.mem_block_moved.mp hq⟩)
  · have hz : z < r.blocks.size := by omega
    by_cases hzy : z = y
    · rw [hzy] at hq ⊢
      exact Or.inl ⟨rfl, h.mem_block_kept.mp hq⟩
    · exact Or.inr (Or.inr ⟨hz, hzy, (h.mem_block_other hz hzy).mp hq⟩)

theorem IsSplit.exists_mem_block_iff {q : Nat} :
    (∃ z, q ∈ r'.block z) ↔ ∃ z, q ∈ r.block z := by
  constructor
  · intro hq
    rcases hq with ⟨z, hq⟩
    rcases h.block_cases hq with ⟨_, hq⟩ | ⟨_, hq⟩ | ⟨_, _, hq⟩
    · exact ⟨y, ((h.mem_kept q).mp hq).1⟩
    · exact ⟨y, ((h.mem_moved q).mp hq).1⟩
    · exact ⟨z, hq⟩
  · intro hq
    rcases hq with ⟨z, hq⟩
    by_cases hzy : z = y
    · rw [hzy] at hq
      by_cases hside : q ∈ x ↔ side
      · exact ⟨y, h.mem_block_kept.mpr ((h.mem_kept q).mpr ⟨hq, hside⟩)⟩
      · exact ⟨_, h.mem_block_moved.mpr ((h.mem_moved q).mpr ⟨hq, hside⟩)⟩
    · exact ⟨z, (h.mem_block_other (lt_of_mem_block hq) hzy).mpr hq⟩

theorem IsSplit.isPartition (hr : IsPartition n r) : IsPartition n r' where
  nonempty := by
    intro z hz
    rw [h.size_eq] at hz
    by_cases hsize : z = r.blocks.size
    · rcases h.moved_nonempty with ⟨q, hq⟩
      exact ⟨q, hsize ▸ h.mem_block_moved.mpr hq⟩
    · have hz : z < r.blocks.size := by omega
      by_cases hzy : z = y
      · rcases h.kept_nonempty with ⟨q, hq⟩
        exact ⟨q, hzy ▸ h.mem_block_kept.mpr hq⟩
      · rcases hr.nonempty z hz with ⟨q, hq⟩
        exact ⟨q, (h.mem_block_other hz hzy).mpr hq⟩
  covers := by
    intro q
    rw [h.exists_mem_block_iff]
    exact hr.covers q
  disjoint := by
    intro z t q hz ht
    have hapart : q ∈ kept → q ∈ moved → False := by
      intro hkept hmoved
      exact ((h.mem_moved q).mp hmoved).2 ((h.mem_kept q).mp hkept).2
    have hother : ∀ t, t ≠ y → q ∈ r.block t → q ∉ r.block y := by
      intro t ht hq hy
      exact ht (hr.disjoint t y q hq hy)
    rcases h.block_cases hz with ⟨hz, hzq⟩ | ⟨hz, hzq⟩ | ⟨_, hzy, hzq⟩
    · rcases h.block_cases ht with ⟨ht, _⟩ | ⟨_, htq⟩ | ⟨_, hty, htq⟩
      · rw [hz, ht]
      · exact (hapart hzq htq).elim
      · exact absurd ((h.mem_kept q).mp hzq).1 (hother t hty htq)
    · rcases h.block_cases ht with ⟨_, htq⟩ | ⟨ht, _⟩ | ⟨_, hty, htq⟩
      · exact (hapart htq hzq).elim
      · rw [hz, ht]
      · exact absurd ((h.mem_moved q).mp hzq).1 (hother t hty htq)
    · rcases h.block_cases ht with ⟨_, htq⟩ | ⟨_, htq⟩ | ⟨_, _, htq⟩
      · exact absurd ((h.mem_kept q).mp htq).1 (hother z hzy hzq)
      · exact absurd ((h.mem_moved q).mp htq).1 (hother z hzy hzq)
      · exact hr.disjoint z t q hzq htq

theorem IsSplit.sameBlock {p q : Nat} (hpq : r.SameBlock p q) (hx : p ∈ x ↔ q ∈ x) :
    r'.SameBlock p q := by
  rcases hpq with ⟨z, hp, hq⟩
  by_cases hzy : z = y
  · rw [hzy] at hp hq
    by_cases hside : q ∈ x ↔ side
    · exact ⟨y, h.mem_block_kept.mpr ((h.mem_kept p).mpr ⟨hp, hx.trans hside⟩),
        h.mem_block_kept.mpr ((h.mem_kept q).mpr ⟨hq, hside⟩)⟩
    · have hside_p : ¬ (p ∈ x ↔ side) := fun h => hside (hx.symm.trans h)
      exact ⟨_, h.mem_block_moved.mpr ((h.mem_moved p).mpr ⟨hp, hside_p⟩),
        h.mem_block_moved.mpr ((h.mem_moved q).mpr ⟨hq, hside⟩)⟩
  · have hz := lt_of_mem_block hp
    exact ⟨z, (h.mem_block_other hz hzy).mpr hp, (h.mem_block_other hz hzy).mpr hq⟩

theorem IsSplit.sameBlock_of_sameBlock {p q : Nat} (hpq : r'.SameBlock p q) :
    r.SameBlock p q := by
  rcases hpq with ⟨z, hp, hq⟩
  rcases h.block_cases hp with ⟨hz, hkept⟩ | ⟨hz, hmoved⟩ | ⟨hz, hzy, hp⟩
  · rw [hz, h.mem_block_kept] at hq
    exact ⟨y, ((h.mem_kept p).mp hkept).1, ((h.mem_kept q).mp hq).1⟩
  · rw [hz, h.mem_block_moved] at hq
    exact ⟨y, ((h.mem_moved p).mp hmoved).1, ((h.mem_moved q).mp hq).1⟩
  · exact ⟨z, hp, (h.mem_block_other hz hzy).mp hq⟩

theorem IsSplit.waits_of_moved {q : Nat} (hq : q ∈ moved) : r'.Waits q :=
  ⟨r.blocks.size, h.waiting_eq ▸ List.mem_cons_self, h.mem_block_moved.mpr hq⟩

theorem IsSplit.waits {q : Nat} (hq : r.Waits q) : r'.Waits q := by
  rcases hq with ⟨a, ha, hq⟩
  have ha : a ∈ r'.waiting := h.waiting_eq ▸ List.mem_cons_of_mem _ ha
  by_cases hay : a = y
  · rw [hay] at ha hq
    by_cases hside : q ∈ x ↔ side
    · exact ⟨y, ha, h.mem_block_kept.mpr ((h.mem_kept q).mpr ⟨hq, hside⟩)⟩
    · exact h.waits_of_moved ((h.mem_moved q).mpr ⟨hq, hside⟩)
  · exact ⟨a, ha, (h.mem_block_other (lt_of_mem_block hq) hay).mpr hq⟩

theorem IsSplit.parted {p q : Nat} (hpq : r.SameBlock p q) :
    r'.SameBlock p q ∨ r'.Waits p ∨ r'.Waits q := by
  rcases hpq with ⟨z, hp, hq⟩
  by_cases hzy : z = y
  · rw [hzy] at hp hq
    by_cases hp_side : p ∈ x ↔ side
    · by_cases hq_side : q ∈ x ↔ side
      · exact Or.inl (h.sameBlock ⟨y, hp, hq⟩ (hp_side.trans hq_side.symm))
      · exact Or.inr (Or.inr (h.waits_of_moved ((h.mem_moved q).mpr ⟨hq, hq_side⟩)))
    · exact Or.inr (Or.inl (h.waits_of_moved ((h.mem_moved p).mpr ⟨hp, hp_side⟩)))
  · have hz := lt_of_mem_block hp
    exact Or.inl ⟨z, (h.mem_block_other hz hzy).mpr hp, (h.mem_block_other hz hzy).mpr hq⟩

end IsSplit

/-!
# Many splits
-/

structure Finer (n : Nat) (r r' : Refinement) : Prop where
  isPartition : IsPartition n r'
  sameBlock : ∀ p q, r'.SameBlock p q → r.SameBlock p q
  waits : ∀ q, r.Waits q → r'.Waits q
  parted : ∀ p q, r.SameBlock p q → r'.SameBlock p q ∨ r'.Waits p ∨ r'.Waits q
  count : r'.waiting.length + r.blocks.size = r.waiting.length + r'.blocks.size

section Finer

variable {n : Nat} {x : SortedSet Nat} {r r' r'' : Refinement}

theorem Finer.refl (hr : IsPartition n r) : Finer n r r where
  isPartition := hr
  sameBlock := fun _ _ h => h
  waits := fun _ h => h
  parted := fun _ _ h => Or.inl h
  count := rfl

theorem Finer.trans (h : Finer n r r') (h' : Finer n r' r'') : Finer n r r'' where
  isPartition := h'.isPartition
  sameBlock := fun p q hpq => h.sameBlock p q (h'.sameBlock p q hpq)
  waits := fun q hq => h'.waits q (h.waits q hq)
  parted := by
    intro p q hpq
    rcases h.parted p q hpq with hpq | hp | hq
    · exact h'.parted p q hpq
    · exact Or.inr (Or.inl (h'.waits p hp))
    · exact Or.inr (Or.inr (h'.waits q hq))
  count := by
    have := h.count
    have := h'.count
    omega

theorem finer_splitBlock (hr : IsPartition n r) (y : Nat) : Finer n r (splitBlock x r y) := by
  rcases splitBlock_cases x r y with ⟨hsame, _⟩ | ⟨kept, moved, side, h⟩
  · rw [hsame]
    exact Finer.refl hr
  · refine ⟨h.isPartition hr, ?_, ?_, ?_, ?_⟩
    · intro p q
      exact h.sameBlock_of_sameBlock
    · intro q
      exact h.waits
    · intro p q
      exact h.parted
    · rw [h.waiting_eq, h.size_eq, List.length_cons]
      omega

theorem size_le_splitBlock {y : Nat} : r.blocks.size ≤ (splitBlock x r y).blocks.size := by
  rcases splitBlock_cases x r y with ⟨hsame, _⟩ | ⟨kept, moved, side, h⟩
  · exact Nat.le_of_eq (congrArg (fun r => r.blocks.size) hsame.symm)
  · rw [h.size_eq]
    exact Nat.le_succ _

theorem finer_foldl_splitBlock (hr : IsPartition n r) (ys : List Nat) :
    Finer n r (ys.foldl (splitBlock x) r) := by
  induction ys generalizing r with
  | nil => exact Finer.refl hr
  | cons y ys ih =>
      have h := finer_splitBlock (x := x) hr y
      exact h.trans (ih h.isPartition)

theorem finer_splitAll (hr : IsPartition n r) (x : SortedSet Nat) : Finer n r (r.splitAll x) :=
  finer_foldl_splitBlock hr _

theorem sameBlock_splitBlock {p q : Nat} (hpq : r.SameBlock p q) (hx : p ∈ x ↔ q ∈ x) (y : Nat) :
    (splitBlock x r y).SameBlock p q := by
  rcases splitBlock_cases x r y with ⟨hsame, _⟩ | ⟨kept, moved, side, h⟩
  · rw [hsame]
    exact hpq
  · exact h.sameBlock hpq hx

theorem sameBlock_splitAll {p q : Nat} (hpq : r.SameBlock p q) (hx : p ∈ x ↔ q ∈ x) :
    (r.splitAll x).SameBlock p q := by
  unfold splitAll
  generalize List.range r.blocks.size = ys
  induction ys generalizing r with
  | nil => exact hpq
  | cons y ys ih => exact ih (sameBlock_splitBlock hpq hx y)

def Uniform (x : SortedSet Nat) (r : Refinement) (y : Nat) : Prop :=
  ∀ p q, p ∈ r.block y → q ∈ r.block y → (p ∈ x ↔ q ∈ x)

theorem uniform_splitBlock {y z : Nat} (hz : z ≠ y → Uniform x r z) :
    Uniform x (splitBlock x r y) z := by
  intro p q hp hq
  rcases splitBlock_cases x r y with ⟨hsame, halike⟩ | ⟨kept, moved, side, h⟩
  · rw [hsame] at hp hq
    by_cases hzy : z = y
    · rw [hzy] at hp hq
      exact halike p q hp hq
    · exact hz hzy p q hp hq
  · rcases h.block_cases hp with ⟨hzy, hkept⟩ | ⟨hsize, hmoved⟩ | ⟨hlt, hzy, hp⟩
    · rw [hzy, h.mem_block_kept] at hq
      exact ((h.mem_kept p).mp hkept).2.trans ((h.mem_kept q).mp hq).2.symm
    · rw [hsize, h.mem_block_moved] at hq
      have hp_side := ((h.mem_moved p).mp hmoved).2
      have hq_side := ((h.mem_moved q).mp hq).2
      tauto
    · exact hz hzy p q hp ((h.mem_block_other hlt hzy).mp hq)

theorem uniform_foldl_splitBlock {ys : List Nat} (hr : ∀ z, z ∉ ys → Uniform x r z) (z : Nat) :
    Uniform x (ys.foldl (splitBlock x) r) z := by
  induction ys generalizing r with
  | nil => exact hr z List.not_mem_nil
  | cons y ys ih =>
      apply ih
      intro t ht
      apply uniform_splitBlock
      intro hty
      apply hr
      rw [List.mem_cons]
      exact not_or.mpr ⟨hty, ht⟩

/-- No block has members on both sides of a set by which all blocks were split. -/
theorem alike_of_sameBlock_splitAll {p q : Nat} (hpq : (r.splitAll x).SameBlock p q) :
    p ∈ x ↔ q ∈ x := by
  rcases hpq with ⟨z, hp, hq⟩
  apply uniform_foldl_splitBlock _ z p q hp hq
  intro t ht p q hp
  exact absurd (List.mem_range.mpr (lt_of_mem_block hp)) ht

end Finer

end Refinement

end Recognizer
