import Recognizer.Proofs.Search
import Mathlib.Order.WellFounded

/-!
# The order of discovery

The nodes that a search finds from one start are numbered by their places.  A node is found
through the first of the nodes that lead to it: of two nodes, the one whose first parent
stands in front was found first, and two nodes with the same first parent stand in the order
in which it lists them.  So the places go up with the distance from the start.
-/

namespace Recognizer

namespace Search

section Discovers

variable {α : Type} [DecidableEq α]

/-- What the order of the nodes found says about a search from one start. -/
structure Discovers (successors : α → List α) (start : α) (found : List α) : Prop where
  nodup : found.Nodup
  start_mem : start ∈ found
  next_mem : ∀ a ∈ found, ∀ b ∈ successors a, b ∈ found
  parent : ∀ b ∈ found, b ≠ start →
    ∃ a ∈ found, b ∈ successors a ∧ found.idxOf a < found.idxOf b
  order : ∀ a ∈ found, ∀ b ∈ found, a ≠ start → found.idxOf a < found.idxOf b →
    ∀ p ∈ found, ∀ u v, successors p = u ++ b :: v →
      a ∈ u ∨ ∃ q ∈ found, found.idxOf q < found.idxOf p ∧ a ∈ successors q

/-- Of the nodes found that lead to a node, the one in front of the others. -/
structure FirstParent (successors : α → List α) (found : List α) (a p : α) : Prop where
  mem : p ∈ found
  next : a ∈ successors p
  le : ∀ q ∈ found, a ∈ successors q → found.idxOf p ≤ found.idxOf q

inductive Walk (successors : α → List α) (start : α) : Nat → α → Prop where
  | here : Walk successors start 0 start
  | step {k : Nat} {a b : α} :
      Walk successors start k a → b ∈ successors a → Walk successors start (k + 1) b

variable {successors : α → List α} {start : α} {bound : Nat} {found : List α}
variable {a b p q : α}

theorem idxOf_eq_of_getElem? (h : found.Nodup) {i : Nat} (hi : found[i]? = some a) :
    found.idxOf a = i := by
  rcases List.getElem?_eq_some_iff.mp hi with ⟨hlt, rfl⟩
  exact h.idxOf_getElem i hlt

theorem discovers_breadthFirst (hbound : Covers successors [start] bound) :
    Discovers successors start (breadthFirst successors bound [start]) where
  nodup := nodup_breadthFirst
  start_mem := (mem_breadthFirst hbound).mpr (Reached.seed (List.mem_singleton.mpr rfl))
  next_mem := by
    intro a ha b hb
    rw [mem_breadthFirst hbound] at ha ⊢
    exact Reached.next ha hb
  parent := by
    intro b hb hstart
    rcases breadthFirst_parent (List.getElem?_idxOf hb) with hseed | ⟨i, a, hi, ha, hab⟩
    · exact absurd (List.mem_singleton.mp hseed) hstart
    · refine ⟨a, List.mem_of_getElem? ha, hab, ?_⟩
      rwa [idxOf_eq_of_getElem? nodup_breadthFirst ha]
  order := by
    intro a ha b hb hstart hlt p hp u v hsplit
    rcases breadthFirst_order hbound (List.getElem?_idxOf ha) (List.getElem?_idxOf hb) hlt
      (List.getElem?_idxOf hp) hsplit with hseed | ⟨i, q, hi, hq, haq⟩ | hau
    · exact absurd (List.mem_singleton.mp hseed) hstart
    · refine Or.inr ⟨q, List.mem_of_getElem? hq, ?_, haq⟩
      rwa [idxOf_eq_of_getElem? nodup_breadthFirst hq]
    · exact Or.inl hau

/-!
# Parents
-/

section Order

variable (h : Discovers successors start found)

include h

theorem Discovers.idxOf_start : found.idxOf start = 0 := by
  have hlength : 0 < found.length := List.length_pos_of_mem h.start_mem
  have hfirst : found.idxOf found[0] = 0 := h.nodup.idxOf_getElem 0 hlength
  by_cases hstart : found[0] = start
  · rwa [hstart] at hfirst
  · rcases h.parent _ (List.getElem_mem hlength) hstart with ⟨_, _, _, hlt⟩
    rw [hfirst] at hlt
    exact absurd hlt (Nat.not_lt_zero _)

theorem Discovers.exists_firstParent (hb : b ∈ found) (hstart : b ≠ start) :
    ∃ p, FirstParent successors found b p ∧ found.idxOf p < found.idxOf b := by
  rcases h.parent b hb hstart with ⟨a, ha, hab, hlt⟩
  rcases (measure found.idxOf).wf.has_min {q | q ∈ found ∧ b ∈ successors q} ⟨a, ha, hab⟩ with
    ⟨p, ⟨hp, hnext⟩, hmin⟩
  have hle : ∀ q ∈ found, b ∈ successors q → found.idxOf p ≤ found.idxOf q :=
    fun q hq hbq => Nat.le_of_not_lt (hmin q ⟨hq, hbq⟩)
  exact ⟨p, ⟨hp, hnext, hle⟩, Nat.lt_of_le_of_lt (hle a ha hab) hlt⟩

/-- The first parent of the node found earlier stands in front of every node that leads to
the later one, or it is that node and lists the earlier one first. -/
theorem Discovers.firstParent_of_lt (hp : FirstParent successors found a p) (hstart : a ≠ start)
    (hlt : found.idxOf a < found.idxOf b) (hq : q ∈ found) {u v : List α}
    (hsplit : successors q = u ++ b :: v) :
    found.idxOf p < found.idxOf q ∨ p = q ∧ a ∈ u := by
  have ha : a ∈ found := h.next_mem p hp.mem a hp.next
  have hbq : b ∈ successors q := hsplit ▸ List.mem_append_right u List.mem_cons_self
  have hb : b ∈ found := h.next_mem q hq b hbq
  rcases h.order a ha b hb hstart hlt q hq u v hsplit with hau | ⟨r, hr, hrq, har⟩
  · have haq : a ∈ successors q := hsplit ▸ List.mem_append_left _ hau
    rcases Nat.lt_or_eq_of_le (hp.le q hq haq) with hpq | hpq
    · exact Or.inl hpq
    · exact Or.inr ⟨(List.idxOf_inj hp.mem).mp hpq, hau⟩
  · exact Or.inl (Nat.lt_of_le_of_lt (hp.le r hr har) hrq)

/-!
# Distances
-/

theorem Discovers.mem_of_walk {k : Nat} (hw : Walk successors start k a) : a ∈ found := by
  induction hw with
  | here => exact h.start_mem
  | step _ hnext ih => exact h.next_mem _ ih _ hnext

/-- A node at the end of a walk is found earlier than those that no walk of this length or a
shorter one leads to. -/
theorem Discovers.idxOf_lt_of_walk {k : Nat} (hw : Walk successors start k a) (hb : b ∈ found)
    (hfar : ∀ l ≤ k, ¬ Walk successors start l b) : found.idxOf a < found.idxOf b := by
  induction hw generalizing b with
  | here =>
      have hstart : b ≠ start := fun heq => hfar 0 (Nat.le_refl 0) (heq ▸ Walk.here)
      rcases h.exists_firstParent hb hstart with ⟨_, _, hlt⟩
      rw [h.idxOf_start]
      exact Nat.zero_lt_of_lt hlt
  | @step k c a hc hac ih =>
      have hstart : b ≠ start := fun heq => hfar 0 (Nat.zero_le _) (heq ▸ Walk.here)
      rcases h.exists_firstParent hb hstart with ⟨q, hq, _⟩
      -- no short walk leads to the parent of a node that is far away
      have hparent : found.idxOf c < found.idxOf q := by
        apply ih hq.mem
        intro l hl hwalk
        exact hfar (l + 1) (Nat.succ_le_succ hl) (Walk.step hwalk hq.next)
      rcases Nat.lt_trichotomy (found.idxOf a) (found.idxOf b) with hlt | heq | hlt
      · exact hlt
      · have hab : a = b := (List.idxOf_inj (h.mem_of_walk (Walk.step hc hac))).mp heq
        exact absurd (hab ▸ Walk.step hc hac) (hfar (k + 1) (Nat.le_refl _))
      · rcases List.append_of_mem hac with ⟨u, v, hsplit⟩
        rcases h.firstParent_of_lt hq hstart hlt (h.mem_of_walk hc) hsplit with hqc | ⟨rfl, _⟩
        · exact absurd hqc (Nat.lt_asymm hparent)
        · exact absurd hparent (Nat.lt_irrefl _)

end Order

end Discovers

end Search

end Recognizer
