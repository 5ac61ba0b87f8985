import Recognizer.Proofs.Automaton.Gluing

/-!
# Fragments in an arena

An arena grows while fragments are added to it, and what stood in it before stays as
it was, although a concatenation redirects edges all over the arena.  By induction on
the expression, the nodes that are new and have not been absorbed form a fragment for
its language.
-/

namespace Recognizer

open Computability

namespace Arena

def HasEdge (a : Arena) (p : Nat) (s : Symbol) (q : Nat) : Prop := ⟨s, q⟩ ∈ a.nodes.getD p []

theorem lt_of_hasEdge {a : Arena} {p q : Nat} {s : Symbol} (h : a.HasEdge p s q) :
    p < a.nodes.size := by
  by_contra hp
  unfold HasEdge at h
  rw [Array.getD_eq_getD_getElem?, Array.getElem?_eq_none (Nat.le_of_not_lt hp)] at h
  cases h

/-!
# Edges after each operation
-/

@[simp] theorem size_addEnds (a : Arena) : a.addEnds.1.nodes.size = a.nodes.size + 2 := by
  simp [addEnds]

@[simp] theorem size_link (a : Arena) (source target : Nat) (symbol : Symbol) :
    (a.link source symbol target).nodes.size = a.nodes.size := by
  simp [link]

@[simp] theorem size_absorb (a : Arena) (node into : Nat) :
    (a.absorb node into).nodes.size = a.nodes.size := by
  simp [absorb]

theorem hasEdge_addEnds {a : Arena} {p q : Nat} {s : Symbol} :
    a.addEnds.1.HasEdge p s q ↔ a.HasEdge p s q := by
  unfold HasEdge addEnds
  simp only [Array.getD_eq_getD_getElem?, Array.getElem?_push]
  split
  · rename_i hp
    rw [Array.getElem?_eq_none (by rw [hp, Array.size_push]; omega)]
    simp
  · split
    · rename_i hp
      rw [Array.getElem?_eq_none (by rw [hp])]
      simp
    · exact Iff.rfl

theorem hasEdge_link {a : Arena} {source target p q : Nat} {symbol s : Symbol}
    (hsource : source < a.nodes.size) :
    (a.link source symbol target).HasEdge p s q ↔
      a.HasEdge p s q ∨ (p = source ∧ s = symbol ∧ q = target) := by
  unfold HasEdge link
  simp only [Array.getD_eq_getD_getElem?, Array.getElem?_modify]
  split
  · rename_i hp
    rw [← hp, Array.getElem?_eq_getElem hsource]
    simp
  · rename_i hp
    have hp : p ≠ source := fun h => hp h.symm
    simp [hp]

theorem hasEdge_absorb {a : Arena} {node into p q : Nat} {s : Symbol} :
    (a.absorb node into).HasEdge p s q ↔
      (a.HasEdge p s q ∧ q ≠ node) ∨ (a.HasEdge p s node ∧ q = into) := by
  have hget : (a.absorb node into).nodes.getD p [] =
      (a.nodes.getD p []).map
        (fun e => if e.target = node then ⟨e.symbol, into⟩ else e) := by
    unfold absorb
    simp only [Array.getD_eq_getD_getElem?, Array.getElem?_map]
    cases a.nodes[p]? with
    | none => rfl
    | some edges => rfl
  unfold HasEdge
  rw [hget, List.mem_map]
  constructor
  · intro h
    rcases h with ⟨e, he, hedge⟩
    split at hedge
    · rename_i htarget
      injection hedge with hs hq
      rw [← hs, ← htarget]
      exact Or.inr ⟨he, hq.symm⟩
    · rename_i htarget
      rw [hedge] at he htarget
      exact Or.inl ⟨he, htarget⟩
  · intro h
    rcases h with ⟨he, hq⟩ | ⟨he, rfl⟩
    · exact ⟨_, he, if_neg hq⟩
    · exact ⟨_, he, if_pos rfl⟩

/-!
# Valid arenas

Edges lead to nodes that have not been absorbed, and none is left at a node that has.
-/

structure Valid (a : Arena) : Prop where
  target_lt : ∀ p s q, a.HasEdge p s q → q < a.nodes.size
  target_kept : ∀ p s q, a.HasEdge p s q → q ∉ a.absorbed
  absorbed_lt : ∀ p ∈ a.absorbed, p < a.nodes.size
  absorbed_no_exit : ∀ p ∈ a.absorbed, ∀ s q, ¬ a.HasEdge p s q

theorem valid_empty : empty.Valid where
  target_lt := by
    intro p s q h
    cases lt_of_hasEdge h
  target_kept := by
    intro p s q h
    cases lt_of_hasEdge h
  absorbed_lt := by
    intro p hp
    exact absurd hp SortedSet.not_mem_empty
  absorbed_no_exit := by
    intro p hp
    exact absurd hp SortedSet.not_mem_empty

theorem Valid.addEnds {a : Arena} (ha : a.Valid) : a.addEnds.1.Valid where
  target_lt := by
    intro p s q h
    have := ha.target_lt p s q (hasEdge_addEnds.mp h)
    rw [size_addEnds]
    omega
  target_kept := by
    intro p s q h
    exact ha.target_kept p s q (hasEdge_addEnds.mp h)
  absorbed_lt := by
    intro p hp
    have := ha.absorbed_lt p hp
    rw [size_addEnds]
    omega
  absorbed_no_exit := by
    intro p hp s q h
    exact ha.absorbed_no_exit p hp s q (hasEdge_addEnds.mp h)

theorem Valid.link {a : Arena} (ha : a.Valid) {source target : Nat} {symbol : Symbol}
    (hsource : source < a.nodes.size) (hsource_kept : source ∉ a.absorbed)
    (htarget : target < a.nodes.size) (htarget_kept : target ∉ a.absorbed) :
    (a.link source symbol target).Valid where
  target_lt := by
    intro p s q h
    rw [size_link]
    rcases (hasEdge_link hsource).mp h with h | ⟨_, _, rfl⟩
    · exact ha.target_lt p s q h
    · exact htarget
  target_kept := by
    intro p s q h
    rcases (hasEdge_link hsource).mp h with h | ⟨_, _, rfl⟩
    · exact ha.target_kept p s q h
    · exact htarget_kept
  absorbed_lt := by
    intro p hp
    rw [size_link]
    exact ha.absorbed_lt p hp
  absorbed_no_exit := by
    intro p hp s q h
    rcases (hasEdge_link hsource).mp h with h | ⟨rfl, _⟩
    · exact ha.absorbed_no_exit p hp s q h
    · exact hsource_kept hp

theorem mem_absorbed_absorb {a : Arena} {node into p : Nat} :
    p ∈ (a.absorb node into).absorbed ↔ p = node ∨ p ∈ a.absorbed :=
  SortedSet.mem_insert

theorem Valid.absorb {a : Arena} (ha : a.Valid) {node into : Nat}
    (hnode : node < a.nodes.size) (hno_exit : ∀ s q, ¬ a.HasEdge node s q)
    (hinto : into < a.nodes.size) (hinto_kept : into ∉ a.absorbed) (hne : into ≠ node) :
    (a.absorb node into).Valid where
  target_lt := by
    intro p s q h
    rw [size_absorb]
    rcases hasEdge_absorb.mp h with ⟨h, _⟩ | ⟨_, rfl⟩
    · exact ha.target_lt p s q h
    · exact hinto
  target_kept := by
    intro p s q h hq
    rw [mem_absorbed_absorb] at hq
    rcases hasEdge_absorb.mp h with ⟨h, hqn⟩ | ⟨_, rfl⟩
    · exact ha.target_kept p s q h (hq.resolve_left hqn)
    · exact hinto_kept (hq.resolve_left hne)
  absorbed_lt := by
    intro p hp
    rw [size_absorb]
    cases mem_absorbed_absorb.mp hp with
    | inl hp => exact hp ▸ hnode
    | inr hp => exact ha.absorbed_lt p hp
  absorbed_no_exit := by
    intro p hp s q h
    have hnone : ∀ q, ¬ a.HasEdge p s q := by
      intro q
      cases mem_absorbed_absorb.mp hp with
      | inl hp => exact hp ▸ hno_exit s q
      | inr hp => exact ha.absorbed_no_exit p hp s q
    rcases hasEdge_absorb.mp h with ⟨h, _⟩ | ⟨h, _⟩
    · exact hnone q h
    · exact hnone node h

/-!
# Growth

Nothing changes at the nodes that were there before, and the edges of new nodes lead
to new nodes.
-/

structure Grows (a b : Arena) : Prop where
  size_le : a.nodes.size ≤ b.nodes.size
  frame : ∀ p s q, p < a.nodes.size → (b.HasEdge p s q ↔ a.HasEdge p s q)
  absorbed_iff : ∀ p, p < a.nodes.size → (p ∈ b.absorbed ↔ p ∈ a.absorbed)
  beyond : ∀ p s q, a.nodes.size ≤ p → b.HasEdge p s q → a.nodes.size ≤ q

theorem Grows.refl {a : Arena} : Grows a a where
  size_le := Nat.le_refl _
  frame := fun _ _ _ _ => Iff.rfl
  absorbed_iff := fun _ _ => Iff.rfl
  beyond := by
    intro p s q hp h
    have := lt_of_hasEdge h
    omega

theorem Grows.trans {a b c : Arena} (hab : Grows a b) (hbc : Grows b c) : Grows a c where
  size_le := Nat.le_trans hab.size_le hbc.size_le
  frame := by
    intro p s q hp
    rw [hbc.frame p s q (Nat.lt_of_lt_of_le hp hab.size_le), hab.frame p s q hp]
  absorbed_iff := by
    intro p hp
    rw [hbc.absorbed_iff p (Nat.lt_of_lt_of_le hp hab.size_le), hab.absorbed_iff p hp]
  beyond := by
    intro p s q hp h
    by_cases hpb : p < b.nodes.size
    · exact hab.beyond p s q hp ((hbc.frame p s q hpb).mp h)
    · exact Nat.le_trans hab.size_le (hbc.beyond p s q (Nat.le_of_not_lt hpb) h)

theorem grows_addEnds {a : Arena} : Grows a a.addEnds.1 where
  size_le := by
    rw [size_addEnds]
    omega
  frame := by
    intro p s q _
    exact hasEdge_addEnds
  absorbed_iff := by
    intro p _
    exact Iff.rfl
  beyond := by
    intro p s q hp h
    have := lt_of_hasEdge (hasEdge_addEnds.mp h)
    omega

theorem Grows.link {a b : Arena} (h : Grows a b) {source target : Nat} {symbol : Symbol}
    (hsource : source < b.nodes.size) (hnew : a.nodes.size ≤ source)
    (htarget : a.nodes.size ≤ target) : Grows a (b.link source symbol target) where
  size_le := by
    rw [size_link]
    exact h.size_le
  frame := by
    intro p s q hp
    rw [hasEdge_link hsource, h.frame p s q hp]
    apply or_iff_left
    intro hlink
    omega
  absorbed_iff := h.absorbed_iff
  beyond := by
    intro p s q hp hedge
    rcases (hasEdge_link hsource).mp hedge with hedge | ⟨_, _, rfl⟩
    · exact h.beyond p s q hp hedge
    · exact htarget

theorem Grows.absorb {a b : Arena} (ha : a.Valid) (h : Grows a b) {node into : Nat}
    (hnode : a.nodes.size ≤ node) (hinto : a.nodes.size ≤ into) :
    Grows a (b.absorb node into) where
  size_le := by
    rw [size_absorb]
    exact h.size_le
  frame := by
    intro p s q hp
    rw [hasEdge_absorb, h.frame p s q hp, h.frame p s node hp]
    constructor
    · intro hedge
      rcases hedge with ⟨hedge, _⟩ | ⟨hedge, _⟩
      · exact hedge
      · have := ha.target_lt p s node hedge
        omega
    · intro hedge
      have := ha.target_lt p s q hedge
      exact Or.inl ⟨hedge, by omega⟩
  absorbed_iff := by
    intro p hp
    rw [mem_absorbed_absorb, h.absorbed_iff p hp]
    apply or_iff_right
    omega
  beyond := by
    intro p s q hp hedge
    rcases hasEdge_absorb.mp hedge with ⟨hedge, _⟩ | ⟨_, rfl⟩
    · exact h.beyond p s q hp hedge
    · exact hinto

theorem Grows.isolated {a b : Arena} (h : Grows a b) {p : Nat} (hp : p < a.nodes.size)
    (hisolated : Isolated a.HasEdge p) : Isolated b.HasEdge p := by
  constructor
  · intro s q hedge
    exact hisolated.1 s q ((h.frame p s q hp).mp hedge)
  · intro q s hedge
    by_cases hq : q < a.nodes.size
    · exact hisolated.2 q s ((h.frame q s p hq).mp hedge)
    · have := h.beyond q s p (Nat.le_of_not_lt hq) hedge
      omega

/-!
# New nodes
-/

/-- The nodes that were added to an arena and have not been absorbed. -/
def New (a b : Arena) (p : Nat) : Prop :=
  a.nodes.size ≤ p ∧ p < b.nodes.size ∧ p ∉ b.absorbed

theorem new_trans {a b c : Arena} (hab : Grows a b) (hbc : Grows b c) {p : Nat} :
    New a c p ↔ New a b p ∨ New b c p := by
  have hb := hab.size_le
  have hc := hbc.size_le
  unfold New
  by_cases hp : p < b.nodes.size
  · rw [hbc.absorbed_iff p hp]
    constructor
    · intro h
      exact Or.inl ⟨h.1, hp, h.2.2⟩
    · intro h
      cases h with
      | inl h =>
          exact ⟨h.1, by omega, h.2.2⟩
      | inr h =>
          omega
  · constructor
    · intro h
      exact Or.inr ⟨by omega, h.2⟩
    · intro h
      cases h with
      | inl h =>
          omega
      | inr h =>
          exact ⟨by omega, h.2⟩

theorem new_addEnds {a : Arena} (ha : a.Valid) {p : Nat} :
    New a a.addEnds.1 p ↔ p = a.addEnds.2.start ∨ p = a.addEnds.2.accept := by
  have hends : New a a.addEnds.1 p ↔
      a.nodes.size ≤ p ∧ p < a.nodes.size + 2 ∧ p ∉ a.absorbed := by
    unfold New
    rw [size_addEnds]
    exact Iff.rfl
  rw [hends]
  show _ ↔ p = a.nodes.size ∨ p = a.nodes.size + 1
  constructor
  · intro h
    omega
  · intro h
    refine ⟨by omega, by omega, ?_⟩
    intro hp
    have := ha.absorbed_lt p hp
    omega

/-!
# Adding the fragment of an expression
-/

structure Extends (a b : Arena) : Prop where
  valid : b.Valid
  grows : Grows a b

theorem Extends.trans {a b c : Arena} (hab : Extends a b) (hbc : Extends b c) : Extends a c :=
  ⟨hbc.valid, hab.grows.trans hbc.grows⟩

theorem Valid.extends_addEnds {a : Arena} (ha : a.Valid) : Extends a a.addEnds.1 :=
  ⟨ha.addEnds, grows_addEnds⟩

theorem Extends.link {a b : Arena} (h : Extends a b) {source target : Nat} (symbol : Symbol)
    (hsource : New a b source) (htarget : New a b target) :
    Extends a (b.link source symbol target) where
  valid := h.valid.link hsource.2.1 hsource.2.2 htarget.2.1 htarget.2.2
  grows := h.grows.link hsource.2.1 hsource.1 htarget.1

theorem new_link {a b : Arena} {source target p : Nat} {symbol : Symbol} :
    New a (b.link source symbol target) p ↔ New a b p := by
  unfold New
  rw [size_link]
  exact Iff.rfl

/-- What adding a fragment does to an arena. -/
structure Adds (a b : Arena) (f : Fragment) (L : Language Char) : Prop where
  grown : Extends a b
  fragment : IsFragment b.HasEdge (New a b) f L

theorem Adds.later {a b c : Arena} {f : Fragment} {L : Language Char} (h : Adds a b f L)
    (hgrown : Extends b c) : IsFragment c.HasEdge (New a b) f L := by
  apply h.fragment.transport
  · intro p s q hp
    exact hgrown.grows.frame p s q hp.2.1
  · intro p s q hedge
    by_cases hp : p < b.nodes.size
    · exact h.fragment.closed p s q ((hgrown.grows.frame p s q hp).mp hedge)
    · have hq := hgrown.grows.beyond p s q (Nat.le_of_not_lt hp) hedge
      constructor
      · intro hnew
        exact absurd hnew.2.1 hp
      · intro hnew
        exact absurd hnew.2.1 (Nat.not_lt_of_le hq)

/-!
# The ends of a fragment
-/

theorem start_ne_accept (a : Arena) : a.addEnds.2.start ≠ a.addEnds.2.accept :=
  Nat.ne_of_lt (Nat.lt_succ_self _)

theorem ends_within {a : Arena} {p : Nat}
    (hp : p = a.addEnds.2.start ∨ p = a.addEnds.2.accept) :
    a.nodes.size ≤ p ∧ p < a.addEnds.1.nodes.size := by
  have hstart : a.addEnds.2.start = a.nodes.size := rfl
  have haccept : a.addEnds.2.accept = a.nodes.size + 1 := rfl
  rw [size_addEnds]
  omega

theorem isolated_ends {a b : Arena} (ha : a.Valid) (h : Grows a.addEnds.1 b) {p : Nat}
    (hp : p = a.addEnds.2.start ∨ p = a.addEnds.2.accept) : Isolated b.HasEdge p := by
  have hwithin := ends_within hp
  apply h.isolated hwithin.2
  constructor
  · intro s q hedge
    have := lt_of_hasEdge (hasEdge_addEnds.mp hedge)
    omega
  · intro q s hedge
    have := ha.target_lt q s p (hasEdge_addEnds.mp hedge)
    omega

theorem not_new_ends {a b : Arena} {p : Nat}
    (hp : p = a.addEnds.2.start ∨ p = a.addEnds.2.accept) : ¬ New a.addEnds.1 b p := by
  intro h
  have := (ends_within hp).2
  have := h.1
  omega

theorem new_with_ends {a b : Arena} (ha : a.Valid) (h : Grows a.addEnds.1 b) {p : Nat} :
    New a b p ↔ New a.addEnds.1 b p ∨ p = a.addEnds.2.start ∨ p = a.addEnds.2.accept := by
  rw [new_trans grows_addEnds h, new_addEnds ha]
  exact or_comm

/-!
# The fragment of an expression
-/

theorem addAtom_adds {a : Arena} (ha : a.Valid) (symbol : Symbol) :
    Adds a (a.addAtom symbol).1 (a.addAtom symbol).2 symbol.language := by
  have hnew : ∀ p, New a a.addEnds.1 p ↔ p = a.addEnds.2.start ∨ p = a.addEnds.2.accept :=
    fun _ => new_addEnds ha
  have hstart : New a a.addEnds.1 a.addEnds.2.start := (hnew _).mpr (Or.inl rfl)
  have haccept : New a a.addEnds.1 a.addEnds.2.accept := (hnew _).mpr (Or.inr rfl)
  refine ⟨ha.extends_addEnds.link symbol hstart haccept, ?_⟩
  apply (isFragment_atom (E := a.addEnds.1.HasEdge) (start_ne_accept a)
    (isolated_ends ha Grows.refl (Or.inl rfl)) (isolated_ends ha Grows.refl (Or.inr rfl))
    (fun p s q => hasEdge_link hstart.2.1)).congr
  intro p
  rw [false_or, ← hnew]
  exact new_link

section Parts

variable {a b c : Arena} {f g : Fragment} {L M : Language Char}

theorem Adds.bypass (h : Adds a b f L) :
    Adds a (b.link f.start .epsilon f.accept) f (1 + L) := by
  have hstart := h.fragment.start_mem
  refine ⟨h.grown.link .epsilon hstart h.fragment.accept_mem, ?_⟩
  apply (isFragment_bypass h.fragment (fun p s q => hasEdge_link hstart.2.1)).congr
  intro p
  exact new_link

theorem Adds.choice (ha : a.Valid) (hf : Adds a.addEnds.1 b f L) (hg : Adds b c g M) :
    Adds a
      ((((c.link a.addEnds.2.start .epsilon f.start).link a.addEnds.2.start .epsilon g.start).link
        f.accept .epsilon a.addEnds.2.accept).link g.accept .epsilon a.addEnds.2.accept)
      a.addEnds.2 (L + M) := by
  have hgrown : Extends a.addEnds.1 c := hf.grown.trans hg.grown
  have hfc := hf.later hg.grown
  have hgc := hg.fragment
  have hregion : ∀ p, New a c p ↔
      (New a.addEnds.1 b p ∨ New b c p) ∨ p = a.addEnds.2.start ∨ p = a.addEnds.2.accept := by
    intro p
    rw [new_with_ends ha hgrown.grows, new_trans hf.grown.grows hg.grown.grows]
  have hends : ∀ p, p = a.addEnds.2.start ∨ p = a.addEnds.2.accept → New a c p :=
    fun p hp => (hregion p).mpr (Or.inr hp)
  have hparts : ∀ p, New a.addEnds.1 b p ∨ New b c p → New a c p :=
    fun p hp => (hregion p).mpr (Or.inl hp)
  have hout : ∀ p, p = a.addEnds.2.start ∨ p = a.addEnds.2.accept →
      ¬ (New a.addEnds.1 b p ∨ New b c p) := by
    intro p hp h
    exact not_new_ends hp ((new_trans hf.grown.grows hg.grown.grows).mpr h)
  have hstart := hends _ (Or.inl rfl)
  have haccept := hends _ (Or.inr rfl)
  have hf_start := hparts _ (Or.inl hfc.start_mem)
  have hf_accept := hparts _ (Or.inl hfc.accept_mem)
  have hg_start := hparts _ (Or.inr hgc.start_mem)
  have hg_accept := hparts _ (Or.inr hgc.accept_mem)
  have hdisjoint : ∀ p, New a.addEnds.1 b p → ¬ New b c p := by
    intro p hp h
    exact Nat.not_le_of_lt hp.2.1 h.1
  refine ⟨?_, ?_⟩
  · have h := ha.extends_addEnds.trans hgrown
    have h := h.link .epsilon hstart hf_start
    have h := h.link .epsilon (new_link.mpr hstart) (new_link.mpr hg_start)
    have h := h.link .epsilon (new_link.mpr (new_link.mpr hf_accept))
      (new_link.mpr (new_link.mpr haccept))
    exact h.link .epsilon (new_link.mpr (new_link.mpr (new_link.mpr hg_accept)))
      (new_link.mpr (new_link.mpr (new_link.mpr haccept)))
  · apply (isFragment_sides (E := c.HasEdge) hfc hgc hdisjoint (start_ne_accept a)
      (isolated_ends ha hgrown.grows (Or.inl rfl)) (isolated_ends ha hgrown.grows (Or.inr rfl))
      (hout _ (Or.inl rfl)) (hout _ (Or.inr rfl)) ?_).congr
    · intro p
      rw [new_link, new_link, new_link, new_link, hregion]
    · intro p s q
      rw [hasEdge_link (by simpa using hg_accept.2.1), hasEdge_link (by simpa using hf_accept.2.1),
        hasEdge_link (by simpa using hstart.2.1), hasEdge_link hstart.2.1]
      tauto

theorem Adds.new_nodes (ha : a.Valid) (hf : Adds a.addEnds.1 b f L) :
    New a b a.addEnds.2.start ∧ New a b a.addEnds.2.accept ∧ New a b f.start ∧
      New a b f.accept := by
  have hregion : ∀ p, New a b p ↔
      New a.addEnds.1 b p ∨ p = a.addEnds.2.start ∨ p = a.addEnds.2.accept :=
    fun p => new_with_ends ha hf.grown.grows
  exact ⟨(hregion _).mpr (Or.inr (Or.inl rfl)), (hregion _).mpr (Or.inr (Or.inr rfl)),
    (hregion _).mpr (Or.inl hf.fragment.start_mem),
    (hregion _).mpr (Or.inl hf.fragment.accept_mem)⟩

theorem Adds.loop (ha : a.Valid) (hf : Adds a.addEnds.1 b f L) :
    Adds a
      (((b.link a.addEnds.2.start .epsilon f.start).link f.accept .epsilon f.start).link
        f.accept .epsilon a.addEnds.2.accept)
      a.addEnds.2 (L * L∗) := by
  rcases Adds.new_nodes ha hf with ⟨hstart, haccept, hf_start, hf_accept⟩
  refine ⟨?_, ?_⟩
  · have h := ha.extends_addEnds.trans hf.grown
    have h := h.link .epsilon hstart hf_start
    have h := h.link .epsilon (new_link.mpr hf_accept) (new_link.mpr hf_start)
    exact h.link .epsilon (new_link.mpr (new_link.mpr hf_accept))
      (new_link.mpr (new_link.mpr haccept))
  · apply (isFragment_loop (E := b.HasEdge) hf.fragment (start_ne_accept a)
      (isolated_ends ha hf.grown.grows (Or.inl rfl))
      (isolated_ends ha hf.grown.grows (Or.inr rfl))
      (not_new_ends (Or.inl rfl)) (not_new_ends (Or.inr rfl)) ?_).congr
    · intro p
      rw [new_link, new_link, new_link, new_with_ends ha hf.grown.grows]
    · intro p s q
      rw [hasEdge_link (by simpa using hf_accept.2.1), hasEdge_link (by simpa using hf_accept.2.1),
        hasEdge_link hstart.2.1]
      tauto

/-- The links of a star are those of a loop and a bypass, in another order. -/
theorem Adds.star (ha : a.Valid) (hf : Adds a.addEnds.1 b f L) :
    Adds a
      ((((b.link a.addEnds.2.start .epsilon f.start).link
        a.addEnds.2.start .epsilon a.addEnds.2.accept).link
        f.accept .epsilon f.start).link f.accept .epsilon a.addEnds.2.accept)
      a.addEnds.2 L∗ := by
  rcases Adds.new_nodes ha hf with ⟨hstart, haccept, hf_start, hf_accept⟩
  refine ⟨?_, ?_⟩
  · have h := ha.extends_addEnds.trans hf.grown
    have h := h.link .epsilon hstart hf_start
    have h := h.link .epsilon (new_link.mpr hstart) (new_link.mpr haccept)
    have h := h.link .epsilon (new_link.mpr (new_link.mpr hf_accept))
      (new_link.mpr (new_link.mpr hf_start))
    exact h.link .epsilon (new_link.mpr (new_link.mpr (new_link.mpr hf_accept)))
      (new_link.mpr (new_link.mpr (new_link.mpr haccept)))
  · rw [← Language.one_add_self_mul_kstar_eq_kstar]
    apply (isFragment_bypass (Adds.loop ha hf).fragment ?_).congr
    · intro p
      rw [new_link, new_link, new_link, new_link, new_link, new_link, new_link]
    · intro p s q
      rw [hasEdge_link (by simpa using hf_accept.2.1), hasEdge_link (by simpa using hf_accept.2.1),
        hasEdge_link (by simpa using hstart.2.1), hasEdge_link hstart.2.1,
        hasEdge_link (by simpa using hf_accept.2.1), hasEdge_link (by simpa using hf_accept.2.1),
        hasEdge_link hstart.2.1]
      tauto

theorem Adds.concat (ha : a.Valid) (hf : Adds a b f L) (hg : Adds b c g M) :
    Adds a (c.absorb f.accept g.start) ⟨f.start, g.accept⟩ (L * M) := by
  have hgrown : Extends a c := hf.grown.trans hg.grown
  have hfc := hf.later hg.grown
  have hgc := hg.fragment
  have hdisjoint : ∀ p, New a b p → ¬ New b c p := by
    intro p hp h
    exact Nat.not_le_of_lt hp.2.1 h.1
  have hregion : ∀ p, New a c p ↔ New a b p ∨ New b c p :=
    fun p => new_trans hf.grown.grows hg.grown.grows
  have hf_accept := (hregion _).mpr (Or.inl hfc.accept_mem)
  have hg_start := (hregion _).mpr (Or.inr hgc.start_mem)
  have hne : g.start ≠ f.accept := by
    intro h
    exact hdisjoint _ hfc.accept_mem (h ▸ hgc.start_mem)
  refine ⟨⟨?_, ?_⟩, ?_⟩
  · exact hgrown.valid.absorb hf_accept.2.1 hfc.no_exit hg_start.2.1 hg_start.2.2 hne
  · exact hgrown.grows.absorb ha hf_accept.1 hg_start.1
  · apply (isFragment_shared hfc hgc hdisjoint (fun p s q => hasEdge_absorb)).congr
    intro p
    have hkept : New a (c.absorb f.accept g.start) p ↔ New a c p ∧ p ≠ f.accept := by
      unfold New
      rw [size_absorb, mem_absorbed_absorb]
      tauto
    rw [hkept, hregion]
    constructor
    · intro h
      exact h.1.imp_left (fun hp => ⟨hp, h.2⟩)
    · intro h
      cases h with
      | inl h => exact ⟨Or.inl h.1, h.2⟩
      | inr h => exact ⟨Or.inr h, fun hp => hdisjoint p (hp ▸ hfc.accept_mem) h⟩

end Parts

theorem addExpr_adds (e : Expr) {a : Arena} (ha : a.Valid) :
    Adds a (addExpr e a).1 (addExpr e a).2 e.language := by
  induction e generalizing a with
  | letter l => exact addAtom_adds ha (.char l.symbol)
  | epsilon _ => exact addAtom_adds ha .epsilon
  | choice left right ihl ihr =>
      have hleft := ihl ha.addEnds
      exact Adds.choice ha hleft (ihr hleft.grown.valid)
  | concat left right ihl ihr =>
      have hleft := ihl ha
      exact Adds.concat ha hleft (ihr hleft.grown.valid)
  | optional inner ih => exact (ih ha).bypass
  | star inner ih => exact Adds.star ha (ih ha.addEnds)
  | plus inner ih => exact Adds.loop ha (ih ha.addEnds)

end Arena

end Recognizer
