import Recognizer.Proofs.Automaton.Partition

/-!
# The classes of equivalent states

The refinement never parts equivalent states, and what it still has to look at is
known at every turn: two states of one block whose edges for a character lead into
different blocks have one of these blocks waiting, or the character is still to be
used with the present splitter.  In the end nothing waits, so the blocks are the
classes of equivalent states.
-/

namespace Recognizer

namespace Dfa

variable {d : Dfa}

/-!
# Where edges come from
-/

theorem mem_inverse {c : Char} {t p : Nat} (ht : t < d.totalSize) :
    p ∈ (d.inverse c).getD t [] ↔ p < d.totalSize ∧ d.totalNext p c = t := by
  unfold inverse
  rw [mem_foldr_modify (fun q => d.totalNext q c) (fun q => q) _ ht]
  simp

end Dfa

namespace Refinement

variable {d : Dfa}

theorem mem_preimage {c : Char} {splitter : SortedSet Nat}
    (hsplitter : ∀ q ∈ splitter, q < d.totalSize) {p : Nat} :
    p ∈ preimage (d.inverse c) splitter ↔ p < d.totalSize ∧ d.totalNext p c ∈ splitter := by
  rw [preimage, SortedSet.mem_ofList, List.mem_flatMap]
  constructor
  · intro h
    rcases h with ⟨t, ht, hp⟩
    have hp := (Dfa.mem_inverse (hsplitter t ht)).mp hp
    exact ⟨hp.1, hp.2 ▸ ht⟩
  · intro h
    exact ⟨_, h.2, (Dfa.mem_inverse (hsplitter _ h.2)).mpr ⟨h.1, rfl⟩⟩

/-!
# The invariant
-/

/-- Every block is a union of classes of equivalent states, within the accepting
states or without them. -/
structure Sound (d : Dfa) (r : Refinement) : Prop where
  isPartition : IsPartition d.totalSize r
  accepting : ∀ p q, r.SameBlock p q → (p ∈ d.accepting ↔ q ∈ d.accepting)
  coarse : ∀ p q, p < d.totalSize → q < d.totalSize → d.Equivalent p q → r.SameBlock p q

/-- What is left to be looked at: the blocks that wait, and a splitter that still has
to be used with some characters. -/
def Pending (d : Dfa) (splitter : SortedSet Nat) (left : List Char) (r : Refinement) : Prop :=
  ∀ p q c, r.SameBlock p q → c ∈ d.alphabet →
    r.SameBlock (d.totalNext p c) (d.totalNext q c) ∨ r.Waits (d.totalNext p c) ∨
      r.Waits (d.totalNext q c) ∨
        (c ∈ left ∧ ¬ (d.totalNext p c ∈ splitter ↔ d.totalNext q c ∈ splitter))

structure Saturated (d : Dfa) (s : SortedSet Nat) : Prop where
  lt : ∀ q ∈ s, q < d.totalSize
  alike : ∀ p q, p < d.totalSize → q < d.totalSize → d.Equivalent p q → (p ∈ s ↔ q ∈ s)

theorem Sound.saturated_block {r : Refinement} (hr : Sound d r) (y : Nat) :
    Saturated d (r.block y) where
  lt := fun q hq => (hr.isPartition.covers q).mpr ⟨y, hq⟩
  alike := by
    intro p q hp hq hpq
    rcases hr.coarse p q hp hq hpq with ⟨z, hpz, hqz⟩
    constructor
    · intro h
      exact hr.isPartition.disjoint z y p hpz h ▸ hqz
    · intro h
      exact hr.isPartition.disjoint z y q hqz h ▸ hpz

theorem pending_of_finer {n : Nat} {splitter : SortedSet Nat} {left : List Char}
    {r r' : Refinement} (hr : Pending d splitter left r) (h : Finer n r r') :
    Pending d splitter left r' := by
  intro p q c hpq hc
  rcases hr p q c (h.sameBlock p q hpq) hc with hsame | hp | hq | hleft
  · rcases h.parted _ _ hsame with hsame | hp | hq
    · exact Or.inl hsame
    · exact Or.inr (Or.inl hp)
    · exact Or.inr (Or.inr (Or.inl hq))
  · exact Or.inr (Or.inl (h.waits _ hp))
  · exact Or.inr (Or.inr (Or.inl (h.waits _ hq)))
  · exact Or.inr (Or.inr (Or.inr hleft))

/-!
# One turn
-/

section Turn

variable {r : Refinement} {splitter : SortedSet Nat} {c : Char}

theorem sound_splitAll (hd : d.WellFormed) (hr : Sound d r) (hsplitter : Saturated d splitter)
    (hc : c ∈ d.alphabet) : Sound d (r.splitAll (preimage (d.inverse c) splitter)) where
  isPartition := (finer_splitAll hr.isPartition _).isPartition
  accepting := by
    intro p q hpq
    exact hr.accepting p q ((finer_splitAll hr.isPartition _).sameBlock p q hpq)
  coarse := by
    intro p q hp hq hpq
    apply sameBlock_splitAll (hr.coarse p q hp hq hpq)
    rw [mem_preimage hsplitter.lt, mem_preimage hsplitter.lt, and_iff_right hp, and_iff_right hq]
    exact hsplitter.alike _ _ (hd.totalNext_lt hp hc) (hd.totalNext_lt hq hc)
      (hd.equivalent_totalNext hpq c)

theorem pending_splitAll {left : List Char} (hr : Sound d r) (hsplitter : Saturated d splitter)
    (hpending : Pending d splitter (c :: left) r) :
    Pending d splitter left (r.splitAll (preimage (d.inverse c) splitter)) := by
  have hfiner := finer_splitAll hr.isPartition (preimage (d.inverse c) splitter)
  intro p q b hpq hb
  rcases pending_of_finer hpending hfiner p q b hpq hb with hsame | hp | hq | ⟨hbleft, hparted⟩
  · exact Or.inl hsame
  · exact Or.inr (Or.inl hp)
  · exact Or.inr (Or.inr (Or.inl hq))
  · refine Or.inr (Or.inr (Or.inr ⟨?_, hparted⟩))
    cases List.mem_cons.mp hbleft with
    | inr hleft => exact hleft
    | inl hbc =>
        have hlt : ∀ s, (r.splitAll (preimage (d.inverse c) splitter)).SameBlock p s ∨
            (r.splitAll (preimage (d.inverse c) splitter)).SameBlock s q → s < d.totalSize := by
          intro s hs
          rcases hs with ⟨y, _, hs⟩ | ⟨y, hs, _⟩
          · exact (hfiner.isPartition.covers s).mpr ⟨y, hs⟩
          · exact (hfiner.isPartition.covers s).mpr ⟨y, hs⟩
        have halike := alike_of_sameBlock_splitAll hpq
        rw [mem_preimage hsplitter.lt, mem_preimage hsplitter.lt,
          and_iff_right (hlt p (Or.inr hpq)), and_iff_right (hlt q (Or.inl hpq)), ← hbc] at halike
        exact absurd halike hparted

/-- What is known between two turns of the loop. -/
structure Between (d : Dfa) (r : Refinement) : Prop where
  sound : Sound d r
  pending : Pending d .empty [] r

theorem between_foldl (hd : d.WellFormed) (hr : Sound d r) (hsplitter : Saturated d splitter)
    {cs : List Char} (hcs : ∀ c ∈ cs, c ∈ d.alphabet) (hpending : Pending d splitter cs r) :
    let r' := (cs.map d.inverse).foldl
      (fun r inverse => r.splitAll (preimage inverse splitter)) r
    Between d r' ∧ Finer d.totalSize r r' := by
  induction cs generalizing r with
  | nil =>
      refine ⟨⟨hr, ?_⟩, Finer.refl hr.isPartition⟩
      intro p q c hpq hc
      rcases hpending p q c hpq hc with h | h | h | ⟨hnil, _⟩
      · exact Or.inl h
      · exact Or.inr (Or.inl h)
      · exact Or.inr (Or.inr (Or.inl h))
      · cases hnil
  | cons c cs ih =>
      have hc := hcs c List.mem_cons_self
      have hrest := ih (sound_splitAll hd hr hsplitter hc)
        (fun b hb => hcs b (List.mem_cons_of_mem _ hb)) (pending_splitAll hr hsplitter hpending)
      exact ⟨hrest.1, (finer_splitAll hr.isPartition _).trans hrest.2⟩

/-- The block that is taken as a splitter waits no longer, but all characters are
still to be used with it. -/
theorem pending_taken {a : Nat} {rest : List Nat} (hr : Between d r)
    (hwaiting : r.waiting = a :: rest) :
    Pending d (r.block a) d.alphabet.toList { r with waiting := rest } := by
  have hwaits : ∀ q, r.Waits q →
      q ∈ r.block a ∨ ({ r with waiting := rest } : Refinement).Waits q := by
    intro q hq
    rcases hq with ⟨b, hb, hq⟩
    rw [hwaiting] at hb
    cases List.mem_cons.mp hb with
    | inl hba => exact Or.inl (hba ▸ hq)
    | inr hb => exact Or.inr ⟨b, hb, hq⟩
  intro p q c hpq hc
  by_cases hsame : r.SameBlock (d.totalNext p c) (d.totalNext q c)
  · exact Or.inl hsame
  · have hparted : d.totalNext p c ∈ r.block a → d.totalNext q c ∈ r.block a → False :=
      fun hp hq => hsame ⟨a, hp, hq⟩
    rcases hr.pending p q c hpq hc with h | h | h | ⟨hnil, _⟩
    · exact absurd h hsame
    · cases hwaits _ h with
      | inl h =>
          exact Or.inr (Or.inr (Or.inr ⟨hc, fun hiff => hparted h (hiff.mp h)⟩))
      | inr h => exact Or.inr (Or.inl h)
    · cases hwaits _ h with
      | inl h =>
          exact Or.inr (Or.inr (Or.inr ⟨hc, fun hiff => hparted (hiff.mpr h) h⟩))
      | inr h => exact Or.inr (Or.inr (Or.inl h))
    · cases hnil

theorem between_takeSplitter (hd : d.WellFormed) (hr : Between d r) (hstable : r.isStable = false) :
    let r' := takeSplitter (d.alphabet.toList.map d.inverse) r
    Between d r' ∧ r'.waiting.length + r.blocks.size + 1 = r.waiting.length + r'.blocks.size := by
  cases hwaiting : r.waiting with
  | nil =>
      rw [isStable, hwaiting] at hstable
      cases hstable
  | cons a rest =>
      have hsound : Sound d { r with waiting := rest } :=
        ⟨⟨hr.sound.isPartition.nonempty, hr.sound.isPartition.covers,
          hr.sound.isPartition.disjoint⟩, hr.sound.accepting, hr.sound.coarse⟩
      have h := between_foldl hd hsound (hr.sound.saturated_block a) (fun _ hc => hc)
        (pending_taken hr hwaiting)
      have htake : takeSplitter (d.alphabet.toList.map d.inverse) r =
          (d.alphabet.toList.map d.inverse).foldl
            (fun r' inverse => r'.splitAll (preimage inverse (r.block a)))
              { r with waiting := rest } := by
        unfold takeSplitter
        rw [hwaiting]
        exact rfl
      rw [htake]
      refine ⟨h.1, ?_⟩
      have hcount := h.2.count
      rw [List.length_cons]
      simp only at hcount ⊢
      omega

end Turn

/-!
# The first blocks
-/

def sides (d : Dfa) : List (SortedSet Nat) :=
  [d.accepting, (SortedSet.range d.totalSize).filter (fun q => q ∉ d.accepting)]

theorem mem_block_initial {y q : Nat} :
    q ∈ (initial d).block y ↔
      ∃ s, ((sides d).filter (fun s => !s.isEmpty))[y]? = some s ∧ q ∈ s := by
  unfold block
  rw [Array.getD_eq_getD_getElem?]
  show q ∈ ((((sides d).filter (fun s => !s.isEmpty)).toArray)[y]?).getD .empty ↔ _
  rw [List.getElem?_toArray]
  cases ((sides d).filter (fun s => !s.isEmpty))[y]? with
  | none => simp
  | some s => simp

theorem mem_sides_iff (hd : d.WellFormed) {q : Nat} :
    q < d.totalSize ↔ ∃ s ∈ sides d, q ∈ s := by
  have haccepting : q ∈ d.accepting → q < d.totalSize :=
    fun hq => Nat.lt_of_lt_of_le (hd.accepting_lt q hq) Dfa.size_le_totalSize
  simp only [sides, List.mem_cons, List.not_mem_nil, or_false, exists_eq_or_imp, exists_eq_left,
    SortedSet.mem_filter, SortedSet.mem_range, decide_eq_true_eq]
  tauto

theorem accepting_iff_of_mem_sides {s : SortedSet Nat} (hs : s ∈ sides d) {p q : Nat}
    (hp : p ∈ s) (hq : q ∈ s) : p ∈ d.accepting ↔ q ∈ d.accepting := by
  simp only [sides, List.mem_cons, List.not_mem_nil, or_false] at hs
  rcases hs with rfl | rfl
  · exact iff_of_true hp hq
  · have hp := of_decide_eq_true (SortedSet.mem_filter.mp hp).2
    have hq := of_decide_eq_true (SortedSet.mem_filter.mp hq).2
    exact iff_of_false hp hq

theorem isPartition_initial (hd : d.WellFormed) : IsPartition d.totalSize (initial d) where
  nonempty := by
    intro y hy
    have hy : y < ((sides d).filter (fun s => !s.isEmpty)).length := by
      simpa [initial, sides] using hy
    have hmem := List.mem_filter.mp (List.getElem_mem hy)
    rcases SortedSet.exists_mem_of_isEmpty (by simpa using hmem.2) with ⟨q, hq⟩
    exact ⟨q, mem_block_initial.mpr ⟨_, List.getElem?_eq_getElem hy, hq⟩⟩
  covers := by
    intro q
    rw [mem_sides_iff hd]
    constructor
    · intro h
      rcases h with ⟨s, hs, hq⟩
      have hkept : s ∈ (sides d).filter (fun s => !s.isEmpty) := by
        refine List.mem_filter.mpr ⟨hs, ?_⟩
        rw [Bool.not_eq_true']
        apply Bool.eq_false_iff.mpr
        intro hempty
        exact SortedSet.not_mem_of_isEmpty hempty q hq
      rcases List.mem_iff_getElem?.mp hkept with ⟨y, hy⟩
      exact ⟨y, mem_block_initial.mpr ⟨s, hy, hq⟩⟩
    · intro h
      rcases h with ⟨y, hq⟩
      rcases mem_block_initial.mp hq with ⟨s, hs, hq⟩
      exact ⟨s, (List.mem_filter.mp (List.mem_of_getElem? hs)).1, hq⟩
  disjoint := by
    intro y z q hy hz
    rcases mem_block_initial.mp hy with ⟨s, hs, hqs⟩
    rcases mem_block_initial.mp hz with ⟨t, ht, hqt⟩
    have hapart : (sides d).Pairwise (fun s t => q ∈ s → q ∉ t) := by
      simp +contextual [sides]
    have hapart := hapart.filter (fun s => !s.isEmpty)
    rw [List.pairwise_iff_getElem] at hapart
    rcases List.getElem?_eq_some_iff.mp hs with ⟨hy, rfl⟩
    rcases List.getElem?_eq_some_iff.mp ht with ⟨hz, rfl⟩
    rcases Nat.lt_trichotomy y z with hyz | hyz | hyz
    · exact absurd hqt (hapart y z hy hz hyz hqs)
    · exact hyz
    · exact absurd hqs (hapart z y hz hy hyz hqt)

theorem sound_initial (hd : d.WellFormed) : Sound d (initial d) where
  isPartition := isPartition_initial hd
  accepting := by
    intro p q hpq
    rcases hpq with ⟨y, hp, hq⟩
    rcases mem_block_initial.mp hp with ⟨s, hs, hp⟩
    rcases mem_block_initial.mp hq with ⟨t, ht, hq⟩
    rw [hs] at ht
    injection ht with hst
    exact accepting_iff_of_mem_sides (List.mem_filter.mp (List.mem_of_getElem? hs)).1 hp (hst ▸ hq)
  coarse := by
    intro p q hp hq hpq
    have haccepting : p ∈ d.accepting ↔ q ∈ d.accepting := by
      rw [← Dfa.acceptsFrom_nil, ← Dfa.acceptsFrom_nil]
      exact hpq []
    rcases ((isPartition_initial hd).covers p).mp hp with ⟨y, hpy⟩
    refine ⟨y, hpy, ?_⟩
    rcases mem_block_initial.mp hpy with ⟨s, hs, hps⟩
    refine mem_block_initial.mpr ⟨s, hs, ?_⟩
    have hside := (List.mem_filter.mp (List.mem_of_getElem? hs)).1
    simp only [sides, List.mem_cons, List.not_mem_nil, or_false] at hside
    rcases hside with rfl | rfl
    · exact haccepting.mp hps
    · have hp_out := of_decide_eq_true (SortedSet.mem_filter.mp hps).2
      exact SortedSet.mem_filter.mpr ⟨SortedSet.mem_range.mpr hq,
        decide_eq_true (fun h => hp_out (haccepting.mpr h))⟩

theorem waiting_initial : (initial d).waiting = (List.range (initial d).blocks.size).reverse := by
  simp [initial]

theorem between_initial (hd : d.WellFormed) : Between d (initial d) where
  sound := sound_initial hd
  pending := by
    intro p q c hpq hc
    rcases hpq with ⟨y, hp, _⟩
    have hp := ((isPartition_initial hd).covers p).mpr ⟨y, hp⟩
    rcases ((isPartition_initial hd).covers _).mp (hd.totalNext_lt hp hc) with ⟨a, ha⟩
    refine Or.inr (Or.inl ⟨a, ?_, ha⟩)
    rw [waiting_initial, List.mem_reverse, List.mem_range]
    exact lt_of_mem_block ha

/-!
# The last blocks
-/

theorem between_ofDfa (hd : d.WellFormed) : Between d (ofDfa d) := by
  unfold ofDfa
  apply repeatUntil_invariant (I := Between d)
  · intro r hr hstable
    exact (between_takeSplitter hd hr hstable).1
  · exact between_initial hd

theorem isStable_ofDfa (hd : d.WellFormed) : (ofDfa d).isStable = true := by
  unfold ofDfa
  apply repeatUntil_finished (I := Between d)
    (fun r => r.waiting.length + (d.totalSize - r.blocks.size))
  · intro r hr hstable
    exact (between_takeSplitter hd hr hstable).1
  · intro r hr hstable
    have hturn := between_takeSplitter hd hr hstable
    have := hr.sound.isPartition.size_le
    have := hturn.1.sound.isPartition.size_le
    have := hturn.2
    omega
  · exact between_initial hd
  · have := (isPartition_initial hd).size_le
    rw [waiting_initial, List.length_reverse, List.length_range]
    omega

/-- When no block waits, edges of states of one block lead into one block. -/
theorem Between.sameBlock_totalNext {r : Refinement} (hr : Between d r) (hwaiting : r.waiting = [])
    {p q : Nat} {c : Char} (hpq : r.SameBlock p q) (hc : c ∈ d.alphabet) :
    r.SameBlock (d.totalNext p c) (d.totalNext q c) := by
  have hnone : ∀ q, ¬ r.Waits q := by
    intro q hq
    rcases hq with ⟨a, ha, _⟩
    rw [hwaiting] at ha
    cases ha
  rcases hr.pending p q c hpq hc with h | h | h | ⟨hnil, _⟩
  · exact h
  · exact absurd h (hnone _)
  · exact absurd h (hnone _)
  · cases hnil

theorem sameBlock_totalNext (hd : d.WellFormed) {p q : Nat} {c : Char}
    (hpq : (ofDfa d).SameBlock p q) (hc : c ∈ d.alphabet) :
    (ofDfa d).SameBlock (d.totalNext p c) (d.totalNext q c) :=
  (between_ofDfa hd).sameBlock_totalNext (List.isEmpty_iff.mp (isStable_ofDfa hd)) hpq hc

theorem isPartition_ofDfa (hd : d.WellFormed) : IsPartition d.totalSize (ofDfa d) :=
  (between_ofDfa hd).sound.isPartition

/-- The blocks are the classes of equivalent states. -/
theorem sameBlock_iff_equivalent (hd : d.WellFormed) {p q : Nat} (hp : p < d.totalSize)
    (hq : q < d.totalSize) : (ofDfa d).SameBlock p q ↔ d.Equivalent p q := by
  constructor
  · intro hpq w
    induction w generalizing p q with
    | nil =>
        rw [Dfa.acceptsFrom_nil, Dfa.acceptsFrom_nil]
        exact (between_ofDfa hd).sound.accepting p q hpq
    | cons c w ih =>
        by_cases hc : c ∈ d.alphabet
        · rw [hd.acceptsFrom_totalNext, hd.acceptsFrom_totalNext]
          exact ih (hd.totalNext_lt hp hc) (hd.totalNext_lt hq hc) (sameBlock_totalNext hd hpq hc)
        · have hnone : ∀ q, ¬ d.AcceptsFrom q (c :: w) := by
            intro q h
            rcases Dfa.acceptsFrom_cons.mp h with ⟨r, hr, _⟩
            exact hc (hd.next_within hr).2.1
          exact iff_of_false (hnone p) (hnone q)
  · exact (between_ofDfa hd).sound.coarse p q hp hq

end Refinement

end Recognizer
