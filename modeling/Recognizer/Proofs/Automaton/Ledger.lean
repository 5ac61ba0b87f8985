import Recognizer.Proofs.Automaton.Quotient
import Recognizer.Proofs.Loop
import Mathlib.Data.List.Induction

/-!
# What is kept beside the blocks

A refinement that keeps the number of the block of every state has to look only at the
blocks of the states that lead into the splitter.  It makes the same splits as one that looks
at all blocks.  The ledger also keeps all numbers that ever waited and those that were taken
as splitters.  Every block waits once, so there are as many turns as there are blocks in the
end.
-/

namespace Recognizer

namespace Refinement

/-- A refinement, the number of the block of every state, all numbers that were put to wait,
and those taken as splitters, in both cases the latest first. -/
structure Ledger where
  refinement : Refinement
  blockOf : Array Nat
  queued : List Nat
  taken : List Nat

def renumber (blockOf : Array Nat) (block : SortedSet Nat) (y : Nat) : Array Nat :=
  block.toList.foldl (fun blockOf q => blockOf.setIfInBounds q y) blockOf

namespace Ledger

/-- Split one block by a set of states to which some of its members belong, if not all do. -/
def splitBlock (x : SortedSet Nat) (l : Ledger) (y : Nat) : Ledger :=
  let r := l.refinement
  let block := r.blocks.getD y .empty
  let inside := block.filter (fun q => q ∈ x)
  let outside := block.filter (fun q => q ∉ x)
  if outside.isEmpty then l
  else
    let (kept, moved) :=
      if inside.size ≤ outside.size then (outside, inside) else (inside, outside)
    { refinement :=
        { blocks := (r.blocks.setIfInBounds y kept).push moved
          waiting := r.blocks.size :: r.waiting
          splits := r.splits.push ⟨block, inside, outside⟩ }
      blockOf := renumber l.blockOf moved r.blocks.size
      queued := r.blocks.size :: l.queued
      taken := l.taken }

def touched (l : Ledger) (x : SortedSet Nat) : SortedSet Nat := x.image fun q => l.blockOf.getD q 0

def splitTouched (l : Ledger) (x : SortedSet Nat) : Ledger :=
  (l.touched x).toList.foldl (splitBlock x) l

def takeSplitter (inverses : List (Array (List Nat))) (l : Ledger) : Ledger :=
  match l.refinement.waiting with
  | [] => l
  | a :: rest =>
      let splitter := l.refinement.blocks.getD a .empty
      inverses.foldl (fun l inverse => l.splitTouched (preimage inverse splitter))
        { l with refinement := { l.refinement with waiting := rest }, taken := a :: l.taken }

def initial (d : Dfa) : Ledger :=
  let r := Refinement.initial d
  { refinement := r
    blockOf := r.blocks.toList.zipIdx.foldl
      (fun blockOf block => renumber blockOf block.1 block.2) (Array.replicate d.totalSize 0)
    queued := r.waiting
    taken := [] }

def isStable (l : Ledger) : Bool := l.refinement.isStable

/-- The ledger after a number of turns, or at the end if the loop ends before. -/
def after (d : Dfa) (k : Nat) : Ledger :=
  repeatUntil isStable (takeSplitter (d.alphabet.toList.map d.inverse)) k (initial d)

end Ledger

/-!
# The numbers of the blocks
-/

section Numbers

variable {n : Nat} {r r' : Refinement} {x block kept moved : SortedSet Nat} {blockOf : Array Nat}
  {q y z : Nat} {side : Prop}

theorem getElem?_renumber :
    (renumber blockOf block y)[q]? =
      if q ∈ block then blockOf[q]?.map fun _ => y else blockOf[q]? := by
  have hlist : ∀ (qs : List Nat) (blockOf : Array Nat),
      (qs.foldl (fun blockOf q => blockOf.setIfInBounds q y) blockOf)[q]? =
        if q ∈ qs then blockOf[q]?.map fun _ => y else blockOf[q]? := by
    intro qs
    induction qs with
    | nil => simp
    | cons p qs ih =>
        intro blockOf
        rw [List.foldl_cons, ih, Array.getElem?_setIfInBounds]
        by_cases hpq : p = q
        · subst hpq
          by_cases hp : p < blockOf.size
          · simp [hp]
          · simp [hp]
        · simp [hpq, Ne.symm hpq]
  exact hlist block.toList blockOf

theorem size_renumber : (renumber blockOf block y).size = blockOf.size := by
  have hlist : ∀ (qs : List Nat) (blockOf : Array Nat),
      (qs.foldl (fun blockOf q => blockOf.setIfInBounds q y) blockOf).size = blockOf.size := by
    intro qs
    induction qs with
    | nil => exact fun _ => rfl
    | cons p qs ih => exact fun blockOf => (ih _).trans Array.size_setIfInBounds
  exact hlist block.toList blockOf

structure Numbered (n : Nat) (r : Refinement) (blockOf : Array Nat) : Prop where
  size_eq : blockOf.size = n
  mem_block : ∀ q y, blockOf[q]? = some y → q ∈ r.block y

theorem Numbered.getElem?_iff (h : Numbered n r blockOf) (hr : IsPartition n r) :
    blockOf[q]? = some y ↔ q ∈ r.block y := by
  constructor
  · exact h.mem_block q y
  · intro hq
    have hlt : q < blockOf.size := h.size_eq ▸ (hr.covers q).mpr ⟨y, hq⟩
    have hnumber := Array.getElem?_eq_getElem hlt
    rw [hnumber, hr.disjoint _ _ q (h.mem_block q _ hnumber) hq]

theorem IsSplit.numbered (h : IsSplit x r y r' kept moved side) (hb : Numbered n r blockOf) :
    Numbered n r' (renumber blockOf moved r.blocks.size) where
  size_eq := size_renumber.trans hb.size_eq
  mem_block := by
    intro q z hz
    rw [getElem?_renumber] at hz
    by_cases hmoved : q ∈ moved
    · rw [if_pos hmoved] at hz
      rcases Option.map_eq_some_iff.mp hz with ⟨_, _, rfl⟩
      exact h.mem_block_moved.mpr hmoved
    · rw [if_neg hmoved] at hz
      have hq := hb.mem_block q z hz
      by_cases hzy : z = y
      · subst hzy
        refine h.mem_block_kept.mpr ((h.mem_kept q).mpr ⟨hq, ?_⟩)
        by_contra hside
        exact hmoved ((h.mem_moved q).mpr ⟨hq, hside⟩)
      · exact (h.mem_block_other (lt_of_mem_block hq) hzy).mpr hq

end Numbers

/-!
# Splits of the blocks that are touched
-/

section Splits

variable {n : Nat} {r : Refinement} {l : Ledger} {x : SortedSet Nat} {y z : Nat} {ys : List Nat}

def Touches (x : SortedSet Nat) (r : Refinement) (y : Nat) : Prop := ∃ q ∈ x, q ∈ r.block y

theorem block_splitBlock (hz : z < r.blocks.size) (hzy : z ≠ y) :
    (splitBlock x r y).block z = r.block z := by
  rcases splitBlock_cases x r y with ⟨hsame, _⟩ | ⟨kept, moved, side, h⟩
  · rw [hsame]
  · rw [h.block_eq, if_neg (Nat.ne_of_lt hz), if_neg hzy]

theorem splitBlock_eq_self (h : ¬ Touches x r y) : splitBlock x r y = r := by
  rcases splitBlock_cases x r y with ⟨hsame, _⟩ | ⟨kept, moved, side, hsplit⟩
  · exact hsame
  · exfalso
    rcases hsplit.kept_nonempty with ⟨p, hp⟩
    rcases hsplit.moved_nonempty with ⟨q, hq⟩
    have hp := (hsplit.mem_kept p).mp hp
    have hq := (hsplit.mem_moved q).mp hq
    have hout : ∀ q, q ∈ r.block y → q ∉ x := fun q hblock hx => h ⟨q, hx, hblock⟩
    exact hq.2 (iff_of_false (hout q hq.1) fun hside => hout p hp.1 (hp.2.mpr hside))

theorem foldl_splitBlock_filter {p : Nat → Bool} (hys : ys.Nodup)
    (hlt : ∀ y ∈ ys, y < r.blocks.size) (hp : ∀ y ∈ ys, p y = false → ¬ Touches x r y) :
    ys.foldl (splitBlock x) r = (ys.filter p).foldl (splitBlock x) r := by
  induction ys generalizing r with
  | nil => rfl
  | cons y ys ih =>
      have hy := List.nodup_cons.mp hys
      have hrest : ∀ z ∈ ys, z < r.blocks.size := fun z hz => hlt z (List.mem_cons_of_mem y hz)
      cases hpy : p y with
      | false =>
          rw [List.foldl_cons, splitBlock_eq_self (hp y List.mem_cons_self hpy),
            List.filter_cons_of_neg (Bool.eq_false_iff.mp hpy)]
          exact ih hy.2 hrest fun z hz => hp z (List.mem_cons_of_mem y hz)
      | true =>
          rw [List.filter_cons_of_pos hpy]
          apply ih hy.2
          · exact fun z hz => Nat.lt_of_lt_of_le (hrest z hz) size_le_splitBlock
          · intro z hz hpz
            have hzy : z ≠ y := fun heq => hy.1 (heq ▸ hz)
            unfold Touches
            rw [block_splitBlock (hrest z hz) hzy]
            exact hp z (List.mem_cons_of_mem y hz) hpz

end Splits

/-!
# The ledger in step with its refinement
-/

namespace Ledger

/-- The numbers of the blocks are right, every block was put to wait once, and what was put to
wait was taken or still waits. -/
structure InStep (n : Nat) (l : Ledger) : Prop where
  isPartition : IsPartition n l.refinement
  numbered : Numbered n l.refinement l.blockOf
  queued_eq : l.queued = (List.range l.refinement.blocks.size).reverse
  perm : (l.taken ++ l.refinement.waiting).Perm l.queued

section InStep

variable {n : Nat} {l : Ledger} {x : SortedSet Nat} {y : Nat} {ys : List Nat}

theorem splitBlock_cases (h : Touches x l.refinement y) :
    (splitBlock x l y = l ∧ Refinement.splitBlock x l.refinement y = l.refinement) ∨
      ∃ kept moved side,
        IsSplit x l.refinement y (Refinement.splitBlock x l.refinement y) kept moved side ∧
          splitBlock x l y =
            { refinement := Refinement.splitBlock x l.refinement y
              blockOf := renumber l.blockOf moved l.refinement.blocks.size
              queued := l.refinement.blocks.size :: l.queued
              taken := l.taken } := by
  let inside := (l.refinement.block y).filter (fun q => q ∈ x)
  let outside := (l.refinement.block y).filter (fun q => q ∉ x)
  cases houtside : outside.isEmpty with
  | true => exact Or.inl ⟨if_pos houtside, if_pos ((Bool.or_eq_true _ _).mpr (Or.inr houtside))⟩
  | false =>
      right
      have hinside : inside.isEmpty = false := by
        rcases h with ⟨q, hx, hq⟩
        apply Bool.eq_false_iff.mpr
        intro hempty
        exact SortedSet.not_mem_of_isEmpty hempty q
          (SortedSet.mem_filter.mpr ⟨hq, decide_eq_true hx⟩)
      let parts := if inside.size ≤ outside.size then (outside, inside) else (inside, outside)
      have hsplit : Refinement.splitBlock x l.refinement y =
          { blocks := (l.refinement.blocks.setIfInBounds y parts.1).push parts.2
            waiting := l.refinement.blocks.size :: l.refinement.waiting
            splits := l.refinement.splits.push ⟨l.refinement.block y, inside, outside⟩ } :=
        if_neg (Bool.eq_false_iff.mp (Bool.or_eq_false_iff.mpr ⟨hinside, houtside⟩))
      have hledger : splitBlock x l y =
          { refinement := Refinement.splitBlock x l.refinement y
            blockOf := renumber l.blockOf parts.2 l.refinement.blocks.size
            queued := l.refinement.blocks.size :: l.queued
            taken := l.taken } := by
        rw [hsplit]
        exact if_neg (Bool.eq_false_iff.mp houtside)
      rcases Refinement.splitBlock_cases x l.refinement y with
        ⟨hsame, _⟩ | ⟨kept, moved, side, hparts⟩
      · have hsize := congrArg (fun r => r.blocks.size) (hsplit.symm.trans hsame)
        simp at hsize
      · have hblocks := hparts.blocks_eq
        rw [hsplit] at hblocks
        have hmoved : parts.2 = moved := (Array.push_eq_push.mp hblocks).1
        exact ⟨kept, moved, side, hparts, hmoved ▸ hledger⟩

theorem InStep.splitBlock (h : InStep n l) (hy : Touches x l.refinement y) :
    InStep n (l.splitBlock x y) ∧
      (l.splitBlock x y).refinement = Refinement.splitBlock x l.refinement y := by
  rcases splitBlock_cases hy with ⟨hsame, hrefinement⟩ | ⟨kept, moved, side, hsplit, hledger⟩
  · rw [hsame, hrefinement]
    exact ⟨h, rfl⟩
  · rw [hledger]
    refine ⟨⟨hsplit.isPartition h.isPartition, hsplit.numbered h.numbered, ?_, ?_⟩, rfl⟩
    · show l.refinement.blocks.size :: l.queued = _
      rw [hsplit.size_eq, List.range_succ, List.reverse_append, h.queued_eq]
      rfl
    · show (l.taken ++ (Refinement.splitBlock x l.refinement y).waiting).Perm
        (l.refinement.blocks.size :: l.queued)
      rw [hsplit.waiting_eq]
      exact List.perm_middle.trans (h.perm.cons _)

theorem taken_splitBlock : (l.splitBlock x y).taken = l.taken := by
  unfold Ledger.splitBlock
  dsimp only
  split
  · rfl
  · rfl

theorem InStep.foldl_splitBlock (h : InStep n l) (hys : ys.Nodup)
    (htouches : ∀ y ∈ ys, Touches x l.refinement y) :
    InStep n (ys.foldl (Ledger.splitBlock x) l) ∧
      (ys.foldl (Ledger.splitBlock x) l).refinement =
        ys.foldl (Refinement.splitBlock x) l.refinement := by
  induction ys generalizing l with
  | nil => exact ⟨h, rfl⟩
  | cons y ys ih =>
      have hy := List.nodup_cons.mp hys
      have hstep := h.splitBlock (htouches y List.mem_cons_self)
      rw [List.foldl_cons, List.foldl_cons, ← hstep.2]
      apply ih hstep.1 hy.2
      intro z hz
      rcases htouches z (List.mem_cons_of_mem y hz) with ⟨q, hx, hq⟩
      have hzy : z ≠ y := fun heq => hy.1 (heq ▸ hz)
      refine ⟨q, hx, ?_⟩
      rw [hstep.2, block_splitBlock (lt_of_mem_block hq) hzy]
      exact hq

theorem InStep.mem_touched (h : InStep n l) (hx : ∀ q ∈ x, q < n) :
    y ∈ l.touched x ↔ Touches x l.refinement y := by
  rw [touched, SortedSet.mem_image]
  apply exists_congr
  intro q
  apply and_congr_right
  intro hq
  have hlt : q < l.blockOf.size := h.numbered.size_eq ▸ hx q hq
  rw [← h.numbered.getElem?_iff h.isPartition, Array.getD_eq_getD_getElem?,
    Array.getElem?_eq_getElem hlt, Option.some_inj]
  rfl

/-- Splitting the blocks that are touched is splitting all blocks. -/
theorem InStep.splitTouched (h : InStep n l) (hx : ∀ q ∈ x, q < n) :
    InStep n (l.splitTouched x) ∧ (l.splitTouched x).refinement = l.refinement.splitAll x := by
  have hfold := h.foldl_splitBlock (l.touched x).nodup_toList fun y hy =>
    (h.mem_touched hx).mp hy
  refine ⟨hfold.1, hfold.2.trans ?_⟩
  have hfilter : (SortedSet.range l.refinement.blocks.size).filter (fun y => y ∈ l.touched x) =
      l.touched x := by
    apply SortedSet.ext
    intro y
    rw [SortedSet.mem_filter, SortedSet.mem_range, decide_eq_true_iff, and_iff_right_iff_imp]
    intro hy
    rcases (h.mem_touched hx).mp hy with ⟨q, _, hq⟩
    exact lt_of_mem_block hq
  have hlist : (List.range l.refinement.blocks.size).filter (fun y => y ∈ l.touched x) =
      (l.touched x).toList := congrArg SortedSet.toList hfilter
  rw [splitAll, ← hlist]
  apply (foldl_splitBlock_filter List.nodup_range _ _).symm
  · exact fun y hy => List.mem_range.mp hy
  · intro y _ hy htouches
    exact of_decide_eq_false hy ((h.mem_touched hx).mpr htouches)

theorem taken_splitTouched : (l.splitTouched x).taken = l.taken := by
  unfold Ledger.splitTouched
  exact List.foldlRecOn (motive := fun (l' : Ledger) => l'.taken = l.taken) (l.touched x).toList
    _ rfl fun _ h _ _ => taken_splitBlock.trans h

end InStep

section Turns

variable {d : Dfa} {l : Ledger} {splitter : SortedSet Nat}

theorem InStep.foldl_splitTouched (h : InStep d.totalSize l)
    (hsplitter : ∀ q ∈ splitter, q < d.totalSize) (cs : List Char) :
    let l' := (cs.map d.inverse).foldl
      (fun l inverse => l.splitTouched (preimage inverse splitter)) l
    InStep d.totalSize l' ∧ l'.taken = l.taken ∧
      l'.refinement = (cs.map d.inverse).foldl
        (fun r inverse => r.splitAll (preimage inverse splitter)) l.refinement := by
  induction cs generalizing l with
  | nil => exact ⟨h, rfl, rfl⟩
  | cons c cs ih =>
      have hstep := h.splitTouched (x := preimage (d.inverse c) splitter) fun q hq =>
        ((mem_preimage hsplitter).mp hq).1
      have hrest := ih hstep.1
      rw [hstep.2, taken_splitTouched] at hrest
      exact hrest

theorem InStep.takeSplitter (h : InStep d.totalSize l) (hl : l.isStable = false) :
    let l' := l.takeSplitter (d.alphabet.toList.map d.inverse)
    InStep d.totalSize l' ∧ l'.taken.length = l.taken.length + 1 ∧
      l'.refinement = l.refinement.takeSplitter (d.alphabet.toList.map d.inverse) := by
  rcases List.exists_cons_of_ne_nil (List.isEmpty_eq_false_iff.mp hl) with ⟨a, rest, hwaiting⟩
  let started : Ledger :=
    { l with refinement := { l.refinement with waiting := rest }, taken := a :: l.taken }
  have hstarted : InStep d.totalSize started := by
    refine ⟨⟨h.isPartition.nonempty, h.isPartition.covers, h.isPartition.disjoint⟩,
      ⟨h.numbered.size_eq, h.numbered.mem_block⟩, h.queued_eq, ?_⟩
    have hperm := h.perm
    rw [hwaiting] at hperm
    exact List.perm_middle.symm.trans hperm
  have hblock : ∀ q ∈ l.refinement.block a, q < d.totalSize :=
    fun q hq => (h.isPartition.covers q).mpr ⟨a, hq⟩
  have hfold := hstarted.foldl_splitTouched hblock d.alphabet.toList
  have hledger : l.takeSplitter (d.alphabet.toList.map d.inverse) =
      (d.alphabet.toList.map d.inverse).foldl
        (fun l' inverse => l'.splitTouched (preimage inverse (l.refinement.block a))) started := by
    unfold Ledger.takeSplitter
    rw [hwaiting]
    rfl
  have hrefinement : l.refinement.takeSplitter (d.alphabet.toList.map d.inverse) =
      (d.alphabet.toList.map d.inverse).foldl
        (fun r inverse => r.splitAll (preimage inverse (l.refinement.block a)))
          { l.refinement with waiting := rest } := by
    unfold Refinement.takeSplitter
    rw [hwaiting]
    rfl
  dsimp only
  rw [hledger, hrefinement]
  exact ⟨hfold.1, congrArg List.length hfold.2.1, hfold.2.2⟩

end Turns

/-!
# The first ledger
-/

section Initial

variable {d : Dfa} {blockOf : Array Nat} {bs : List (SortedSet Nat × Nat)} {q y : Nat}

theorem mem_of_foldl_renumber
    (h : (bs.foldl (fun blockOf b => renumber blockOf b.1 b.2) blockOf)[q]? = some y) :
    (∃ block, (block, y) ∈ bs ∧ q ∈ block) ∨ ∀ b ∈ bs, q ∉ b.1 := by
  induction bs using List.reverseRecOn with
  | nil => exact Or.inr fun _ hb => absurd hb List.not_mem_nil
  | append_singleton bs b ih =>
      rw [List.foldl_append, List.foldl_cons, List.foldl_nil, getElem?_renumber] at h
      by_cases hq : q ∈ b.1
      · rw [if_pos hq] at h
        rcases Option.map_eq_some_iff.mp h with ⟨_, _, rfl⟩
        exact Or.inl ⟨b.1, List.mem_append_right bs (List.mem_singleton.mpr rfl), hq⟩
      · rw [if_neg hq] at h
        rcases ih h with ⟨block, hblock, hmem⟩ | hnone
        · exact Or.inl ⟨block, List.mem_append_left [b] hblock, hmem⟩
        · right
          intro b' hb'
          cases List.mem_append.mp hb' with
          | inl hb' => exact hnone b' hb'
          | inr hb' => exact List.mem_singleton.mp hb' ▸ hq

theorem size_blockOf_initial : (initial d).blockOf.size = d.totalSize := by
  refine List.foldlRecOn (motive := fun (b : Array Nat) => b.size = d.totalSize) _ _ ?_ ?_
  · exact Array.size_replicate
  · exact fun _ h _ _ => size_renumber.trans h

theorem numbered_initial (hd : d.WellFormed) :
    Numbered d.totalSize (Refinement.initial d) (initial d).blockOf where
  size_eq := size_blockOf_initial
  mem_block := by
    intro q y hq
    have hplace : ∀ (block : SortedSet Nat) z,
        (block, z) ∈ (Refinement.initial d).blocks.toList.zipIdx ↔
          (Refinement.initial d).blocks[z]? = some block := by
      intro block z
      rw [List.mem_zipIdx_iff_getElem?, Array.getElem?_toList]
    rcases mem_of_foldl_renumber hq with ⟨block, hblock, hmem⟩ | hnone
    · unfold Refinement.block
      rw [Array.getD_eq_getD_getElem?, (hplace block y).mp hblock]
      exact hmem
    · exfalso
      have hlt : q < d.totalSize := size_blockOf_initial ▸ (Array.getElem?_eq_some_iff.mp hq).1
      rcases ((isPartition_initial hd).covers q).mp hlt with ⟨z, hz⟩
      have hz_lt := lt_of_mem_block hz
      rw [block_eq_getElem hz_lt] at hz
      exact hnone _ ((hplace _ z).mpr (Array.getElem?_eq_getElem hz_lt)) hz

theorem inStep_initial (hd : d.WellFormed) : InStep d.totalSize (initial d) where
  isPartition := isPartition_initial hd
  numbered := numbered_initial hd
  queued_eq := waiting_initial
  perm := List.Perm.refl _

end Initial

/-!
# The turns of the loop
-/

section Loop

variable {d : Dfa} {l : Ledger}

/-- What is true before and after every turn.  The blocks part the states, the trap among them
where it is needed, and the number of a state is that of its block.  No block has accepting
members and others, and states that accept the same words are in the same block.  When nothing
waits, a character leads all members of a block into a block or none of them.  Every block was
put to wait once, and has been taken or still waits. -/
structure Invariant (d : Dfa) (l : Ledger) : Prop where
  isPartition : IsPartition d.totalSize l.refinement
  size_blockOf : l.blockOf.size = d.totalSize
  blockOf_iff : ∀ q y, l.blockOf[q]? = some y ↔ q ∈ l.refinement.block y
  accepting : ∀ y p q, p ∈ l.refinement.block y → q ∈ l.refinement.block y →
    (p ∈ d.accepting ↔ q ∈ d.accepting)
  coarse : ∀ p q, p < d.totalSize → q < d.totalSize → d.Equivalent p q →
    l.blockOf[p]? = l.blockOf[q]?
  stable : l.refinement.waiting = [] → ∀ y b c, c ∈ d.alphabet →
    (∀ q ∈ l.refinement.block y, d.totalNext q c ∈ l.refinement.block b) ∨
      ∀ q ∈ l.refinement.block y, d.totalNext q c ∉ l.refinement.block b
  queued_eq : l.queued = (List.range l.refinement.blocks.size).reverse
  perm : (l.taken ++ l.refinement.waiting).Perm l.queued

theorem InStep.invariant (h : InStep d.totalSize l) (hr : Between d l.refinement) :
    Invariant d l where
  isPartition := h.isPartition
  size_blockOf := h.numbered.size_eq
  blockOf_iff := fun _ _ => h.numbered.getElem?_iff h.isPartition
  accepting := fun y p q hp hq => hr.sound.accepting p q ⟨y, hp, hq⟩
  coarse := by
    intro p q hp hq hpq
    rcases hr.sound.coarse p q hp hq hpq with ⟨y, hp, hq⟩
    rw [(h.numbered.getElem?_iff h.isPartition).mpr hp,
      (h.numbered.getElem?_iff h.isPartition).mpr hq]
  stable := by
    intro hwaiting y b c hc
    by_cases hinto : ∃ p ∈ l.refinement.block y, d.totalNext p c ∈ l.refinement.block b
    · left
      intro q hq
      rcases hinto with ⟨p, hp, hpb⟩
      rcases hr.sameBlock_totalNext hwaiting ⟨y, hp, hq⟩ hc with ⟨z, hpz, hqz⟩
      exact h.isPartition.disjoint z b _ hpz hpb ▸ hqz
    · right
      intro q hq hqb
      exact hinto ⟨q, hq, hqb⟩
  queued_eq := h.queued_eq
  perm := h.perm

theorem inStep_after (hd : d.WellFormed) (k : Nat) : InStep d.totalSize (after d k) :=
  repeatUntil_invariant (fun _ h hl => (h.takeSplitter hl).1) k (inStep_initial hd)

theorem refinement_after (hd : d.WellFormed) (k : Nat) :
    (after d k).refinement =
      repeatUntil Refinement.isStable
        (Refinement.takeSplitter (d.alphabet.toList.map d.inverse)) k (Refinement.initial d) := by
  have hstep : ∀ l, InStep d.totalSize l → l.isStable = false →
      InStep d.totalSize (l.takeSplitter (d.alphabet.toList.map d.inverse)) ∧
        l.refinement.takeSplitter (d.alphabet.toList.map d.inverse) =
          (l.takeSplitter (d.alphabet.toList.map d.inverse)).refinement := by
    intro l h hl
    have hturn := h.takeSplitter hl
    exact ⟨hturn.1, hturn.2.2.symm⟩
  exact (repeatUntil_map (I := InStep d.totalSize) Ledger.refinement (fun _ _ => rfl) hstep
    (inStep_initial hd) k).symm

theorem between_after (hd : d.WellFormed) (k : Nat) : Between d (after d k).refinement := by
  rw [refinement_after hd]
  exact repeatUntil_invariant (I := Between d)
    (fun _ hr hstable => (between_takeSplitter hd hr hstable).1) k (between_initial hd)

theorem refinement_after_totalSize (hd : d.WellFormed) :
    (after d d.totalSize).refinement = ofDfa d :=
  refinement_after hd d.totalSize

theorem length_taken_after (hd : d.WellFormed) {turns : Nat}
    (h : TakesTurns isStable (takeSplitter (d.alphabet.toList.map d.inverse)) (initial d) turns)
    (k : Nat) : (after d k).taken.length = min k turns := by
  have hcount := h.count_eq (I := InStep d.totalSize) (fun l => l.taken.length)
    (inStep_initial hd) (fun _ h hl => ⟨(h.takeSplitter hl).1, (h.takeSplitter hl).2.1⟩) k
  exact hcount.trans (Nat.zero_add _)

/-- Every turn takes one block, and in the end all blocks have been taken. -/
theorem takesTurns_takeSplitter (hd : d.WellFormed) :
    TakesTurns isStable (takeSplitter (d.alphabet.toList.map d.inverse)) (initial d)
      (ofDfa d).blocks.size := by
  have hstable : (after d d.totalSize).isStable = true := by
    unfold isStable
    rw [refinement_after_totalSize hd]
    exact isStable_ofDfa hd
  rcases exists_takesTurns hstable with ⟨turns, hturns, htakes⟩
  have hend : (after d turns).refinement = ofDfa d := by
    rw [← refinement_after_totalSize hd]
    exact congrArg Ledger.refinement (htakes.eq_of_le hturns).symm
  have hwaiting : (after d turns).refinement.waiting = [] := List.isEmpty_iff.mp htakes.finished
  have hperm := (inStep_after hd turns).perm.length_eq
  rw [hwaiting, List.append_nil, (inStep_after hd turns).queued_eq, List.length_reverse,
    List.length_range, hend, length_taken_after hd htakes, Nat.min_self] at hperm
  rw [← hperm]
  exact htakes

/-- The course of a refinement.  The invariant holds at every turn, where the trap accepts no
word.  There are as many turns as there are blocks in the end, and no more than states. -/
structure Course (d : Dfa) : Prop where
  invariant : ∀ k, Invariant d (after d k)
  trap : ∀ w, ¬ d.AcceptsFrom d.states.size w
  length_taken : ∀ k, (after d k).taken.length = min k (ofDfa d).blocks.size
  waiting_eq_nil_iff : ∀ k, (after d k).refinement.waiting = [] ↔ (ofDfa d).blocks.size ≤ k
  refinement_eq : ∀ k, (ofDfa d).blocks.size ≤ k → (after d k).refinement = ofDfa d
  size_le : (ofDfa d).blocks.size ≤ d.totalSize

theorem course (hd : d.WellFormed) : Course d where
  invariant := fun k => (inStep_after hd k).invariant (between_after hd k)
  trap := hd.not_acceptsFrom_trap
  length_taken := length_taken_after hd (takesTurns_takeSplitter hd)
  waiting_eq_nil_iff := by
    intro k
    rw [← (takesTurns_takeSplitter hd).finished_iff k, ← List.isEmpty_iff]
    rfl
  refinement_eq := by
    intro k hk
    have hsize := (isPartition_ofDfa hd).size_le
    rw [← refinement_after_totalSize hd]
    exact congrArg Ledger.refinement (((takesTurns_takeSplitter hd).eq_of_le hk).trans
      ((takesTurns_takeSplitter hd).eq_of_le hsize).symm)
  size_le := (isPartition_ofDfa hd).size_le

theorem course_forked :
    Dfa.forked.WellFormed ∧ Course Dfa.forked ∧ Dfa.forked.totalSize = 6 ∧
      (after Dfa.forked 2).refinement.waiting ≠ [] ∧ (after Dfa.forked 3).taken.length = 3 := by
  have hcourse := course Dfa.wellFormed_forked
  exact ⟨Dfa.wellFormed_forked, hcourse, by decide +kernel, by decide +kernel, by decide +kernel⟩

end Loop

end Ledger

end Refinement

end Recognizer
