import Recognizer.Proofs.Automaton.Quotient
import Recognizer.Proofs.Checked.Run

/-!
# Checked quotients

The refinement looks up blocks by their numbers and the blocks of states, and the quotient
looks up the classes of states.  Every number that waits is that of a block, the blocks
hold all states and the trap, and every state is in a class.
-/

namespace Recognizer

namespace Dfa

section Checked

variable (d : Dfa)

/-- The trap that stands in for missing edges has no edges to be looked up. -/
def totalNextChecked (q : Nat) (c : Char) : Except OutOfRange Nat :=
  if q = d.states.size then .ok d.states.size
  else (d.nextAt q c).map fun next => next.getD d.states.size

def inverseChecked (c : Char) : Except OutOfRange (Array (List Nat)) :=
  (List.range d.totalSize).foldrM
    (fun q table => do consAtChecked table (← d.totalNextChecked q c) q)
    (Array.replicate d.totalSize [])

end Checked

section WellFormed

variable {d : Dfa} (hd : d.WellFormed)

include hd

theorem totalNextChecked_eq {q : Nat} (hq : q < d.totalSize) (c : Char) :
    d.totalNextChecked q c = .ok (d.totalNext q c) := by
  unfold totalNextChecked
  split
  · rename_i htrap
    have hnone : d.next q c = none := by
      apply Option.eq_none_iff_forall_ne_some.mpr
      intro r hr
      exact Nat.ne_of_lt (hd.next_within hr).1 htrap
    rw [totalNext_of_none hnone]
  · rename_i hstate
    have hq_lt : q < d.states.size := by
      unfold totalSize at hq
      split at hq
      · exact hq
      · exact Nat.lt_of_le_of_ne (Nat.le_of_lt_succ hq) hstate
    rw [hd.nextAt_eq hq_lt]
    rfl

theorem inverseChecked_eq {c : Char} (hc : c ∈ d.alphabet) :
    d.inverseChecked c = .ok (d.inverse c) := by
  refine (foldrM_eq_ok (I := fun table => table.size = d.totalSize) ?_ Array.size_replicate).1
  intro table q htable hq
  have hq := List.mem_range.mp hq
  have htarget : d.totalNext q c < table.size := htable ▸ hd.totalNext_lt hq hc
  constructor
  · rw [totalNextChecked_eq hd hq, ok_bind]
    exact consAtChecked_eq htarget q
  · rw [Array.size_modify, htable]

end WellFormed

end Dfa

/-!
# The refinement
-/

namespace Refinement

def preimageChecked (inverse : Array (List Nat)) (splitter : SortedSet Nat) :
    Except OutOfRange (SortedSet Nat) :=
  (splitter.toList.flatMapM fun target => entryAt inverse target).map .ofList

def blockOfChecked (n : Nat) (r : Refinement) (q : Nat) : Except OutOfRange Nat := do
  let _ ← below n q
  below r.blocks.size (r.blocks.toList.findIdx fun block => q ∈ block)

def splitBlockChecked (n : Nat) (x : SortedSet Nat) (r : Refinement) (y : Nat) :
    Except OutOfRange Refinement := do
  let block ← entryAt r.blocks y
  let _ ← block.toList.mapM (below n)
  return splitBlock x r y

def splitAllChecked (n : Nat) (r : Refinement) (x : SortedSet Nat) :
    Except OutOfRange Refinement := do
  let _ ← x.toList.mapM (r.blockOfChecked n)
  (List.range r.blocks.size).foldlM (splitBlockChecked n x) r

def takeSplitterChecked (n : Nat) (inverses : List (Array (List Nat))) (r : Refinement) :
    Except OutOfRange Refinement :=
  match r.waiting with
  | [] => .ok r
  | a :: rest => do
      let splitter ← entryAt r.blocks a
      inverses.foldlM (fun r inverse => do r.splitAllChecked n (← preimageChecked inverse splitter))
        { r with waiting := rest }

def ofDfaChecked (d : Dfa) : Except OutOfRange Refinement := do
  let inverses ← d.alphabet.toList.mapM d.inverseChecked
  let _ ← (initial d).blocks.toList.mapM fun block => block.toList.mapM (below d.totalSize)
  repeatUntilChecked isStable (takeSplitterChecked d.totalSize inverses) d.totalSize (initial d)

structure Indexed (n : Nat) (r : Refinement) : Prop where
  isPartition : IsPartition n r
  waiting_lt : ∀ a ∈ r.waiting, a < r.blocks.size

section Indexed

variable {n : Nat} {r : Refinement} {x : SortedSet Nat} {y : Nat}

theorem IsPartition.lt_of_mem (hr : IsPartition n r) : ∀ q ∈ r.block y, q < n :=
  fun q hq => (hr.covers q).mpr ⟨y, hq⟩

theorem blockOfChecked_eq (hr : IsPartition n r) {q : Nat} (hq : q < n) :
    r.blockOfChecked n q = .ok (r.blocks.toList.findIdx fun block => q ∈ block) := by
  rw [blockOfChecked, below_eq hq, ok_bind]
  apply below_eq
  rcases (hr.covers q).mp hq with ⟨y, hy⟩
  have hlt := lt_of_mem_block hy
  rw [block_eq_getElem hlt] at hy
  rw [← Array.length_toList]
  apply List.findIdx_lt_length_of_exists
  exact ⟨r.blocks[y], Array.mem_toList_iff.mpr (Array.getElem_mem hlt), decide_eq_true hy⟩

theorem Indexed.splitBlock (hr : Indexed n r) : Indexed n (splitBlock x r y) where
  isPartition := (finer_splitBlock hr.isPartition y).isPartition
  waiting_lt := by
    rcases splitBlock_cases x r y with ⟨hsame, _⟩ | ⟨kept, moved, side, h⟩
    · rw [hsame]
      exact hr.waiting_lt
    · intro a ha
      rw [h.waiting_eq] at ha
      rw [h.size_eq]
      cases List.mem_cons.mp ha with
      | inl ha => exact ha ▸ Nat.lt_succ_self _
      | inr ha => exact Nat.lt_succ_of_lt (hr.waiting_lt a ha)

theorem splitBlockChecked_eq (hr : IsPartition n r) (hy : y < r.blocks.size) :
    splitBlockChecked n x r y = .ok (splitBlock x r y) := by
  have hmembers : ∀ q ∈ r.blocks[y].toList, below n q = .ok q := by
    intro q hq
    apply below_eq
    apply hr.lt_of_mem (y := y)
    rw [block_eq_getElem hy]
    exact hq
  rw [splitBlockChecked, entryAt_getElem hy, ok_bind, mapM_eq_ok hmembers]
  rfl

theorem splitAllChecked_eq (hr : Indexed n r) (hx : ∀ q ∈ x, q < n) :
    r.splitAllChecked n x = .ok (r.splitAll x) ∧ Indexed n (r.splitAll x) := by
  have hstep : ∀ r' y, Indexed n r' ∧ r.blocks.size ≤ r'.blocks.size →
      y ∈ List.range r.blocks.size →
        splitBlockChecked n x r' y = .ok (Refinement.splitBlock x r' y) ∧
        Indexed n (Refinement.splitBlock x r' y) ∧
          r.blocks.size ≤ (Refinement.splitBlock x r' y).blocks.size := by
    intro r' y hr' hy
    have hlt := Nat.lt_of_lt_of_le (List.mem_range.mp hy) hr'.2
    exact ⟨splitBlockChecked_eq hr'.1.isPartition hlt, hr'.1.splitBlock,
      Nat.le_trans hr'.2 size_le_splitBlock⟩
  have hblocks := foldlM_eq_ok hstep ⟨hr, Nat.le_refl _⟩
  constructor
  · rw [splitAllChecked, mapM_eq_ok (fun q hq => blockOfChecked_eq hr.isPartition (hx q hq)),
      ok_bind]
    exact hblocks.1
  · exact hblocks.2.1

end Indexed

section OfDfa

variable {d : Dfa} (hd : d.WellFormed) {r : Refinement}

theorem preimageChecked_eq {c : Char} {splitter : SortedSet Nat}
    (hsplitter : ∀ q ∈ splitter, q < d.totalSize) :
    preimageChecked (d.inverse c) splitter = .ok (preimage (d.inverse c) splitter) := by
  have hentries : splitter.toList.flatMapM (fun target => entryAt (d.inverse c) target) =
      .ok (splitter.toList.flatMap fun target => (d.inverse c).getD target []) := by
    apply flatMapM_eq_ok
    intro target htarget
    apply entryAt_getD
    unfold Dfa.inverse
    rw [size_foldr_modify (fun q => d.totalNext q c) (fun q => q)]
    exact hsplitter target htarget
  rw [preimageChecked, hentries]
  rfl

theorem takeSplitterChecked_eq (hr : Indexed d.totalSize r) :
    takeSplitterChecked d.totalSize (d.alphabet.toList.map d.inverse) r =
        .ok (takeSplitter (d.alphabet.toList.map d.inverse) r) ∧
      Indexed d.totalSize (takeSplitter (d.alphabet.toList.map d.inverse) r) := by
  unfold takeSplitterChecked takeSplitter
  cases hwaiting : r.waiting with
  | nil => exact ⟨rfl, hr⟩
  | cons a rest =>
      have ha : a < r.blocks.size := hr.waiting_lt a (hwaiting ▸ List.mem_cons_self)
      have hsplitter : ∀ q ∈ r.blocks.getD a .empty, q < d.totalSize :=
        hr.isPartition.lt_of_mem (y := a)
      have htaken : Indexed d.totalSize { r with waiting := rest } :=
        ⟨⟨hr.isPartition.nonempty, hr.isPartition.covers, hr.isPartition.disjoint⟩,
          fun b hb => hr.waiting_lt b (hwaiting ▸ List.mem_cons_of_mem a hb)⟩
      dsimp only
      rw [entryAt_getD ha .empty, ok_bind]
      refine foldlM_eq_ok (I := Indexed d.totalSize) ?_ htaken
      intro r' inverse hr' hinverse
      rcases List.mem_map.mp hinverse with ⟨c, _, rfl⟩
      rw [preimageChecked_eq hsplitter, ok_bind]
      exact splitAllChecked_eq hr' (fun q hq => ((mem_preimage hsplitter).mp hq).1)

include hd

theorem indexed_initial : Indexed d.totalSize (initial d) where
  isPartition := isPartition_initial hd
  waiting_lt := by
    intro a ha
    rw [waiting_initial, List.mem_reverse] at ha
    exact List.mem_range.mp ha

theorem ofDfaChecked_eq : ofDfaChecked d = .ok (ofDfa d) := by
  have hinverses := mapM_eq_ok fun c (hc : c ∈ d.alphabet) => Dfa.inverseChecked_eq hd hc
  have hblocks : ∀ block ∈ (initial d).blocks.toList,
      block.toList.mapM (below d.totalSize) = .ok (block.toList.map id) := by
    intro block hblock
    apply mapM_eq_ok
    intro q hq
    apply below_eq
    rcases List.mem_iff_getElem.mp hblock with ⟨y, hy, rfl⟩
    apply (isPartition_initial hd).lt_of_mem (y := y)
    rw [block_eq_getElem (by simpa using hy)]
    exact hq
  rw [ofDfaChecked, hinverses, ok_bind, mapM_eq_ok hblocks, ok_bind]
  exact repeatUntilChecked_eq (I := Indexed d.totalSize)
    (fun r hr _ => (takeSplitterChecked_eq hr).2) (fun r hr _ => (takeSplitterChecked_eq hr).1)
    d.totalSize (indexed_initial hd)

end OfDfa

end Refinement

/-!
# The quotient
-/

namespace Dfa

section Checked

variable (d : Dfa)

def classesChecked : Except OutOfRange (List (SortedSet Nat)) :=
  (Refinement.ofDfaChecked d).map fun r =>
    let blocks := r.blocks.toList.map (·.filter (· < d.states.size))
    (List.range d.states.size).filterMap fun q => blocks.find? (fun block => block.min? = some q)

def classOfChecked (classes : List (SortedSet Nat)) (q : Nat) : Except OutOfRange Nat := do
  let _ ← below d.states.size q
  below classes.length (classes.findIdx fun block => q ∈ block)

def classLabelChecked (block : SortedSet Nat) : Except OutOfRange String :=
  (labelsChecked d.states block.toList).map fun labels =>
    match labels with
    | [label] => label
    | labels => Text.braced labels

/-- Where the edges of the members of a class lead.  All of them are looked at, and the
first one is taken. -/
def classNextChecked (classes : List (SortedSet Nat)) (block : SortedSet Nat) (c : Char) :
    Except OutOfRange (Option Nat) :=
  (block.toList.filterMapM fun q => do
    match ← d.nextAt q c with
    | none => return none
    | some t => (d.classOfChecked classes t).map some).map List.head?

def quotientChecked : Except OutOfRange Dfa := do
  let classes ← d.classesChecked
  let labels ← classes.mapM d.classLabelChecked
  let _ ← (List.range d.states.size).mapM (d.classOfChecked classes)
  let edges ← classes.mapM fun block =>
    SortedMap.tabulateChecked d.alphabet fun c => d.classNextChecked classes block c
  let start ← d.classOfChecked classes d.start
  let accepting ← d.accepting.toList.mapM (d.classOfChecked classes)
  return {
    states := State.numbered labels
    alphabet := d.alphabet
    edges := edges.toArray
    start
    accepting := .ofList accepting }

end Checked

section WellFormed

variable {d : Dfa} (hd : d.WellFormed)

include hd

theorem classesChecked_eq : d.classesChecked = .ok d.classes := by
  rw [classesChecked, Refinement.ofDfaChecked_eq hd]
  rfl

theorem classOfChecked_eq {q : Nat} (hq : q < d.states.size) :
    d.classOfChecked d.classes q = .ok (d.classOf q) := by
  rw [classOfChecked, below_eq hq, ok_bind]
  exact below_eq (classOf_lt hd hq)

theorem classLabelChecked_eq {block : SortedSet Nat} (hblock : block ∈ d.classes) :
    d.classLabelChecked block = .ok (d.classLabel block) := by
  rw [classLabelChecked, labelsChecked_eq (fun q hq => lt_of_mem_class hd hblock hq)]
  rfl

theorem classNextChecked_eq {block : SortedSet Nat} (hblock : block ∈ d.classes) (c : Char) :
    d.classNextChecked d.classes block c =
      .ok ((block.toList.findSome? fun q => d.next q c).map d.classOf) := by
  have htargets : block.toList.filterMapM (fun q => do
      match ← d.nextAt q c with
      | none => return none
      | some t => (d.classOfChecked d.classes t).map some) =
      .ok (block.toList.filterMap fun q => (d.next q c).map d.classOf) := by
    apply filterMapM_eq_ok
    intro q hq
    rw [hd.nextAt_eq (lt_of_mem_class hd hblock hq), ok_bind]
    cases hnext : d.next q c with
    | none => rfl
    | some t =>
        dsimp only
        rw [classOfChecked_eq hd (hd.next_within hnext).2.2]
        rfl
  rw [classNextChecked, htargets, ok_map, List.head?_filterMap, List.map_findSome?]
  rfl

theorem quotientChecked_eq : d.quotientChecked = .ok d.quotient := by
  have hsources := mapM_eq_ok fun q (hq : q ∈ List.range d.states.size) =>
    classOfChecked_eq hd (List.mem_range.mp hq)
  have hedges := mapM_eq_ok fun block (hblock : block ∈ d.classes) =>
    SortedMap.tabulateChecked_eq fun c (_ : c ∈ d.alphabet) => classNextChecked_eq hd hblock c
  have haccepting := mapM_eq_ok fun q (hq : q ∈ d.accepting.toList) =>
    classOfChecked_eq hd (hd.accepting_lt q hq)
  rw [quotientChecked, classesChecked_eq hd, ok_bind,
    mapM_eq_ok (fun block hblock => classLabelChecked_eq hd hblock), ok_bind, hsources, ok_bind,
    hedges, ok_bind, classOfChecked_eq hd hd.start_lt, ok_bind, haccepting]
  rfl

end WellFormed

end Dfa

end Recognizer
