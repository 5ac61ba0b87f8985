import Recognizer.Proofs.Automaton.Position
import Recognizer.Proofs.Automaton.Survivors
import Recognizer.Proofs.Checked.Run

/-!
# Checked constructions

The constructions look up the states of letters, the nodes of an arena, the states of
nodes that were not absorbed and the numbers of subsets.  The sets of letters that an
expression computes hold none but its own letters, the edges of an arena lead to nodes
that survive, and a search has found all successors of what it has found.
-/

namespace Recognizer

/-!
# The position automaton
-/

namespace Letter

def positionStateChecked (letters : List Letter) (l : Letter) : Except OutOfRange Nat :=
  (placeOf letters l).map (· + 1)

def positionEdgeChecked (letters : List Letter) (l : Letter) : Except OutOfRange Edge :=
  (positionStateChecked letters l).map fun q => ⟨.char l.symbol, q⟩

def edgesAfterChecked (letters : List Letter) (follows : SortedSet LetterPair) (l : Letter) :
    Except OutOfRange (SortedSet Edge) :=
  ((follows.filter (fun p => p.before = l)).toList.mapM fun p : LetterPair =>
    p.after.positionEdgeChecked letters).map SortedSet.ofList

variable {letters : List Letter} {l : Letter}

theorem positionStateChecked_eq (hl : l ∈ letters) :
    l.positionStateChecked letters = .ok (l.positionState letters) := by
  rw [positionStateChecked, placeOf_eq hl]
  rfl

theorem positionEdgeChecked_eq (hl : l ∈ letters) :
    l.positionEdgeChecked letters = .ok (l.positionEdge letters) := by
  rw [positionEdgeChecked, positionStateChecked_eq hl]
  rfl

theorem edgesAfterChecked_eq {follows : SortedSet LetterPair}
    (h : ∀ p ∈ follows, p.after ∈ letters) :
    l.edgesAfterChecked letters follows = .ok (l.edgesAfter letters follows) := by
  rw [edgesAfterChecked, mapM_eq_ok (g := fun p => p.after.positionEdge letters)]
  · rfl
  · intro p hp
    exact positionEdgeChecked_eq (h p (SortedSet.mem_filter.mp hp).1)

end Letter

/-- The state of the first letter of a pair is looked up for the pairs of all letters. -/
def Nfa.ofPositionsChecked (e : Expr) : Except OutOfRange Nfa := do
  let linear := e.linearized
  let letters := linear.letters
  let firsts ← linear.firsts.toList.mapM fun l => l.positionEdgeChecked letters
  let _ ← linear.follows.toList.mapM fun p => p.before.positionStateChecked letters
  let afters ← letters.mapM fun l => l.edgesAfterChecked letters linear.follows
  let lasts ← linear.lasts.toList.mapM fun l => l.positionStateChecked letters
  let atLasts := SortedSet.ofList lasts
  return {
    states := State.numbered ("q0" :: letters.map Letter.text)
    alphabet := e.alphabet
    edges := (SortedSet.ofList firsts :: afters).toArray
    start := 0
    accepting := if linear.nullable then atLasts.insert 0 else atLasts }

theorem Nfa.ofPositionsChecked_eq (e : Expr) : ofPositionsChecked e = .ok (ofPositions e) := by
  have hfirsts := mapM_eq_ok fun l (hl : l ∈ e.linearized.firsts.toList) =>
    Letter.positionEdgeChecked_eq (Expr.mem_letters_of_mem_firsts hl)
  have hbefore := mapM_eq_ok fun p (hp : p ∈ e.linearized.follows.toList) =>
    Letter.positionStateChecked_eq (Expr.mem_letters_of_mem_follows hp).1
  have hafters := mapM_eq_ok fun l (_ : l ∈ e.linearized.letters) =>
    Letter.edgesAfterChecked_eq (l := l) fun p (hp : p ∈ e.linearized.follows) =>
      (Expr.mem_letters_of_mem_follows hp).2
  have hlasts := mapM_eq_ok fun l (hl : l ∈ e.linearized.lasts.toList) =>
    Letter.positionStateChecked_eq (Expr.mem_letters_of_mem_lasts hl)
  unfold ofPositionsChecked
  dsimp only
  rw [hfirsts, ok_bind, hbefore, ok_bind, hafters, ok_bind, hlasts, ok_bind]
  rfl

/-!
# The fragment automaton
-/

namespace Arena

def linkChecked (a : Arena) (source : Nat) (symbol : Symbol) (target : Nat) :
    Except OutOfRange Arena :=
  (entryAt a.nodes source).map fun _ => a.link source symbol target

def addAtomChecked (a : Arena) (symbol : Symbol) : Except OutOfRange (Arena × Fragment) :=
  let ends := a.addEnds
  (ends.1.linkChecked ends.2.start symbol ends.2.accept).map fun b => (b, ends.2)

def addExprChecked : Expr → Arena → Except OutOfRange (Arena × Fragment)
  | .letter l, a => a.addAtomChecked (.char l.symbol)
  | .epsilon _, a => a.addAtomChecked .epsilon
  | .choice left right, a => do
      let ends := a.addEnds
      let l ← addExprChecked left ends.1
      let r ← addExprChecked right l.1
      let b ← r.1.linkChecked ends.2.start .epsilon l.2.start
      let b ← b.linkChecked ends.2.start .epsilon r.2.start
      let b ← b.linkChecked l.2.accept .epsilon ends.2.accept
      let b ← b.linkChecked r.2.accept .epsilon ends.2.accept
      return (b, ends.2)
  | .concat left right, a => do
      let l ← addExprChecked left a
      let r ← addExprChecked right l.1
      return (r.1.absorb l.2.accept r.2.start, ⟨l.2.start, r.2.accept⟩)
  | .optional inner, a => do
      let f ← addExprChecked inner a
      let b ← f.1.linkChecked f.2.start .epsilon f.2.accept
      return (b, f.2)
  | .star inner, a => do
      let ends := a.addEnds
      let f ← addExprChecked inner ends.1
      let b ← f.1.linkChecked ends.2.start .epsilon f.2.start
      let b ← b.linkChecked ends.2.start .epsilon ends.2.accept
      let b ← b.linkChecked f.2.accept .epsilon f.2.start
      let b ← b.linkChecked f.2.accept .epsilon ends.2.accept
      return (b, ends.2)
  | .plus inner, a => do
      let ends := a.addEnds
      let f ← addExprChecked inner ends.1
      let b ← f.1.linkChecked ends.2.start .epsilon f.2.start
      let b ← b.linkChecked f.2.accept .epsilon f.2.start
      let b ← b.linkChecked f.2.accept .epsilon ends.2.accept
      return (b, ends.2)

def edgesAmongChecked (a : Arena) (survivors : List Nat) (i : Nat) :
    Except OutOfRange (SortedSet Edge) := do
  let edges ← entryAt a.nodes i
  let renamed ← edges.mapM fun e =>
    (placeOf survivors e.target).map fun q => (⟨e.symbol, q⟩ : Edge)
  return .ofList renamed

def freezeChecked (a : Arena) (f : Fragment) (alphabet : SortedSet Char) :
    Except OutOfRange Nfa := do
  let survivors := a.survivors
  let edges ← survivors.mapM fun i => a.edgesAmongChecked survivors i
  let start ← placeOf survivors f.start
  let accept ← placeOf survivors f.accept
  return {
    states := State.numbered ((List.range survivors.length).map toString)
    alphabet
    edges := edges.toArray
    start
    accepting := .singleton accept }

theorem linkChecked_eq {a : Arena} {source target : Nat} {symbol : Symbol}
    (h : source < a.nodes.size) :
    a.linkChecked source symbol target = .ok (a.link source symbol target) :=
  map_entryAt h _

theorem addAtomChecked_eq (a : Arena) (symbol : Symbol) :
    a.addAtomChecked symbol = .ok (a.addAtom symbol) := by
  rw [addAtomChecked, linkChecked_eq (ends_within (Or.inl rfl)).2]
  rfl

theorem Adds.ends_lt {a b c : Arena} {f : Fragment} {L : Language Char} (h : Adds a b f L)
    (hgrown : b.nodes.size ≤ c.nodes.size) :
    f.start < c.nodes.size ∧ f.accept < c.nodes.size :=
  ⟨Nat.lt_of_lt_of_le h.fragment.start_mem.2.1 hgrown,
    Nat.lt_of_lt_of_le h.fragment.accept_mem.2.1 hgrown⟩

theorem addExprChecked_eq (e : Expr) {a : Arena} (ha : a.Valid) :
    addExprChecked e a = .ok (addExpr e a) := by
  induction e generalizing a with
  | letter l => exact addAtomChecked_eq a (.char l.symbol)
  | epsilon _ => exact addAtomChecked_eq a .epsilon
  | choice left right ihl ihr =>
      have hleft := addExpr_adds left ha.addEnds
      have hright := addExpr_adds right hleft.grown.valid
      have hends : ∀ p, p = a.addEnds.2.start ∨ p = a.addEnds.2.accept →
          p < (addExpr right (addExpr left a.addEnds.1).1).1.nodes.size := fun p hp =>
        Nat.lt_of_lt_of_le (ends_within hp).2
          (Nat.le_trans hleft.grown.grows.size_le hright.grown.grows.size_le)
      have hl := hleft.ends_lt hright.grown.grows.size_le
      have hr := hright.ends_lt (Nat.le_refl _)
      unfold addExprChecked
      dsimp only
      rw [ihl ha.addEnds, ok_bind, ihr hleft.grown.valid, ok_bind,
        linkChecked_eq (hends _ (Or.inl rfl)), ok_bind,
        linkChecked_eq (by simpa using hends _ (Or.inl rfl)), ok_bind,
        linkChecked_eq (by simpa using hl.2), ok_bind,
        linkChecked_eq (by simpa using hr.2), ok_bind]
      rfl
  | concat left right ihl ihr =>
      have hleft := addExpr_adds left ha
      unfold addExprChecked
      rw [ihl ha, ok_bind, ihr hleft.grown.valid, ok_bind]
      rfl
  | optional inner ih =>
      have hinner := (addExpr_adds inner ha).ends_lt (Nat.le_refl _)
      unfold addExprChecked
      rw [ih ha, ok_bind, linkChecked_eq hinner.1, ok_bind]
      rfl
  | star inner ih =>
      have hinner := addExpr_adds inner ha.addEnds
      have hf := hinner.ends_lt (Nat.le_refl _)
      have hstart := Nat.lt_of_lt_of_le (ends_within (Or.inl rfl)).2 hinner.grown.grows.size_le
      unfold addExprChecked
      dsimp only
      rw [ih ha.addEnds, ok_bind, linkChecked_eq hstart, ok_bind,
        linkChecked_eq (by simpa using hstart), ok_bind,
        linkChecked_eq (by simpa using hf.2), ok_bind,
        linkChecked_eq (by simpa using hf.2), ok_bind]
      rfl
  | plus inner ih =>
      have hinner := addExpr_adds inner ha.addEnds
      have hf := hinner.ends_lt (Nat.le_refl _)
      have hstart := Nat.lt_of_lt_of_le (ends_within (Or.inl rfl)).2 hinner.grown.grows.size_le
      unfold addExprChecked
      dsimp only
      rw [ih ha.addEnds, ok_bind, linkChecked_eq hstart, ok_bind,
        linkChecked_eq (by simpa using hf.2), ok_bind,
        linkChecked_eq (by simpa using hf.2), ok_bind]
      rfl

section Freeze

variable {a : Arena} {f : Fragment} {L : Language Char} (h : Adds empty a f L)

include h

/-- No edge leads to a node that was absorbed. -/
theorem edgesAmongChecked_eq {i : Nat} (hi : i ∈ a.survivors) :
    a.edgesAmongChecked a.survivors i = .ok (.ofList ((a.nodes.getD i []).map
      fun e => ⟨e.symbol, a.survivors.idxOf e.target⟩)) := by
  have hrenamed : ∀ e ∈ a.nodes.getD i [],
      (placeOf a.survivors e.target).map (fun q => (⟨e.symbol, q⟩ : Edge)) =
        .ok ⟨e.symbol, a.survivors.idxOf e.target⟩ := by
    intro e he
    rw [placeOf_eq (mem_survivors_of_hasEdge h he).2]
    rfl
  rw [edgesAmongChecked, entryAt_getD (mem_survivors.mp hi).2.1 [], ok_bind, mapM_eq_ok hrenamed]
  rfl

theorem freezeChecked_eq (alphabet : SortedSet Char) :
    a.freezeChecked f alphabet = .ok (a.freeze f alphabet) := by
  unfold freezeChecked
  dsimp only
  rw [mapM_eq_ok (fun i hi => edgesAmongChecked_eq h hi), ok_bind,
    placeOf_eq (mem_survivors.mpr h.fragment.start_mem), ok_bind,
    placeOf_eq (mem_survivors.mpr h.fragment.accept_mem)]
  rfl

end Freeze

end Arena

def Nfa.ofFragmentsChecked (e : Expr) : Except OutOfRange Nfa := do
  let f ← Arena.addExprChecked e .empty
  f.1.freezeChecked f.2 e.alphabet

theorem Nfa.ofFragmentsChecked_eq (e : Expr) : ofFragmentsChecked e = .ok (ofFragments e) := by
  rw [ofFragmentsChecked, Arena.addExprChecked_eq e Arena.valid_empty]
  exact Arena.freezeChecked_eq (Arena.addExpr_adds e Arena.valid_empty) e.alphabet

/-!
# The subset automaton
-/

namespace Nfa

section Checked

variable (n : Nfa)

def subsetAfterChecked (trap : Bool) (s : SortedSet Nat) (c : Char) :
    Except OutOfRange (Option (SortedSet Nat)) :=
  (n.stepChecked s c).map fun t => if t.isEmpty && !trap then none else some t

def subsetsChecked (trap : Bool) : Except OutOfRange (List (SortedSet Nat)) := do
  let start ← n.startSetChecked
  breadthFirstChecked (fun s => n.alphabet.toList.filterMapM (n.subsetAfterChecked trap s))
    (Nat.pow 2 n.states.size) [start]

def subsetLabelChecked (s : SortedSet Nat) : Except OutOfRange String :=
  if s.isEmpty then .ok trapLabel else (labelsChecked n.states s.toList).map Text.braced

end Checked

section WellFormed

variable {n : Nfa} (hn : n.WellFormed) {trap : Bool} {s : SortedSet Nat}

include hn

theorem subsetAfterChecked_eq (hs : ∀ q ∈ s, q < n.states.size) (c : Char) :
    n.subsetAfterChecked trap s c = .ok (n.subsetAfter trap s c) := by
  rw [subsetAfterChecked, stepChecked_eq hn hs]
  rfl

theorem subsetsChecked_eq (trap : Bool) : n.subsetsChecked trap = .ok (n.subsets trap) := by
  have hsuccessors : ∀ s, Search.Reached (n.subsetsAfter trap) [n.startSet] s →
      n.alphabet.toList.filterMapM (n.subsetAfterChecked trap s) = .ok (n.subsetsAfter trap s) :=
    fun s hs => filterMapM_eq_ok fun c _ => subsetAfterChecked_eq hn (lt_of_mem_reached hn hs) c
  rw [subsetsChecked, startSetChecked_eq hn, ok_bind]
  exact breadthFirstChecked_eq hsuccessors _

end WellFormed

theorem subsetLabelChecked_eq {n : Nfa} {s : SortedSet Nat} (hs : ∀ q ∈ s, q < n.states.size) :
    n.subsetLabelChecked s = .ok (n.subsetLabel s) := by
  rw [subsetLabelChecked, labelsChecked_eq hs, subsetLabel]
  split
  · rfl
  · rfl

def subsetEdgesChecked (n : Nfa) (trap : Bool) (subsets : List (SortedSet Nat))
    (s : SortedSet Nat) : Except OutOfRange (SortedMap Char Nat) :=
  SortedMap.tabulateChecked n.alphabet fun c => do
    match ← n.subsetAfterChecked trap s c with
    | none => return none
    | some t => (placeOf subsets t).map some

theorem subsetEdgesChecked_eq {n : Nfa} (hn : n.WellFormed) {trap : Bool} {s : SortedSet Nat}
    (hs : s ∈ n.subsets trap) :
    n.subsetEdgesChecked trap (n.subsets trap) s =
      .ok (.tabulate n.alphabet fun c =>
        (n.subsetAfter trap s c).map (n.subsets trap).idxOf) := by
  apply SortedMap.tabulateChecked_eq
  intro c hc
  rw [subsetAfterChecked_eq hn (lt_of_mem_reached hn (reached_of_mem_breadthFirst hs)), ok_bind]
  cases ht : n.subsetAfter trap s c with
  | none => rfl
  | some t =>
      dsimp only
      rw [placeOf_eq (mem_subsets_of_subsetAfter hn hs hc ht)]
      rfl

end Nfa

def Dfa.ofSubsetsChecked (n : Nfa) (trap : Bool) : Except OutOfRange Dfa := do
  let subsets ← n.subsetsChecked trap
  let labels ← subsets.mapM n.subsetLabelChecked
  let edges ← subsets.mapM fun s => n.subsetEdgesChecked trap subsets s
  return {
    states := State.numbered labels
    alphabet := n.alphabet
    edges := edges.toArray
    start := 0
    accepting := (SortedSet.range subsets.length).filter fun i =>
      subsets[i]?.any n.anyAccepting }

theorem Dfa.ofSubsetsChecked_eq {n : Nfa} (hn : n.WellFormed) (trap : Bool) :
    ofSubsetsChecked n trap = .ok (ofSubsets n trap) := by
  have hlabels := mapM_eq_ok fun s (hs : s ∈ n.subsets trap) =>
    Nfa.subsetLabelChecked_eq (Nfa.lt_of_mem_reached hn (reached_of_mem_breadthFirst hs))
  rw [ofSubsetsChecked, Nfa.subsetsChecked_eq hn, ok_bind, hlabels, ok_bind,
    mapM_eq_ok (fun s hs => Nfa.subsetEdgesChecked_eq hn hs)]
  rfl

end Recognizer
