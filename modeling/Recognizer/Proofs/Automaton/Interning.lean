import Recognizer.Proofs.Automaton.Exploration

/-!
# Subset automata made in one loop

The sets of a subset automaton can be numbered while they are found: a set that has no number
gets the next one, a state and an empty row, and waits.  When its turn comes, the row is
filled character by character.  The loop makes the automaton whose rows are tabulated after
the search.
-/

namespace Recognizer

namespace SortedMap

variable {κ ν : Type} [Ord κ]

def empty : SortedMap κ ν := ⟨[], List.Pairwise.nil⟩

variable [DecidableEq κ] [Std.LawfulEqOrd κ] [Std.TransOrd κ]

def insert (m : SortedMap κ ν) (k : κ) (v : ν) : SortedMap κ ν :=
  tabulate ((SortedSet.ofList (m.toList.map Prod.fst)).insert k) fun j =>
    if j = k then some v else m.get? j

theorem get?_insert {m : SortedMap κ ν} {j k : κ} {v : ν} :
    (m.insert k v).get? j = if j = k then some v else m.get? j := by
  rw [insert, get?_tabulate, ite_eq_left_iff, SortedSet.mem_insert, SortedSet.mem_ofList,
    List.mem_map]
  intro hj
  have hjk : j ≠ k := fun heq => hj (Or.inl heq)
  rw [if_neg hjk]
  symm
  rw [Option.eq_none_iff_forall_ne_some]
  intro w hw
  exact hj (Or.inr ⟨(j, w), get?_eq_some_iff.mp hw, rfl⟩)

end SortedMap

theorem lookup_zipIdx {α : Type} [DecidableEq α] (xs : List α) (k : Nat) (a : α) :
    (xs.zipIdx k).lookup a = if a ∈ xs then some (xs.idxOf a + k) else none := by
  induction xs generalizing k with
  | nil => rfl
  | cons x xs ih =>
      rw [List.zipIdx_cons, List.lookup_cons]
      by_cases hax : a = x
      · subst hax
        simp
      · have hxa : x ≠ a := Ne.symm hax
        have hbeq : (a == x) = false := beq_eq_false_iff_ne.mpr hax
        rw [ih, List.idxOf_cons_ne _ hxa, hbeq]
        simp only [List.mem_cons, hax, false_or, Nat.succ_add, Nat.add_succ]

theorem getElem?_append_singleton_iff {α : Type} {xs : List α} {i : Nat} {a b : α} :
    (xs ++ [a])[i]? = some b ↔ xs[i]? = some b ∨ i = xs.length ∧ b = a := by
  rcases Nat.lt_trichotomy i xs.length with hlt | heq | hgt
  · rw [List.getElem?_append_left hlt, or_iff_left fun h => Nat.ne_of_lt hlt h.1]
  · rw [heq, List.getElem?_concat_length, List.getElem?_eq_none (Nat.le_refl _), Option.some_inj]
    simp [eq_comm]
  · have hnone : (xs ++ [a])[i]? = none := by
      apply List.getElem?_eq_none
      rw [List.length_append, List.length_singleton]
      exact hgt
    rw [hnone, List.getElem?_eq_none (Nat.le_of_lt hgt)]
    simp [Nat.ne_of_gt hgt]

/-- A subset automaton in the making: the numbers of the sets that were met, the sets that
wait, with their numbers, and the states, the rows and the accepting states so far. -/
structure Draft where
  numbers : List (SortedSet Nat × Nat)
  queue : List (SortedSet Nat × Nat)
  states : Array State
  rows : Array (SortedMap Char Nat)
  accepting : SortedSet Nat

namespace Draft

def add (n : Nfa) (b : Draft) (s : SortedSet Nat) : Draft where
  numbers := b.numbers ++ [(s, b.states.size)]
  queue := b.queue ++ [(s, b.states.size)]
  states := b.states.push ⟨b.states.size, n.subsetLabel s⟩
  rows := b.rows.push .empty
  accepting := if n.anyAccepting s then b.accepting.insert b.states.size else b.accepting

def intern (n : Nfa) (b : Draft) (s : SortedSet Nat) : Draft × Nat :=
  match b.numbers.lookup s with
  | some i => (b, i)
  | none => (b.add n s, b.states.size)

def follow (n : Nfa) (trap : Bool) (s : SortedSet Nat) (source : Nat) (b : Draft) (c : Char) :
    Draft :=
  let t := n.step s c
  if t.isEmpty && !trap then b
  else
    let (b, target) := b.intern n t
    { b with rows := b.rows.modify source fun row => row.insert c target }

def advance (n : Nfa) (trap : Bool) (b : Draft) : Draft :=
  match b.queue with
  | [] => b
  | (s, source) :: rest => n.alphabet.toList.foldl (follow n trap s source) { b with queue := rest }

def finished (b : Draft) : Bool := b.queue.isEmpty

def start (n : Nfa) : Draft × Nat := intern n ⟨[], [], #[], #[], .empty⟩ n.startSet

/-- The draft after a number of turns, or at the end if the loop ends before. -/
def run (n : Nfa) (trap : Bool) (k : Nat) : Draft :=
  repeatUntil finished (advance n trap) k (start n).1

def toDfa (n : Nfa) (b : Draft) : Dfa where
  states := b.states
  alphabet := n.alphabet
  edges := b.rows
  start := (start n).2
  accepting := b.accepting

/-!
# The draft beside the search
-/

section Writes

variable {n : Nfa} {trap : Bool} {followed followed' : Nat → Char → Prop}
  {w : Queued (SortedSet Nat)} {b : Draft} {s t : SortedSet Nat} {source : Nat} {c : Char}

/-- The draft numbers the sets that a search has met. -/
structure Numbers (n : Nfa) (w : Queued (SortedSet Nat)) (b : Draft) : Prop where
  known_eq : w.known = w.taken ++ w.queue
  numbers_eq : b.numbers = w.known.zipIdx
  queue_eq : b.queue = w.queue.zipIdx w.taken.length
  states_eq : b.states = State.numbered (w.known.map n.subsetLabel)
  mem_accepting : ∀ i, i ∈ b.accepting ↔ ∃ s, w.known[i]? = some s ∧ n.anyAccepting s = true

/-- Its rows hold what was followed so far. -/
structure Writes (n : Nfa) (trap : Bool) (followed : Nat → Char → Prop)
    (w : Queued (SortedSet Nat)) (b : Draft) : Prop extends Numbers n w b where
  size_rows : b.rows.size = w.known.length
  met : ∀ i c, followed i c → ∃ s, w.known[i]? = some s ∧
    ∀ t, n.subsetAfter trap s c = some t → t ∈ w.known
  row : ∀ i s row, w.known[i]? = some s → b.rows[i]? = some row → ∀ c j,
    row.get? c = some j ↔ followed i c ∧ (n.subsetAfter trap s c).map w.known.idxOf = some j

theorem Writes.of_iff (h : Writes n trap followed w b)
    (hiff : ∀ i c, followed i c ↔ followed' i c) : Writes n trap followed' w b := by
  have heq : followed = followed' := funext fun i => funext fun c => propext (hiff i c)
  exact heq ▸ h

theorem known_enqueue (ht : t ∉ w.known) : (w.enqueue t).known = w.known ++ [t] :=
  congrArg Queued.known (if_neg ht)

theorem getElem?_known_enqueue (hs : w.known[source]? = some s) :
    (w.enqueue t).known[source]? = some s := by
  by_cases ht : t ∈ w.known
  · have hsame : w.enqueue t = w := if_pos ht
    rw [hsame]
    exact hs
  · rw [known_enqueue ht]
    exact getElem?_append_singleton_iff.mpr (Or.inl hs)

theorem Numbers.size_states (h : Numbers n w b) : b.states.size = w.known.length := by
  rw [h.states_eq, State.size_numbered, List.length_map]

theorem Numbers.add (h : Numbers n w b) (ht : t ∉ w.known) :
    Numbers n (w.enqueue t) (b.add n t) := by
  have henqueue : w.enqueue t = ⟨w.queue ++ [t], w.known ++ [t], w.taken⟩ := if_neg ht
  have hlength : w.known.length = w.taken.length + w.queue.length := by
    rw [h.known_eq, List.length_append]
  rw [henqueue, Draft.add, h.size_states]
  refine ⟨?_, ?_, ?_, ?_, ?_⟩
  · rw [h.known_eq, List.append_assoc]
  · rw [h.numbers_eq, List.zipIdx_append, Nat.zero_add]
    rfl
  · rw [h.queue_eq, List.zipIdx_append, hlength]
    rfl
  · rw [h.states_eq, List.map_append, List.map_singleton, State.numbered_append_singleton,
      List.length_map]
  · intro i
    have hplace : (∃ s, (w.known ++ [t])[i]? = some s ∧ n.anyAccepting s = true) ↔
        i ∈ b.accepting ∨ i = w.known.length ∧ n.anyAccepting t = true := by
      simp only [getElem?_append_singleton_iff, or_and_right, exists_or, and_assoc,
        exists_and_left, exists_eq_left, h.mem_accepting]
    rw [hplace]
    dsimp only
    split
    · rename_i haccepting
      rw [SortedSet.mem_insert, or_comm, and_iff_left haccepting]
    · rename_i haccepting
      rw [or_iff_left fun hlast => haccepting hlast.2]

theorem Writes.add (h : Writes n trap followed w b) (ht : t ∉ w.known) :
    Writes n trap followed (w.enqueue t) (b.add n t) := by
  refine ⟨h.toNumbers.add ht, ?_, ?_, ?_⟩
  · rw [known_enqueue ht, List.length_append, ← h.size_rows]
    exact Array.size_push _
  · intro i c hfollowed
    rcases h.met i c hfollowed with ⟨s, hs, hmet⟩
    refine ⟨s, getElem?_known_enqueue hs, fun u hu => ?_⟩
    rw [known_enqueue ht]
    exact List.mem_append_left _ (hmet u hu)
  · intro i s row hs hrow c j
    rw [known_enqueue ht] at hs ⊢
    change (b.rows.push .empty)[i]? = some row at hrow
    rw [Array.getElem?_push, h.size_rows] at hrow
    rcases getElem?_append_singleton_iff.mp hs with hs | ⟨rfl, rfl⟩
    · have hlt := (List.getElem?_eq_some_iff.mp hs).1
      rw [if_neg (Nat.ne_of_lt hlt)] at hrow
      rw [h.row i s row hs hrow]
      apply and_congr_right
      intro hfollowed
      rcases h.met i c hfollowed with ⟨s', hs', hmet⟩
      rw [hs] at hs'
      cases hs'
      cases hu : n.subsetAfter trap s c with
      | none => exact Iff.rfl
      | some u => rw [Option.map_some, Option.map_some, List.idxOf_append_of_mem (hmet u hu)]
    · rw [if_pos rfl] at hrow
      cases hrow
      refine iff_of_false ?_ ?_
      · intro hget
        cases hget
      · intro hfollowed
        rcases h.met _ c hfollowed.1 with ⟨s', hs', _⟩
        exact Nat.lt_irrefl _ (List.getElem?_eq_some_iff.mp hs').1

theorem Writes.intern (h : Writes n trap followed w b) (t : SortedSet Nat) :
    Writes n trap followed (w.enqueue t) (b.intern n t).1 ∧
      (b.intern n t).2 = (w.enqueue t).known.idxOf t ∧ t ∈ (w.enqueue t).known := by
  unfold Draft.intern
  rw [h.numbers_eq, lookup_zipIdx]
  by_cases ht : t ∈ w.known
  · have henqueue : w.enqueue t = w := if_pos ht
    rw [henqueue, if_pos ht]
    exact ⟨h, rfl, ht⟩
  · rw [if_neg ht, known_enqueue ht]
    refine ⟨h.add ht, ?_, List.mem_append_right _ (List.mem_singleton.mpr rfl)⟩
    rw [List.idxOf_append_of_notMem ht, List.idxOf_cons_self, h.size_states]
    rfl

theorem Writes.met_or (h : Writes n trap followed w b) (hs : w.known[source]? = some s)
    (hmet : ∀ t, n.subsetAfter trap s c = some t → t ∈ w.known) (i : Nat) (d : Char)
    (hfollowed : followed i d ∨ i = source ∧ d = c) :
    ∃ s, w.known[i]? = some s ∧ ∀ t, n.subsetAfter trap s d = some t → t ∈ w.known := by
  rcases hfollowed with hfollowed | ⟨rfl, rfl⟩
  · exact h.met i d hfollowed
  · exact ⟨s, hs, hmet⟩

theorem Writes.write (h : Writes n trap followed w b) (hs : w.known[source]? = some s)
    (hafter : n.subsetAfter trap s c = some t) (ht : t ∈ w.known) :
    Writes n trap (fun i d => followed i d ∨ i = source ∧ d = c) w
      { b with rows := b.rows.modify source fun row => row.insert c (w.known.idxOf t) } where
  known_eq := h.known_eq
  numbers_eq := h.numbers_eq
  queue_eq := h.queue_eq
  states_eq := h.states_eq
  mem_accepting := h.mem_accepting
  size_rows := Array.size_modify.trans h.size_rows
  met := by
    refine h.met_or hs fun u hu => ?_
    rw [hafter] at hu
    cases hu
    exact ht
  row := by
    intro i s' row hs' hrow d j
    rw [Array.getElem?_modify] at hrow
    by_cases hi : source = i
    · subst hi
      rw [hs] at hs'
      cases hs'
      rw [if_pos rfl] at hrow
      rcases Option.map_eq_some_iff.mp hrow with ⟨old, hold, rfl⟩
      rw [SortedMap.get?_insert]
      by_cases hd : d = c
      · subst hd
        rw [if_pos rfl, hafter]
        exact (and_iff_right (Or.inr ⟨rfl, rfl⟩)).symm
      · rw [if_neg hd, h.row source s old hs hold, or_iff_left fun hnew => hd hnew.2]
    · rw [if_neg hi] at hrow
      rw [h.row i s' row hs' hrow, or_iff_left fun hnew => hi hnew.1.symm]

theorem Writes.skip (h : Writes n trap followed w b) (hs : w.known[source]? = some s)
    (hafter : n.subsetAfter trap s c = none) :
    Writes n trap (fun i d => followed i d ∨ i = source ∧ d = c) w b where
  toNumbers := h.toNumbers
  size_rows := h.size_rows
  met := by
    refine h.met_or hs fun u hu => ?_
    rw [hafter] at hu
    cases hu
  row := by
    intro i s' row hs' hrow d j
    rw [h.row i s' row hs' hrow, or_and_right]
    refine (or_iff_left ?_).symm
    intro hnew
    rcases hnew with ⟨⟨rfl, rfl⟩, hmap⟩
    rw [hs] at hs'
    cases hs'
    rw [hafter] at hmap
    cases hmap

theorem follow_eq :
    b.follow n trap s source c =
      match n.subsetAfter trap s c with
      | none => b
      | some t =>
          { (b.intern n t).1 with
            rows := (b.intern n t).1.rows.modify source fun row =>
              row.insert c (b.intern n t).2 } := by
  have hafter : n.subsetAfter trap s c =
      if (n.step s c).isEmpty && !trap then none else some (n.step s c) := rfl
  rw [hafter]
  unfold Draft.follow
  dsimp only
  split
  · rfl
  · rfl

theorem Writes.foldl_follow (h : Writes n trap followed w b) (hs : w.known[source]? = some s)
    (cs : List Char) :
    Writes n trap (fun i d => followed i d ∨ i = source ∧ d ∈ cs)
      ((cs.filterMap (n.subsetAfter trap s)).foldl Queued.enqueue w)
      (cs.foldl (follow n trap s source) b) := by
  induction cs generalizing w b followed with
  | nil => exact h.of_iff fun i d => (or_iff_left fun hnew => List.not_mem_nil hnew.2).symm
  | cons c cs ih =>
      have hiff : ∀ i d, ((followed i d ∨ i = source ∧ d = c) ∨ i = source ∧ d ∈ cs) ↔
          followed i d ∨ i = source ∧ d ∈ c :: cs := by
        intro i d
        rw [or_assoc, ← and_or_left, List.mem_cons]
      rw [List.foldl_cons, follow_eq]
      cases hafter : n.subsetAfter trap s c with
      | none =>
          rw [List.filterMap_cons_none hafter]
          exact (ih (h.skip hs hafter) hs).of_iff hiff
      | some t =>
          have hintern := h.intern t
          have hplace := getElem?_known_enqueue (t := t) hs
          rw [List.filterMap_cons_some hafter, List.foldl_cons]
          dsimp only
          rw [hintern.2.1]
          exact (ih (hintern.1.write hplace hafter hintern.2.2) hplace).of_iff hiff

/-!
# The loop
-/

theorem taken_foldl_enqueue (ts : List (SortedSet Nat)) :
    (ts.foldl Queued.enqueue w).taken = w.taken := by
  induction ts generalizing w with
  | nil => rfl
  | cons t ts ih =>
      rw [List.foldl_cons, ih]
      unfold Queued.enqueue
      split
      · rfl
      · rfl

def Followed (n : Nfa) (w : Queued (SortedSet Nat)) (i : Nat) (c : Char) : Prop :=
  i < w.taken.length ∧ c ∈ n.alphabet

theorem Numbers.finished_eq (h : Numbers n w b) : b.finished = w.finished := by
  unfold finished Queued.finished
  rw [h.queue_eq, Bool.eq_iff_iff, List.isEmpty_iff, List.isEmpty_iff, List.zipIdx_eq_nil_iff]

theorem Writes.advance (h : Writes n trap (Followed n w) w b) (hw : w.finished = false) :
    Writes n trap (Followed n (w.advance (n.subsetsAfter trap)))
      (w.advance (n.subsetsAfter trap)) (b.advance n trap) := by
  rcases List.exists_cons_of_ne_nil (List.isEmpty_eq_false_iff.mp hw) with ⟨s, rest, hqueue⟩
  have hnumbered : b.queue = (s, w.taken.length) :: rest.zipIdx (w.taken.length + 1) := by
    rw [h.queue_eq, hqueue, List.zipIdx_cons]
  have hsearch : w.advance (n.subsetsAfter trap) =
      (n.subsetsAfter trap s).foldl Queued.enqueue ⟨rest, w.known, w.taken ++ [s]⟩ := by
    unfold Queued.advance
    rw [hqueue]
  have hdraft : b.advance n trap = n.alphabet.toList.foldl (follow n trap s w.taken.length)
      { b with queue := rest.zipIdx (w.taken.length + 1) } := by
    unfold Draft.advance
    rw [hnumbered]
  have hlength : (w.taken ++ [s]).length = w.taken.length + 1 := List.length_append
  have htaken : Writes n trap (Followed n w) ⟨rest, w.known, w.taken ++ [s]⟩
      { b with queue := rest.zipIdx (w.taken.length + 1) } := by
    refine ⟨⟨?_, h.numbers_eq, ?_, h.states_eq, h.mem_accepting⟩, h.size_rows, h.met, h.row⟩
    · rw [h.known_eq, hqueue, List.append_assoc]
      rfl
    · rw [hlength]
  have hplace : w.known[w.taken.length]? = some s := by
    rw [h.known_eq, hqueue, List.getElem?_append_right (Nat.le_refl _), Nat.sub_self]
    rfl
  have hfold := htaken.foldl_follow hplace n.alphabet.toList
  rw [hsearch, hdraft]
  refine hfold.of_iff ?_
  intro i c
  unfold Followed
  rw [taken_foldl_enqueue, hlength, Nat.lt_succ_iff_lt_or_eq, or_and_right]
  exact Iff.rfl

theorem writes_start :
    Writes n trap (fun _ _ => False) (Queued.ofSeeds [n.startSet]) (start n).1 := by
  have hempty : Writes n trap (fun _ _ => False) ⟨[], [], []⟩ ⟨[], [], #[], #[], .empty⟩ := by
    refine ⟨⟨rfl, rfl, rfl, rfl, fun i => ?_⟩, rfl, fun _ _ => False.elim, ?_⟩
    · refine iff_of_false SortedSet.not_mem_empty ?_
      rintro ⟨s, hs, _⟩
      cases hs
    · intro i s row hs
      cases hs
  exact (hempty.intern n.startSet).1

theorem writes_run (k : Nat) :
    Writes n trap (Followed n (Queued.run (n.subsetsAfter trap) k [n.startSet]))
      (Queued.run (n.subsetsAfter trap) k [n.startSet]) (run n trap k) := by
  induction k with
  | zero =>
      refine writes_start.of_iff fun i c => (iff_false_intro ?_).symm
      intro hfollowed
      have htaken : (Queued.ofSeeds [n.startSet]).taken = [] := taken_foldl_enqueue [n.startSet]
      have hlt : i < (Queued.ofSeeds [n.startSet]).taken.length := hfollowed.1
      rw [htaken] at hlt
      exact Nat.not_lt_zero i hlt
  | succ k ih =>
      unfold Queued.run run at ih ⊢
      rw [repeatUntil_succ, repeatUntil_succ, ih.finished_eq]
      split
      · exact ih
      · rename_i hgoes
        exact ih.advance (Bool.eq_false_iff.mpr hgoes)

/-- In the end the rows are those that are tabulated from the sets that were found. -/
theorem Writes.rows_eq (h : Writes n trap (Followed n w) w b) (hknown : w.known = n.subsets trap)
    (htaken : w.taken = n.subsets trap) : b.rows = (Dfa.ofSubsets n trap).edges := by
  let follow (s : SortedSet Nat) (c : Char) : Option Nat :=
    (n.subsetAfter trap s c).map (n.subsets trap).idxOf
  have hedges : (Dfa.ofSubsets n trap).edges =
      ((n.subsets trap).map fun s => SortedMap.tabulate n.alphabet (follow s)).toArray := rfl
  have hsize := h.size_rows
  have hrow := h.row
  rw [hknown] at hsize hrow
  apply Array.ext_getElem?
  intro i
  have htabulated : (Dfa.ofSubsets n trap).edges[i]? =
      (n.subsets trap)[i]?.map fun s => SortedMap.tabulate n.alphabet (follow s) := by
    rw [hedges, List.getElem?_toArray, List.getElem?_map]
  rw [htabulated]
  cases hs : (n.subsets trap)[i]? with
  | none =>
      apply Array.getElem?_eq_none
      rw [hsize]
      exact List.getElem?_eq_none_iff.mp hs
  | some s =>
      have hlt := (List.getElem?_eq_some_iff.mp hs).1
      have hplace := Array.getElem?_eq_getElem (hsize ▸ hlt)
      rw [hplace, Option.map_some, Option.some_inj]
      apply SortedMap.ext
      intro c
      apply Option.ext
      intro j
      rw [hrow i s _ hs hplace, SortedMap.get?_tabulate, Followed, htaken, and_iff_right hlt]
      by_cases hc : c ∈ n.alphabet
      · rw [if_pos hc]
        exact and_iff_right hc
      · rw [if_neg hc]
        refine iff_of_false (fun hfollowed => hc hfollowed.1) ?_
        intro hnone
        cases hnone

/-- The loop makes the subset automaton. -/
theorem toDfa_run {k : Nat} (hn : n.WellFormed) (hk : (n.subsets trap).length ≤ k) :
    (run n trap k).toDfa n = Dfa.ofSubsets n trap := by
  have hdrains := (Nfa.subsetsEnd hn trap).drains
  have htaken := hdrains.taken_eq k hk
  have hknown := hdrains.known_eq k
  rw [(hdrains.queue_eq_nil_iff k).mpr hk, List.append_nil, htaken] at hknown
  have hwrites : Writes n trap (Followed n (Queued.run (n.subsetsAfter trap) k [n.startSet])) _ _ :=
    writes_run k
  have hstates : (run n trap k).states = (Dfa.ofSubsets n trap).states := by
    rw [hwrites.states_eq, hknown]
    rfl
  have haccepting : (run n trap k).accepting = (Dfa.ofSubsets n trap).accepting := by
    apply SortedSet.ext
    intro i
    rw [hwrites.mem_accepting, hknown, Dfa.mem_accepting_ofSubsets]
  unfold toDfa
  rw [hstates, haccepting, hwrites.rows_eq hknown htaken]
  rfl

end Writes

end Draft

end Recognizer
