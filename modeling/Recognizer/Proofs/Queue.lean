import Recognizer.Proofs.Loop

/-!
# Searches with a queue

A breadth-first search can be kept as a queue of the nodes that wait, beside all nodes that
were ever put into it and those that were taken out of it.  The three stay in step: what was
put into the queue was taken out of it or still waits, and nothing is put into it twice.
-/

namespace Recognizer

/-- The nodes in the queue, the oldest first, all nodes that were put into it, and those that
were taken out of it, both in their order. -/
structure Queued (α : Type) where
  queue : List α
  known : List α
  taken : List α

namespace Queued

variable {α : Type} [DecidableEq α]

def enqueue (w : Queued α) (a : α) : Queued α :=
  if a ∈ w.known then w else ⟨w.queue ++ [a], w.known ++ [a], w.taken⟩

def ofSeeds (seeds : List α) : Queued α := seeds.foldl enqueue ⟨[], [], []⟩

def finished (w : Queued α) : Bool := w.queue.isEmpty

def advance (successors : α → List α) (w : Queued α) : Queued α :=
  match w.queue with
  | [] => w
  | a :: rest => (successors a).foldl enqueue ⟨rest, w.known, w.taken ++ [a]⟩

/-- The search after a number of turns, or at its end if it ends before. -/
def run (successors : α → List α) (k : Nat) (seeds : List α) : Queued α :=
  repeatUntil finished (advance successors) k (ofSeeds seeds)

def ofSearch (s : Search α) : Queued α :=
  ⟨s.found.toList.drop s.taken, s.found.toList, s.found.toList.take s.taken⟩

section OfSearch

variable {successors : α → List α} {seeds : List α} {found : Array α} {taken : Nat}

theorem enqueue_ofSearch (htaken : taken ≤ found.size) (a : α) :
    (ofSearch ⟨found, taken⟩).enqueue a = ofSearch ⟨Search.discover found a, taken⟩ := by
  unfold Search.discover
  by_cases ha : a ∈ found.toList
  · have hknown : (ofSearch ⟨found, taken⟩).enqueue a = ofSearch ⟨found, taken⟩ := if_pos ha
    rw [hknown, if_pos (by simpa using ha)]
  · have hnew : (ofSearch ⟨found, taken⟩).enqueue a =
        ⟨found.toList.drop taken ++ [a], found.toList ++ [a], found.toList.take taken⟩ := if_neg ha
    have hlength : taken ≤ found.toList.length := by simpa using htaken
    rw [hnew, if_neg (by simpa using ha), ofSearch, Array.toList_push,
      List.drop_append_of_le_length hlength, List.take_append_of_le_length hlength]

theorem foldl_enqueue_ofSearch (htaken : taken ≤ found.size) (xs : List α) :
    xs.foldl enqueue (ofSearch ⟨found, taken⟩) =
      ofSearch ⟨xs.foldl Search.discover found, taken⟩ := by
  induction xs generalizing found with
  | nil => rfl
  | cons x xs ih =>
      rw [List.foldl_cons, enqueue_ofSearch htaken, List.foldl_cons]
      apply ih
      have hprefix := (Search.prefix_foldl_discover [x] found).length_le
      simp only [Array.length_toList] at hprefix
      exact Nat.le_trans htaken hprefix

theorem ofSeeds_eq (seeds : List α) : ofSeeds seeds = ofSearch (Search.ofSeeds seeds) :=
  foldl_enqueue_ofSearch (Nat.zero_le _) seeds

omit [DecidableEq α] in
theorem finished_ofSearch (s : Search α) : (ofSearch s).finished = s.finished := by
  unfold finished Search.finished ofSearch
  rw [Bool.eq_iff_iff, List.isEmpty_iff, List.drop_eq_nil_iff, Array.length_toList,
    decide_eq_true_iff]

theorem advance_ofSearch {s : Search α} (hs : s.finished = false) :
    advance successors (ofSearch s) = ofSearch (s.advance successors) := by
  have hlt : s.taken < s.found.size := by
    simpa [Search.finished] using hs
  have hplace : s.taken < s.found.toList.length := by simpa using hlt
  have hqueue : (ofSearch s).queue = s.found[s.taken] :: s.found.toList.drop (s.taken + 1) := by
    show s.found.toList.drop s.taken = _
    rw [List.drop_eq_getElem_cons hplace]
    rfl
  have htaken : (ofSearch s).taken ++ [s.found[s.taken]] =
      s.found.toList.take (s.taken + 1) := by
    show s.found.toList.take s.taken ++ _ = _
    rw [List.take_succ_eq_append_getElem hplace]
    rfl
  rw [advance, hqueue, Search.advance, Array.getElem?_eq_getElem hlt]
  dsimp only
  rw [htaken]
  exact foldl_enqueue_ofSearch hlt _

theorem run_eq (k : Nat) : run successors k seeds = ofSearch (Search.run successors k seeds) := by
  unfold run Search.run
  rw [ofSeeds_eq]
  apply repeatUntil_map (I := Search.Consistent successors seeds)
  · exact fun s _ => finished_ofSearch s
  · intro s hs hfinished
    exact ⟨(Search.consistent_advance hs hfinished).1, advance_ofSearch hfinished⟩
  · exact Search.consistent_ofSeeds

/-!
# The end of a search
-/

/-- What was put into the queue was taken out of it or waits, and nothing was put into it
twice.  Every turn takes one node.  After as many turns as there are nodes the queue is empty,
and the nodes have been taken in the order in which they were found. -/
structure Drains (successors : α → List α) (seeds nodes : List α) : Prop where
  known_eq : ∀ k, (run successors k seeds).known =
    (run successors k seeds).taken ++ (run successors k seeds).queue
  nodup : ∀ k, (run successors k seeds).known.Nodup
  length_taken : ∀ k, (run successors k seeds).taken.length = min k nodes.length
  queue_eq_nil_iff : ∀ k, (run successors k seeds).queue = [] ↔ nodes.length ≤ k
  taken_eq : ∀ k, nodes.length ≤ k → (run successors k seeds).taken = nodes

variable {bound : Nat} (hbound : Search.Covers successors seeds bound)

include hbound

/-- A search takes as many turns as it finds nodes. -/
theorem takesTurns_search :
    TakesTurns Search.finished (Search.advance successors) (Search.ofSeeds seeds)
      (breadthFirst successors bound seeds).length := by
  rcases exists_takesTurns (Search.finished_run hbound) with ⟨turns, hturns, htakes⟩
  have hconsistent : Search.Consistent successors seeds (Search.run successors turns seeds) :=
    Search.consistent_run turns
  have htaken : (Search.run successors turns seeds).taken = turns := by
    have hcount := htakes.count_eq (I := Search.Consistent successors seeds) Search.taken
      Search.consistent_ofSeeds (fun s hs => Search.consistent_advance hs) turns
    rw [Nat.min_self] at hcount
    exact hcount.trans (Nat.zero_add turns)
  have hfound : (Search.run successors turns seeds).found.size ≤
      (Search.run successors turns seeds).taken := of_decide_eq_true htakes.finished
  have hlength : (breadthFirst successors bound seeds).length = turns := by
    have hend : Search.run successors bound seeds = Search.run successors turns seeds :=
      htakes.eq_of_le hturns
    rw [breadthFirst, hend, Array.length_toList,
      Nat.le_antisymm hfound hconsistent.taken_le, htaken]
  rw [hlength]
  exact htakes

theorem drains_breadthFirst :
    Drains successors seeds (breadthFirst successors bound seeds) := by
  have htakes := takesTurns_search hbound
  have hconsistent : ∀ k, Search.Consistent successors seeds (Search.run successors k seeds) :=
    fun k => Search.consistent_run k
  have hcount : ∀ k, (Search.run successors k seeds).taken =
      min k (breadthFirst successors bound seeds).length := by
    intro k
    have hcount := htakes.count_eq (I := Search.Consistent successors seeds) Search.taken
      Search.consistent_ofSeeds (fun s hs => Search.consistent_advance hs) k
    exact hcount.trans (Nat.zero_add _)
  have hlength : ∀ k, (run successors k seeds).taken.length =
      min k (breadthFirst successors bound seeds).length := by
    intro k
    rw [run_eq]
    show ((Search.run successors k seeds).found.toList.take _).length = _
    rw [List.length_take, Array.length_toList, Nat.min_eq_left (hconsistent k).taken_le, hcount]
  have hqueue : ∀ k, (run successors k seeds).queue = [] ↔
      (breadthFirst successors bound seeds).length ≤ k := by
    intro k
    rw [← htakes.finished_iff k, ← List.isEmpty_iff, run_eq]
    show (ofSearch (Search.run successors k seeds)).finished = true ↔ _
    rw [finished_ofSearch]
    rfl
  have hknown : ∀ k, (run successors k seeds).known =
      (run successors k seeds).taken ++ (run successors k seeds).queue := by
    intro k
    rw [run_eq]
    exact (List.take_append_drop _ _).symm
  refine ⟨hknown, fun k => ?_, hlength, hqueue, fun k hk => ?_⟩
  · rw [run_eq]
    exact (hconsistent k).nodup
  · -- the queue is empty, so all nodes were taken, and a greater bound changes nothing
    have hbound : (breadthFirst successors bound seeds).length ≤ bound :=
      hbound _ nodup_breadthFirst fun _ => reached_of_mem_breadthFirst
    have hend : Search.run successors k seeds = Search.run successors bound seeds :=
      (htakes.eq_of_le hk).trans (htakes.eq_of_le hbound).symm
    have htaken := hknown k
    rw [(hqueue k).mpr hk, List.append_nil] at htaken
    rw [← htaken, run_eq, hend]
    rfl

end OfSearch

end Queued

end Recognizer
