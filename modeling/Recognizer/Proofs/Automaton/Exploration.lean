import Recognizer.Proofs.Automaton.Hiding
import Recognizer.Proofs.Queue
import Recognizer.Proofs.Trace.Edges

/-!
# Loops that collect states

A closure is collected with a stack, and the ε edges behind some states and the sets of a
subset automaton with a queue.  Stack and queue grow while they are worked off.  The loops end
all the same, whatever circles the ε edges make: besides the states it begins with, a walk
puts every state on the stack at most once, and nothing is put into a queue twice.
-/

namespace Recognizer

theorem SortedSet.perm_insert {α : Type} [Ord α] [Std.LawfulEqOrd α] [Std.TransOrd α]
    {s : SortedSet α} {a : α} (ha : a ∉ s) : (s.insert a).toList.Perm (a :: s.toList) := by
  rw [List.perm_ext_iff_of_nodup (nodup_toList _) (List.nodup_cons.mpr ⟨ha, s.nodup_toList⟩)]
  intro b
  rw [mem_toList, mem_insert, List.mem_cons, mem_toList]

/-- A walk along ε edges: the stack of the states to go on from, the states that edges have
led to, the closure collected so far, and the states taken from the stack.  Of those on the
stack and those taken from it the latest come first. -/
structure EpsilonWalk where
  stack : List Nat
  met : SortedSet Nat
  closure : SortedSet Nat
  popped : List Nat

namespace EpsilonWalk

def ofSeeds (s : SortedSet Nat) : EpsilonWalk := ⟨s.toList.reverse, .empty, .empty, []⟩

def finished (w : EpsilonWalk) : Bool := w.stack.isEmpty

end EpsilonWalk

namespace Nfa

variable {n : Nfa} {s : SortedSet Nat} {w : EpsilonWalk} {q : Nat} {rest qs : List Nat}
  {pops k : Nat} {trap : Bool}

/-!
# The walk that collects a closure
-/

def epsilonTargets (n : Nfa) (q : Nat) : List Nat := (n.targets q .epsilon).toList

def reveal (n : Nfa) (closure : SortedSet Nat) (q : Nat) : SortedSet Nat :=
  if n.isIntermediate q then closure else closure.insert q

def meet (n : Nfa) (w : EpsilonWalk) (q : Nat) : EpsilonWalk :=
  if q ∈ w.met then w else ⟨q :: w.stack, w.met.insert q, n.reveal w.closure q, w.popped⟩

def pop (n : Nfa) (w : EpsilonWalk) : EpsilonWalk :=
  match w.stack with
  | [] => w
  | q :: rest =>
      (n.epsilonTargets q).foldl n.meet ⟨rest, w.met, n.reveal w.closure q, q :: w.popped⟩

/-- The walk from some states after a number of turns, or at its end if it ends before. -/
def epsilonWalk (n : Nfa) (s : SortedSet Nat) (k : Nat) : EpsilonWalk :=
  repeatUntil EpsilonWalk.finished n.pop k (.ofSeeds s)

theorem mem_reveal {closure : SortedSet Nat} {r : Nat} :
    r ∈ n.reveal closure q ↔ r ∈ closure ∨ r = q ∧ n.isIntermediate r = false := by
  unfold reveal
  split
  · rename_i hq
    refine (or_iff_left ?_).symm
    rintro ⟨rfl, hr⟩
    rw [hq] at hr
    cases hr
  · rename_i hq
    rw [SortedSet.mem_insert, or_comm]
    refine or_congr_right (and_iff_left_of_imp ?_).symm
    rintro rfl
    exact Bool.eq_false_iff.mpr hq

/-- What is on the stack or was taken from it is a seed or was met, each one once in either
way.  Only what the seeds lead to is met, and the closure has shown what was met or taken. -/
structure Accounts (n : Nfa) (s : SortedSet Nat) (w : EpsilonWalk) : Prop where
  perm : (w.popped ++ w.stack).Perm (s.toList ++ w.met.toList)
  reached : ∀ q ∈ w.met, Search.Reached n.epsilonTargets s.toList q
  mem_closure : ∀ q, q ∈ w.closure ↔ (q ∈ w.popped ∨ q ∈ w.met) ∧ n.isIntermediate q = false

theorem Accounts.mem_iff (h : n.Accounts s w) : q ∈ w.popped ∨ q ∈ w.stack ↔ q ∈ s ∨ q ∈ w.met := by
  rw [← List.mem_append, h.perm.mem_iff, List.mem_append]
  exact Iff.rfl

theorem Accounts.reached_stack (h : n.Accounts s w) (hq : q ∈ w.stack) :
    Search.Reached n.epsilonTargets s.toList q := by
  cases h.mem_iff.mp (Or.inr hq) with
  | inl hseed => exact Search.Reached.seed hseed
  | inr hmet => exact h.reached q hmet

theorem accounts_ofSeeds : n.Accounts s (.ofSeeds s) where
  perm := by
    show (s.toList.reverse).Perm (s.toList ++ [])
    rw [List.append_nil]
    exact s.toList.reverse_perm
  reached := fun q hq => absurd hq SortedSet.not_mem_empty
  mem_closure := by
    intro q
    refine iff_of_false SortedSet.not_mem_empty ?_
    rintro ⟨hpopped | hmet, _⟩
    · cases hpopped
    · exact SortedSet.not_mem_empty hmet

theorem Accounts.take (h : n.Accounts s w) (hstack : w.stack = q :: rest) :
    n.Accounts s ⟨rest, w.met, n.reveal w.closure q, q :: w.popped⟩ where
  perm := by
    have hperm := h.perm
    rw [hstack] at hperm
    exact List.perm_middle.symm.trans hperm
  reached := h.reached
  mem_closure := by
    intro r
    rw [mem_reveal, h.mem_closure, ← or_and_right, List.mem_cons]
    apply and_congr_left'
    rw [or_comm, or_assoc]

theorem Accounts.meet (h : n.Accounts s w) (hq : Search.Reached n.epsilonTargets s.toList q) :
    n.Accounts s (n.meet w q) := by
  unfold Nfa.meet
  split
  · exact h
  · rename_i hnew
    refine ⟨?_, ?_, ?_⟩
    · have hmet : (s.toList ++ (w.met.insert q).toList).Perm (q :: (s.toList ++ w.met.toList)) :=
        ((SortedSet.perm_insert hnew).append_left s.toList).trans List.perm_middle
      exact List.perm_middle.trans ((h.perm.cons q).trans hmet.symm)
    · intro r hr
      cases SortedSet.mem_insert.mp hr with
      | inl heq => exact heq ▸ hq
      | inr hr => exact h.reached r hr
    · intro r
      rw [mem_reveal, h.mem_closure, ← or_and_right, SortedSet.mem_insert]
      apply and_congr_left'
      rw [or_assoc, or_comm (a := r ∈ w.met)]

theorem Accounts.foldl_meet (h : n.Accounts s w)
    (hqs : ∀ q ∈ qs, Search.Reached n.epsilonTargets s.toList q) :
    n.Accounts s (qs.foldl n.meet w) := by
  induction qs generalizing w with
  | nil => exact h
  | cons q qs ih =>
      exact ih (h.meet (hqs q List.mem_cons_self)) fun r hr => hqs r (List.mem_cons_of_mem q hr)

theorem popped_foldl_meet : (qs.foldl n.meet w).popped = w.popped := by
  induction qs generalizing w with
  | nil => rfl
  | cons q qs ih =>
      rw [List.foldl_cons, ih]
      unfold meet
      split
      · rfl
      · rfl

theorem mem_met_foldl_meet : q ∈ (qs.foldl n.meet w).met ↔ q ∈ w.met ∨ q ∈ qs := by
  have hone : ∀ (w : EpsilonWalk) (p : Nat), q ∈ (n.meet w p).met ↔ q ∈ w.met ∨ q = p := by
    intro w p
    unfold meet
    split
    · rename_i hp
      exact (or_iff_left_of_imp fun heq => heq ▸ hp).symm
    · rw [SortedSet.mem_insert, or_comm]
  induction qs generalizing w with
  | nil => simp
  | cons p qs ih =>
      refine ih.trans ?_
      rw [hone, List.mem_cons, or_assoc]

structure Walks (n : Nfa) (s : SortedSet Nat) (w : EpsilonWalk) : Prop extends n.Accounts s w where
  closed : ∀ p ∈ w.popped, ∀ q ∈ n.epsilonTargets p, q ∈ w.met

theorem walks_ofSeeds : n.Walks s (.ofSeeds s) where
  toAccounts := accounts_ofSeeds
  closed := fun _ hp => nomatch hp

theorem Walks.pop (h : n.Walks s w) (hw : w.finished = false) :
    n.Walks s (n.pop w) ∧ (n.pop w).popped.length = w.popped.length + 1 := by
  rcases List.exists_cons_of_ne_nil (List.isEmpty_eq_false_iff.mp hw) with ⟨q, rest, hstack⟩
  have hpop : n.pop w =
      (n.epsilonTargets q).foldl n.meet ⟨rest, w.met, n.reveal w.closure q, q :: w.popped⟩ := by
    rw [Nfa.pop, hstack]
  have hq : Search.Reached n.epsilonTargets s.toList q :=
    h.reached_stack (hstack ▸ List.mem_cons_self)
  rw [hpop]
  refine ⟨⟨(h.take hstack).foldl_meet fun r hr => Search.Reached.next hq hr, ?_⟩, ?_⟩
  · intro p hp r hr
    rw [popped_foldl_meet] at hp
    rw [mem_met_foldl_meet]
    cases List.mem_cons.mp hp with
    | inl heq => exact Or.inr (heq ▸ hr)
    | inr hp => exact Or.inl (h.closed p hp r hr)
  · rw [popped_foldl_meet]
    rfl

theorem walks_epsilonWalk (k : Nat) : n.Walks s (n.epsilonWalk s k) :=
  repeatUntil_invariant (fun _ hw hfinished => (hw.pop hfinished).1) k walks_ofSeeds

theorem Walks.mem_popped_iff (h : n.Walks s w) (hstack : w.stack = []) :
    q ∈ w.popped ∨ q ∈ w.met ↔ Search.Reached n.epsilonTargets s.toList q := by
  have hpopped : ∀ r, r ∈ w.popped ↔ r ∈ s ∨ r ∈ w.met := by
    intro r
    rw [← h.mem_iff, hstack]
    exact (or_iff_left List.not_mem_nil).symm
  constructor
  · intro hq
    have hq : q ∈ s ∨ q ∈ w.met := hq.elim (hpopped q).mp Or.inr
    cases hq with
    | inl hseed => exact Search.Reached.seed hseed
    | inr hmet => exact h.reached q hmet
  · intro hq
    left
    rw [hpopped]
    induction hq with
    | seed hseed => exact Or.inl hseed
    | next _ hedge ih => exact Or.inr (h.closed _ ((hpopped _).mpr ih) _ hedge)

section Closure

variable (hn : n.WellFormed) (hs : ∀ q ∈ s, q < n.states.size)

include hn hs

theorem covers_epsilonTargets : Search.Covers n.epsilonTargets s.toList n.states.size :=
  covers_epsilonReach hn hs

/-- Every state is met at most once, and the seeds are on the stack besides. -/
theorem Walks.length_popped_le (h : n.Walks s w) :
    w.popped.length + w.stack.length ≤ s.size + n.states.size := by
  have hmet : w.met.toList.length ≤ n.states.size :=
    covers_epsilonTargets hn hs w.met.toList w.met.nodup_toList h.reached
  rw [← List.length_append, h.perm.length_eq, List.length_append]
  exact Nat.add_le_add_left hmet s.size

theorem Walks.closure_eq (h : n.Walks s w) (hstack : w.stack = []) : w.closure = n.closure s := by
  apply SortedSet.ext
  intro q
  have hreach : q ∈ n.epsilonReach s ↔ Search.Reached n.epsilonTargets s.toList q :=
    mem_breadthFirst (covers_epsilonTargets hn hs)
  rw [h.mem_closure, h.mem_popped_iff hstack, ← hreach, closure, SortedSet.mem_ofList,
    List.mem_filter, Bool.not_eq_true']

theorem exists_takesTurns_pop :
    ∃ pops, pops ≤ s.size + n.states.size ∧
      TakesTurns EpsilonWalk.finished n.pop (.ofSeeds s) pops := by
  apply exists_takesTurns
  apply repeatUntil_finished (I := n.Walks s)
    (fun w => s.size + n.states.size - w.popped.length)
  · exact fun w hw hfinished => (hw.pop hfinished).1
  · intro w hw hfinished
    have hstack := List.length_pos_iff.mpr (List.isEmpty_eq_false_iff.mp hfinished)
    have hlength := hw.length_popped_le hn hs
    rw [(hw.pop hfinished).2]
    omega
  · exact walks_ofSeeds
  · exact Nat.sub_le _ _

end Closure

/-- The walk for a closure takes one state from the stack in every turn, and its stack is empty
after no more turns than there are seeds and states.  Then it has collected the closure. -/
structure ClosureEnds (n : Nfa) (s : SortedSet Nat) (pops : Nat) : Prop where
  pops_le : pops ≤ s.size + n.states.size
  length_popped : ∀ k, (n.epsilonWalk s k).popped.length = min k pops
  stack_eq_nil_iff : ∀ k, (n.epsilonWalk s k).stack = [] ↔ pops ≤ k
  closure_eq : ∀ k, pops ≤ k → (n.epsilonWalk s k).closure = n.closure s

theorem exists_closureEnds (hn : n.WellFormed) (hs : ∀ q ∈ s, q < n.states.size) :
    ∃ pops, n.ClosureEnds s pops := by
  rcases exists_takesTurns_pop hn hs with ⟨pops, hpops, htakes⟩
  have hstack : ∀ k, (n.epsilonWalk s k).stack = [] ↔ pops ≤ k := by
    intro k
    rw [← htakes.finished_iff k, ← List.isEmpty_iff]
    rfl
  refine ⟨pops, hpops, ?_, hstack, ?_⟩
  · intro k
    have hcount := htakes.count_eq (I := n.Walks s) (fun w => w.popped.length) walks_ofSeeds
      (fun w hw => hw.pop) k
    exact hcount.trans (Nat.zero_add _)
  · intro k hk
    exact (walks_epsilonWalk k).closure_eq hn hs ((hstack k).mpr hk)

/-!
# The search that lists ε edges
-/

/-- The search for ε edges takes every state out of its queue at most once, and the edges are
those of the states taken. -/
structure EdgesEnd (n : Nfa) (s : SortedSet Nat) : Prop where
  length_le : (n.epsilonReach s).length ≤ n.states.size
  drains : Queued.Drains n.epsilonTargets s.toList (n.epsilonReach s)
  edges_eq : ∀ k, (n.epsilonReach s).length ≤ k →
    n.epsilonEdges s =
      n.edgesReading (Queued.run n.epsilonTargets k s.toList).taken .epsilon

theorem edgesEnd (hn : n.WellFormed) (hs : ∀ q ∈ s, q < n.states.size) : n.EdgesEnd s := by
  have hdrains : Queued.Drains n.epsilonTargets s.toList (n.epsilonReach s) :=
    Queued.drains_breadthFirst (covers_epsilonTargets hn hs)
  refine ⟨?_, hdrains, ?_⟩
  · exact covers_epsilonTargets hn hs _ nodup_breadthFirst fun _ => reached_of_mem_breadthFirst
  · intro k hk
    rw [hdrains.taken_eq k hk]
    rfl

/-!
# The search for the sets of a subset automaton
-/

/-- The search for sets puts no two sets with the same members into its queue and takes every
set out of it once, no more than there are sets of states that are shown.  Each set that was
taken is a state of the subset automaton. -/
structure SubsetsEnd (n : Nfa) (trap : Bool) : Prop where
  length_le : (n.subsets trap).length ≤ 2 ^ n.shownStates.size
  drains : Queued.Drains (n.subsetsAfter trap) [n.startSet] (n.subsets trap)
  different : ∀ k, (Queued.run (n.subsetsAfter trap) k [n.startSet]).known.Pairwise
    fun s t => ∃ q, ¬ (q ∈ s ↔ q ∈ t)
  shown : ∀ s ∈ n.subsets trap, ∀ q ∈ s, q ∈ n.shownStates
  states_eq : ∀ k, (n.subsets trap).length ≤ k →
    (Dfa.ofSubsets n trap).states =
      State.numbered
        ((Queued.run (n.subsetsAfter trap) k [n.startSet]).taken.map n.subsetLabel)

theorem subsetsEnd (hn : n.WellFormed) (trap : Bool) : n.SubsetsEnd trap := by
  have hdrains : Queued.Drains (n.subsetsAfter trap) [n.startSet] (n.subsets trap) :=
    Queued.drains_breadthFirst (covers_subsetsAfter hn trap)
  have hreached : ∀ s ∈ n.subsets trap,
      Search.Reached (n.subsetsAfter trap) [n.startSet] s := fun _ => reached_of_mem_breadthFirst
  refine ⟨?_, hdrains, ?_, ?_, ?_⟩
  · exact covers_shownStates hn trap _ nodup_subsets hreached
  · intro k
    refine (hdrains.nodup k).imp fun hne => ?_
    by_contra hsame
    exact hne (SortedSet.ext fun q => not_not.mp (not_exists.mp hsame q))
  · exact fun s hs => mem_shownStates_of_reached hn (hreached s hs)
  · intro k hk
    rw [hdrains.taken_eq k hk]
    rfl

/-!
# All loops
-/

structure LoopsEnd (n : Nfa) : Prop where
  closure : ∀ s : SortedSet Nat, (∀ q ∈ s, q < n.states.size) → ∃ pops, n.ClosureEnds s pops
  edges : ∀ s : SortedSet Nat, (∀ q ∈ s, q < n.states.size) → n.EdgesEnd s
  subsets : ∀ trap, n.SubsetsEnd trap

theorem WellFormed.loopsEnd (hn : n.WellFormed) : n.LoopsEnd where
  closure := fun _ hs => exists_closureEnds hn hs
  edges := fun _ hs => edgesEnd hn hs
  subsets := subsetsEnd hn

/-- Each of the two states that pass on to each other is taken from the stack twice, and the
state behind them once. -/
theorem loopsEnd_circling :
    circling.WellFormed ∧ circling.LoopsEnd ∧
      circling.ClosureEnds (.ofList [0, 1]) 5 ∧ circling.shownStates.size = 1 := by
  have hends := wellFormed_circling.loopsEnd
  refine ⟨wellFormed_circling, hends, ?_, by decide +kernel⟩
  rcases hends.closure (.ofList [0, 1]) (by decide +kernel) with ⟨pops, hpops⟩
  have hended : pops ≤ 5 := (hpops.stack_eq_nil_iff 5).mp (by decide +kernel)
  have hgoing : ¬ pops ≤ 4 := mt (hpops.stack_eq_nil_iff 4).mpr (by decide +kernel)
  have hcount : pops = 5 := Nat.le_antisymm hended (Nat.lt_of_not_le hgoing)
  exact hcount ▸ hpops

end Nfa

end Recognizer
