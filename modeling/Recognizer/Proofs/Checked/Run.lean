import Recognizer.Automaton.Lookup
import Recognizer.Machine
import Recognizer.Proofs.Automaton.Subset
import Recognizer.Proofs.Checked.Lookup

/-!
# Checked runs

A run looks up the edges of the states that it is in, and a trace those of the states that
its ε edges pass as well.  In a well-formed automaton these are states.
-/

namespace Recognizer

namespace Nfa

section Checked

variable (n : Nfa)

def epsilonReachChecked (s : SortedSet Nat) : Except OutOfRange (List Nat) :=
  breadthFirstChecked (fun q => (n.targetsAt q .epsilon).map SortedSet.toList) n.states.size
    s.toList

def closureChecked (s : SortedSet Nat) : Except OutOfRange (SortedSet Nat) := do
  let met ← n.epsilonReachChecked s
  let kept ← met.filterM fun q => (n.isIntermediateAt q).map (!·)
  return .ofList kept

def startSetChecked : Except OutOfRange (SortedSet Nat) := n.closureChecked (.singleton n.start)

def successorsChecked (s : SortedSet Nat) (c : Char) : Except OutOfRange (SortedSet Nat) :=
  s.toList.foldlM (fun met q => (n.targetsAt q (.char c)).map met.union) .empty

def stepChecked (s : SortedSet Nat) (c : Char) : Except OutOfRange (SortedSet Nat) := do
  n.closureChecked (← n.successorsChecked s c)

def runChecked (w : List Char) : Except OutOfRange (SortedSet Nat) := do
  w.foldlM n.stepChecked (← n.startSetChecked)

def simulateChecked (w : List Char) : Except OutOfRange (Bool × SortedSet Nat) :=
  (n.runChecked w).map fun s => (n.anyAccepting s, s)

def acceptsChecked (w : List Char) : Except OutOfRange Bool := (n.simulateChecked w).map Prod.fst

def edgesReadingChecked (states : List Nat) (symbol : Symbol) :
    Except OutOfRange (List Transition) :=
  states.flatMapM fun q => (n.targetsAt q symbol).map fun targets =>
    targets.toList.map fun target => ⟨q, symbol, target⟩

def epsilonEdgesChecked (s : SortedSet Nat) : Except OutOfRange (List Transition) := do
  n.edgesReadingChecked (← n.epsilonReachChecked s) .epsilon

def readingEdgesChecked (s : SortedSet Nat) (c : Char) : Except OutOfRange (List Transition) :=
  n.edgesReadingChecked s.toList (.char c)

def stepsFromChecked (s : SortedSet Nat) (index : Nat) : List Char → Except OutOfRange (List Step)
  | [] => return [.complete (if n.anyAccepting s then .recognized else .notRecognized) s]
  | c :: w =>
      if c ∈ n.alphabet then do
        let reading ← n.readingEdgesChecked s c
        let passing ← n.epsilonEdgesChecked (← n.successorsChecked s c)
        let t ← n.stepChecked s c
        let rest ← (if t.isEmpty then .ok [.complete .immatureAbort .empty]
          else stepsFromChecked t (index + 1) w)
        return .transition index c (reading ++ passing) :: .state (some index) t :: rest
      else return [.error index c]

def traceChecked (input : String) : Except OutOfRange Trace := do
  let start ← n.startSetChecked
  let passing ← n.epsilonEdgesChecked (.singleton n.start)
  let rest ← n.stepsFromChecked start 0 input.toList
  return ⟨input, .initial start passing :: .state none start :: rest, 0⟩

end Checked

section WellFormed

variable {n : Nfa} (hn : n.WellFormed) {s : SortedSet Nat}

include hn

theorem WellFormed.targetsAt_eq {q : Nat} (hq : q < n.states.size) (symbol : Symbol) :
    n.targetsAt q symbol = .ok (n.targets q symbol) :=
  map_entryAt (hn.edges_size ▸ hq) _

theorem WellFormed.isIntermediateAt_eq {q : Nat} (hq : q < n.states.size) :
    n.isIntermediateAt q = .ok (n.isIntermediate q) :=
  map_entryAt (hn.edges_size ▸ hq) _

theorem WellFormed.lt_of_mem_epsilonReach (hs : ∀ q ∈ s, q < n.states.size) :
    ∀ q ∈ n.epsilonReach s, q < n.states.size := by
  intro q hq
  rcases (mem_epsilonReach hn hs).mp hq with ⟨p, hp, hpath⟩
  exact hn.pathTo_lt (hs p hp) hpath

/-!
# The sets of a run
-/

theorem epsilonReachChecked_eq (hs : ∀ q ∈ s, q < n.states.size) :
    n.epsilonReachChecked s = .ok (n.epsilonReach s) := by
  apply breadthFirstChecked_eq
  intro q hq
  rcases reached_iff_pathTo.mp hq with ⟨p, hp, hpath⟩
  rw [hn.targetsAt_eq (hn.pathTo_lt (hs p hp) hpath)]
  rfl

theorem closureChecked_eq (hs : ∀ q ∈ s, q < n.states.size) :
    n.closureChecked s = .ok (n.closure s) := by
  have hkept : (n.epsilonReach s).filterM (fun q => (n.isIntermediateAt q).map (!·)) =
      .ok ((n.epsilonReach s).filter (fun q => !n.isIntermediate q)) := by
    apply filterM_eq_ok
    intro q hq
    rw [hn.isIntermediateAt_eq (hn.lt_of_mem_epsilonReach hs q hq)]
    rfl
  rw [closureChecked, epsilonReachChecked_eq hn hs, ok_bind, hkept]
  rfl

theorem startSetChecked_eq : n.startSetChecked = .ok n.startSet :=
  closureChecked_eq hn (lt_of_mem_start hn)

theorem successorsChecked_eq (hs : ∀ q ∈ s, q < n.states.size) (c : Char) :
    n.successorsChecked s c = .ok (n.successors s c) := by
  refine (foldlM_eq_ok (I := fun _ => True) ?_ trivial).1
  intro met q _ hq
  rw [hn.targetsAt_eq (hs q hq)]
  exact ⟨rfl, trivial⟩

theorem stepChecked_eq (hs : ∀ q ∈ s, q < n.states.size) (c : Char) :
    n.stepChecked s c = .ok (n.step s c) := by
  rw [stepChecked, successorsChecked_eq hn hs]
  exact closureChecked_eq hn (lt_of_mem_successors hn)

theorem runChecked_eq (w : List Char) : n.runChecked w = .ok (n.run w) := by
  rw [runChecked, startSetChecked_eq hn]
  refine (foldlM_eq_ok (I := fun s => ∀ q ∈ s, q < n.states.size) ?_ (lt_of_mem_startSet hn)).1
  intro s c hs _
  exact ⟨stepChecked_eq hn hs c, lt_of_mem_step hn⟩

theorem acceptsChecked_eq (w : List Char) : n.acceptsChecked w = .ok (n.accepts w) := by
  rw [acceptsChecked, simulateChecked, runChecked_eq hn]
  rfl

/-!
# The steps of a trace
-/

theorem edgesReadingChecked_eq {states : List Nat} (hstates : ∀ q ∈ states, q < n.states.size)
    (symbol : Symbol) :
    n.edgesReadingChecked states symbol = .ok (states.flatMap fun q =>
      (n.targets q symbol).toList.map fun target => ⟨q, symbol, target⟩) := by
  apply flatMapM_eq_ok
  intro q hq
  rw [hn.targetsAt_eq (hstates q hq)]
  rfl

theorem epsilonEdgesChecked_eq (hs : ∀ q ∈ s, q < n.states.size) :
    n.epsilonEdgesChecked s = .ok (n.epsilonEdges s) := by
  rw [epsilonEdgesChecked, epsilonReachChecked_eq hn hs]
  exact edgesReadingChecked_eq hn (hn.lt_of_mem_epsilonReach hs) .epsilon

theorem readingEdgesChecked_eq (hs : ∀ q ∈ s, q < n.states.size) (c : Char) :
    n.readingEdgesChecked s c = .ok (n.readingEdges s c) :=
  edgesReadingChecked_eq hn hs (.char c)

theorem stepsFromChecked_eq (hs : ∀ q ∈ s, q < n.states.size) (index : Nat) (w : List Char) :
    n.stepsFromChecked s index w = .ok (n.stepsFrom s index w) := by
  induction w generalizing s index with
  | nil => rfl
  | cons c w ih =>
      unfold stepsFromChecked stepsFrom
      split
      · rw [readingEdgesChecked_eq hn hs, ok_bind, successorsChecked_eq hn hs, ok_bind,
          epsilonEdgesChecked_eq hn (lt_of_mem_successors hn), ok_bind, stepChecked_eq hn hs,
          ok_bind, ih (lt_of_mem_step hn)]
        dsimp only
        split
        · rfl
        · rfl
      · rfl

theorem traceChecked_eq (input : String) : n.traceChecked input = .ok (n.trace input) := by
  rw [traceChecked, startSetChecked_eq hn, ok_bind, epsilonEdgesChecked_eq hn (lt_of_mem_start hn),
    ok_bind, stepsFromChecked_eq hn (lt_of_mem_startSet hn)]
  rfl

end WellFormed

end Nfa

namespace Dfa

section Checked

variable (d : Dfa)

def runFromChecked (q : Nat) : List Char → Except OutOfRange (Option Nat)
  | [] => return some q
  | c :: w => do
      match ← d.nextAt q c with
      | none => return none
      | some r => runFromChecked r w

def simulateChecked (w : List Char) : Except OutOfRange (Bool × Option Nat) := do
  match ← d.runFromChecked d.start w with
  | some q => return (decide (q ∈ d.accepting), some q)
  | none => return (false, none)

def acceptsChecked (w : List Char) : Except OutOfRange Bool := (d.simulateChecked w).map Prod.fst

def stepsFromChecked (q : Nat) (index : Nat) : List Char → Except OutOfRange (List Step)
  | [] =>
      return [.complete (if q ∈ d.accepting then .recognized else .notRecognized) (.singleton q)]
  | c :: w =>
      if c ∈ d.alphabet then do
        match ← d.nextAt q c with
        | none => return [.transition index c [], .complete .immatureAbort .empty]
        | some target =>
            let rest ← stepsFromChecked target (index + 1) w
            return .transition index c [⟨q, .char c, target⟩] ::
              .state (some index) (.singleton target) :: rest
      else return [.error index c]

def traceChecked (input : String) : Except OutOfRange Trace := do
  let rest ← d.stepsFromChecked d.start 0 input.toList
  return ⟨input, .initial (.singleton d.start) [] :: .state none (.singleton d.start) :: rest, 0⟩

end Checked

section WellFormed

variable {d : Dfa} (hd : d.WellFormed) {q : Nat}

include hd

theorem WellFormed.nextAt_eq (hq : q < d.states.size) (c : Char) :
    d.nextAt q c = .ok (d.next q c) := by
  have hq := hd.edges_size ▸ hq
  rw [nextAt, map_entryAt hq, next, Array.getElem?_eq_getElem hq]
  rfl

theorem runFromChecked_eq (hq : q < d.states.size) (w : List Char) :
    d.runFromChecked q w = .ok (d.runFrom q w) := by
  induction w generalizing q with
  | nil => rfl
  | cons c w ih =>
      rw [runFromChecked, hd.nextAt_eq hq, runFrom_cons]
      cases hnext : d.next q c with
      | none => rfl
      | some r => exact ih (hd.next_within hnext).2.2

theorem acceptsChecked_eq (w : List Char) : d.acceptsChecked w = .ok (d.accepts w) := by
  rw [acceptsChecked, simulateChecked, runFromChecked_eq hd hd.start_lt, accepts, simulate, run]
  show Except.map _ (match d.runFrom d.start w with | some q => _ | none => _) = _
  cases d.runFrom d.start w with
  | none => rfl
  | some q => rfl

theorem stepsFromChecked_eq (hq : q < d.states.size) (index : Nat) (w : List Char) :
    d.stepsFromChecked q index w = .ok (d.stepsFrom q index w) := by
  induction w generalizing q index with
  | nil => rfl
  | cons c w ih =>
      unfold stepsFromChecked stepsFrom
      split
      · rw [hd.nextAt_eq hq]
        cases hnext : d.next q c with
        | none => rfl
        | some target =>
            rw [ok_bind]
            dsimp only
            rw [ih (hd.next_within hnext).2.2]
            rfl
      · rfl

theorem traceChecked_eq (input : String) : d.traceChecked input = .ok (d.trace input) := by
  rw [traceChecked, stepsFromChecked_eq hd hd.start_lt]
  rfl

end WellFormed

end Dfa

end Recognizer
