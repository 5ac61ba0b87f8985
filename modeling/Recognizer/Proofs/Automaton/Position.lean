import Recognizer.Automaton.Position
import Recognizer.Proofs.Automaton.Path
import Recognizer.Proofs.Expr.Local

/-!
# The states of a position automaton

A run of the position automaton spells a word of letters of the numbered expression:
being in the state of a letter, it accepts what continues that letter.
-/

namespace Recognizer

namespace Letter

variable {letters : List Letter} {a b : Letter}

theorem positionState_ne_zero : a.positionState letters ≠ 0 := Nat.succ_ne_zero _

theorem positionState_inj (ha : a ∈ letters)
    (h : a.positionState letters = b.positionState letters) : a = b :=
  (List.idxOf_inj ha).mp (Nat.succ.inj h)

theorem positionState_lt (ha : a ∈ letters) : a.positionState letters < letters.length + 1 :=
  Nat.succ_lt_succ (List.idxOf_lt_length_of_mem ha)

end Letter

namespace Nfa

variable {e : Expr} {a : Letter} {i j : Nat} {s : Symbol}

/-!
# Edges

An edge leads from the start state to each first letter, and from each letter to
those that may follow it.
-/

theorem size_ofPositions : (ofPositions e).states.size = e.linearized.letters.length + 1 := by
  simp [ofPositions]

theorem hasEdge_ofPositions_zero :
    (ofPositions e).HasEdge 0 s j ↔
      ∃ b ∈ e.linearized.firsts,
        s = .char b.symbol ∧ j = b.positionState e.linearized.letters := by
  have hedges : (ofPositions e).HasEdge 0 s j ↔
      ⟨s, j⟩ ∈ e.linearized.firsts.image (Letter.positionEdge e.linearized.letters) := by
    rw [hasEdge_iff]
    simp [ofPositions]
  rw [hedges, SortedSet.mem_image]
  constructor
  · intro h
    rcases h with ⟨b, hb, hedge⟩
    injection hedge with hs hj
    exact ⟨b, hb, hs.symm, hj.symm⟩
  · intro h
    rcases h with ⟨b, hb, rfl, rfl⟩
    exact ⟨b, hb, rfl⟩

theorem hasEdge_ofPositions_succ :
    (ofPositions e).HasEdge (i + 1) s j ↔
      ∃ a b, e.linearized.letters[i]? = some a ∧ ⟨a, b⟩ ∈ e.linearized.follows ∧
        s = .char b.symbol ∧ j = b.positionState e.linearized.letters := by
  have hedges : (ofPositions e).HasEdge (i + 1) s j ↔
      ∃ a, e.linearized.letters[i]? = some a ∧
        ⟨s, j⟩ ∈ Letter.edgesAfter e.linearized.letters e.linearized.follows a := by
    rw [hasEdge_iff]
    simp [ofPositions]
  rw [hedges]
  apply exists_congr
  intro a
  rw [Letter.edgesAfter, SortedSet.mem_image]
  constructor
  · intro h
    rcases h with ⟨ha, ⟨x, b⟩, hpair, hedge⟩
    have hpair := SortedSet.mem_filter.mp hpair
    have hxa : x = a := of_decide_eq_true hpair.2
    injection hedge with hs hj
    exact ⟨b, ha, hxa ▸ hpair.1, hs.symm, hj.symm⟩
  · intro h
    rcases h with ⟨b, ha, hab, rfl, rfl⟩
    exact ⟨ha, ⟨a, b⟩, SortedSet.mem_filter.mpr ⟨hab, decide_eq_true rfl⟩, rfl⟩

theorem hasEdge_ofPositions (ha : a ∈ e.linearized.letters) :
    (ofPositions e).HasEdge (a.positionState e.linearized.letters) s j ↔
      ∃ b, ⟨a, b⟩ ∈ e.linearized.follows ∧
        s = .char b.symbol ∧ j = b.positionState e.linearized.letters := by
  unfold Letter.positionState
  rw [hasEdge_ofPositions_succ, List.getElem?_idxOf ha]
  simp [Letter.positionState]

theorem hasEdge_ofPositions_target (h : (ofPositions e).HasEdge i s j) :
    ∃ b ∈ e.linearized.letters,
      s = .char b.symbol ∧ j = b.positionState e.linearized.letters := by
  cases i with
  | zero =>
      rcases hasEdge_ofPositions_zero.mp h with ⟨b, hb, hedge⟩
      exact ⟨b, Expr.mem_letters_of_mem_firsts hb, hedge⟩
  | succ i =>
      rcases hasEdge_ofPositions_succ.mp h with ⟨a, b, _, hab, hedge⟩
      exact ⟨b, (Expr.mem_letters_of_mem_follows hab).2, hedge⟩

theorem no_epsilon_ofPositions (i j : Nat) : ¬ (ofPositions e).HasEdge i .epsilon j := by
  intro h
  rcases hasEdge_ofPositions_target h with ⟨b, _, hs, _⟩
  cases hs

/-!
# Accepting states
-/

theorem mem_accepting_ofPositions :
    i ∈ (ofPositions e).accepting ↔
      (e.linearized.nullable = true ∧ i = 0) ∨
        ∃ a ∈ e.linearized.lasts, a.positionState e.linearized.letters = i := by
  have hlasts : ∀ k, k ∈ e.linearized.lasts.image (Letter.positionState e.linearized.letters) ↔
      ∃ a ∈ e.linearized.lasts, a.positionState e.linearized.letters = k := by
    intro k
    exact SortedSet.mem_image
  simp only [ofPositions]
  split
  · rename_i hnullable
    rw [SortedSet.mem_insert, hlasts, hnullable]
    simp
  · rename_i hnullable
    rw [hlasts]
    simp [hnullable]

theorem zero_mem_accepting_ofPositions :
    0 ∈ (ofPositions e).accepting ↔ e.linearized.nullable = true := by
  rw [mem_accepting_ofPositions]
  constructor
  · intro h
    rcases h with ⟨h, _⟩ | ⟨a, _, ha⟩
    · exact h
    · exact absurd ha Letter.positionState_ne_zero
  · intro h
    exact Or.inl ⟨h, rfl⟩

theorem positionState_mem_accepting :
    a.positionState e.linearized.letters ∈ (ofPositions e).accepting ↔ a ∈ e.linearized.lasts := by
  rw [mem_accepting_ofPositions]
  constructor
  · intro h
    rcases h with ⟨_, ha⟩ | ⟨b, hb, hab⟩
    · exact absurd ha Letter.positionState_ne_zero
    · exact Letter.positionState_inj (Expr.mem_letters_of_mem_lasts hb) hab ▸ hb
  · intro h
    exact Or.inr ⟨a, h, rfl⟩

/-!
# Runs
-/

theorem acceptsFrom_positionState (ha : a ∈ e.linearized.letters) {w : List Char} :
    (ofPositions e).AcceptsFrom (a.positionState e.linearized.letters) w ↔
      ∃ v, e.linearized.Continues a v ∧ v.map Letter.symbol = w := by
  induction w generalizing a with
  | nil =>
      rw [acceptsFrom_nil no_epsilon_ofPositions, positionState_mem_accepting]
      constructor
      · intro h
        exact ⟨[], h, rfl⟩
      · intro h
        rcases h with ⟨v, hv, hword⟩
        rw [List.map_eq_nil_iff.mp hword] at hv
        exact hv
  | cons c w ih =>
      rw [acceptsFrom_cons no_epsilon_ofPositions]
      constructor
      · intro h
        rcases h with ⟨j, hedge, hrest⟩
        rcases (hasEdge_ofPositions ha).mp hedge with ⟨b, hab, hs, rfl⟩
        injection hs with hc
        rcases (ih (Expr.mem_letters_of_mem_follows hab).2).mp hrest with ⟨v, hv, hword⟩
        exact ⟨b :: v, ⟨hab, hv⟩, by rw [List.map_cons, hword, hc]⟩
      · intro h
        rcases h with ⟨v, hv, hword⟩
        rcases List.map_eq_cons_iff.mp hword with ⟨b, x, rfl, rfl, hx⟩
        have hb := (Expr.mem_letters_of_mem_follows hv.1).2
        exact ⟨_, (hasEdge_ofPositions ha).mpr ⟨b, hv.1, rfl, rfl⟩, (ih hb).mpr ⟨x, hv.2, hx⟩⟩

theorem acceptsFrom_start_ofPositions {w : List Char} :
    (ofPositions e).AcceptsFrom (ofPositions e).start w ↔ w ∈ e.language := by
  have hnodup := Expr.nodup_letters_linearized e
  rw [← Expr.language_numberedFrom e 1]
  show (ofPositions e).AcceptsFrom 0 w ↔ w ∈ e.linearized.language
  rw [Expr.mem_language_iff_words]
  cases w with
  | nil =>
      rw [acceptsFrom_nil no_epsilon_ofPositions, zero_mem_accepting_ofPositions]
      constructor
      · intro h
        exact ⟨[], Expr.nil_mem_denote.mpr h, rfl⟩
      · intro h
        rcases h with ⟨v, hv, hword⟩
        rw [List.map_eq_nil_iff.mp hword] at hv
        exact Expr.nil_mem_denote.mp hv
  | cons c w =>
      rw [acceptsFrom_cons no_epsilon_ofPositions]
      constructor
      · intro h
        rcases h with ⟨j, hedge, hrest⟩
        rcases hasEdge_ofPositions_zero.mp hedge with ⟨a, ha, hs, rfl⟩
        injection hs with hc
        have hletter := Expr.mem_letters_of_mem_firsts ha
        rcases (acceptsFrom_positionState hletter).mp hrest with ⟨v, hv, hword⟩
        exact ⟨a :: v, (Expr.cons_mem_words_iff hnodup).mpr ⟨ha, hv⟩,
          by rw [List.map_cons, hword, hc]⟩
      · intro h
        rcases h with ⟨v, hv, hword⟩
        rcases List.map_eq_cons_iff.mp hword with ⟨a, x, rfl, rfl, hx⟩
        have hav := (Expr.cons_mem_words_iff hnodup).mp hv
        have hletter := Expr.mem_letters_of_mem_firsts hav.1
        exact ⟨_, hasEdge_ofPositions_zero.mpr ⟨a, hav.1, rfl, rfl⟩,
          (acceptsFrom_positionState hletter).mpr ⟨x, hav.2, hx⟩⟩

/-!
# Ways to a state
-/

theorem pathTo_of_continues {b : Letter} {x y : List Letter} (ha : a ∈ e.linearized.letters)
    (h : e.linearized.Continues a (x ++ b :: y)) :
    PathTo (ofPositions e).HasEdge (b.positionState e.linearized.letters)
      (a.positionState e.linearized.letters) ((x ++ [b]).map Letter.symbol) := by
  induction x generalizing a with
  | nil => exact pathTo_of_char ((hasEdge_ofPositions ha).mpr ⟨b, h.1, rfl, rfl⟩)
  | cons c x ih =>
      have hedge := (hasEdge_ofPositions ha).mpr ⟨c, h.1, rfl, rfl⟩
      exact PathTo.char hedge (ih (Expr.mem_letters_of_mem_follows h.1).2 h.2)

theorem exists_path_ofPositions (hi : i < (ofPositions e).states.size) :
    ∃ u, PathTo (ofPositions e).HasEdge i (ofPositions e).start u := by
  rw [size_ofPositions] at hi
  cases i with
  | zero => exact ⟨[], PathTo.here⟩
  | succ i =>
      have hnodup := Expr.nodup_letters_linearized e
      have hi := Nat.lt_of_succ_lt_succ hi
      have hstate : (e.linearized.letters[i]).positionState e.linearized.letters = i + 1 := by
        rw [Letter.positionState, hnodup.idxOf_getElem i hi]
      rcases Expr.mem_letters_iff.mp (List.getElem_mem hi) with ⟨w, hw, hmem⟩
      rcases List.append_of_mem hmem with ⟨x, y, rfl⟩
      cases x with
      | nil =>
          have hfirst := ((Expr.cons_mem_words_iff hnodup).mp hw).1
          exact ⟨_, pathTo_of_char (hasEdge_ofPositions_zero.mpr ⟨_, hfirst, rfl, hstate.symm⟩)⟩
      | cons b x =>
          rcases (Expr.cons_mem_words_iff hnodup).mp hw with ⟨hfirst, hcontinues⟩
          have hpath := pathTo_of_continues (Expr.mem_letters_of_mem_firsts hfirst) hcontinues
          rw [hstate] at hpath
          exact ⟨_, PathTo.char (hasEdge_ofPositions_zero.mpr ⟨b, hfirst, rfl, rfl⟩) hpath⟩

/-!
# Recognition
-/

theorem wellFormed_ofPositions : (ofPositions e).WellFormed where
  inPlace := State.inPlace_numbered _
  edges_size := by simp [ofPositions]
  start_lt := by
    rw [size_ofPositions]
    exact Nat.zero_lt_succ _
  accepting_lt := by
    intro i hi
    rw [size_ofPositions]
    rcases mem_accepting_ofPositions.mp hi with ⟨_, rfl⟩ | ⟨a, ha, rfl⟩
    · exact Nat.zero_lt_succ _
    · exact Letter.positionState_lt (Expr.mem_letters_of_mem_lasts ha)
  target_lt := by
    intro i s j h
    rw [size_ofPositions]
    rcases hasEdge_ofPositions_target h with ⟨b, hb, _, rfl⟩
    exact Letter.positionState_lt hb
  symbol_mem := by
    intro i c j h
    rcases hasEdge_ofPositions_target h with ⟨b, hb, hs, _⟩
    injection hs with hc
    show c ∈ e.alphabet
    rw [← Expr.alphabet_congr (Expr.language_numberedFrom e 1), Expr.alphabet,
      SortedSet.mem_ofList, hc]
    exact List.mem_map_of_mem hb

theorem ofPositions_recognizes (e : Expr) : (ofPositions e).Recognizes e.language where
  wellFormed := wellFormed_ofPositions
  mem_alphabet := fun _ => Expr.mem_alphabet_iff
  words := fun _ => acceptsFrom_start_ofPositions
  live := by
    intro i hi
    rw [size_ofPositions] at hi
    cases i with
    | zero =>
        rcases Expr.exists_mem_denote Letter.symbol e with ⟨w, hw⟩
        exact ⟨w, acceptsFrom_start_ofPositions.mpr hw⟩
    | succ i =>
        have hi := Nat.lt_of_succ_lt_succ hi
        have ha := List.getElem_mem hi
        rcases Expr.exists_continues (Expr.nodup_letters_linearized e) ha with ⟨v, hv⟩
        have hstate := (acceptsFrom_positionState ha).mpr ⟨v, hv, rfl⟩
        rw [Letter.positionState, (Expr.nodup_letters_linearized e).idxOf_getElem i hi] at hstate
        exact ⟨_, hstate⟩

/-- The position automaton accepts the words of the expression. -/
theorem ofPositions_accepts_iff (e : Expr) (w : List Char) :
    (ofPositions e).accepts w = true ↔ w ∈ e.language :=
  (ofPositions_recognizes e).accepts_iff

end Nfa

end Recognizer
