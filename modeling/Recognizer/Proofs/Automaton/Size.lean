import Recognizer.Proofs.Automaton.Minimal
import Mathlib.Data.Fintype.Card
import Mathlib.Order.Bounds.Defs

/-!
# The number of states of the minimal automaton

Words that lead to different states of a reduced automaton differ in what may follow
them, so every automaton for the same language has to keep them apart.  The automata
that are compared with may have any states, and edges for any characters.
-/

namespace Recognizer

/-- A deterministic automaton over any type of states.  A state may lack edges. -/
structure PartialAutomaton (σ : Type) where
  start : σ
  next : σ → Char → Option σ
  Accepting : σ → Prop

namespace PartialAutomaton

variable {σ : Type} {a : PartialAutomaton σ} {q : σ} {u v w : List Char}

def runFrom (a : PartialAutomaton σ) (q : σ) (w : List Char) : Option σ := w.foldlM a.next q

def AcceptsFrom (a : PartialAutomaton σ) (q : σ) (w : List Char) : Prop :=
  ∃ r, a.Accepting r ∧ a.runFrom q w = some r

def Accepts (a : PartialAutomaton σ) (w : List Char) : Prop := a.AcceptsFrom a.start w

def CompleteOver (a : PartialAutomaton σ) (alphabet : SortedSet Char) : Prop :=
  ∀ q, ∀ c ∈ alphabet, ∃ r, a.next q c = some r

/-- The automaton accepts the words of the expression and no others.  Where there has to
be a trap, it is complete over the alphabet of the expression. -/
structure Decides (a : PartialAutomaton σ) (e : Expr) (trap : Bool) : Prop where
  words : ∀ w, a.Accepts w ↔ w ∈ e.language
  complete : trap = true → a.CompleteOver e.alphabet

theorem runFrom_cons {c : Char} :
    a.runFrom q (c :: w) = (a.next q c).bind (fun r => a.runFrom r w) :=
  List.foldlM_cons

theorem acceptsFrom_append :
    a.AcceptsFrom q (u ++ v) ↔ ∃ r, a.runFrom q u = some r ∧ a.AcceptsFrom r v := by
  have happend : a.runFrom q (u ++ v) = (a.runFrom q u).bind (fun r => a.runFrom r v) :=
    List.foldlM_append
  unfold AcceptsFrom
  rw [happend]
  cases a.runFrom q u with
  | none => simp
  | some r => simp

theorem CompleteOver.exists_runFrom {alphabet : SortedSet Char} (h : a.CompleteOver alphabet)
    (hw : ∀ c ∈ w, c ∈ alphabet) (q : σ) : ∃ r, a.runFrom q w = some r := by
  induction w generalizing q with
  | nil => exact ⟨q, rfl⟩
  | cons c w ih =>
      rcases h q c (hw c List.mem_cons_self) with ⟨r, hr⟩
      rw [runFrom_cons, hr]
      exact ih (fun b hb => hw b (List.mem_cons_of_mem c hb)) r

/-- An automaton that decides an expression runs over every word that may be run over. -/
theorem Decides.exists_runFrom {e : Expr} {trap : Bool} (h : a.Decides e trap)
    (hu : Dfa.Runnable e.language trap u) : ∃ r, a.runFrom a.start u = some r := by
  cases trap with
  | true =>
      apply (h.complete rfl).exists_runFrom
      intro c hc
      exact Expr.mem_alphabet_iff.mpr (hu c hc)
  | false =>
      rcases hu with ⟨v, hword⟩
      rcases acceptsFrom_append.mp ((h.words _).mpr hword) with ⟨r, hr, _⟩
      exact ⟨r, hr⟩

/-!
# Keeping states apart
-/

section Apart

variable {d : Dfa} {e : Expr} {trap : Bool}

theorem acceptsFrom_iff_of_run (hd : Dfa.Presents d e.language trap) (ha : a.Decides e trap)
    {p : Nat} (hp : d.run u = some p) (hq : a.runFrom a.start u = some q) :
    d.AcceptsFrom p w ↔ a.AcceptsFrom q w := by
  have ha_word : a.Accepts (u ++ w) ↔ a.AcceptsFrom q w := by
    unfold Accepts
    rw [acceptsFrom_append, hq]
    simp
  rw [← Dfa.acceptsFrom_of_run hp, ← ha_word, hd.words, ha.words]

theorem exists_injective (hd : Dfa.Presents d e.language trap) (hreduced : d.Reduced)
    (ha : a.Decides e trap) : ∃ f : Fin d.states.size → σ, Function.Injective f := by
  have hmeets : ∀ p : Fin d.states.size, ∃ u q,
      d.run u = some p.val ∧ a.runFrom a.start u = some q := by
    intro p
    rcases hd.breadthFirst.exists_run p.val p.isLt with ⟨u, hu⟩
    rcases ha.exists_runFrom ((hd.runs u).mp ⟨p.val, hu⟩) with ⟨q, hq⟩
    exact ⟨u, q, hu, hq⟩
  choose word state hword hstate using hmeets
  refine ⟨state, ?_⟩
  intro p q hpq
  apply Fin.ext
  apply hreduced p.val q.val p.isLt q.isLt
  intro w
  rw [acceptsFrom_iff_of_run hd ha (hword p) (hstate p),
    acceptsFrom_iff_of_run hd ha (hword q) (hstate q), hpq]

end Apart

end PartialAutomaton

/-!
# The minimal automaton as one of the automata compared
-/

namespace Dfa

variable {d : Dfa}

def toPartial (d : Dfa) (hd : d.WellFormed) : PartialAutomaton (Fin d.states.size) where
  start := ⟨d.start, hd.start_lt⟩
  next q c := (d.next q.val c).attach.map fun r => ⟨r.val, (hd.next_within r.property).2.2⟩
  Accepting q := q.val ∈ d.accepting

section ToPartial

variable (hd : d.WellFormed) {p q : Fin d.states.size} {c : Char} {w : List Char}

theorem next_toPartial :
    (d.toPartial hd).next p c = some q ↔ d.next p.val c = some q.val := by
  show (d.next p.val c).attach.map _ = some q ↔ _
  simp [Fin.ext_iff]

theorem runFrom_toPartial :
    (d.toPartial hd).runFrom p w = some q ↔ d.runFrom p.val w = some q.val := by
  induction w generalizing p with
  | nil => simp [PartialAutomaton.runFrom, runFrom, Fin.ext_iff]
  | cons c w ih =>
      rw [PartialAutomaton.runFrom_cons, runFrom_cons, Option.bind_eq_some_iff,
        Option.bind_eq_some_iff]
      constructor
      · intro h
        rcases h with ⟨r, hr, hrest⟩
        exact ⟨r.val, (next_toPartial hd).mp hr, ih.mp hrest⟩
      · intro h
        rcases h with ⟨r, hr, hrest⟩
        have hlt := (hd.next_within hr).2.2
        exact ⟨⟨r, hlt⟩, (next_toPartial hd).mpr hr, ih.mpr hrest⟩

theorem accepts_toPartial : (d.toPartial hd).Accepts w ↔ d.AcceptsFrom d.start w := by
  constructor
  · intro h
    rcases h with ⟨q, hq, hrun⟩
    exact ⟨q.val, hq, (runFrom_toPartial hd).mp hrun⟩
  · intro h
    rcases h with ⟨q, hq, hrun⟩
    have hlt := hd.accepting_lt q hq
    exact ⟨⟨q, hlt⟩, hq, (runFrom_toPartial hd).mpr hrun⟩

end ToPartial

theorem Presents.decides_toPartial {e : Expr} {trap : Bool}
    (hd : Presents d e.language trap) : (d.toPartial hd.wellFormed).Decides e trap where
  words := by
    intro w
    rw [accepts_toPartial, hd.words]
  complete := by
    rintro rfl q c hc
    rcases hd.exists_next q.isLt (hd.mem_alphabet_iff.mpr hc) with ⟨r, hr⟩
    have hlt := (hd.wellFormed.next_within hr).2.2
    exact ⟨⟨r, hlt⟩, (next_toPartial hd.wellFormed).mpr hr⟩

end Dfa

def Expr.deciderSizes (e : Expr) (trap : Bool) : Set Nat :=
  {size | ∃ (σ : Type) (_ : Fintype σ) (a : PartialAutomaton σ),
    a.Decides e trap ∧ Fintype.card σ = size}

/-- The quotient of either subset automaton has as few states as any deterministic automaton
for the expression, and with a trap as few as any complete one. -/
theorem Construction.isLeast_size_quotient (k : Construction) (trap : Bool) (e : Expr) :
    IsLeast (e.deciderSizes trap) (Dfa.ofSubsets (k.build e) trap).quotient.states.size := by
  have hpresents := Dfa.presents_ofSubsets (k.build_recognizes e) trap
  have hquotient := Dfa.presents_quotient hpresents
  constructor
  · exact ⟨_, inferInstance, _, hquotient.decides_toPartial, Fintype.card_fin _⟩
  · intro size h
    rcases h with ⟨σ, _, a, ha, rfl⟩
    rcases PartialAutomaton.exists_injective hquotient
      (Dfa.reduced_quotient hpresents.wellFormed) ha with ⟨f, hf⟩
    have hcard := Fintype.card_le_of_injective f hf
    rwa [Fintype.card_fin] at hcard

end Recognizer
