import Recognizer.Automaton.Fragment
import Recognizer.Proofs.Automaton.Path
import Recognizer.Proofs.Expr.Language

/-!
# Gluing fragments

What the construction of fragments does to paths, said of graphs: a fragment is a
region with two ends, which no edge enters at its start or leaves at its accepting
end, and whose paths from end to end read the words of a language.  Each way of
joining fragments by new edges gives a fragment again.
-/

namespace Recognizer

open Computability

/-- A region of a graph with two ends.  Its paths from end to end read a language, and
every node of it lies on such a path. -/
structure IsFragment (E : Nat → Symbol → Nat → Prop) (A : Nat → Prop) (f : Fragment)
    (L : Language Char) : Prop where
  start_mem : A f.start
  accept_mem : A f.accept
  start_ne_accept : f.start ≠ f.accept
  closed : ∀ p s q, E p s q → (A p ↔ A q)
  no_entry : ∀ p s, ¬ E p s f.start
  no_exit : ∀ s q, ¬ E f.accept s q
  words : ∀ w, PathTo E f.accept f.start w ↔ w ∈ L
  from_start : ∀ p, A p → ∃ u, PathTo E p f.start u
  to_accept : ∀ p, A p → ∃ v, PathTo E f.accept p v

def Isolated (E : Nat → Symbol → Nat → Prop) (p : Nat) : Prop :=
  (∀ s q, ¬ E p s q) ∧ ∀ q s, ¬ E q s p

section Gluing

variable {E G : Nat → Symbol → Nat → Prop} {A B : Nat → Prop} {e f g : Fragment}
  {L M : Language Char}

theorem IsFragment.transport (hf : IsFragment E A f L)
    (hedges : ∀ p s q, A p → (G p s q ↔ E p s q)) (hclosed : ∀ p s q, G p s q → (A p ↔ A q)) :
    IsFragment G A f L := by
  have hpath : ∀ p t w, A p → (PathTo G t p w ↔ PathTo E t p w) := by
    intro p t w hp
    constructor
    · apply pathTo_restrict (A := A)
      · intro p s q hp h
        exact ⟨(hedges p s q hp).mp h, (hclosed p s q h).mp hp⟩
      · exact hp
    · apply pathTo_restrict (A := A)
      · intro p s q hp h
        exact ⟨(hedges p s q hp).mpr h, (hf.closed p s q h).mp hp⟩
      · exact hp
  refine ⟨hf.start_mem, hf.accept_mem, hf.start_ne_accept, hclosed, ?_, ?_, ?_, ?_, ?_⟩
  · intro p s h
    have hp := (hclosed p s _ h).mpr hf.start_mem
    exact hf.no_entry p s ((hedges p s _ hp).mp h)
  · intro s q h
    exact hf.no_exit s q ((hedges _ s q hf.accept_mem).mp h)
  · intro w
    rw [hpath _ _ _ hf.start_mem, hf.words]
  · intro p hp
    rcases hf.from_start p hp with ⟨u, hu⟩
    exact ⟨u, (hpath _ _ _ hf.start_mem).mpr hu⟩
  · intro p hp
    rcases hf.to_accept p hp with ⟨v, hv⟩
    exact ⟨v, (hpath _ _ _ hp).mpr hv⟩

theorem IsFragment.congr (hf : IsFragment E A f L) (hregion : ∀ p, B p ↔ A p) :
    IsFragment E B f L := by
  have h : B = A := funext fun p => propext (hregion p)
  exact h ▸ hf

/-!
# New ends

Two nodes without edges become the ends of a region: edges lead from the one into the
region, and from the region to the other.
-/

theorem mem_iff_of_pathTo (hclosed : ∀ p s q, E p s q → (A p ↔ A q)) {p t : Nat} {w : List Char}
    (h : PathTo E t p w) : A p ↔ A t := by
  induction h with
  | here => exact Iff.rfl
  | epsilon hedge _ ih => exact (hclosed _ _ _ hedge).trans ih
  | char hedge _ ih => exact (hclosed _ _ _ hedge).trans ih

/-- Adding two nodes without edges to a region. -/
theorem closed_with_ends (hclosed : ∀ p s q, E p s q → (A p ↔ A q))
    (hstart : Isolated E e.start) (haccept : Isolated E e.accept) {p q : Nat} {s : Symbol}
    (h : E p s q) :
    (A p ∨ p = e.start ∨ p = e.accept) ↔ (A q ∨ q = e.start ∨ q = e.accept) := by
  have hp : ¬ (p = e.start ∨ p = e.accept) := by
    intro hp
    rcases hp with rfl | rfl
    · exact hstart.1 s q h
    · exact haccept.1 s q h
  have hq : ¬ (q = e.start ∨ q = e.accept) := by
    intro hq
    rcases hq with rfl | rfl
    · exact hstart.2 p s h
    · exact haccept.2 p s h
  rw [or_iff_left hp, or_iff_left hq]
  exact hclosed p s q h

section Ends

variable {I O : Nat → Prop}

theorem pathTo_leave {t : Nat}
    (hedges : ∀ p s q, A p → G p s q → (E p s q ∧ A q) ∨ (O p ∧ s = .epsilon ∧ q = t))
    (hno_exit : ∀ s q, ¬ G t s q) (ht : ¬ A t) {p : Nat} {w : List Char} (hp : A p)
    (h : PathTo G t p w) : ∃ r, O r ∧ PathTo E r p w := by
  induction h with
  | here => exact absurd hp ht
  | epsilon hedge hrest ih =>
      cases hedges _ _ _ hp hedge with
      | inl hinside =>
          rcases ih hinside.2 with ⟨r, hr, hpath⟩
          exact ⟨r, hr, PathTo.epsilon hinside.1 hpath⟩
      | inr houtside =>
          have hstop := pathTo_of_no_edge hno_exit (houtside.2.2 ▸ hrest)
          rw [hstop.2]
          exact ⟨_, houtside.1, PathTo.here⟩
  | char hedge _ ih =>
      cases hedges _ _ _ hp hedge with
      | inl hinside =>
          rcases ih hinside.2 with ⟨r, hr, hpath⟩
          exact ⟨r, hr, PathTo.char hinside.1 hpath⟩
      | inr houtside => cases houtside.2.1

theorem isFragment_ends {K : Language Char} (hclosed : ∀ p s q, E p s q → (A p ↔ A q))
    (hne : e.start ≠ e.accept) (hstart : Isolated E e.start) (haccept : Isolated E e.accept)
    (hstart_out : ¬ A e.start) (haccept_out : ¬ A e.accept)
    (hI : ∀ q, I q → A q) (hO : ∀ p, O p → A p) (hsome : ∃ q, I q)
    (hG : ∀ p s q, G p s q ↔ E p s q ∨ (p = e.start ∧ s = .epsilon ∧ I q) ∨
      (O p ∧ s = .epsilon ∧ q = e.accept))
    (hwords : ∀ w, (∃ q r, I q ∧ O r ∧ PathTo E r q w) ↔ w ∈ K)
    (hfrom : ∀ p, A p → ∃ q u, I q ∧ PathTo E p q u)
    (hto : ∀ p, A p → ∃ r v, O r ∧ PathTo E r p v) :
    IsFragment G (fun p => A p ∨ p = e.start ∨ p = e.accept) e K := by
  have hmono : ∀ p s q, E p s q → G p s q := fun p s q h => (hG p s q).mpr (Or.inl h)
  have henter : ∀ q, I q → G e.start .epsilon q :=
    fun q hq => (hG _ _ _).mpr (Or.inr (Or.inl ⟨rfl, rfl, hq⟩))
  have hleave : ∀ p, O p → G p .epsilon e.accept :=
    fun p hp => (hG _ _ _).mpr (Or.inr (Or.inr ⟨hp, rfl, rfl⟩))
  have hno_exit : ∀ s q, ¬ G e.accept s q := by
    intro s q h
    rcases (hG _ _ _).mp h with h | ⟨h, _⟩ | ⟨h, _⟩
    · exact haccept.1 s q h
    · exact hne h.symm
    · exact haccept_out (hO _ h)
  have honly : ∀ s q, G e.start s q → s = .epsilon ∧ I q := by
    intro s q h
    rcases (hG _ _ _).mp h with h | ⟨_, hs, hq⟩ | ⟨h, _⟩
    · exact absurd h (hstart.1 s q)
    · exact ⟨hs, hq⟩
    · exact absurd (hO _ h) hstart_out
  have hedges : ∀ p s q, A p → G p s q →
      (E p s q ∧ A q) ∨ (O p ∧ s = .epsilon ∧ q = e.accept) := by
    intro p s q hp h
    rcases (hG _ _ _).mp h with h | ⟨rfl, _⟩ | h
    · exact Or.inl ⟨h, (hclosed p s q h).mp hp⟩
    · exact absurd hp hstart_out
    · exact Or.inr h
  have hfrom_start : ∀ p, A p → ∃ u, PathTo G p e.start u := by
    intro p hp
    rcases hfrom p hp with ⟨q, u, hq, hpath⟩
    exact ⟨u, PathTo.epsilon (henter q hq) (pathTo_mono hmono hpath)⟩
  have hto_accept : ∀ p, A p → ∃ v, PathTo G e.accept p v := by
    intro p hp
    rcases hto p hp with ⟨r, v, hr, hpath⟩
    exact ⟨v, pathTo_append_epsilon (pathTo_mono hmono hpath) (hleave r hr)⟩
  have hthrough : ∃ w, PathTo G e.accept e.start w := by
    rcases hsome with ⟨q, hq⟩
    rcases hto_accept q (hI q hq) with ⟨v, hv⟩
    exact ⟨v, PathTo.epsilon (henter q hq) hv⟩
  refine ⟨Or.inr (Or.inl rfl), Or.inr (Or.inr rfl), hne, ?_, ?_, hno_exit, ?_, ?_, ?_⟩
  · intro p s q h
    rcases (hG _ _ _).mp h with h | ⟨rfl, _, hq⟩ | ⟨hp, _, rfl⟩
    · exact closed_with_ends hclosed hstart haccept h
    · exact ⟨fun _ => Or.inl (hI q hq), fun _ => Or.inr (Or.inl rfl)⟩
    · exact ⟨fun _ => Or.inr (Or.inr rfl), fun _ => Or.inl (hO p hp)⟩
  · intro p s h
    rcases (hG _ _ _).mp h with h | ⟨_, _, h⟩ | ⟨_, _, h⟩
    · exact hstart.2 p s h
    · exact hstart_out (hI _ h)
    · exact hne h
  · intro w
    rw [← hwords]
    constructor
    · intro h
      rcases pathTo_iff.mp h with ⟨h, _⟩ | ⟨q, hedge, hrest⟩ | ⟨c, v, q, _, hedge, _⟩
      · exact absurd h hne
      · have hq := (honly _ q hedge).2
        rcases pathTo_leave hedges hno_exit haccept_out (hI q hq) hrest with ⟨r, hr, hpath⟩
        exact ⟨q, r, hq, hr, hpath⟩
      · cases (honly _ q hedge).1
    · intro h
      rcases h with ⟨q, r, hq, hr, hpath⟩
      exact PathTo.epsilon (henter q hq)
        (pathTo_append_epsilon (pathTo_mono hmono hpath) (hleave r hr))
  · intro p hp
    rcases hp with hp | rfl | rfl
    · exact hfrom_start p hp
    · exact ⟨[], PathTo.here⟩
    · exact hthrough
  · intro p hp
    rcases hp with hp | rfl | rfl
    · exact hto_accept p hp
    · exact hthrough
    · exact ⟨[], PathTo.here⟩

end Ends

/-!
# A single edge
-/

def Symbol.language : Symbol → Language Char
  | .epsilon => 1
  | .char c => {[c]}

theorem isFragment_atom {symbol : Symbol} (hne : e.start ≠ e.accept)
    (hstart : Isolated E e.start) (haccept : Isolated E e.accept)
    (hG : ∀ p s q, G p s q ↔ E p s q ∨ (p = e.start ∧ s = symbol ∧ q = e.accept)) :
    IsFragment G (fun p => False ∨ p = e.start ∨ p = e.accept) e symbol.language := by
  have hno_exit : ∀ s q, ¬ G e.accept s q := by
    intro s q h
    rcases (hG _ _ _).mp h with h | ⟨h, _⟩
    · exact haccept.1 s q h
    · exact hne h.symm
  have hedge : G e.start symbol e.accept := (hG _ _ _).mpr (Or.inr ⟨rfl, rfl, rfl⟩)
  have hpath : ∀ w, PathTo G e.accept e.start w ↔ w ∈ symbol.language := by
    intro w
    have honly : ∀ s q v, G e.start s q → PathTo G e.accept q v → s = symbol ∧ v = [] := by
      intro s q v hsq hv
      rcases (hG _ _ _).mp hsq with h | ⟨_, hs, rfl⟩
      · exact absurd h (hstart.1 s q)
      · exact ⟨hs, (pathTo_of_no_edge hno_exit hv).2⟩
    constructor
    · intro h
      rcases pathTo_iff.mp h with ⟨h, _⟩ | ⟨q, hedge, hrest⟩ | ⟨c, v, q, rfl, hedge, hrest⟩
      · exact absurd h hne
      · rcases honly _ q w hedge hrest with ⟨rfl, rfl⟩
        exact rfl
      · rcases honly _ q v hedge hrest with ⟨rfl, rfl⟩
        exact rfl
    · intro h
      cases symbol with
      | epsilon =>
          have hw : w = [] := h
          exact hw ▸ pathTo_of_epsilon hedge
      | char c =>
          have hw : w = [c] := h
          exact hw ▸ pathTo_of_char hedge
  have hword : ∃ w, PathTo G e.accept e.start w := by
    cases symbol with
    | epsilon => exact ⟨[], pathTo_of_epsilon hedge⟩
    | char c => exact ⟨[c], pathTo_of_char hedge⟩
  refine ⟨Or.inr (Or.inl rfl), Or.inr (Or.inr rfl), hne, ?_, ?_, hno_exit, hpath, ?_, ?_⟩
  · intro p s q h
    rcases (hG _ _ _).mp h with h | ⟨rfl, _, rfl⟩
    · exact closed_with_ends (A := fun _ => False) (fun _ _ _ _ => Iff.rfl) hstart haccept h
    · exact ⟨fun _ => Or.inr (Or.inr rfl), fun _ => Or.inr (Or.inl rfl)⟩
  · intro p s h
    rcases (hG _ _ _).mp h with h | ⟨_, _, h⟩
    · exact hstart.2 p s h
    · exact hne h
  · intro p hp
    rcases hp with hp | rfl | rfl
    · cases hp
    · exact ⟨[], PathTo.here⟩
    · exact hword
  · intro p hp
    rcases hp with hp | rfl | rfl
    · cases hp
    · exact hword
    · exact ⟨[], PathTo.here⟩

/-!
# A bypass

No edge enters the start, so a path takes the bypass at once or not at all.
-/

theorem isFragment_bypass (hf : IsFragment E A f L)
    (hG : ∀ p s q, G p s q ↔ E p s q ∨ (p = f.start ∧ s = .epsilon ∧ q = f.accept)) :
    IsFragment G A f (1 + L) := by
  have hmono : ∀ p s q, E p s q → G p s q := fun p s q h => (hG p s q).mpr (Or.inl h)
  have hno_exit : ∀ s q, ¬ G f.accept s q := by
    intro s q h
    rcases (hG _ _ _).mp h with h | ⟨h, _⟩
    · exact hf.no_exit s q h
    · exact hf.start_ne_accept h.symm
  refine ⟨hf.start_mem, hf.accept_mem, hf.start_ne_accept, ?_, ?_, hno_exit, ?_, ?_, ?_⟩
  · intro p s q h
    rcases (hG _ _ _).mp h with h | ⟨rfl, _, rfl⟩
    · exact hf.closed p s q h
    · exact ⟨fun _ => hf.accept_mem, fun _ => hf.start_mem⟩
  · intro p s h
    rcases (hG _ _ _).mp h with h | ⟨_, _, h⟩
    · exact hf.no_entry p s h
    · exact hf.start_ne_accept h
  · intro w
    have hafter : ∀ p, p ≠ f.start → ∀ v, PathTo G f.accept p v → PathTo E f.accept p v := by
      intro p hp v
      apply pathTo_restrict (A := fun p => p ≠ f.start)
      · intro p s q hp h
        have hE := ((hG _ _ _).mp h).resolve_right (fun h => hp h.1)
        exact ⟨hE, fun hq => hf.no_entry p s (hq ▸ hE)⟩
      · exact hp
    have hne : ∀ s q, E f.start s q → q ≠ f.start := by
      intro s q h hq
      exact hf.no_entry f.start s (hq ▸ h)
    rw [Language.mem_add, Language.mem_one, ← hf.words w]
    constructor
    · intro h
      rcases pathTo_iff.mp h with ⟨h, _⟩ | ⟨q, hedge, hrest⟩ | ⟨c, v, q, rfl, hedge, hrest⟩
      · exact absurd h hf.start_ne_accept
      · rcases (hG _ _ _).mp hedge with hE | ⟨_, _, rfl⟩
        · exact Or.inr (PathTo.epsilon hE (hafter q (hne _ q hE) w hrest))
        · exact Or.inl (pathTo_of_no_edge hno_exit hrest).2
      · rcases (hG _ _ _).mp hedge with hE | ⟨_, hs, _⟩
        · exact Or.inr (PathTo.char hE (hafter q (hne _ q hE) v hrest))
        · cases hs
    · intro h
      cases h with
      | inl h =>
          rw [h]
          exact pathTo_of_epsilon ((hG _ _ _).mpr (Or.inr ⟨rfl, rfl, rfl⟩))
      | inr h => exact pathTo_mono hmono h
  · intro p hp
    rcases hf.from_start p hp with ⟨u, hu⟩
    exact ⟨u, pathTo_mono hmono hu⟩
  · intro p hp
    rcases hf.to_accept p hp with ⟨v, hv⟩
    exact ⟨v, pathTo_mono hmono hv⟩

/-!
# A loop

An edge back from the accepting end to the start, between two new ends: the words of
one turn or more.
-/

/-- What a path still reads inside of a loop: the rest of a turn, and more turns. -/
theorem pathTo_turns (hf : IsFragment E A f L)
    (hG : ∀ p s q, G p s q ↔ E p s q ∨ (p = f.accept ∧ s = .epsilon ∧ q = f.start)) {p : Nat}
    {w : List Char} (h : PathTo G f.accept p w) :
    ∃ u v, w = u ++ v ∧ PathTo E f.accept p u ∧ v ∈ L∗ := by
  induction h with
  | here => exact ⟨[], [], rfl, PathTo.here, Language.nil_mem_kstar L⟩
  | epsilon hedge _ ih =>
      rcases ih with ⟨u, v, rfl, hu, hv⟩
      cases (hG _ _ _).mp hedge with
      | inl hinside => exact ⟨u, v, rfl, PathTo.epsilon hinside hu, hv⟩
      | inr hback =>
          rw [hback.2.2] at hu
          rw [hback.1]
          exact ⟨[], u ++ v, rfl, PathTo.here, append_mem_kstar ((hf.words u).mp hu) hv⟩
  | char hedge _ ih =>
      rcases ih with ⟨u, v, rfl, hu, hv⟩
      cases (hG _ _ _).mp hedge with
      | inl hinside => exact ⟨_ :: u, v, rfl, PathTo.char hinside hu, hv⟩
      | inr hback => cases hback.2.1

theorem pathTo_loop_iff (hf : IsFragment E A f L)
    (hG : ∀ p s q, G p s q ↔ E p s q ∨ (p = f.accept ∧ s = .epsilon ∧ q = f.start))
    {w : List Char} : PathTo G f.accept f.start w ↔ w ∈ L * L∗ := by
  have hmono : ∀ p s q, E p s q → G p s q := fun p s q h => (hG p s q).mpr (Or.inl h)
  have hturns : ∀ v ∈ L∗, PathTo G f.accept f.accept v := by
    intro v hv
    rcases Language.mem_kstar.mp hv with ⟨turns, rfl, hturns⟩
    clear hv
    induction turns with
    | nil => exact PathTo.here
    | cons turn turns ih =>
        have hturn := (hf.words turn).mpr (hturns turn List.mem_cons_self)
        have hrest := ih (fun y hy => hturns y (List.mem_cons_of_mem _ hy))
        have hback : G f.accept .epsilon f.start := (hG _ _ _).mpr (Or.inr ⟨rfl, rfl, rfl⟩)
        exact PathTo.epsilon hback (pathTo_append (pathTo_mono hmono hturn) hrest)
  rw [Language.mem_mul]
  constructor
  · intro h
    rcases pathTo_turns hf hG h with ⟨u, v, rfl, hu, hv⟩
    exact ⟨u, (hf.words u).mp hu, v, hv, rfl⟩
  · intro h
    rcases h with ⟨u, hu, v, hv, rfl⟩
    exact pathTo_append (pathTo_mono hmono ((hf.words u).mpr hu)) (hturns v hv)

theorem isFragment_loop (hf : IsFragment E A f L) (hne : e.start ≠ e.accept)
    (hstart : Isolated E e.start) (haccept : Isolated E e.accept)
    (hstart_out : ¬ A e.start) (haccept_out : ¬ A e.accept)
    (hG : ∀ p s q, G p s q ↔ (E p s q ∨ (p = f.accept ∧ s = .epsilon ∧ q = f.start)) ∨
      (p = e.start ∧ s = .epsilon ∧ q = f.start) ∨
      (p = f.accept ∧ s = .epsilon ∧ q = e.accept)) :
    IsFragment G (fun p => A p ∨ p = e.start ∨ p = e.accept) e (L * L∗) := by
  have hmono : ∀ p s q, E p s q → E p s q ∨ (p = f.accept ∧ s = .epsilon ∧ q = f.start) :=
    fun _ _ _ h => Or.inl h
  have hisolated : ∀ p, Isolated E p → ¬ A p →
      Isolated (fun p s q => E p s q ∨ (p = f.accept ∧ s = .epsilon ∧ q = f.start)) p := by
    intro p hp hout
    constructor
    · intro s q h
      cases h with
      | inl h => exact hp.1 s q h
      | inr h => exact hout (h.1 ▸ hf.accept_mem)
    · intro q s h
      cases h with
      | inl h => exact hp.2 q s h
      | inr h => exact hout (h.2.2 ▸ hf.start_mem)
  apply isFragment_ends (A := A) (I := fun q => q = f.start) (O := fun p => p = f.accept) _ hne
    (hisolated _ hstart hstart_out) (hisolated _ haccept haccept_out) hstart_out haccept_out
  · intro q hq
    exact hq ▸ hf.start_mem
  · intro p hp
    exact hp ▸ hf.accept_mem
  · exact ⟨f.start, rfl⟩
  · exact hG
  · intro w
    rw [← pathTo_loop_iff hf (fun _ _ _ => Iff.rfl)]
    constructor
    · intro h
      rcases h with ⟨q, r, rfl, rfl, hpath⟩
      exact hpath
    · intro h
      exact ⟨f.start, f.accept, rfl, rfl, h⟩
  · intro p hp
    rcases hf.from_start p hp with ⟨u, hu⟩
    exact ⟨f.start, u, rfl, pathTo_mono hmono hu⟩
  · intro p hp
    rcases hf.to_accept p hp with ⟨v, hv⟩
    exact ⟨f.accept, v, rfl, pathTo_mono hmono hv⟩
  · intro p s q h
    cases h with
    | inl h => exact hf.closed p s q h
    | inr h =>
        rw [h.1, h.2.2]
        exact iff_of_true hf.accept_mem hf.start_mem

/-!
# Two sides

Two new ends, with edges from the one to both starts and from both accepting ends to
the other.
-/

theorem isFragment_sides (hf : IsFragment E A f L) (hg : IsFragment E B g M)
    (hdisjoint : ∀ p, A p → ¬ B p) (hne : e.start ≠ e.accept)
    (hstart : Isolated E e.start) (haccept : Isolated E e.accept)
    (hstart_out : ¬ (A e.start ∨ B e.start)) (haccept_out : ¬ (A e.accept ∨ B e.accept))
    (hG : ∀ p s q, G p s q ↔ E p s q ∨
      (p = e.start ∧ s = .epsilon ∧ (q = f.start ∨ q = g.start)) ∨
      ((p = f.accept ∨ p = g.accept) ∧ s = .epsilon ∧ q = e.accept)) :
    IsFragment G (fun p => (A p ∨ B p) ∨ p = e.start ∨ p = e.accept) e (L + M) := by
  apply isFragment_ends (A := fun p => A p ∨ B p) (I := fun q => q = f.start ∨ q = g.start)
    (O := fun p => p = f.accept ∨ p = g.accept) _ hne hstart haccept hstart_out haccept_out
  · intro q hq
    cases hq with
    | inl hq => exact Or.inl (hq ▸ hf.start_mem)
    | inr hq => exact Or.inr (hq ▸ hg.start_mem)
  · intro p hp
    cases hp with
    | inl hp => exact Or.inl (hp ▸ hf.accept_mem)
    | inr hp => exact Or.inr (hp ▸ hg.accept_mem)
  · exact ⟨f.start, Or.inl rfl⟩
  · exact hG
  · intro w
    rw [Language.mem_add, ← hf.words, ← hg.words]
    constructor
    · intro h
      rcases h with ⟨q, r, rfl | rfl, hr, hpath⟩
      · have hA := (mem_iff_of_pathTo hf.closed hpath).mp hf.start_mem
        have hr := hr.resolve_right (fun hr => hdisjoint r hA (hr ▸ hg.accept_mem))
        exact Or.inl (hr ▸ hpath)
      · have hB := (mem_iff_of_pathTo hg.closed hpath).mp hg.start_mem
        have hr := hr.resolve_left (fun hr => hdisjoint r (hr ▸ hf.accept_mem) hB)
        exact Or.inr (hr ▸ hpath)
    · intro h
      cases h with
      | inl h => exact ⟨f.start, f.accept, Or.inl rfl, Or.inl rfl, h⟩
      | inr h => exact ⟨g.start, g.accept, Or.inr rfl, Or.inr rfl, h⟩
  · intro p hp
    cases hp with
    | inl hp =>
        rcases hf.from_start p hp with ⟨u, hu⟩
        exact ⟨f.start, u, Or.inl rfl, hu⟩
    | inr hp =>
        rcases hg.from_start p hp with ⟨u, hu⟩
        exact ⟨g.start, u, Or.inr rfl, hu⟩
  · intro p hp
    cases hp with
    | inl hp =>
        rcases hf.to_accept p hp with ⟨v, hv⟩
        exact ⟨f.accept, v, Or.inl rfl, hv⟩
    | inr hp =>
        rcases hg.to_accept p hp with ⟨v, hv⟩
        exact ⟨g.accept, v, Or.inr rfl, hv⟩
  · intro p s q h
    exact or_congr (hf.closed p s q h) (hg.closed p s q h)

/-!
# A shared node

The edges into the accepting end of one fragment are redirected into the start of
another one, and the node that they led to drops out.
-/

section Redirect

variable (hf : IsFragment E A f L) (hg : IsFragment E B g M) (hdisjoint : ∀ p, A p → ¬ B p)
  (hG : ∀ p s q, G p s q ↔ (E p s q ∧ q ≠ f.accept) ∨ (E p s f.accept ∧ q = g.start))

include hf hG in
theorem pathTo_redirect {p t : Nat} {u v : List Char} (hp : p ≠ f.accept)
    (hu : PathTo E f.accept p u) (hv : PathTo G t g.start v) : PathTo G t p (u ++ v) := by
  induction hu with
  | here => exact absurd rfl hp
  | @epsilon p q u hedge hrest ih =>
      by_cases hq : q = f.accept
      · have hstop := pathTo_of_no_edge hf.no_exit (hq ▸ hrest)
        rw [hstop.2]
        exact PathTo.epsilon ((hG _ _ _).mpr (Or.inr ⟨hq ▸ hedge, rfl⟩)) hv
      · exact PathTo.epsilon ((hG _ _ _).mpr (Or.inl ⟨hedge, hq⟩)) (ih hq)
  | @char p q c u hedge hrest ih =>
      by_cases hq : q = f.accept
      · have hstop := pathTo_of_no_edge hf.no_exit (hq ▸ hrest)
        rw [hstop.2]
        exact PathTo.char ((hG _ _ _).mpr (Or.inr ⟨hq ▸ hedge, rfl⟩)) hv
      · exact PathTo.char ((hG _ _ _).mpr (Or.inl ⟨hedge, hq⟩)) (ih hq)

include hf hG in
theorem pathTo_avoid {p t : Nat} {w : List Char} (ht : t ≠ f.accept) (h : PathTo E t p w) :
    PathTo G t p w := by
  induction h with
  | here => exact PathTo.here
  | @epsilon p q w hedge hrest ih =>
      have hq : q ≠ f.accept := fun hq =>
        ht (pathTo_of_no_edge hf.no_exit (hq ▸ hrest)).1.symm
      exact PathTo.epsilon ((hG _ _ _).mpr (Or.inl ⟨hedge, hq⟩)) ih
  | @char p q c w hedge hrest ih =>
      have hq : q ≠ f.accept := fun hq =>
        ht (pathTo_of_no_edge hf.no_exit (hq ▸ hrest)).1.symm
      exact PathTo.char ((hG _ _ _).mpr (Or.inl ⟨hedge, hq⟩)) ih

include hf hG in
theorem pathTo_cross {p t : Nat} {w : List Char} (ht : ¬ A t) (hp : A p) (h : PathTo G t p w) :
    ∃ u v, w = u ++ v ∧ PathTo E f.accept p u ∧ PathTo G t g.start v := by
  induction h with
  | here => exact absurd hp ht
  | @epsilon p q w hedge hrest ih =>
      rcases (hG _ _ _).mp hedge with ⟨hE, _⟩ | ⟨hE, rfl⟩
      · rcases ih ((hf.closed _ _ _ hE).mp hp) with ⟨u, v, rfl, hu, hv⟩
        exact ⟨u, v, rfl, PathTo.epsilon hE hu, hv⟩
      · exact ⟨[], w, rfl, pathTo_of_epsilon hE, hrest⟩
  | @char p q c w hedge hrest ih =>
      rcases (hG _ _ _).mp hedge with ⟨hE, _⟩ | ⟨hE, rfl⟩
      · rcases ih ((hf.closed _ _ _ hE).mp hp) with ⟨u, v, rfl, hu, hv⟩
        exact ⟨c :: u, v, rfl, PathTo.char hE hu, hv⟩
      · exact ⟨[c], w, rfl, pathTo_of_char hE, hrest⟩

include hf hg hdisjoint hG in
theorem isFragment_shared :
    IsFragment G (fun p => (A p ∧ p ≠ f.accept) ∨ B p) ⟨f.start, g.accept⟩ (L * M) := by
  have haccept : g.accept ≠ f.accept := fun h => hdisjoint _ hf.accept_mem (h ▸ hg.accept_mem)
  have houtside : ∀ p, B p → p ≠ f.accept := fun p hp h => hdisjoint _ hf.accept_mem (h ▸ hp)
  have hright : ∀ v, PathTo G g.accept g.start v → PathTo E g.accept g.start v := by
    intro v
    apply pathTo_restrict (A := B)
    · intro p s q hp h
      rcases (hG _ _ _).mp h with ⟨h, _⟩ | ⟨h, _⟩
      · exact ⟨h, (hg.closed p s q h).mp hp⟩
      · exact absurd ((hg.closed _ _ _ h).mp hp) (hdisjoint _ hf.accept_mem)
    · exact hg.start_mem
  have hto_accept : ∀ p, B p → ∃ v, PathTo G g.accept p v := by
    intro p hp
    rcases hg.to_accept p hp with ⟨v, hv⟩
    exact ⟨v, pathTo_avoid hf hG haccept hv⟩
  refine ⟨Or.inl ⟨hf.start_mem, hf.start_ne_accept⟩, Or.inr hg.accept_mem, ?_, ?_, ?_, ?_, ?_,
    ?_, ?_⟩
  · intro h
    have h : f.start = g.accept := h
    exact hdisjoint _ hf.start_mem (h ▸ hg.accept_mem)
  · intro p s q h
    rcases (hG _ _ _).mp h with ⟨hE, hq⟩ | ⟨hE, rfl⟩
    · have hp : p ≠ f.accept := fun hp => hf.no_exit s q (hp ▸ hE)
      rw [and_iff_left hp, and_iff_left hq]
      exact or_congr (hf.closed p s q hE) (hg.closed p s q hE)
    · have hp : p ≠ f.accept := fun hp => hf.no_exit s f.accept (hp ▸ hE)
      exact ⟨fun _ => Or.inr hg.start_mem,
        fun _ => Or.inl ⟨(hf.closed p s _ hE).mpr hf.accept_mem, hp⟩⟩
  · intro p s h
    rcases (hG _ _ _).mp h with ⟨h, _⟩ | ⟨_, h⟩
    · exact hf.no_entry p s h
    · have h : f.start = g.start := h
      exact hdisjoint _ hf.start_mem (h ▸ hg.start_mem)
  · intro s q h
    rcases (hG _ _ _).mp h with ⟨h, _⟩ | ⟨h, _⟩
    · exact hg.no_exit s q h
    · exact hg.no_exit s f.accept h
  · intro w
    rw [Language.mem_mul]
    constructor
    · intro h
      have hout : ¬ A g.accept := fun h => hdisjoint _ h hg.accept_mem
      rcases pathTo_cross hf hG hout hf.start_mem h with ⟨u, v, rfl, hu, hv⟩
      exact ⟨u, (hf.words u).mp hu, v, (hg.words v).mp (hright v hv), rfl⟩
    · intro h
      rcases h with ⟨u, hu, v, hv, rfl⟩
      exact pathTo_redirect hf hG hf.start_ne_accept ((hf.words u).mpr hu)
        (pathTo_avoid hf hG haccept ((hg.words v).mpr hv))
  · intro p hp
    cases hp with
    | inl hp =>
        rcases hf.from_start p hp.1 with ⟨u, hu⟩
        exact ⟨u, pathTo_avoid hf hG hp.2 hu⟩
    | inr hp =>
        rcases hf.from_start f.accept hf.accept_mem with ⟨u, hu⟩
        rcases hg.from_start p hp with ⟨v, hv⟩
        exact ⟨u ++ v, pathTo_redirect hf hG hf.start_ne_accept hu
          (pathTo_avoid hf hG (houtside p hp) hv)⟩
  · intro p hp
    cases hp with
    | inl hp =>
        rcases hf.to_accept p hp.1 with ⟨u, hu⟩
        rcases hto_accept g.start hg.start_mem with ⟨v, hv⟩
        exact ⟨u ++ v, pathTo_redirect hf hG hp.2 hu hv⟩
    | inr hp => exact hto_accept p hp

end Redirect

end Gluing

end Recognizer
