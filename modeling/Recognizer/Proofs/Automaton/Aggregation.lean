import Recognizer.Automaton.Aggregation
import Recognizer.Proofs.Automaton.Alias
import Mathlib.Data.List.Perm.Basic

/-!
# Merging edges

The edges of an automaton are listed by source, symbol and target, its merged edges by source
and target.  What merging keeps is said once: between two states the same symbols are read,
in the same order.  Together with the order of their ends this settles the merged edges, so
merging state by state and merging in one pass over the list of edges come to the same.
-/

namespace Recognizer

theorem flatMap_eq_of_unique {α β : Type} {f : α → List β} {xs : List α} {a : α}
    (hxs : xs.Nodup) (ha : a ∈ xs) (h : ∀ x ∈ xs, x ≠ a → f x = []) : xs.flatMap f = f a := by
  rcases List.append_of_mem ha with ⟨u, v, rfl⟩
  have hnodup := List.nodup_middle.mp hxs
  have hothers : ∀ x ∈ u ++ v, f x = [] := by
    intro x hx
    have hne : x ≠ a := fun heq => (List.nodup_cons.mp hnodup).1 (heq ▸ hx)
    exact h x (by simpa [hne] using hx) hne
  have hu : u.flatMap f = [] :=
    List.flatMap_eq_nil_iff.mpr fun x hx => hothers x (List.mem_append_left v hx)
  have hv : v.flatMap f = [] :=
    List.flatMap_eq_nil_iff.mpr fun x hx => hothers x (List.mem_append_right u hx)
  rw [List.flatMap_append, List.flatMap_cons, hu, hv, List.nil_append, List.append_nil]

/-!
# The list of edges
-/

def Transition.Before (t u : Transition) : Prop :=
  t.source < u.source ∨
    t.source = u.source ∧ Edge.Before ⟨t.symbol, t.target⟩ ⟨u.symbol, u.target⟩

theorem Transition.not_before_self {t : Transition} : ¬ t.Before t := by
  intro h
  cases h with
  | inl h => exact Nat.lt_irrefl _ h
  | inr h => exact Edge.not_before_self h.2

theorem Definition.ordered_transitions {a : Definition}
    (hedges : ∀ q, SortedSet.Increasing (a.edgesFrom q)) :
    a.transitions.Pairwise Transition.Before := by
  unfold transitions
  rw [List.pairwise_flatMap]
  constructor
  · intro q _
    rw [List.pairwise_map]
    apply (hedges q).imp
    intro e f hef
    exact Or.inr ⟨rfl, Edge.compare_eq_lt_iff.mp hef⟩
  · apply List.pairwise_lt_range.imp
    intro p q hpq t ht u hu
    rcases List.mem_map.mp ht with ⟨e, _, rfl⟩
    rcases List.mem_map.mp hu with ⟨f, _, rfl⟩
    exact Or.inl hpq

def symbolsBetween (ts : List Transition) (p q : Nat) : List Symbol :=
  (ts.filter fun t => t.source = p ∧ t.target = q).map Transition.symbol

section SymbolsBetween

variable {ts us : List Transition} {p q : Nat}

theorem symbolsBetween_append (ts us : List Transition) :
    symbolsBetween (ts ++ us) p q = symbolsBetween ts p q ++ symbolsBetween us p q := by
  rw [symbolsBetween, List.filter_append, List.map_append]
  rfl

theorem symbolsBetween_flatMap {α : Type} {f : α → List Transition} {xs : List α} :
    symbolsBetween (xs.flatMap f) p q = xs.flatMap fun x => symbolsBetween (f x) p q := by
  induction xs with
  | nil => rfl
  | cons x xs ih => rw [List.flatMap_cons, symbolsBetween_append, ih, List.flatMap_cons]

theorem symbolsBetween_cons (t : Transition) (ts : List Transition) :
    symbolsBetween (t :: ts) p q = symbolsBetween [t] p q ++ symbolsBetween ts p q :=
  symbolsBetween_append [t] ts

theorem symbolsBetween_eq_nil (h : ∀ t ∈ ts, ¬ (t.source = p ∧ t.target = q)) :
    symbolsBetween ts p q = [] := by
  rw [symbolsBetween, List.map_eq_nil_iff, List.filter_eq_nil_iff]
  intro t ht
  simpa using h t ht

theorem mem_symbolsBetween {s : Symbol} : s ∈ symbolsBetween ts p q ↔ ⟨p, s, q⟩ ∈ ts := by
  unfold symbolsBetween
  rw [List.mem_map]
  constructor
  · intro h
    rcases h with ⟨t, ht, rfl⟩
    rcases List.mem_filter.mp ht with ⟨hmem, hends⟩
    rcases of_decide_eq_true hends with ⟨rfl, rfl⟩
    exact hmem
  · intro h
    exact ⟨_, List.mem_filter.mpr ⟨h, decide_eq_true ⟨rfl, rfl⟩⟩, rfl⟩

theorem symbolsBetween_append_singleton {t : Transition}
    (h : ∀ u ∈ ts, ¬ (u.source = t.source ∧ u.target = t.target)) :
    symbolsBetween (ts ++ [t]) p q = symbolsBetween (t :: ts) p q := by
  rw [symbolsBetween_append, symbolsBetween_cons t ts]
  by_cases hends : t.source = p ∧ t.target = q
  · rcases hends with ⟨rfl, rfl⟩
    rw [symbolsBetween_eq_nil h, List.nil_append, List.append_nil]
  · have hnil : symbolsBetween [t] p q = [] := symbolsBetween_eq_nil (by simpa using hends)
    rw [hnil, List.nil_append, List.append_nil]

theorem count_symbolsBetween (t : Transition) :
    (symbolsBetween ts t.source t.target).count t.symbol = ts.count t := by
  induction ts with
  | nil => rfl
  | cons u ts ih =>
      rw [← List.singleton_append, symbolsBetween_append, List.count_append, List.count_append, ih]
      congr 1
      by_cases hends : u.source = t.source ∧ u.target = t.target
      · rcases u with ⟨p, s, q⟩
        rcases t with ⟨p', s', q'⟩
        rcases hends with ⟨rfl, rfl⟩
        simp [symbolsBetween, List.count_singleton]
      · have hne : u ≠ t := by
          rintro rfl
          exact hends ⟨rfl, rfl⟩
        rw [symbolsBetween_eq_nil (by simpa using hends), List.count_nil,
          List.count_singleton, beq_eq_false_iff_ne.mpr hne]
        rfl

theorem ordered_symbolsBetween (h : ts.Pairwise Transition.Before) (p q : Nat) :
    (symbolsBetween ts p q).Pairwise Symbol.Before := by
  unfold symbolsBetween
  rw [List.pairwise_map]
  apply (h.filter _).imp_of_mem
  intro t u ht hu htu
  have ht := of_decide_eq_true (List.mem_filter.mp ht).2
  have hu := of_decide_eq_true (List.mem_filter.mp hu).2
  rcases htu with hlt | ⟨_, hsymbol | ⟨_, hlt⟩⟩
  · rw [ht.1, hu.1] at hlt
    exact absurd hlt (Nat.lt_irrefl p)
  · exact hsymbol
  · have hlt : t.target < u.target := hlt
    rw [ht.2, hu.2] at hlt
    exact absurd hlt (Nat.lt_irrefl q)

end SymbolsBetween

/-!
# Merged edges
-/

namespace MergedEdge

def Before (e f : MergedEdge) : Prop :=
  e.source < f.source ∨ e.source = f.source ∧ e.target < f.target

theorem Before.ne_ends {e f : MergedEdge} (h : e.Before f) :
    ¬ (e.source = f.source ∧ e.target = f.target) := by
  unfold Before at h
  omega

theorem Before.trans {e f g : MergedEdge} (hef : e.Before f) (hfg : f.Before g) : e.Before g := by
  unfold Before at hef hfg ⊢
  omega

def expand (e : MergedEdge) : List Transition := e.symbols.map fun s => ⟨e.source, s, e.target⟩

theorem symbolsBetween_expand (e : MergedEdge) :
    symbolsBetween e.expand e.source e.target = e.symbols := by
  simp [symbolsBetween, expand, List.filter_map, Function.comp_def]

theorem symbolsBetween_expand_of_ne {e : MergedEdge} {p q : Nat}
    (h : ¬ (e.source = p ∧ e.target = q)) : symbolsBetween e.expand p q = [] := by
  apply symbolsBetween_eq_nil
  intro t ht
  rcases List.mem_map.mp ht with ⟨s, _, rfl⟩
  exact h

/-- Put the symbol of an edge behind those of the merged edge with its ends, which is put at
its place if it is not there. -/
def add (t : Transition) : List MergedEdge → List MergedEdge
  | [] => [⟨t.source, [t.symbol], t.target⟩]
  | e :: es =>
      if e.source = t.source ∧ e.target = t.target then
        ⟨e.source, e.symbols ++ [t.symbol], e.target⟩ :: es
      else if t.source < e.source ∨ t.source = e.source ∧ t.target < e.target then
        ⟨t.source, [t.symbol], t.target⟩ :: e :: es
      else e :: add t es

def merge (ts : List Transition) : List MergedEdge := ts.foldl (fun es t => add t es) []

/-- Listed in order, the edges between two states are one merged edge, with their symbols. -/
structure Merges (ts : List Transition) (es : List MergedEdge) : Prop where
  ordered : es.Pairwise Before
  nonempty : ∀ e ∈ es, e.symbols ≠ []
  symbols : ∀ p q, symbolsBetween (es.flatMap expand) p q = symbolsBetween ts p q

section Merges

variable {ts : List Transition} {es fs : List MergedEdge} {t : Transition}

theorem nodup_ends (hes : es.Pairwise Before) :
    (es.map fun e => (e.source, e.target)).Nodup := by
  rw [List.Nodup, List.pairwise_map]
  apply hes.imp
  intro e f hef heq
  injection heq with hsource htarget
  exact hef.ne_ends ⟨hsource, htarget⟩

theorem symbolsBetween_expansions (hes : es.Pairwise Before) {e : MergedEdge} (he : e ∈ es) :
    symbolsBetween (es.flatMap expand) e.source e.target = e.symbols := by
  have hends := nodup_ends hes
  rw [symbolsBetween_flatMap, flatMap_eq_of_unique hends.of_map he]
  · exact e.symbolsBetween_expand
  · intro f hf hne
    apply symbolsBetween_expand_of_ne
    intro hsame
    exact hne (List.inj_on_of_nodup_map hends hf he (Prod.ext hsame.1 hsame.2))

theorem Merges.mem_iff (h : Merges ts es) {e : MergedEdge} :
    e ∈ es ↔ e.symbols ≠ [] ∧ e.symbols = symbolsBetween ts e.source e.target := by
  constructor
  · intro he
    refine ⟨h.nonempty e he, ?_⟩
    rw [← h.symbols, symbolsBetween_expansions h.ordered he]
  · intro he
    rw [← h.symbols] at he
    rcases List.exists_mem_of_ne_nil _ (he.2 ▸ he.1) with ⟨s, hs⟩
    rcases List.mem_flatMap.mp (mem_symbolsBetween.mp hs) with ⟨f, hf, hexpand⟩
    rcases List.mem_map.mp hexpand with ⟨_, _, hedge⟩
    injection hedge with hsource _ htarget
    have hsymbols := symbolsBetween_expansions h.ordered hf
    rw [hsource, htarget, ← he.2] at hsymbols
    rcases e with ⟨p, symbols, q⟩
    rcases f with ⟨p', symbols', q'⟩
    cases hsource
    cases htarget
    cases hsymbols
    exact hf

theorem Merges.unique (h : Merges ts es) (h' : Merges ts fs) : es = fs := by
  refine eq_of_pairwise ?_ h.ordered h'.ordered fun e => h.mem_iff.trans h'.mem_iff.symm
  intro e _ f _ hef hfe
  exact (hef.trans hfe).ne_ends ⟨rfl, rfl⟩

theorem Merges.perm (h : Merges ts es) : (es.flatMap expand).Perm ts := by
  rw [List.perm_iff_count]
  intro t
  rw [← count_symbolsBetween, ← count_symbolsBetween, h.symbols]

/-!
# Merging in one pass
-/

theorem ends_of_mem_add {e : MergedEdge} (he : e ∈ add t es) :
    (e.source = t.source ∧ e.target = t.target) ∨
      ∃ f ∈ es, e.source = f.source ∧ e.target = f.target := by
  induction es with
  | nil =>
      rw [List.mem_singleton.mp he]
      exact Or.inl ⟨rfl, rfl⟩
  | cons f es ih =>
      unfold add at he
      split at he
      · cases List.mem_cons.mp he with
        | inl he => exact Or.inr ⟨f, List.mem_cons_self, he ▸ ⟨rfl, rfl⟩⟩
        | inr he => exact Or.inr ⟨e, List.mem_cons_of_mem f he, rfl, rfl⟩
      · split at he
        · cases List.mem_cons.mp he with
          | inl he => exact Or.inl (he ▸ ⟨rfl, rfl⟩)
          | inr he => exact Or.inr ⟨e, he, rfl, rfl⟩
        · cases List.mem_cons.mp he with
          | inl he => exact Or.inr ⟨f, List.mem_cons_self, he ▸ ⟨rfl, rfl⟩⟩
          | inr he =>
              refine (ih he).imp_right fun h => ?_
              rcases h with ⟨g, hg, hends⟩
              exact ⟨g, List.mem_cons_of_mem f hg, hends⟩

theorem ordered_add (hes : es.Pairwise Before) : (add t es).Pairwise Before := by
  induction es with
  | nil => exact List.pairwise_singleton _ _
  | cons f es ih =>
      have hcons := List.pairwise_cons.mp hes
      unfold add
      split
      · exact List.pairwise_cons.mpr ⟨fun g hg => hcons.1 g hg, hcons.2⟩
      · rename_i hends
        split
        · rename_i hbefore
          refine List.pairwise_cons.mpr ⟨fun g hg => ?_, hes⟩
          cases List.mem_cons.mp hg with
          | inl hg => exact hg ▸ hbefore
          | inr hg => exact Before.trans (f := f) hbefore (hcons.1 g hg)
        · rename_i hbefore
          refine List.pairwise_cons.mpr ⟨fun g hg => ?_, ih hcons.2⟩
          cases ends_of_mem_add hg with
          | inl hg =>
              unfold Before
              omega
          | inr hg =>
              rcases hg with ⟨e, he, hsame⟩
              have hlt := hcons.1 e he
              unfold Before at hlt ⊢
              omega

theorem nonempty_of_mem_add (hes : ∀ e ∈ es, e.symbols ≠ []) :
    ∀ e ∈ add t es, e.symbols ≠ [] := by
  induction es with
  | nil => simp [add]
  | cons f es ih =>
      rw [List.forall_mem_cons] at hes
      unfold add
      split
      · simpa using hes.2
      · split
        · simpa using hes
        · simpa using ⟨hes.1, ih hes.2⟩

theorem symbolsBetween_add (hes : es.Pairwise Before) (p q : Nat) :
    symbolsBetween ((add t es).flatMap expand) p q =
      symbolsBetween (es.flatMap expand ++ [t]) p q := by
  have hnew : (⟨t.source, [t.symbol], t.target⟩ : MergedEdge).expand = [t] := rfl
  induction es with
  | nil => rfl
  | cons f es ih =>
      have hcons := List.pairwise_cons.mp hes
      have hapart : ∀ fs : List MergedEdge,
          (∀ g ∈ fs, ¬ (g.source = t.source ∧ g.target = t.target)) →
          ∀ u ∈ fs.flatMap expand, ¬ (u.source = t.source ∧ u.target = t.target) := by
        intro fs hfs u hu
        rcases List.mem_flatMap.mp hu with ⟨g, hg, hu⟩
        rcases List.mem_map.mp hu with ⟨_, _, rfl⟩
        exact hfs g hg
      unfold add
      split
      · rename_i hends
        have hnone : ∀ g ∈ es, ¬ (g.source = t.source ∧ g.target = t.target) := by
          intro g hg hsame
          exact (hcons.1 g hg).ne_ends
            ⟨hends.1.trans hsame.1.symm, hends.2.trans hsame.2.symm⟩
        have hexpand : (⟨f.source, f.symbols ++ [t.symbol], f.target⟩ : MergedEdge).expand =
            f.expand ++ [t] := by
          simp [expand, hends.1, hends.2]
        rw [List.flatMap_cons, List.flatMap_cons, hexpand, List.append_assoc, List.append_assoc,
          symbolsBetween_append f.expand, symbolsBetween_append f.expand,
          symbolsBetween_append_singleton (hapart es hnone)]
        rfl
      · rename_i hends
        split
        · rename_i hbefore
          have hnone : ∀ g ∈ f :: es, ¬ (g.source = t.source ∧ g.target = t.target) := by
            intro g hg hsame
            cases List.mem_cons.mp hg with
            | inl hg => exact hends (hg ▸ hsame)
            | inr hg =>
                have hlt := hcons.1 g hg
                unfold Before at hlt
                omega
          rw [List.flatMap_cons, hnew, symbolsBetween_append_singleton (hapart _ hnone)]
          rfl
        · rw [List.flatMap_cons, List.flatMap_cons, List.append_assoc,
            symbolsBetween_append f.expand, symbolsBetween_append f.expand, ih hcons.2]

theorem merges_merge (ts : List Transition) : Merges ts (merge ts) := by
  induction ts using List.reverseRecOn with
  | nil => exact ⟨List.Pairwise.nil, fun e he => absurd he List.not_mem_nil, fun p q => rfl⟩
  | append_singleton ts t ih =>
      have hmerge : merge (ts ++ [t]) = add t (merge ts) := by
        rw [merge, List.foldl_append]
        rfl
      rw [hmerge]
      refine ⟨ordered_add ih.ordered, nonempty_of_mem_add ih.nonempty, fun p q => ?_⟩
      rw [symbolsBetween_add ih.ordered, symbolsBetween_append, ih.symbols, symbolsBetween_append]

end Merges

end MergedEdge

/-!
# Merging state by state
-/

namespace Definition

variable {a : Definition} {p q r : Nat}

theorem mem_mergedEdgesFrom {e : MergedEdge} :
    e ∈ a.mergedEdgesFrom r ↔
      (∃ s, a.HasEdge r s e.target) ∧
        e = ⟨r, ((a.edgesFrom r).filter (fun f => f.target = e.target)).map Edge.symbol,
          e.target⟩ := by
  unfold mergedEdgesFrom
  dsimp only
  rw [List.mem_map]
  constructor
  · intro h
    rcases h with ⟨target, htarget, rfl⟩
    rw [SortedSet.mem_toList, SortedSet.mem_ofList, ← targetsFrom, mem_targetsFrom] at htarget
    exact ⟨htarget, rfl⟩
  · intro h
    refine ⟨e.target, ?_, h.2.symm⟩
    rw [SortedSet.mem_toList, SortedSet.mem_ofList, ← targetsFrom, mem_targetsFrom]
    exact h.1

theorem ordered_mergedEdgesFrom : (a.mergedEdgesFrom r).Pairwise MergedEdge.Before := by
  unfold mergedEdgesFrom
  dsimp only
  rw [List.pairwise_map]
  apply (SortedSet.ofList _).increasing.imp
  intro p q hpq
  exact Or.inr ⟨rfl, Nat.compare_eq_lt.mp hpq⟩

theorem symbolsBetween_mergedEdgesFrom :
    symbolsBetween ((a.mergedEdgesFrom r).flatMap MergedEdge.expand) p q =
      symbolsBetween ((a.edgesFrom r).map fun e => ⟨r, e.symbol, e.target⟩) p q := by
  by_cases hr : r = p
  · subst hr
    have hsymbols : symbolsBetween ((a.edgesFrom r).map fun e => ⟨r, e.symbol, e.target⟩) r q =
        ((a.edgesFrom r).filter (fun e => e.target = q)).map Edge.symbol := by
      simp [symbolsBetween, List.filter_map, Function.comp_def]
    rw [hsymbols]
    by_cases hedge : ∃ s, a.HasEdge r s q
    · let merged : MergedEdge :=
        ⟨r, ((a.edgesFrom r).filter (fun e => e.target = q)).map Edge.symbol, q⟩
      have hmerged : merged ∈ a.mergedEdgesFrom r := mem_mergedEdgesFrom.mpr ⟨hedge, rfl⟩
      exact MergedEdge.symbolsBetween_expansions ordered_mergedEdgesFrom hmerged
    · have hnone : (a.edgesFrom r).filter (fun e => e.target = q) = [] := by
        rw [List.filter_eq_nil_iff]
        intro e he htarget
        exact hedge ⟨e.symbol, of_decide_eq_true htarget ▸ he⟩
      rw [hnone, List.map_nil, symbolsBetween_eq_nil]
      intro t ht hends
      rcases List.mem_flatMap.mp ht with ⟨e, he, ht⟩
      rcases List.mem_map.mp ht with ⟨_, _, rfl⟩
      exact hedge (hends.2 ▸ (mem_mergedEdgesFrom.mp he).1)
  · rw [symbolsBetween_eq_nil, symbolsBetween_eq_nil]
    · intro t ht
      rcases List.mem_map.mp ht with ⟨e, _, rfl⟩
      exact fun hends => hr hends.1
    · intro t ht
      rcases List.mem_flatMap.mp ht with ⟨e, he, ht⟩
      rcases List.mem_map.mp ht with ⟨s, _, rfl⟩
      rw [(mem_mergedEdgesFrom.mp he).2]
      exact fun hends => hr hends.1

theorem merges_mergedEdges (a : Definition) : MergedEdge.Merges a.transitions a.mergedEdges where
  ordered := by
    unfold mergedEdges
    rw [List.pairwise_flatMap]
    constructor
    · exact fun r _ => ordered_mergedEdgesFrom
    · apply List.pairwise_lt_range.imp
      intro p q hpq e he f hf
      rw [(mem_mergedEdgesFrom.mp he).2, (mem_mergedEdgesFrom.mp hf).2]
      exact Or.inl hpq
  nonempty := by
    intro e he
    rcases List.mem_flatMap.mp he with ⟨r, _, he⟩
    rcases mem_mergedEdgesFrom.mp he with ⟨⟨s, hedge⟩, heq⟩
    rw [heq]
    apply List.ne_nil_of_mem (a := s)
    exact List.mem_map.mpr ⟨_, List.mem_filter.mpr ⟨hedge, decide_eq_true rfl⟩, rfl⟩
  symbols := by
    intro p q
    unfold mergedEdges transitions
    rw [List.flatMap_assoc, symbolsBetween_flatMap, symbolsBetween_flatMap]
    apply List.flatMap_congr
    intro r _
    exact symbolsBetween_mergedEdgesFrom

/-- Merging state by state and merging in one pass come to the same. -/
theorem mergedEdges_eq_merge (a : Definition) : a.mergedEdges = MergedEdge.merge a.transitions :=
  a.merges_mergedEdges.unique (MergedEdge.merges_merge _)

end Definition

end Recognizer
