import Recognizer.Proofs.Automaton.Survivors
import Mathlib.Logic.Relation

/-!
# The shape of fragment automata

Fragments are glued without copying, which is sound as long as no edge enters the start of a
fragment and none leaves its accepting node.  Every call of the recursion leaves a fragment of
this shape, and keeps the edges of all nodes that it did not make.  The automaton that comes
out at the end has the same two ends, and its size is a matter of counting the connectives.
-/

namespace Recognizer

/-!
# Counting connectives
-/

namespace Expr

inductive Connective where
  | choice
  | concat
  | optional
  | star
  | plus
deriving DecidableEq, Repr

def count (k : Connective) : Expr → Nat
  | letter _ => 0
  | epsilon _ => 0
  | choice left right => left.count k + right.count k + if k = .choice then 1 else 0
  | concat left right => left.count k + right.count k + if k = .concat then 1 else 0
  | optional inner => inner.count k + if k = .optional then 1 else 0
  | star inner => inner.count k + if k = .star then 1 else 0
  | plus inner => inner.count k + if k = .plus then 1 else 0

end Expr

theorem SortedSet.size_insert {α : Type} [Ord α] [Std.LawfulEqOrd α] [Std.TransOrd α]
    {s : SortedSet α} {a : α} (h : a ∉ s) : (s.insert a).size = s.size + 1 := by
  have general : ∀ xs : List α, a ∉ xs → (insertList a xs).length = xs.length + 1 := by
    intro xs hxs
    induction xs with
    | nil => rfl
    | cons x xs ih =>
        unfold insertList
        split
        · rfl
        · rename_i heq
          exact absurd (Std.LawfulEqCmp.eq_of_compare heq ▸ List.mem_cons_self) hxs
        · rw [List.length_cons, List.length_cons, ih (fun h => hxs (List.mem_cons_of_mem x h))]
  exact general s.toList h

namespace Arena

/-!
# The calls of the recursion

The recursion is started on the empty arena, and calls itself on parts of its expression with
the arena as it stands.
-/

inductive Calls : Expr × Arena → Expr × Arena → Prop where
  | choiceLeft {left right : Expr} {a : Arena} :
      Calls (.choice left right, a) (left, a.addEnds.1)
  | choiceRight {left right : Expr} {a : Arena} :
      Calls (.choice left right, a) (right, (addExpr left a.addEnds.1).1)
  | concatLeft {left right : Expr} {a : Arena} : Calls (.concat left right, a) (left, a)
  | concatRight {left right : Expr} {a : Arena} :
      Calls (.concat left right, a) (right, (addExpr left a).1)
  | optional {inner : Expr} {a : Arena} : Calls (.optional inner, a) (inner, a)
  | star {inner : Expr} {a : Arena} : Calls (.star inner, a) (inner, a.addEnds.1)
  | plus {inner : Expr} {a : Arena} : Calls (.plus inner, a) (inner, a.addEnds.1)

/-- While the automaton of some expression is made, this expression is added to this arena. -/
def Called (e : Expr) (a : Arena) : Prop :=
  ∃ root, Relation.ReflTransGen Calls (root, .empty) (e, a)

theorem Calls.valid {x y : Expr × Arena} (h : Calls x y) (hx : x.2.Valid) : y.2.Valid := by
  cases h with
  | choiceLeft => exact hx.addEnds
  | @choiceRight left => exact (addExpr_adds left hx.addEnds).grown.valid
  | concatLeft => exact hx
  | @concatRight left => exact (addExpr_adds left hx).grown.valid
  | optional => exact hx
  | star => exact hx.addEnds
  | plus => exact hx.addEnds

theorem Called.valid {e : Expr} {a : Arena} (h : Called e a) : a.Valid := by
  rcases h with ⟨root, hcalls⟩
  have hlast : ∀ y, Relation.ReflTransGen Calls (root, .empty) y → y.2.Valid := by
    intro y hy
    induction hy with
    | refl => exact valid_empty
    | tail _ hcall ih => exact hcall.valid ih
  exact hlast _ hcalls

/-!
# Older nodes

A concatenation redirects edges all over the arena.  Nodes that were there before the call
have no edge into the node that is absorbed, so that their lists of edges stay as they are.
-/

/-- All nodes of the one arena have the same edges in the other, in the same order. -/
def Keeps (a b : Arena) : Prop := ∀ p, p < a.nodes.size → b.nodes[p]? = a.nodes[p]?

theorem Keeps.trans {a b c : Arena} (hab : Keeps a b) (hbc : Keeps b c)
    (hsize : a.nodes.size ≤ b.nodes.size) : Keeps a c :=
  fun p hp => (hbc p (Nat.lt_of_lt_of_le hp hsize)).trans (hab p hp)

theorem keeps_addEnds (a : Arena) : Keeps a a.addEnds.1 := by
  intro p hp
  show ((a.nodes.push []).push [])[p]? = a.nodes[p]?
  rw [Array.getElem?_push, Array.getElem?_push, Array.size_push, if_neg (by omega),
    if_neg (by omega)]

theorem Keeps.link {a b : Arena} (h : Keeps a b) {source target : Nat} {symbol : Symbol}
    (hsource : a.nodes.size ≤ source) : Keeps a (b.link source symbol target) := by
  intro p hp
  show (b.nodes.modify source _)[p]? = a.nodes[p]?
  rw [Array.getElem?_modify, if_neg (by omega), h p hp]

theorem Keeps.absorb {a b : Arena} (ha : a.Valid) (h : Keeps a b) {node into : Nat}
    (hnode : a.nodes.size ≤ node) : Keeps a (b.absorb node into) := by
  intro p hp
  show (b.nodes.map _)[p]? = a.nodes[p]?
  rw [Array.getElem?_map, h p hp, Array.getElem?_eq_getElem hp, Option.map_some]
  refine congrArg some ((List.map_congr_left ?_).trans (List.map_id _))
  intro e he
  have hedge : a.HasEdge p e.symbol e.target := by
    unfold HasEdge
    rw [Array.getD_eq_getD_getElem?, Array.getElem?_eq_getElem hp]
    exact he
  have := ha.target_lt p e.symbol e.target hedge
  exact if_neg (by omega)

theorem keeps_addExpr (e : Expr) {a : Arena} (ha : a.Valid) : Keeps a (addExpr e a).1 := by
  have hends : ∀ a : Arena, a.nodes.size ≤ a.addEnds.1.nodes.size := fun _ => grows_addEnds.size_le
  induction e generalizing a with
  | letter l => exact (keeps_addEnds a).link (Nat.le_refl _)
  | epsilon _ => exact (keeps_addEnds a).link (Nat.le_refl _)
  | choice left right ihl ihr =>
      have hleft := addExpr_adds left ha.addEnds
      have hright := addExpr_adds right hleft.grown.valid
      have hsize := Nat.le_trans (hends a) hleft.grown.grows.size_le
      have hl := Nat.le_trans (hends a) hleft.fragment.accept_mem.1
      have hr := Nat.le_trans hsize hright.fragment.accept_mem.1
      have hparts : Keeps a (addExpr right (addExpr left a.addEnds.1).1).1 :=
        ((keeps_addEnds a).trans (ihl ha.addEnds) (hends a)).trans (ihr hleft.grown.valid) hsize
      exact (((hparts.link (Nat.le_refl _)).link (Nat.le_refl _)).link hl).link hr
  | concat left right ihl ihr =>
      have hleft := addExpr_adds left ha
      have hparts : Keeps a (addExpr right (addExpr left a).1).1 :=
        (ihl ha).trans (ihr hleft.grown.valid) hleft.grown.grows.size_le
      exact hparts.absorb ha hleft.fragment.accept_mem.1
  | optional inner ih => exact (ih ha).link (addExpr_adds inner ha).fragment.start_mem.1
  | star inner ih =>
      have hinner := (keeps_addEnds a).trans (ih ha.addEnds) (hends a)
      have haccept := Nat.le_trans (hends a) (addExpr_adds inner ha.addEnds).fragment.accept_mem.1
      exact (((hinner.link (Nat.le_refl _)).link (Nat.le_refl _)).link haccept).link haccept
  | plus inner ih =>
      have hinner := (keeps_addEnds a).trans (ih ha.addEnds) (hends a)
      have haccept := Nat.le_trans (hends a) (addExpr_adds inner ha.addEnds).fragment.accept_mem.1
      exact ((hinner.link (Nat.le_refl _)).link haccept).link haccept

/-- What a call leaves behind: two different ends among the new nodes, which no edge enters
at the start and none leaves at the accepting node; no edges into or out of absorbed nodes; and
older nodes with the edges that they had. -/
structure Gluable (a b : Arena) (f : Fragment) : Prop where
  start_new : New a b f.start
  accept_new : New a b f.accept
  start_ne_accept : f.start ≠ f.accept
  no_entry : ∀ p s, ¬ b.HasEdge p s f.start
  no_exit : ∀ s q, ¬ b.HasEdge f.accept s q
  target_kept : ∀ p s q, b.HasEdge p s q → q < b.nodes.size ∧ q ∉ b.absorbed
  absorbed_no_exit : ∀ p ∈ b.absorbed, ∀ s q, ¬ b.HasEdge p s q
  older_kept : ∀ p, p < a.nodes.size →
    b.nodes[p]? = a.nodes[p]? ∧ (p ∈ b.absorbed ↔ p ∈ a.absorbed)

theorem Valid.gluable_addExpr {a : Arena} (ha : a.Valid) (e : Expr) :
    Gluable a (addExpr e a).1 (addExpr e a).2 := by
  have hadds := addExpr_adds e ha
  have hvalid := hadds.grown.valid
  exact
    { start_new := hadds.fragment.start_mem
      accept_new := hadds.fragment.accept_mem
      start_ne_accept := hadds.fragment.start_ne_accept
      no_entry := hadds.fragment.no_entry
      no_exit := hadds.fragment.no_exit
      target_kept := fun p s q h => ⟨hvalid.target_lt p s q h, hvalid.target_kept p s q h⟩
      absorbed_no_exit := hvalid.absorbed_no_exit
      older_kept := fun p hp => ⟨keeps_addExpr e ha p hp, hadds.grown.grows.absorbed_iff p hp⟩ }

/-!
# The number of nodes

Every leaf makes two nodes, and so does every choice and every repetition.  A concatenation
makes none, and one node is absorbed.
-/

theorem size_nodes_addExpr (e : Expr) (a : Arena) :
    (addExpr e a).1.nodes.size =
      a.nodes.size + 2 * e.leaves + 2 * (e.count .choice + e.count .star + e.count .plus) := by
  induction e generalizing a with
  | letter l => simp [addExpr, addAtom, Expr.leaves, Expr.count]
  | epsilon _ => simp [addExpr, addAtom, Expr.leaves, Expr.count]
  | choice left right ihl ihr =>
      simp only [addExpr, size_link, size_addEnds, ihl, ihr, Expr.leaves, Expr.count,
        reduceCtorEq, ↓reduceIte]
      omega
  | concat left right ihl ihr =>
      simp only [addExpr, size_absorb, ihl, ihr, Expr.leaves, Expr.count, reduceCtorEq,
        ↓reduceIte]
      omega
  | optional inner ih =>
      simp only [addExpr, size_link, ih, Expr.leaves, Expr.count, reduceCtorEq, ↓reduceIte]
      omega
  | star inner ih =>
      simp only [addExpr, size_link, size_addEnds, ih, Expr.leaves, Expr.count, reduceCtorEq,
        ↓reduceIte]
      omega
  | plus inner ih =>
      simp only [addExpr, size_link, size_addEnds, ih, Expr.leaves, Expr.count, reduceCtorEq,
        ↓reduceIte]
      omega

theorem absorbed_addEnds (a : Arena) : a.addEnds.1.absorbed = a.absorbed := rfl

theorem absorbed_link (a : Arena) (source target : Nat) (symbol : Symbol) :
    (a.link source symbol target).absorbed = a.absorbed := rfl

theorem size_absorbed_addExpr (e : Expr) {a : Arena} (ha : a.Valid) :
    (addExpr e a).1.absorbed.size = a.absorbed.size + e.count .concat := by
  induction e generalizing a with
  | letter l => rfl
  | epsilon _ => rfl
  | choice left right ihl ihr =>
      have hleft := addExpr_adds left ha.addEnds
      simp only [addExpr, absorbed_link, ihr hleft.grown.valid, ihl ha.addEnds, absorbed_addEnds,
        Expr.count, reduceCtorEq, ↓reduceIte]
      omega
  | concat left right ihl ihr =>
      have hleft := addExpr_adds left ha
      have hright := addExpr_adds right hleft.grown.valid
      have haccept := hleft.fragment.accept_mem
      have hnew : (addExpr left a).2.accept ∉ (addExpr right (addExpr left a).1).1.absorbed := by
        rw [hright.grown.grows.absorbed_iff _ haccept.2.1]
        exact haccept.2.2
      simp only [addExpr, absorb, SortedSet.size_insert hnew, ihr hleft.grown.valid, ihl ha,
        Expr.count, ↓reduceIte]
      omega
  | optional inner ih =>
      simp only [addExpr, absorbed_link, ih ha, Expr.count, reduceCtorEq, ↓reduceIte, Nat.add_zero]
  | star inner ih =>
      simp only [addExpr, absorbed_link, ih ha.addEnds, absorbed_addEnds, Expr.count,
        reduceCtorEq, ↓reduceIte, Nat.add_zero]
  | plus inner ih =>
      simp only [addExpr, absorbed_link, ih ha.addEnds, absorbed_addEnds, Expr.count,
        reduceCtorEq, ↓reduceIte, Nat.add_zero]

theorem Valid.length_survivors {a : Arena} (ha : a.Valid) :
    a.survivors.length + a.absorbed.size = a.nodes.size := by
  have habsorbed : (List.range a.nodes.size).filter (fun i => !decide (i ∉ a.absorbed)) =
      a.absorbed.toList := by
    apply SortedSet.eq_of_increasing ((SortedSet.range a.nodes.size).filter _).increasing
      a.absorbed.increasing
    intro p
    rw [SortedSet.mem_toList, SortedSet.mem_toList, SortedSet.mem_filter, SortedSet.mem_range,
      decide_not, Bool.not_not, decide_eq_true_eq]
    exact and_iff_right_of_imp (ha.absorbed_lt p)
  have hlength := List.length_eq_length_filter_add (l := List.range a.nodes.size)
    (fun i => decide (i ∉ a.absorbed))
  rw [List.length_range, habsorbed] at hlength
  exact hlength.symm

end Arena

/-!
# The automaton
-/

namespace Nfa

/-- No edge enters the start, and there is one accepting state, which no edge leaves. -/
structure HasEnds (n : Nfa) : Prop where
  no_entry : ∀ p s, ¬ n.HasEdge p s n.start
  accepting : ∃ t, n.accepting = .singleton t ∧ t < n.states.size ∧ ∀ s q, ¬ n.HasEdge t s q

end Nfa

namespace Arena

variable {a : Arena} {f : Fragment} {L : Language Char} {alphabet : SortedSet Char}

theorem hasEnds_freeze (h : Adds empty a f L) : (a.freeze f alphabet).HasEnds where
  no_entry := by
    intro i s hedge
    rcases hasEdge_freeze.mp hedge with ⟨p, _, q, hpq, hq⟩
    have hq : q = f.start := (List.idxOf_inj (mem_survivors_of_hasEdge h hpq).2).mp hq
    exact h.fragment.no_entry p s (hq ▸ hpq)
  accepting := by
    have haccept := mem_survivors.mpr h.fragment.accept_mem
    refine ⟨a.survivors.idxOf f.accept, rfl, ?_, ?_⟩
    · rw [size_freeze]
      exact List.idxOf_lt_length_of_mem haccept
    · intro s j hedge
      rcases hasEdge_freeze.mp hedge with ⟨p, hp, q, hpq, _⟩
      rw [List.getElem?_idxOf haccept] at hp
      injection hp with hp
      exact h.fragment.no_exit s q (hp ▸ hpq)

end Arena

theorem Nfa.size_ofFragments (e : Expr) :
    (ofFragments e).states.size + e.count .concat =
      2 * e.leaves + 2 * (e.count .choice + e.count .star + e.count .plus) := by
  have hvalid := (Arena.addExpr_adds e Arena.valid_empty).grown.valid
  have hsurvivors := hvalid.length_survivors
  have habsorbed := Arena.size_absorbed_addExpr e Arena.valid_empty
  have hnodes := Arena.size_nodes_addExpr e .empty
  have hempty : Arena.empty.absorbed.size = 0 ∧ Arena.empty.nodes.size = 0 := ⟨rfl, rfl⟩
  show ((Arena.addExpr e .empty).1.freeze _ _).states.size + _ = _
  rw [Arena.size_freeze]
  omega

/-- Every call of the recursion leaves a fragment that can be glued without copying.  So the
automaton has an end that no edge enters and one that no edge leaves, and its states are
counted by the leaves and the connectives of the expression. -/
theorem Nfa.ofFragments_shape :
    (∀ e a, Arena.Called e a → Arena.Gluable a (Arena.addExpr e a).1 (Arena.addExpr e a).2) ∧
      ∀ e, (ofFragments e).HasEnds ∧
        (ofFragments e).states.size + e.count .concat =
          2 * e.leaves + 2 * (e.count .choice + e.count .star + e.count .plus) := by
  constructor
  · intro e a h
    exact h.valid.gluable_addExpr e
  · intro e
    exact ⟨Arena.hasEnds_freeze (Arena.addExpr_adds e Arena.valid_empty), size_ofFragments e⟩

theorem Nfa.ofFragments_shape_behind :
    let first := Expr.letter ⟨none, 'a'⟩
    let second := Expr.star (.choice (.letter ⟨none, 'b'⟩) (.epsilon none))
    let a := (Arena.addExpr first .empty).1
    Arena.Called second a ∧
      Arena.Gluable a (Arena.addExpr second a).1 (Arena.addExpr second a).2 ∧
      (ofFragments (.concat first second)).states.size = 9 := by
  intro first second a
  have hcalled : Arena.Called second a := ⟨.concat first second, .single .concatRight⟩
  have hsize := (ofFragments_shape.2 (.concat first second)).2
  refine ⟨hcalled, ofFragments_shape.1 second a hcalled, ?_⟩
  simpa [first, second, Expr.count, Expr.leaves] using hsize

end Recognizer
