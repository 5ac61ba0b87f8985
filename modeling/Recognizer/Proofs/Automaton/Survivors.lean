import Recognizer.Proofs.Automaton.Fragment

/-!
# The states of a fragment automaton

The nodes that survive become states, and a state is known by the place of its node
among the survivors.  Paths between survivors are paths between their places, so the
automaton accepts what the fragment reads from end to end.
-/

namespace Recognizer

namespace Arena

theorem mem_survivors {a : Arena} {p : Nat} : p ∈ a.survivors ↔ New empty a p := by
  unfold survivors New
  simp [empty]

section Freeze

variable {a : Arena} {f : Fragment} {L : Language Char} {alphabet : SortedSet Char}

theorem size_freeze : (a.freeze f alphabet).states.size = a.survivors.length := by
  simp [freeze]

theorem hasEdge_freeze {i j : Nat} {s : Symbol} :
    (a.freeze f alphabet).HasEdge i s j ↔
      ∃ p, a.survivors[i]? = some p ∧ ∃ q, a.HasEdge p s q ∧ a.survivors.idxOf q = j := by
  have hedges : ∀ p, (⟨s, j⟩ : Edge) ∈ SortedSet.ofList ((a.nodes.getD p []).map
      (fun e => (⟨e.symbol, a.survivors.idxOf e.target⟩ : Edge))) ↔
        ∃ q, a.HasEdge p s q ∧ a.survivors.idxOf q = j := by
    intro p
    rw [SortedSet.mem_ofList, List.mem_map]
    constructor
    · intro h
      rcases h with ⟨e, he, hedge⟩
      injection hedge with hs hq
      exact ⟨e.target, hs ▸ he, hq⟩
    · intro h
      rcases h with ⟨q, hq, rfl⟩
      exact ⟨⟨s, q⟩, hq, rfl⟩
  rw [Nfa.hasEdge_iff]
  simp only [freeze, List.getElem?_toArray, List.getElem?_map, Option.map_eq_some_iff]
  constructor
  · intro h
    rcases h with ⟨edges, ⟨p, hp, rfl⟩, hedge⟩
    exact ⟨p, hp, (hedges p).mp hedge⟩
  · intro h
    rcases h with ⟨p, hp, hedge⟩
    exact ⟨_, ⟨p, hp, rfl⟩, (hedges p).mpr hedge⟩

theorem exists_survivor {i : Nat} (hi : i < (a.freeze f alphabet).states.size) :
    ∃ p ∈ a.survivors, a.survivors.idxOf p = i := by
  rw [size_freeze] at hi
  exact ⟨a.survivors[i], List.getElem_mem hi, (List.nodup_range.filter _).idxOf_getElem i hi⟩

variable (h : Adds empty a f L)

include h

theorem mem_survivors_of_hasEdge {p q : Nat} {s : Symbol} (hedge : a.HasEdge p s q) :
    p ∈ a.survivors ∧ q ∈ a.survivors := by
  have hvalid := h.grown.valid
  constructor
  · refine mem_survivors.mpr ⟨Nat.zero_le _, lt_of_hasEdge hedge, ?_⟩
    intro hp
    exact hvalid.absorbed_no_exit p hp s q hedge
  · exact mem_survivors.mpr
      ⟨Nat.zero_le _, hvalid.target_lt p s q hedge, hvalid.target_kept p s q hedge⟩

theorem pathTo_freeze {p t : Nat} {w : List Char} (hp : p ∈ a.survivors) (ht : t ∈ a.survivors) :
    PathTo (a.freeze f alphabet).HasEdge (a.survivors.idxOf t) (a.survivors.idxOf p) w ↔
      PathTo a.HasEdge t p w := by
  constructor
  · intro hpath
    let node (i : Nat) : Nat := a.survivors.getD i 0
    have hnode : ∀ q ∈ a.survivors, node (a.survivors.idxOf q) = q := by
      intro q hq
      show a.survivors.getD (a.survivors.idxOf q) 0 = q
      rw [List.getD_eq_getElem?_getD, List.getElem?_idxOf hq]
      exact rfl
    have hpath := pathTo_map (F := a.HasEdge) (g := node) ?_ hpath
    · rwa [hnode p hp, hnode t ht] at hpath
    · intro i s j hedge
      rcases hasEdge_freeze.mp hedge with ⟨q, hi, r, hqr, rfl⟩
      have hq : node i = q := by
        show a.survivors.getD i 0 = q
        rw [List.getD_eq_getElem?_getD, hi]
        exact rfl
      rw [hq, hnode r (mem_survivors_of_hasEdge h hqr).2]
      exact hqr
  · intro hpath
    apply pathTo_map _ hpath
    intro q s r hedge
    exact hasEdge_freeze.mpr
      ⟨q, List.getElem?_idxOf (mem_survivors_of_hasEdge h hedge).1, r, hedge, rfl⟩

theorem exists_path_freeze {i : Nat} (hi : i < (a.freeze f alphabet).states.size) :
    ∃ u, PathTo (a.freeze f alphabet).HasEdge i (a.freeze f alphabet).start u := by
  rcases exists_survivor hi with ⟨p, hp, rfl⟩
  rcases h.fragment.from_start p (mem_survivors.mp hp) with ⟨u, hu⟩
  exact ⟨u, (pathTo_freeze h (mem_survivors.mpr h.fragment.start_mem) hp).mpr hu⟩

theorem exists_word_of_hasEdge {p q : Nat} {c : Char} (hedge : a.HasEdge p (.char c) q) :
    ∃ w ∈ L, c ∈ w := by
  have hmem := mem_survivors_of_hasEdge h hedge
  rcases h.fragment.from_start p (mem_survivors.mp hmem.1) with ⟨u, hu⟩
  rcases h.fragment.to_accept q (mem_survivors.mp hmem.2) with ⟨v, hv⟩
  have hpath := pathTo_append hu (PathTo.char hedge hv)
  exact ⟨u ++ c :: v, (h.fragment.words _).mp hpath, List.mem_append_right u List.mem_cons_self⟩

theorem wellFormed_freeze (halphabet : ∀ c, (∃ w ∈ L, c ∈ w) → c ∈ alphabet) :
    (a.freeze f alphabet).WellFormed where
  inPlace := State.inPlace_numbered _
  edges_size := by simp [freeze]
  start_lt := by
    rw [size_freeze]
    exact List.idxOf_lt_length_of_mem (mem_survivors.mpr h.fragment.start_mem)
  accepting_lt := by
    intro q hq
    rw [size_freeze, SortedSet.mem_singleton.mp hq]
    exact List.idxOf_lt_length_of_mem (mem_survivors.mpr h.fragment.accept_mem)
  target_lt := by
    intro i s j hedge
    rcases hasEdge_freeze.mp hedge with ⟨p, _, q, hpq, rfl⟩
    rw [size_freeze]
    exact List.idxOf_lt_length_of_mem (mem_survivors_of_hasEdge h hpq).2
  symbol_mem := by
    intro i c j hedge
    rcases hasEdge_freeze.mp hedge with ⟨p, _, q, hpq, _⟩
    exact halphabet c (exists_word_of_hasEdge h hpq)

theorem recognizes_freeze (halphabet : ∀ c, c ∈ alphabet ↔ ∃ w ∈ L, c ∈ w) :
    (a.freeze f alphabet).Recognizes L where
  wellFormed := wellFormed_freeze h (fun c => (halphabet c).mpr)
  mem_alphabet := halphabet
  words := by
    intro w
    have hstart := mem_survivors.mpr h.fragment.start_mem
    have haccept := mem_survivors.mpr h.fragment.accept_mem
    have hpath : PathTo (a.freeze f alphabet).HasEdge (a.survivors.idxOf f.accept)
        (a.freeze f alphabet).start w ↔ w ∈ L :=
      (pathTo_freeze h hstart haccept).trans (h.fragment.words w)
    constructor
    · intro haccepts
      rcases haccepts with ⟨r, hr, hr_path⟩
      exact hpath.mp (SortedSet.mem_singleton.mp hr ▸ hr_path)
    · intro hw
      exact ⟨_, SortedSet.mem_singleton.mpr rfl, hpath.mpr hw⟩
  live := by
    intro i hi
    rcases exists_survivor hi with ⟨p, hp, rfl⟩
    rcases h.fragment.to_accept p (mem_survivors.mp hp) with ⟨v, hv⟩
    refine ⟨v, _, SortedSet.mem_singleton.mpr rfl, ?_⟩
    exact (pathTo_freeze h hp (mem_survivors.mpr h.fragment.accept_mem)).mpr hv

end Freeze

end Arena

namespace Nfa

theorem ofFragments_recognizes (e : Expr) : (ofFragments e).Recognizes e.language :=
  Arena.recognizes_freeze (Arena.addExpr_adds e Arena.valid_empty)
    (fun _ => Expr.mem_alphabet_iff)

theorem exists_path_ofFragments {e : Expr} {i : Nat} (hi : i < (ofFragments e).states.size) :
    ∃ u, PathTo (ofFragments e).HasEdge i (ofFragments e).start u :=
  Arena.exists_path_freeze (Arena.addExpr_adds e Arena.valid_empty) hi

/-- The fragment automaton accepts the words of the expression. -/
theorem ofFragments_accepts_iff (e : Expr) (w : List Char) :
    (ofFragments e).accepts w = true ↔ w ∈ e.language :=
  (ofFragments_recognizes e).accepts_iff

end Nfa

end Recognizer
