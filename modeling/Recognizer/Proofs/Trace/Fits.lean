import Recognizer.Proofs.Document.RoundTrip
import Recognizer.Proofs.Trace.Edges
import Recognizer.Proofs.Trace.Outcome

/-!
# Recorded runs that fit

A step of a recorded run shows states of the automaton, edges between them, and the place of
a character that has been read by then.  So the numbers in it fit when the automaton has no
more states than there are ids, and the steps are no more than there are places.
-/

namespace Recognizer

namespace Nfa

variable {n : Nfa} (hn : n.WellFormed) (hsize : n.states.size ≤ Nat.pow 2 32)

include hn hsize

theorem WellFormed.fits_edgesReading {states : List Nat} {symbol : Symbol} :
    ∀ t ∈ n.edgesReading states symbol, t.Fits := by
  intro t ht
  have hedge := (mem_edgesReading.mp ht).2.2
  exact ⟨Nat.lt_of_lt_of_le (hn.definition.source_lt (hasEdge_definition.mpr hedge)) hsize,
    Nat.lt_of_lt_of_le (hn.target_lt _ _ _ hedge) hsize⟩

theorem WellFormed.fits_stepsFrom {s : SortedSet Nat} {index : Nat} {w : List Char}
    (hs : ∀ q ∈ s, q < n.states.size)
    (hplaces : index + (n.stepsFrom s index w).length ≤ Nat.pow 2 64) :
    ∀ x ∈ n.stepsFrom s index w, x.Fits := by
  have hstates : ∀ {s : SortedSet Nat}, (∀ q ∈ s, q < n.states.size) → ∀ q ∈ s, q < Nat.pow 2 32 :=
    fun hs q hq => Nat.lt_of_lt_of_le (hs q hq) hsize
  induction w generalizing s index with
  | nil =>
      intro x hx
      rw [List.mem_singleton.mp hx]
      exact hstates hs
  | cons c w ih =>
      unfold stepsFrom at hplaces ⊢
      split at hplaces
      · rename_i hc
        have ht : ∀ q ∈ n.step s c, q < n.states.size :=
          lt_of_mem_closure hn (lt_of_mem_successors hn)
        rw [if_pos hc]
        simp only [List.length_cons] at hplaces
        have hindex : index < Nat.pow 2 64 := by omega
        rw [List.forall_mem_cons, List.forall_mem_cons]
        refine ⟨⟨hindex, ?_⟩, ⟨?_, hstates ht⟩, ?_⟩
        · exact List.forall_mem_append.mpr
            ⟨hn.fits_edgesReading hsize, hn.fits_edgesReading hsize⟩
        · intro i hi
          cases hi
          exact hindex
        · split at hplaces
          · rename_i hempty
            rw [if_pos hempty, List.forall_mem_singleton]
            exact fun q hq => absurd hq SortedSet.not_mem_empty
          · rename_i hempty
            rw [if_neg hempty]
            exact ih ht (by omega)
      · rename_i hc
        rw [if_neg hc, List.forall_mem_singleton]
        exact Nat.lt_of_lt_of_le (Nat.lt_succ_self index) hplaces

theorem WellFormed.fits_trace {input : String}
    (hplaces : (n.trace input).steps.length < UInt64.size) : (n.trace input).Fits := by
  have hstart := lt_of_mem_startSet hn
  have hlt : ∀ q ∈ n.startSet, q < Nat.pow 2 32 :=
    fun q hq => Nat.lt_of_lt_of_le (hstart q hq) hsize
  have hrest : (n.stepsFrom n.startSet 0 input.toList).length + 2 < Nat.pow 2 64 := hplaces
  show ∀ x ∈ _ :: _ :: n.stepsFrom n.startSet 0 input.toList, x.Fits
  rw [List.forall_mem_cons, List.forall_mem_cons]
  exact ⟨⟨hlt, hn.fits_edgesReading hsize⟩, ⟨nofun, hlt⟩,
    hn.fits_stepsFrom hsize hstart (by omega)⟩

end Nfa

namespace Dfa

variable {d : Dfa} (hd : d.WellFormed) (hsize : d.states.size ≤ Nat.pow 2 32)

include hd hsize

theorem WellFormed.fits_stepsFrom {q index : Nat} {w : List Char} (hq : q < d.states.size)
    (hplaces : index + (d.stepsFrom q index w).length ≤ Nat.pow 2 64) :
    ∀ x ∈ d.stepsFrom q index w, x.Fits := by
  have hstate : ∀ {q : Nat}, q < d.states.size → ∀ r ∈ SortedSet.singleton q, r < Nat.pow 2 32 :=
    fun hq r hr => SortedSet.mem_singleton.mp hr ▸ Nat.lt_of_lt_of_le hq hsize
  induction w generalizing q index with
  | nil =>
      intro x hx
      rw [List.mem_singleton.mp hx]
      exact hstate hq
  | cons c w ih =>
      unfold stepsFrom at hplaces ⊢
      split at hplaces
      · rename_i hc
        rw [if_pos hc]
        cases hnext : d.next q c with
        | none =>
            rw [hnext] at hplaces
            simp only [List.length_cons] at hplaces
            have hindex : index < Nat.pow 2 64 := by omega
            rw [List.forall_mem_cons, List.forall_mem_singleton]
            exact ⟨⟨hindex, List.forall_mem_nil _⟩, fun r hr => absurd hr SortedSet.not_mem_empty⟩
        | some target =>
            rw [hnext] at hplaces
            simp only [List.length_cons] at hplaces
            have hindex : index < Nat.pow 2 64 := by omega
            have htarget := (hd.next_within hnext).2.2
            rw [List.forall_mem_cons, List.forall_mem_cons]
            refine ⟨⟨hindex, ?_⟩, ⟨?_, hstate htarget⟩, ih htarget (by omega)⟩
            · rw [List.forall_mem_singleton]
              exact ⟨Nat.lt_of_lt_of_le hq hsize, Nat.lt_of_lt_of_le htarget hsize⟩
            · intro i hi
              cases hi
              exact hindex
      · rename_i hc
        rw [if_neg hc, List.forall_mem_singleton]
        exact Nat.lt_of_lt_of_le (Nat.lt_succ_self index) hplaces

theorem WellFormed.fits_trace {input : String}
    (hplaces : (d.trace input).steps.length < UInt64.size) : (d.trace input).Fits := by
  have hstart : ∀ q ∈ SortedSet.singleton d.start, q < Nat.pow 2 32 :=
    fun q hq => SortedSet.mem_singleton.mp hq ▸ Nat.lt_of_lt_of_le hd.start_lt hsize
  have hrest : (d.stepsFrom d.start 0 input.toList).length + 2 < Nat.pow 2 64 := hplaces
  show ∀ x ∈ _ :: _ :: d.stepsFrom d.start 0 input.toList, x.Fits
  rw [List.forall_mem_cons, List.forall_mem_cons]
  exact ⟨⟨hstart, List.forall_mem_nil _⟩, ⟨nofun, hstart⟩,
    hd.fits_stepsFrom hsize hd.start_lt (by omega)⟩

end Dfa

/-- What an automaton of an expression records can be written and read again. -/
theorem Plan.fits_trace_build (e : Expr) (p : Plan) {input : String}
    (hsize : (p.build e).definition.states.size ≤ Nat.pow 2 32)
    (hplaces : ((p.build e).trace input).steps.length < UInt64.size) :
    ((p.build e).trace input).Fits := by
  have hpresents := p.presents_build e
  cases hbuild : p.build e with
  | nfa n =>
      rw [hbuild] at hpresents hsize hplaces
      exact hpresents.1.wellFormed.fits_trace hsize hplaces
  | dfa d =>
      rw [hbuild] at hpresents hsize hplaces
      exact hpresents.wellFormed.fits_trace hsize hplaces

end Recognizer
