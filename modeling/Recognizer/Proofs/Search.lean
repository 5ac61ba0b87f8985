import Recognizer.Search
import Mathlib.Data.List.Nodup

/-!
# What a breadth-first search finds

A search is followed through its stream: the seeds, and then the successors of
one node after the other.  The nodes found are those of the stream, each one at
its first place.  From this come the two facts that the automata are built on:
a search with a sufficient bound finds exactly what can be reached, and of two
nodes that were found the earlier one comes earlier in the stream.
-/

namespace Recognizer

/-!
# Repeated steps

An invariant of the step is an invariant of the loop.  The loop comes to its end
when a measure that every step lowers is within the bound.
-/

section RepeatUntil

variable {σ : Type} {finished : σ → Bool} {step : σ → σ} {I : σ → Prop}

theorem repeatUntil_invariant (hstep : ∀ s, I s → finished s = false → I (step s))
    (bound : Nat) {s : σ} (hs : I s) : I (repeatUntil finished step bound s) := by
  induction bound generalizing s with
  | zero => exact hs
  | succ bound ih =>
      unfold repeatUntil
      split
      · exact hs
      · rename_i hfinished
        exact ih (hstep s hs (Bool.eq_false_iff.mpr hfinished))

theorem repeatUntil_finished (measure : σ → Nat)
    (hstep : ∀ s, I s → finished s = false → I (step s))
    (hless : ∀ s, I s → finished s = false → measure (step s) < measure s)
    {bound : Nat} {s : σ} (hs : I s) (hbound : measure s ≤ bound) :
    finished (repeatUntil finished step bound s) = true := by
  induction bound generalizing s with
  | zero =>
      cases hfinished : finished s with
      | true => exact hfinished
      | false =>
          have := hless s hs hfinished
          omega
  | succ bound ih =>
      unfold repeatUntil
      split
      · assumption
      · rename_i hfinished
        have hfalse := Bool.eq_false_iff.mpr hfinished
        apply ih (hstep s hs hfalse)
        have := hless s hs hfalse
        omega

end RepeatUntil

/-!
# Places in a list
-/

theorem getElem?_inj_of_nodup {α : Type} {xs : List α} (h : xs.Nodup) {i j : Nat} {a : α}
    (hi : xs[i]? = some a) (hj : xs[j]? = some a) : i = j :=
  (List.getElem?_inj (List.getElem?_eq_some_iff.mp hi).1 h).mp (hi.trans hj.symm)

theorem getElem?_of_isPrefix {α : Type} {xs ys : List α} (h : xs <+: ys) {i : Nat} {a : α}
    (hi : xs[i]? = some a) : ys[i]? = some a := by
  rcases h with ⟨zs, rfl⟩
  exact List.getElem?_append_left (List.getElem?_eq_some_iff.mp hi).1 ▸ hi

namespace Search

variable {α : Type} [DecidableEq α]

/-!
# Discovery
-/

theorem mem_discover {found : Array α} {a b : α} :
    b ∈ discover found a ↔ b ∈ found ∨ b = a := by
  unfold discover
  split
  · rename_i hcontains
    have ha : a ∈ found := Array.contains_iff_mem.mp hcontains
    constructor
    · exact Or.inl
    · intro h
      cases h with
      | inl h => exact h
      | inr h => exact h ▸ ha
  · exact Array.mem_push

theorem mem_foldl_discover {xs : List α} {found : Array α} {b : α} :
    b ∈ xs.foldl discover found ↔ b ∈ found ∨ b ∈ xs := by
  induction xs generalizing found with
  | nil => simp
  | cons x xs ih => rw [List.foldl_cons, ih, mem_discover, List.mem_cons, or_assoc]

theorem nodup_foldl_discover {xs : List α} {found : Array α} (h : found.toList.Nodup) :
    (xs.foldl discover found).toList.Nodup := by
  induction xs generalizing found with
  | nil => exact h
  | cons x xs ih =>
      apply ih
      unfold discover
      split
      · exact h
      · rename_i hcontains
        have hx : x ∉ found.toList := by
          simpa using hcontains
        rw [Array.toList_push]
        exact List.nodup_append.mpr ⟨h, List.nodup_singleton x, by
          intro a ha b hb hab
          rw [List.mem_singleton.mp hb] at hab
          exact hx (hab ▸ ha)⟩

theorem prefix_foldl_discover (xs : List α) (found : Array α) :
    found.toList <+: (xs.foldl discover found).toList := by
  induction xs generalizing found with
  | nil => exact List.prefix_rfl
  | cons x xs ih =>
      refine List.IsPrefix.trans ?_ (ih (discover found x))
      unfold discover
      split
      · exact List.prefix_rfl
      · rw [Array.toList_push]
        exact List.prefix_append _ _

theorem mem_of_discovered_before {xs u v : List α} {a b : α} {i j : Nat}
    (hxs : xs = u ++ b :: v)
    (ha : (xs.foldl discover #[]).toList[i]? = some a)
    (hb : (xs.foldl discover #[]).toList[j]? = some b) (hij : i < j) : a ∈ u := by
  have hnodup : (xs.foldl discover #[]).toList.Nodup :=
    nodup_foldl_discover (by simp)
  let known := discover (u.foldl discover #[]) b
  have hknown : known.toList <+: (xs.foldl discover #[]).toList := by
    rw [hxs, List.foldl_append, List.foldl_cons]
    exact prefix_foldl_discover v known
  have hbk : b ∈ known.toList :=
    Array.mem_toList_iff.mpr (mem_discover.mpr (Or.inr rfl))
  rcases List.mem_iff_getElem?.mp hbk with ⟨k, hk⟩
  have hkj : k = j := getElem?_inj_of_nodup hnodup (getElem?_of_isPrefix hknown hk) hb
  have hik : i < known.toList.length := by
    have := (List.getElem?_eq_some_iff.mp hk).1
    omega
  have hak : a ∈ known.toList := by
    have hi := getElem?_of_isPrefix hknown (List.getElem?_eq_getElem hik)
    rw [ha] at hi
    injection hi with hi
    exact hi ▸ List.getElem_mem hik
  have hau : a ∈ u.foldl discover #[] ∨ a = b := mem_discover.mp (by simpa using hak)
  cases hau with
  | inl hau => simpa using mem_foldl_discover.mp hau
  | inr hab =>
      rw [hab] at ha
      have := getElem?_inj_of_nodup hnodup ha hb
      omega

/-!
# The loop

What one turn of the search keeps: the nodes found are those of the stream of
the nodes taken, and each one is a seed or a successor of an earlier one.
-/

section Loop

variable (successors : α → List α) (seeds : List α)

inductive Reached : α → Prop where
  | seed {a : α} : a ∈ seeds → Reached a
  | next {a b : α} : Reached a → b ∈ successors a → Reached b

/-- The seeds, and the successors of some nodes in their order. -/
def stream (taken : List α) : List α := seeds ++ taken.flatMap successors

structure Consistent (s : Search α) : Prop where
  taken_le : s.taken ≤ s.found.size
  found_eq : s.found = (stream successors seeds (s.found.toList.take s.taken)).foldl discover #[]
  parent : ∀ (j : Nat) (b : α), s.found.toList[j]? = some b →
    b ∈ seeds ∨ ∃ (i : Nat) (a : α), i < j ∧ s.found.toList[i]? = some a ∧ b ∈ successors a

variable {successors seeds}

theorem Consistent.nodup {s : Search α} (h : Consistent successors seeds s) :
    s.found.toList.Nodup := by
  rw [h.found_eq]
  exact nodup_foldl_discover (by simp)

theorem Consistent.reached {s : Search α} (h : Consistent successors seeds s) {a : α}
    (ha : a ∈ s.found.toList) : Reached successors seeds a := by
  rcases List.mem_iff_getElem?.mp ha with ⟨j, hj⟩
  clear ha
  induction j using Nat.strongRecOn generalizing a with
  | ind j ih =>
      cases h.parent j a hj with
      | inl hseed => exact Reached.seed hseed
      | inr hparent =>
          rcases hparent with ⟨i, b, hij, hi, hab⟩
          exact Reached.next (ih i hij hi) hab

theorem consistent_ofSeeds : Consistent successors seeds (ofSeeds seeds) where
  taken_le := Nat.zero_le _
  found_eq := by simp [ofSeeds, stream]
  parent := by
    intro j b hj
    have hb : b ∈ seeds.foldl discover #[] := Array.mem_toList_iff.mp (List.mem_of_getElem? hj)
    left
    simpa using mem_foldl_discover.mp hb

theorem consistent_advance {s : Search α} (h : Consistent successors seeds s)
    (hfinished : s.finished = false) :
    Consistent successors seeds (advance successors s) ∧
      (advance successors s).taken = s.taken + 1 := by
  have hlt : s.taken < s.found.size := by
    simpa [finished] using hfinished
  let a := s.found[s.taken]
  have ha : s.found[s.taken]? = some a := Array.getElem?_eq_getElem hlt
  have hadvance : advance successors s = ⟨(successors a).foldl discover s.found, s.taken + 1⟩ := by
    rw [advance, ha]
  rw [hadvance]
  have hprefix : s.found.toList <+: ((successors a).foldl discover s.found).toList :=
    prefix_foldl_discover _ _
  have hal : s.found.toList[s.taken]? = some a := by simpa using ha
  have htake : ((successors a).foldl discover s.found).toList.take (s.taken + 1) =
      s.found.toList.take s.taken ++ [a] := by
    rw [List.take_add_one, getElem?_of_isPrefix hprefix hal]
    congr 1
    rcases hprefix with ⟨rest, hrest⟩
    rw [← hrest, List.take_append_of_le_length (by simpa using h.taken_le)]
  refine ⟨⟨?_, ?_, ?_⟩, rfl⟩
  · have := hprefix.length_le
    simp only [Array.length_toList] at this
    show s.taken + 1 ≤ ((successors a).foldl discover s.found).size
    omega
  · show (successors a).foldl discover s.found = _
    rw [htake, stream, List.flatMap_append, ← List.append_assoc, List.foldl_append]
    congr 1
    · exact h.found_eq
    · simp
  · intro j b hj
    by_cases hold : j < s.found.size
    · have hjold : s.found.toList[j]? = some b := by
        rcases hprefix with ⟨rest, hrest⟩
        rw [← hrest, List.getElem?_append_left (by simpa using hold)] at hj
        exact hj
      cases h.parent j b hjold with
      | inl hseed => exact Or.inl hseed
      | inr hparent =>
          rcases hparent with ⟨i, c, hij, hi, hbc⟩
          exact Or.inr ⟨i, c, hij, getElem?_of_isPrefix hprefix hi, hbc⟩
    · have hb : b ∈ (successors a).foldl discover s.found :=
        Array.mem_toList_iff.mp (List.mem_of_getElem? hj)
      cases mem_foldl_discover.mp hb with
      | inl hb =>
          rcases List.mem_iff_getElem?.mp (Array.mem_toList_iff.mpr hb) with ⟨k, hk⟩
          have hkj : k = j := getElem?_inj_of_nodup
            (nodup_foldl_discover h.nodup) (getElem?_of_isPrefix hprefix hk) hj
          have := (List.getElem?_eq_some_iff.mp hk).1
          simp only [Array.length_toList] at this
          omega
      | inr hb => exact Or.inr ⟨s.taken, a, by omega, getElem?_of_isPrefix hprefix hal, hb⟩

theorem consistent_run (bound : Nat) :
    Consistent successors seeds (run successors bound seeds) := by
  unfold run
  apply repeatUntil_invariant (I := Consistent successors seeds)
  · intro s hs hfinished
    exact (consistent_advance hs hfinished).1
  · exact consistent_ofSeeds

/-!
# The nodes found

The bound has to cover every list of different nodes that can be reached.
-/

def Covers (successors : α → List α) (seeds : List α) (bound : Nat) : Prop :=
  ∀ xs : List α, xs.Nodup → (∀ x ∈ xs, Reached successors seeds x) → xs.length ≤ bound

theorem covers_of_lt {successors : Nat → List Nat} {seeds : List Nat} {bound : Nat}
    (h : ∀ q, Reached successors seeds q → q < bound) : Covers successors seeds bound := by
  intro xs hnodup hreached
  have hsubset : xs ⊆ List.range bound := by
    intro q hq
    exact List.mem_range.mpr (h q (hreached q hq))
  simpa using hnodup.length_le_of_subset hsubset

theorem finished_run {bound : Nat} (hbound : Covers successors seeds bound) :
    (run successors bound seeds).finished = true := by
  have hsize : ∀ s : Search α, Consistent successors seeds s → s.found.size ≤ bound := by
    intro s hs
    simpa using hbound s.found.toList hs.nodup (fun x hx => hs.reached hx)
  unfold run
  apply repeatUntil_finished (I := Consistent successors seeds) (fun s => bound - s.taken)
  · intro s hs hfinished
    exact (consistent_advance hs hfinished).1
  · intro s hs hfinished
    rw [(consistent_advance hs hfinished).2]
    have := hsize s hs
    have : s.taken < s.found.size := by
      simpa [finished] using hfinished
    omega
  · exact consistent_ofSeeds
  · exact Nat.sub_le _ _

end Loop

end Search

section BreadthFirst

open Search

variable {α : Type} [DecidableEq α] {successors : α → List α} {seeds : List α} {bound : Nat}

theorem nodup_breadthFirst : (breadthFirst successors bound seeds).Nodup :=
  (consistent_run bound).nodup

theorem reached_of_mem_breadthFirst {a : α} (ha : a ∈ breadthFirst successors bound seeds) :
    Reached successors seeds a :=
  (consistent_run bound).reached ha

theorem breadthFirst_parent {j : Nat} {b : α}
    (hj : (breadthFirst successors bound seeds)[j]? = some b) :
    b ∈ seeds ∨ ∃ (i : Nat) (a : α), i < j ∧
      (breadthFirst successors bound seeds)[i]? = some a ∧ b ∈ successors a :=
  (consistent_run bound).parent j b hj

/-- The nodes found are those of the stream of the nodes found. -/
theorem breadthFirst_eq (hbound : Covers successors seeds bound) :
    breadthFirst successors bound seeds =
      ((stream successors seeds (breadthFirst successors bound seeds)).foldl
        discover #[]).toList := by
  have hrun : Consistent successors seeds (run successors bound seeds) := consistent_run bound
  have h := hrun.found_eq
  have hfinished :
      (run successors bound seeds).found.size ≤ (run successors bound seeds).taken := by
    simpa [finished] using finished_run hbound
  rw [List.take_of_length_le (by simpa using hfinished)] at h
  exact congrArg Array.toList h

theorem mem_breadthFirst_iff_stream (hbound : Covers successors seeds bound) {a : α} :
    a ∈ breadthFirst successors bound seeds ↔
      a ∈ seeds ∨ ∃ b ∈ breadthFirst successors bound seeds, a ∈ successors b := by
  have h : a ∈ breadthFirst successors bound seeds ↔
      a ∈ stream successors seeds (breadthFirst successors bound seeds) := by
    conv_lhs => rw [breadthFirst_eq hbound]
    rw [Array.mem_toList_iff, mem_foldl_discover]
    simp
  rw [h, stream, List.mem_append, List.mem_flatMap]

theorem mem_breadthFirst (hbound : Covers successors seeds bound) {a : α} :
    a ∈ breadthFirst successors bound seeds ↔ Reached successors seeds a := by
  constructor
  · exact reached_of_mem_breadthFirst
  · intro h
    induction h with
    | seed ha => exact (mem_breadthFirst_iff_stream hbound).mpr (Or.inl ha)
    | next _ hb ih => exact (mem_breadthFirst_iff_stream hbound).mpr (Or.inr ⟨_, ih, hb⟩)

/-- Of two nodes, the one that was found earlier precedes every place of the other
one in the stream: it is a seed, a successor of a node in front of the one that is
looked at, or one of the first successors of that node. -/
theorem breadthFirst_order (hbound : Covers successors seeds bound) {i j k : Nat} {a b p : α}
    {u v : List α}
    (ha : (breadthFirst successors bound seeds)[i]? = some a)
    (hb : (breadthFirst successors bound seeds)[j]? = some b) (hij : i < j)
    (hp : (breadthFirst successors bound seeds)[k]? = some p)
    (hsuccessors : successors p = u ++ b :: v) :
    a ∈ seeds ∨ (∃ l q, l < k ∧ (breadthFirst successors bound seeds)[l]? = some q ∧
      a ∈ successors q) ∨ a ∈ u := by
  let found := breadthFirst successors bound seeds
  have hk : k < found.length := (List.getElem?_eq_some_iff.mp hp).1
  have hsplit : found = found.take k ++ p :: found.drop (k + 1) := by
    have hpk : found[k] = p := (List.getElem?_eq_some_iff.mp hp).2
    rw [← hpk, List.getElem_cons_drop, List.take_append_drop]
  have hstream : stream successors seeds found =
      (seeds ++ ((found.take k).flatMap successors ++ u)) ++
        b :: (v ++ (found.drop (k + 1)).flatMap successors) := by
    rw [stream]
    conv_lhs => rw [hsplit]
    simp [hsuccessors]
  rw [breadthFirst_eq hbound] at ha hb
  have hbefore := mem_of_discovered_before hstream ha hb hij
  cases List.mem_append.mp hbefore with
  | inl hseed =>
      exact Or.inl hseed
  | inr hrest =>
      cases List.mem_append.mp hrest with
      | inl hearlier =>
          rcases List.mem_flatMap.mp hearlier with ⟨q, hq, haq⟩
          rcases List.mem_iff_getElem?.mp hq with ⟨l, hl⟩
          have hlk : l < k := by
            have := (List.getElem?_eq_some_iff.mp hl).1
            rw [List.length_take] at this
            omega
          rw [List.getElem?_take_of_lt hlk] at hl
          exact Or.inr (Or.inl ⟨l, q, hlk, hl, haq⟩)
      | inr hsame =>
          exact Or.inr (Or.inr hsame)

end BreadthFirst

/-!
# Numbers that are found in order

In some graphs on numbers the search from zero does nothing but count.
-/

/-- Every number below the bound is a successor of a smaller one, and before a number
is met all smaller ones have been met. -/
structure Search.InOrder (successors : Nat → List Nat) (bound : Nat) : Prop where
  lt : ∀ p, ∀ q ∈ successors p, q < bound
  parent : ∀ j, 0 < j → j < bound → ∃ p, p < j ∧ j ∈ successors p
  earlier : ∀ i j p u v, 0 < i → i < j → successors p = u ++ j :: v →
    i ∈ u ∨ ∃ q, q < p ∧ i ∈ successors q

section InOrder

open Search

variable {successors : Nat → List Nat} {bound : Nat} (h : InOrder successors bound)
  (hbound : 0 < bound)

include h hbound

theorem Search.InOrder.reached_iff {q : Nat} : Reached successors [0] q ↔ q < bound := by
  constructor
  · intro hq
    cases hq with
    | seed hseed => exact List.mem_singleton.mp hseed ▸ hbound
    | next _ hnext => exact h.lt _ q hnext
  · intro hq
    induction q using Nat.strongRecOn with
    | ind q ih =>
        by_cases hzero : q = 0
        · exact Reached.seed (List.mem_singleton.mpr hzero)
        · rcases h.parent q (Nat.pos_of_ne_zero hzero) hq with ⟨p, hp, hnext⟩
          exact Reached.next (ih p hp (Nat.lt_trans hp hq)) hnext

theorem Search.InOrder.covers : Covers successors [0] bound :=
  covers_of_lt fun _ => (h.reached_iff hbound).mp

/-- If the numbers up to one stand in their places, no later number stands in its place:
the later one would have been met before the earlier one, and that before the later one. -/
theorem Search.InOrder.no_detour {j k l : Nat}
    (hbefore : ∀ i, i < j → (breadthFirst successors bound [0])[i]? = some i)
    (hj : 0 < j) (hk : (breadthFirst successors bound [0])[j]? = some k) (hjk : j < k)
    (hl : (breadthFirst successors bound [0])[l]? = some j) (hjl : j < l) (p : Nat)
    (hp : p < j) : k ∉ successors p := by
  induction p using Nat.strongRecOn with
  | ind p ih =>
      intro hkp
      rcases List.eq_append_cons_of_mem hkp with ⟨u, v, hsplit, hku⟩
      -- the smaller number is met first, on an edge of this node or of an earlier one
      have hmet : ∃ q x y, q ≤ p ∧ successors q = x ++ j :: y ∧ (q = p → k ∉ x) := by
        rcases h.earlier j k p u v hj hjk hsplit with hju | ⟨q, hq, hjq⟩
        · rcases List.append_of_mem hju with ⟨x, y, rfl⟩
          refine ⟨p, x, y ++ k :: v, Nat.le_refl p, by simp [hsplit], fun _ hkx => ?_⟩
          exact hku (List.mem_append_left _ hkx)
        · rcases List.append_of_mem hjq with ⟨x, y, hxy⟩
          exact ⟨q, x, y, Nat.le_of_lt hq, hxy, fun hqp => absurd hqp (Nat.ne_of_lt hq)⟩
      rcases hmet with ⟨q, x, y, hqp, hxy, hkx⟩
      have hq := hbefore q (Nat.lt_of_le_of_lt hqp hp)
      rcases breadthFirst_order (h.covers hbound) hk hl hjl hq hxy with
        hseed | ⟨i, r, hi, hr, hkr⟩ | hkx'
      · have := List.mem_singleton.mp hseed
        omega
      · rw [hbefore i (by omega)] at hr
        injection hr with hr
        exact ih i (by omega) (by omega) (hr ▸ hkr)
      · by_cases heq : q = p
        · exact hkx heq hkx'
        · refine ih q (by omega) (by omega) ?_
          rw [hxy]
          exact List.mem_append_left _ hkx'

theorem Search.InOrder.perm_range :
    (breadthFirst successors bound [0]).Perm (List.range bound) := by
  rw [List.perm_ext_iff_of_nodup nodup_breadthFirst List.nodup_range]
  intro q
  rw [mem_breadthFirst (h.covers hbound), h.reached_iff hbound, List.mem_range]

theorem Search.InOrder.length_breadthFirst :
    (breadthFirst successors bound [0]).length = bound := by
  simpa using (h.perm_range hbound).length_eq

theorem Search.InOrder.getElem?_breadthFirst (j : Nat) (hj : j < bound) :
    (breadthFirst successors bound [0])[j]? = some j := by
  induction j using Nat.strongRecOn with
  | ind j ih =>
      have hbefore : ∀ i, i < j → (breadthFirst successors bound [0])[i]? = some i :=
        fun i hi => ih i hi (Nat.lt_trans hi hj)
      have hmem : j ∈ breadthFirst successors bound [0] :=
        (h.perm_range hbound).mem_iff.mpr (List.mem_range.mpr hj)
      rcases List.mem_iff_getElem?.mp hmem with ⟨l, hl⟩
      have hplace : j < (breadthFirst successors bound [0]).length :=
        (h.length_breadthFirst hbound).symm ▸ hj
      have hfound : ∃ k, (breadthFirst successors bound [0])[j]? = some k :=
        ⟨_, List.getElem?_eq_getElem hplace⟩
      rcases hfound with ⟨k, hk⟩
      rcases Nat.lt_trichotomy j k with hjk | rfl | hkj
      · have hjl : j < l := by
          rcases Nat.lt_trichotomy j l with hjl | rfl | hlj
          · exact hjl
          · rw [hl] at hk
            injection hk with hk
            omega
          · rw [hbefore l hlj] at hl
            injection hl with hl
            omega
        rcases breadthFirst_parent hk with hseed | ⟨p, a, hp, ha, hka⟩
        · have := List.mem_singleton.mp hseed
          omega
        · rw [hbefore p hp] at ha
          injection ha with ha
          exact absurd (ha ▸ hka)
            (h.no_detour hbound hbefore (Nat.zero_lt_of_lt hp) hk hjk hl hjl p hp)
      · exact hk
      · have := getElem?_inj_of_nodup nodup_breadthFirst (hbefore k hkj) hk
        omega

theorem Search.InOrder.breadthFirst_eq :
    breadthFirst successors bound [0] = List.range bound := by
  have hlength := h.length_breadthFirst hbound
  apply List.ext_getElem?
  intro j
  by_cases hj : j < bound
  · rw [h.getElem?_breadthFirst hbound j hj, List.getElem?_range hj]
  · rw [List.getElem?_eq_none (by omega),
      List.getElem?_eq_none (by simpa using Nat.le_of_not_lt hj)]

end InOrder

end Recognizer
