import Recognizer.Proofs.Automaton.Label
import Recognizer.Proofs.Checked.Pipeline

/-!
# Reading tables back

The table of an automaton with short names shows the whole formal definition.  Its lines
can be told apart, and so can the entries of a line: no entry holds a bar, and none ends
in a blank.  An entry is a name or a list of names, so the states that it stands for are
known from it.
-/

namespace Recognizer

/-!
# Rows
-/

def InEntry (c : Char) : Prop := c ≠ '\n' ∧ c ≠ '|'

instance : DecidablePred InEntry := fun _ => inferInstanceAs (Decidable (_ ∧ _))

theorem Expr.IsSymbol.inEntry {c : Char} (h : Expr.IsSymbol c) : InEntry c := by
  constructor <;> · rintro rfl; revert h; unfold Expr.IsSymbol; decide

def Unbroken (x : String) : Prop := ∀ c ∈ x.toList, InEntry c

instance : DecidablePred Unbroken := fun x => List.decidableBAll InEntry x.toList

namespace Unbroken

variable {x y : String} {xs : List String}

theorem break_not_mem (hx : Unbroken x) : '\n' ∉ x.toList := fun h => (hx _ h).1 rfl

theorem bar_not_mem (hx : Unbroken x) : '|' ∉ x.toList := fun h => (hx _ h).2 rfl

theorem append (hx : Unbroken x) (hy : Unbroken y) : Unbroken (x ++ y) := by
  unfold Unbroken
  rw [String.toList_append, List.forall_mem_append]
  exact ⟨hx, hy⟩

theorem padded (hx : Unbroken x) (n : Nat) : Unbroken (Text.padded n x) :=
  Text.forall_mem_padded (by decide) hx n

theorem braced (hxs : ∀ x ∈ xs, Unbroken x) : Unbroken (Text.braced xs) := by
  have hbetween : Unbroken "\x7b, \x7d" := by decide
  exact Text.forall_mem_braced hbetween hxs

end Unbroken

namespace Table

def barred (cells : List (List Char)) : List Char :=
  cells.flatMap fun cell => ' ' :: '|' :: ' ' :: cell

section Rows

variable {u v : List Char} {ps qs : List (List Char)}

theorem append_barred_ne (hu : '|' ∉ u) {p : List Char} : u ≠ v ++ barred (p :: ps) := by
  rintro rfl
  apply hu
  simp [barred]

/-- A row without bars in its entries falls apart in one way only. -/
theorem append_barred_inj (hu : '|' ∉ u) (hv : '|' ∉ v) (hps : ∀ p ∈ ps, '|' ∉ p)
    (hqs : ∀ q ∈ qs, '|' ∉ q) (h : u ++ barred ps = v ++ barred qs) : u = v ∧ ps = qs := by
  induction ps generalizing u v qs with
  | nil =>
      cases qs with
      | nil => exact ⟨List.append_cancel_right h, rfl⟩
      | cons q qs =>
          rw [barred, List.flatMap_nil, List.append_nil] at h
          exact absurd h (append_barred_ne hu)
  | cons p ps ih =>
      cases qs with
      | nil =>
          rw [barred, barred, List.flatMap_nil, List.append_nil] at h
          exact absurd h.symm (append_barred_ne hv)
      | cons q qs =>
          rw [List.forall_mem_cons] at hps hqs
          -- the blank in front of a bar goes with what stands before it
          have hsplit : (u ++ [' ']) ++ '|' :: ((' ' :: p) ++ barred ps) =
              (v ++ [' ']) ++ '|' :: ((' ' :: q) ++ barred qs) := by
            simpa [barred] using h
          rcases Text.eq_of_append_separator (by simp [hu]) (by simp [hv]) hsplit with
            ⟨hfirst, hrest⟩
          rcases ih (by simp [hps.1]) (by simp [hqs.1]) hps.2 hqs.2 hrest with ⟨hpq, hcells⟩
          injection hpq with _ hpq
          exact ⟨List.append_cancel_right hfirst, by rw [hpq, hcells]⟩

end Rows

/-- What an entry may be. -/
structure IsEntry (x : String) : Prop where
  unbroken : Unbroken x
  noTrailingBlank : Text.NoTrailingBlank x.toList

section Lines

variable {m n : Nat} {widths lengths : List Nat} {first top : String} {cells others : List String}

theorem toList_line (n : Nat) (widths : List Nat) (first : String) (cells : List String) :
    (line n widths first cells).toList = (Text.padded n first).toList ++
      barred ((cells.zip widths).map fun x => (Text.padded x.2 x.1).toList) := by
  simp [line, barred, List.flatMap_def, Function.comp_def]

theorem exists_of_mem_padded_cells {p : List Char} (hcells : ∀ x ∈ cells, Unbroken x)
    (hp : p ∈ (cells.zip widths).map fun x => (Text.padded x.2 x.1).toList) :
    ∃ x : String, Unbroken x ∧ p = x.toList := by
  rcases List.mem_map.mp hp with ⟨⟨x, width⟩, hx, rfl⟩
  exact ⟨_, (hcells x (List.of_mem_zip hx).1).padded width, rfl⟩

theorem break_not_mem_line (hfirst : Unbroken first) (hcells : ∀ x ∈ cells, Unbroken x) :
    '\n' ∉ (line n widths first cells).toList := by
  rw [toList_line, List.mem_append, barred, List.mem_flatMap]
  intro h
  rcases h with h | ⟨p, hp, h⟩
  · exact (hfirst.padded n).break_not_mem h
  · rcases exists_of_mem_padded_cells hcells hp with ⟨x, hx, rfl⟩
    have hblank : '\n' ≠ ' ' := by decide
    have hbar : '\n' ≠ '|' := by decide
    simp only [List.mem_cons, hblank, hbar, false_or] at h
    exact hx.break_not_mem h

theorem trimmed_cells (hcells : ∀ x ∈ cells, IsEntry x) (hlength : cells.length ≤ widths.length) :
    ((cells.zip widths).map fun x => (Text.padded x.2 x.1).toList).map
      (List.rdropWhile fun c => decide (c = ' ')) = cells.map String.toList := by
  have htrim : ∀ x ∈ cells.zip widths,
      (Text.padded x.2 x.1).toList.rdropWhile (fun c => decide (c = ' ')) = x.1.toList :=
    fun x hx => Text.rdropWhile_padded (hcells x.1 (List.of_mem_zip hx).1).noTrailingBlank x.2
  calc ((cells.zip widths).map fun x => (Text.padded x.2 x.1).toList).map
        (List.rdropWhile fun c => decide (c = ' '))
      = (cells.zip widths).map fun x => x.1.toList := by
        rw [List.map_map]
        exact List.map_congr_left htrim
    _ = ((cells.zip widths).map Prod.fst).map String.toList := by rw [List.map_map]; rfl
    _ = cells.map String.toList := by rw [List.map_fst_zip hlength]

/-- The cells of a line can be read off it, whatever the columns' widths are. -/
theorem line_inj (hfirst : Unbroken first) (htop : Unbroken top)
    (hcells : ∀ x ∈ cells, IsEntry x) (hothers : ∀ x ∈ others, IsEntry x)
    (hwidths : cells.length ≤ widths.length) (hlengths : others.length ≤ lengths.length)
    (h : line m widths first cells = line n lengths top others) : cells = others := by
  have hchars := congrArg String.toList h
  rw [toList_line, toList_line] at hchars
  have hbar : ∀ {widths : List Nat} {cells : List String}, (∀ x ∈ cells, IsEntry x) →
      ∀ p ∈ (cells.zip widths).map (fun x => (Text.padded x.2 x.1).toList), '|' ∉ p := by
    intro widths cells hcells p hp
    rcases exists_of_mem_padded_cells (fun x hx => (hcells x hx).unbroken) hp with ⟨x, hx, rfl⟩
    exact hx.bar_not_mem
  have hpadded := (append_barred_inj (hfirst.padded m).bar_not_mem (htop.padded n).bar_not_mem
    (hbar hcells) (hbar hothers) hchars).2
  have htrimmed := congrArg (List.map (List.rdropWhile fun c => decide (c = ' '))) hpadded
  rw [trimmed_cells hcells hwidths, trimmed_cells hothers hlengths] at htrimmed
  exact (List.map_injective_iff.mpr fun _ _ => String.toList_inj.mp) htrimmed

end Lines

/-!
# Tables with names
-/

/-- The states of the table have different names of plain characters, its symbols are plain
characters, and its edges are listed in order. -/
structure Readable (t : Table) : Prop where
  wellFormed : t.definition.WellFormed
  name_ne : ∀ q < t.definition.states.size, t.name q ≠ ""
  name_isSymbol : ∀ q < t.definition.states.size, ∀ c ∈ (t.name q).toList, Expr.IsSymbol c
  name_inj : ∀ p < t.definition.states.size, ∀ q < t.definition.states.size,
    t.name p = t.name q → p = q
  alphabet_isSymbol : ∀ c ∈ t.definition.alphabet, Expr.IsSymbol c
  increasing : ∀ q, SortedSet.Increasing (t.definition.edgesFrom q)
  target_unique : t.definition.kind = .dfa → ∀ p s q r,
    t.definition.HasEdge p s q → t.definition.HasEdge p s r → q = r

theorem exists_gridLines (t : Table) :
    ∃ n widths, widths.length = t.definition.columns.length ∧
      t.gridLines = line n widths "" (t.definition.columns.map Symbol.text) ::
        (List.range t.definition.states.size).map fun q =>
          line n widths (t.rowName q) (t.rowCells q) := by
  unfold gridLines
  dsimp only
  rw [List.zip_map', List.map_map]
  exact ⟨_, _, by simp, rfl⟩

namespace Readable

variable {t : Table} (ht : t.Readable) {q : Nat} {s : SortedSet Nat}

include ht

theorem isName (hq : q < t.definition.states.size) :
    Text.IsName (t.name q) ∧ t.name q ≠ trapLabel :=
  Text.isName_of_inLabel (ht.name_ne q hq) fun c hc => Or.inl (ht.name_isSymbol q hq c hc)

theorem isEntry_name (hq : q < t.definition.states.size) : IsEntry (t.name q) where
  unbroken := fun c hc => (ht.name_isSymbol q hq c hc).inEntry
  noTrailingBlank := by
    apply Text.noTrailingBlank_of_not_mem
    intro hblank
    have h := ht.name_isSymbol q hq ' ' hblank
    revert h
    unfold Expr.IsSymbol
    decide

theorem isEntry_setText (hs : ∀ q ∈ s, q < t.definition.states.size) : IsEntry (t.setText s) where
  unbroken := by
    apply Unbroken.braced
    intro x hx
    rcases List.mem_map.mp hx with ⟨q, hq, rfl⟩
    exact (ht.isEntry_name (hs q hq)).unbroken
  noTrailingBlank := Text.noTrailingBlank_braced _

theorem nested_names (hs : ∀ q ∈ s, q < t.definition.states.size) :
    ∀ x ∈ s.toList.map t.name, Text.Nested x := by
  intro x hx
  rcases List.mem_map.mp hx with ⟨q, hq, rfl⟩
  exact Text.Nested.name (ht.isName (hs q hq)).1

end Readable

/-- What an entry shows: no state, the one state that there can be, or a list of states. -/
inductive Shows (t : Table) : SortedSet Nat → String → Prop where
  | empty : Shows t .empty trapLabel
  | one {q : Nat} : q < t.definition.states.size → Shows t (.singleton q) (t.name q)
  | list {s : SortedSet Nat} : (∀ q ∈ s, q < t.definition.states.size) → Shows t s (t.setText s)

theorem Readable.shows_cellText {t : Table} (ht : t.Readable) (q : Nat) (c : Symbol) :
    t.Shows (t.definition.cell q c) (t.cellText (t.definition.cell q c)) := by
  have hmem : ∀ r ∈ t.definition.cell q c, r < t.definition.states.size :=
    ht.wellFormed.lt_of_mem_cell
  unfold cellText
  cases hlist : (t.definition.cell q c).toList with
  | nil =>
      have hempty : t.definition.cell q c = .empty :=
        SortedSet.isEmpty_iff.mp (List.isEmpty_iff.mpr hlist)
      rw [hempty]
      exact Shows.empty
  | cons r rest =>
      have hr : r ∈ t.definition.cell q c := SortedSet.mem_toList.mp (hlist ▸ List.mem_cons_self)
      cases hkind : t.definition.kind with
      | nfa => exact Shows.list hmem
      | dfa =>
          have hone : t.definition.cell q c = .singleton r := by
            apply SortedSet.ext
            intro p
            rw [SortedSet.mem_singleton]
            constructor
            · intro hp
              exact ht.target_unique hkind q c p r (Definition.mem_cell.mp hp)
                (Definition.mem_cell.mp hr)
            · rintro rfl
              exact hr
          rw [hone]
          exact Shows.one (hmem r hr)

theorem Readable.isEntry_of_shows {t : Table} (ht : t.Readable) {s : SortedSet Nat} {x : String}
    (h : t.Shows s x) : IsEntry x := by
  cases h with
  | empty => exact ⟨by decide, Text.noTrailingBlank_of_not_mem (by decide)⟩
  | one hq => exact ht.isEntry_name hq
  | list hs => exact ht.isEntry_setText hs

/-!
# Tables with the same text
-/

structure SameNames (t r : Table) : Prop where
  size_eq : t.definition.states.size = r.definition.states.size
  name_eq : ∀ q < t.definition.states.size, t.name q = r.name q

theorem SameNames.symm {t r : Table} (h : SameNames t r) : SameNames r t where
  size_eq := h.size_eq.symm
  name_eq := fun q hq => (h.name_eq q (h.size_eq ▸ hq)).symm

section SameText

variable {t r : Table} (ht : t.Readable) (hr : r.Readable)

include ht hr

theorem sameNames_of_setText_range
    (h : t.setText (.range t.definition.states.size) =
      r.setText (.range r.definition.states.size)) :
    SameNames t r := by
  have hnames := Text.Nested.braced_inj
    (ht.nested_names fun q hq => SortedSet.mem_range.mp hq)
    (hr.nested_names fun q hq => SortedSet.mem_range.mp hq) h
  have hsize : t.definition.states.size = r.definition.states.size := by
    simpa [SortedSet.range] using congrArg List.length hnames
  refine ⟨hsize, fun q hq => ?_⟩
  unfold SortedSet.range at hnames
  rw [hsize] at hnames
  exact List.map_inj_left.mp hnames q (List.mem_range.mpr (hsize ▸ hq))

end SameText

section SameNames

variable {t r : Table} {s u : SortedSet Nat} {x y : String} {p q : Nat}

theorem eq_of_name_eq (hnames : SameNames t r) (ht : t.Readable)
    (hp : p < t.definition.states.size) (hq : q < t.definition.states.size)
    (h : t.name p = r.name q) : p = q :=
  ht.name_inj p hp q hq (h.trans (hnames.name_eq q hq).symm)

theorem mem_of_names_eq (hnames : SameNames t r) (ht : t.Readable)
    (hs : ∀ q ∈ s, q < t.definition.states.size) (hu : ∀ q ∈ u, q < r.definition.states.size)
    (h : s.toList.map t.name = u.toList.map r.name) (hq : q ∈ s) : q ∈ u := by
  have hname : t.name q ∈ u.toList.map r.name := h ▸ List.mem_map_of_mem hq
  rcases List.mem_map.mp hname with ⟨p, hp, hpq⟩
  rw [eq_of_name_eq hnames ht (hs q hq) (hnames.size_eq ▸ hu p hp) hpq.symm]
  exact hp

theorem eq_of_setText_eq (hnames : SameNames t r) (ht : t.Readable) (hr : r.Readable)
    (hs : ∀ q ∈ s, q < t.definition.states.size) (hu : ∀ q ∈ u, q < r.definition.states.size)
    (h : t.setText s = r.setText u) : s = u := by
  have hlists := Text.Nested.braced_inj (ht.nested_names hs) (hr.nested_names hu) h
  apply SortedSet.ext
  intro q
  constructor
  · exact mem_of_names_eq hnames ht hs hu hlists
  · exact mem_of_names_eq hnames.symm hr hu hs hlists.symm

theorem eq_of_shows (hnames : SameNames t r) (ht : t.Readable) (hr : r.Readable)
    (hs : t.Shows s x) (hu : r.Shows u x) : s = u := by
  have htrap : Text.IsName trapLabel := by decide
  generalize hy : x = y at hu
  cases hs with
  | empty =>
      cases hu with
      | empty => rfl
      | one hq => exact absurd hy.symm (hr.isName hq).2
      | list _ => exact absurd hy htrap.ne_braced
  | @one p hp =>
      cases hu with
      | empty => exact absurd hy (ht.isName hp).2
      | @one q hq => rw [eq_of_name_eq hnames ht hp (hnames.size_eq ▸ hq) hy]
      | list _ => exact absurd hy (ht.isName hp).1.ne_braced
  | list hs =>
      cases hu with
      | empty => exact absurd hy.symm htrap.ne_braced
      | one hq => exact absurd hy.symm (hr.isName hq).1.ne_braced
      | list hu => exact eq_of_setText_eq hnames ht hr hs hu hy

end SameNames

/-!
# Texts of tables
-/

def textLines (t : Table) : List String :=
  ["Q  = " ++ t.setText (.range t.definition.states.size),
    "Σ  = " ++ Text.braced (t.definition.alphabet.toList.map Char.toString),
    "q0 = " ++ t.name t.definition.start,
    "F  = " ++ t.setText t.definition.accepting,
    "δ:"] ++ t.gridLines

namespace Readable

variable {t : Table} (ht : t.Readable) {q : Nat}

include ht

theorem nested_symbols :
    ∀ x ∈ t.definition.alphabet.toList.map Char.toString, Text.Nested x := by
  intro x hx
  rcases List.mem_map.mp hx with ⟨c, hc, rfl⟩
  refine Text.Nested.name (Text.isName_of_inLabel (by simp) fun b hb => Or.inl ?_).1
  rw [Char.toString_eq_singleton, String.toList_singleton, List.mem_singleton] at hb
  exact hb ▸ ht.alphabet_isSymbol c hc

theorem unbroken_symbols :
    ∀ x ∈ t.definition.alphabet.toList.map Char.toString, Unbroken x := by
  intro x hx b hb
  rcases List.mem_map.mp hx with ⟨c, hc, rfl⟩
  rw [Char.toString_eq_singleton, String.toList_singleton, List.mem_singleton] at hb
  exact hb ▸ (ht.alphabet_isSymbol c hc).inEntry

theorem unbroken_rowName (hq : q < t.definition.states.size) : Unbroken (t.rowName q) := by
  have hmarker : Unbroken (t.marker q) := by
    unfold marker
    cases decide (q = t.definition.start) <;> cases t.definition.isAccepting q <;> decide
  have hblank : Unbroken " " := by decide
  exact (hmarker.append hblank).append (ht.isEntry_name hq).unbroken

theorem isEntry_rowCells (q : Nat) : ∀ x ∈ t.rowCells q, IsEntry x := by
  intro x hx
  rcases List.mem_map.mp hx with ⟨c, _, rfl⟩
  exact ht.isEntry_of_shows (ht.shows_cellText q c)

theorem unbroken_header : ∀ x ∈ t.definition.columns.map Symbol.text, Unbroken x := by
  have hepsilon : Unbroken Symbol.epsilon.text := by decide
  unfold Definition.columns
  rw [List.map_append, List.forall_mem_append, List.map_map]
  constructor
  · exact ht.unbroken_symbols
  · split
    · simpa using hepsilon
    · simp

theorem break_not_mem_gridLines : ∀ x ∈ t.gridLines, '\n' ∉ x.toList := by
  have hempty : Unbroken "" := by decide
  rcases exists_gridLines t with ⟨n, widths, _, hgrid⟩
  rw [hgrid, List.forall_mem_cons]
  constructor
  · exact break_not_mem_line hempty ht.unbroken_header
  · intro x hx
    rcases List.mem_map.mp hx with ⟨q, hq, rfl⟩
    exact break_not_mem_line (ht.unbroken_rowName (List.mem_range.mp hq))
      fun x hx => (ht.isEntry_rowCells q x hx).unbroken

theorem break_not_mem_textLines : ∀ x ∈ t.textLines, '\n' ∉ x.toList := by
  have htitle : ∀ {title x : String}, Unbroken title → Unbroken x → '\n' ∉ (title ++ x).toList :=
    fun htitle hx => (htitle.append hx).break_not_mem
  unfold textLines
  rw [List.forall_mem_append]
  refine ⟨?_, ht.break_not_mem_gridLines⟩
  simp only [List.forall_mem_cons]
  refine ⟨?_, ?_, ?_, ?_, by decide, by simp⟩
  · exact htitle (by decide) (ht.isEntry_setText fun q hq => SortedSet.mem_range.mp hq).unbroken
  · exact htitle (by decide) (Unbroken.braced ht.unbroken_symbols)
  · exact htitle (by decide) (ht.isEntry_name ht.wellFormed.start_lt).unbroken
  · exact htitle (by decide) (ht.isEntry_setText ht.wellFormed.accepting_lt).unbroken

end Readable

section SameText

variable {t r : Table} {p q : Nat} {s : Symbol}

theorem columns_eq_of_rowCells_eq (halphabet : t.definition.alphabet = r.definition.alphabet)
    (h : t.rowCells q = r.rowCells q) : t.definition.columns = r.definition.columns := by
  have hlength : t.definition.columns.length = r.definition.columns.length := by
    simpa [rowCells] using congrArg List.length h
  unfold Definition.columns at hlength ⊢
  rw [halphabet] at hlength ⊢
  cases ht : t.definition.readsNothing <;> cases hr : r.definition.readsNothing <;>
    simp [ht, hr] at hlength ⊢

theorem hasEdge_of_rowCells_eq (hnames : SameNames t r) (ht : t.Readable) (hr : r.Readable)
    (hcolumns : t.definition.columns = r.definition.columns) (hp : p < t.definition.states.size)
    (hcells : t.rowCells p = r.rowCells p) (h : t.definition.HasEdge p s q) :
    r.definition.HasEdge p s q := by
  have hs : s ∈ t.definition.columns :=
    ht.wellFormed.symbol_mem_columns (Definition.mem_transitions (x := ⟨p, s, q⟩).mpr ⟨hp, h⟩)
  unfold rowCells at hcells
  rw [← hcolumns] at hcells
  have hcell := List.map_inj_left.mp hcells s hs
  have hset : t.definition.cell p s = r.definition.cell p s :=
    eq_of_shows hnames ht hr (ht.shows_cellText p s) (hcell ▸ hr.shows_cellText p s)
  exact Definition.mem_cell.mp (hset ▸ Definition.mem_cell.mpr h)

theorem rowCells_eq_of_gridLines_eq (ht : t.Readable) (hr : r.Readable)
    (hsize : t.definition.states.size = r.definition.states.size) (h : t.gridLines = r.gridLines)
    (hp : p < t.definition.states.size) : t.rowCells p = r.rowCells p := by
  rcases exists_gridLines t with ⟨m, widths, hwidths, ht_grid⟩
  rcases exists_gridLines r with ⟨n, lengths, hlengths, hr_grid⟩
  rw [ht_grid, hr_grid, ← hsize] at h
  injection h with _ hrows
  have hrow := List.map_inj_left.mp hrows p (List.mem_range.mpr hp)
  exact line_inj (ht.unbroken_rowName hp) (hr.unbroken_rowName (hsize ▸ hp)) (ht.isEntry_rowCells p)
    (hr.isEntry_rowCells p) (by simp [rowCells, hwidths]) (by simp [rowCells, hlengths]) hrow

theorem agree_of_text_eq (ht : t.Readable) (hr : r.Readable) (h : t.text = r.text) :
    t.definition.states.size = r.definition.states.size ∧
      t.definition.alphabet = r.definition.alphabet ∧
      t.definition.start = r.definition.start ∧
      t.definition.accepting = r.definition.accepting ∧
      t.definition.transitions = r.definition.transitions := by
  have hlines : t.textLines = r.textLines :=
    Text.lines_inj ht.break_not_mem_textLines hr.break_not_mem_textLines h
  unfold textLines at hlines
  rcases List.append_inj hlines rfl with ⟨hfixed, hgrid⟩
  simp only [List.cons.injEq, String.append_right_inj] at hfixed
  rcases hfixed with ⟨hstates, halphabet, hstart, haccepting, _⟩
  have hnames := sameNames_of_setText_range ht hr hstates
  have hsymbols : t.definition.alphabet = r.definition.alphabet := by
    have hlists := Text.Nested.braced_inj ht.nested_symbols hr.nested_symbols halphabet
    have hmembers := (List.map_injective_iff.mpr fun _ _ => String.singleton_inj.mp) hlists
    apply SortedSet.ext
    intro c
    rw [← SortedSet.mem_toList, hmembers, SortedSet.mem_toList]
  have hcells : ∀ p < t.definition.states.size, t.rowCells p = r.rowCells p :=
    fun p hp => rowCells_eq_of_gridLines_eq ht hr hnames.size_eq hgrid hp
  have hcolumns : t.definition.columns = r.definition.columns :=
    columns_eq_of_rowCells_eq hsymbols (hcells _ ht.wellFormed.start_lt)
  have hedges : t.definition.transitions = r.definition.transitions := by
    apply Definition.transitions_eq_of_hasEdge hnames.size_eq ht.increasing hr.increasing
    intro p s q hp
    constructor
    · exact hasEdge_of_rowCells_eq hnames ht hr hcolumns hp (hcells p hp)
    · exact hasEdge_of_rowCells_eq hnames.symm hr ht hcolumns.symm (hnames.size_eq ▸ hp)
        (hcells p hp).symm
  exact ⟨hnames.size_eq, hsymbols,
    eq_of_name_eq hnames ht ht.wellFormed.start_lt (hnames.size_eq ▸ hr.wellFormed.start_lt) hstart,
    eq_of_setText_eq hnames ht hr ht.wellFormed.accepting_lt hr.wellFormed.accepting_lt haccepting,
    hedges⟩

end SameText

/-!
# Tables with short names
-/

section Aliases

variable {a : Definition} {q : Nat}

theorem name_ofAliases (hq : q < a.states.size) :
    (ofAliases a).name q = "q" ++ toString (a.discoveryOrder.idxOf q) := by
  simp [ofAliases, name, Definition.aliases, hq]

/-- Short names tell states apart, as every state has its own place in the order of discovery. -/
theorem readable_ofAliases (ha : a.WellFormed) (halphabet : ∀ c ∈ a.alphabet, Expr.IsSymbol c)
    (hincreasing : ∀ q, SortedSet.Increasing (a.edgesFrom q))
    (hunique : a.kind = .dfa → ∀ p s q r, a.HasEdge p s q → a.HasEdge p s r → q = r) :
    (ofAliases a).Readable where
  wellFormed := ha
  name_ne := by
    intro q hq
    rw [name_ofAliases (a := a) hq]
    simp
  name_isSymbol := by
    intro q hq c hc
    rw [name_ofAliases (a := a) hq, String.toList_append, List.mem_append,
      Text.toList_toString_nat] at hc
    cases hc with
    | inl hc =>
        rw [List.mem_singleton.mp hc]
        unfold Expr.IsSymbol
        decide
    | inr hc =>
        exact Expr.IsSymbol.of_isDigit (Nat.isDigit_of_mem_toDigits (by decide) (by decide) hc)
  name_inj := by
    intro p hp q hq h
    rw [name_ofAliases (a := a) hp, name_ofAliases (a := a) hq, String.append_right_inj] at h
    exact (List.idxOf_inj ((Definition.mem_discoveryOrder ha).mpr hp)).mp (Text.toString_nat_inj h)
  alphabet_isSymbol := halphabet
  increasing := hincreasing
  target_unique := hunique

end Aliases

end Table

theorem Plan.readable_aliasTable {text rest : String} {e : Expr}
    (h : Expr.parsePrefix text = .ok (e, rest)) (p : Plan) :
    (Table.ofAliases (p.build e).definition).Readable := by
  have hformed := (p.presents_build e).formedOver
  apply Table.readable_ofAliases hformed.wellFormed
  · intro c hc
    rw [hformed.alphabet_eq] at hc
    exact (Expr.plain_of_parsePrefix h).1.isSymbol_of_mem_alphabet hc
  · cases p.build e with
    | nfa n => exact n.increasing_definition
    | dfa d => exact d.increasing_definition
  · cases p.build e with
    | nfa n =>
        intro hkind
        cases hkind
    | dfa d => exact fun _ _ _ _ _ => Dfa.target_unique

/-- The table with short names determines the automaton up to the labels of its states, whatever
the two automata are made from. -/
theorem Plan.agree_of_aliasTable_eq {text text' rest rest' : String} {e e' : Expr}
    (h : Expr.parsePrefix text = .ok (e, rest)) (h' : Expr.parsePrefix text' = .ok (e', rest'))
    (p p' : Plan)
    (htable : (Table.ofAliases (p.build e).definition).text =
      (Table.ofAliases (p'.build e').definition).text) :
    let a := (p.build e).definition
    let b := (p'.build e').definition
    a.states.size = b.states.size ∧ a.alphabet = b.alphabet ∧ a.start = b.start ∧
      a.accepting = b.accepting ∧ a.transitions = b.transitions :=
  Table.agree_of_text_eq (p.readable_aliasTable h) (p'.readable_aliasTable h') htable

theorem Plan.agree_of_aliasTable_eq_repeated :
    let e := Expr.concat (.letter ⟨none, 'a'⟩) (.star (.letter ⟨none, 'a'⟩))
    let e' := Expr.plus (.letter ⟨none, 'a'⟩)
    let a := (Plan.build e ⟨.positions, some ⟨false, 1⟩⟩).definition
    let b := (Plan.build e' ⟨.fragments, some ⟨false, 1⟩⟩).definition
    Expr.parsePrefix "aa*" = .ok (e, "") ∧ Expr.parsePrefix "a+" = .ok (e', "") ∧
      (Table.ofAliases a).text = (Table.ofAliases b).text ∧
      a.states.size = b.states.size ∧ a.alphabet = b.alphabet ∧ a.start = b.start ∧
        a.accepting = b.accepting ∧ a.transitions = b.transitions := by
  intro e e' a b
  have h : Expr.parsePrefix "aa*" = .ok (e, "") := by decide +kernel
  have h' : Expr.parsePrefix "a+" = .ok (e', "") := by decide +kernel
  have htable : (Table.ofAliases a).text = (Table.ofAliases b).text := by decide +kernel
  exact ⟨h, h', htable, agree_of_aliasTable_eq h h' ⟨.positions, some ⟨false, 1⟩⟩
    ⟨.fragments, some ⟨false, 1⟩⟩ htable⟩

end Recognizer
