import Recognizer.Proofs.Automaton.Label
import Recognizer.Proofs.Checked.Pipeline

/-!
# Reading drawings back

The text of a drawing falls apart into its entries again, whatever is written into the
states and on the edges: a quotation ends at the first quote without a backslash in front
of it, and the name that stands between the quotes is the one that was written there.
-/

namespace Recognizer

namespace Drawing

/-!
# Words and quotations
-/

/-- A piece of a line: a number, another word, a text in quotes, or the beginning of a text
in quotes that never ends. -/
inductive Token where
  | number (n : Nat)
  | word (s : String)
  | quotation (s : String)
  | unclosed
deriving DecidableEq, Repr

def Token.ofWord (w : List Char) : Token :=
  if w.all Char.isDigit then .number (Nat.ofDigitChars 10 w 0) else .word (String.ofList w)

inductive Mode where
  | between
  | word (w : List Char)
  | quotation (s : List Char)
  | escape (s : List Char)

/-- The lines of a text in pieces, behind the pieces of the current line, the last first.
Between quotes a backslash takes the special meaning from the next character. -/
def scan : Mode → List Token → List Char → List (List Token)
  | .between, line, [] => if line = [] then [] else [line.reverse]
  | .word w, line, [] => [(Token.ofWord w.reverse :: line).reverse]
  | .quotation _, line, [] => [(.unclosed :: line).reverse]
  | .escape _, line, [] => [(.unclosed :: line).reverse]
  | .between, line, c :: cs =>
      if c = '\n' then line.reverse :: scan .between [] cs
      else if c = ' ' then scan .between line cs
      else if c = '"' then scan (.quotation []) line cs
      else scan (.word [c]) line cs
  | .word w, line, c :: cs =>
      if c = '\n' then (Token.ofWord w.reverse :: line).reverse :: scan .between [] cs
      else if c = ' ' then scan .between (Token.ofWord w.reverse :: line) cs
      else if c = '"' then scan (.quotation []) (Token.ofWord w.reverse :: line) cs
      else scan (.word (c :: w)) line cs
  | .quotation s, line, c :: cs =>
      if c = '\\' then scan (.escape s) line cs
      else if c = '"' then scan .between (.quotation (String.ofList s.reverse) :: line) cs
      else scan (.quotation (c :: s)) line cs
  | .escape s, line, c :: cs => scan (.quotation (c :: s)) line cs

/-- What a line of a drawing says: nothing of the automaton, where it starts, a state with its
number, or an edge. -/
inductive Entry where
  | frame
  | start (q : Nat)
  | state (q : Nat) (name : String) (accepting : Bool)
  | edge (source target : Nat) (label : String)
deriving DecidableEq, Repr

def entry? : List Token → Option Entry
  | [.number q, .word "[", .word "label", .word "=", .quotation name,
      .word "shape", .word "=", .word shape, .word "]"] =>
      if shape = "circle" then some (.state q name false)
      else if shape = "doublecircle" then some (.state q name true)
      else none
  | [.number p, .word "->", .number q, .word "[", .word "label", .word "=", .quotation label,
      .word "]"] => some (.edge p q label)
  | [.word "entry", .word "->", .number q] => some (.start q)
  | [.word "digraph", .word "\x7b"] => some .frame
  | [.word "rankdir", .word "=", .word "LR"] => some .frame
  | [.word "entry", .word "[", .word "label", .word "=", .quotation "", .word "shape", .word "=",
      .word "none", .word "width", .word "=", .number 0, .word "]"] => some .frame
  | [.word "\x7d"] => some .frame
  | _ => none

def read (text : String) : Option (List Entry) := (scan .between [] text.toList).mapM entry?

/-!
# Pieces of a line
-/

section Pieces

variable {line : List Token} {cs : List Char}

theorem toList_quotedLabel (s : String) :
    (quotedLabel s).toList =
      '"' :: (s.toList.flatMap (fun c => (escapedChar c).toList) ++ ['"']) := by
  simp [quotedLabel, List.flatMap_def, Function.comp_def]

def replaced (c : Char) (new s : String) : String :=
  String.join (s.toList.map fun b => if b = c then new else b.toString)

theorem toList_replaced (c : Char) (new s : String) :
    (replaced c new s).toList =
      s.toList.flatMap fun b => if b = c then new.toList else [b] := by
  simp [replaced, List.flatMap_def, Function.comp_def, apply_ite String.toList]

/-- Backslashes have to be replaced first: those in front of the quotes come after. -/
theorem quotedLabel_eq_replaced (s : String) :
    quotedLabel s = "\"" ++ replaced '"' "\\\"" (replaced '\\' "\\\\" s) ++ "\"" := by
  have hchar : ∀ c, (if c = '\\' then "\\\\".toList else [c]).flatMap
      (fun b => if b = '"' then "\\\"".toList else [b]) = (escapedChar c).toList := by
    intro c
    by_cases hbackslash : c = '\\'
    · subst hbackslash
      rfl
    · by_cases hquote : c = '"'
      · subst hquote
        rfl
      · simp [escapedChar, hbackslash, hquote]
  apply String.toList_inj.mp
  rw [toList_quotedLabel, String.toList_append, String.toList_append, toList_replaced,
    toList_replaced, List.flatMap_assoc]
  simp only [hchar]
  rfl

/-- Inside of a quotation, no character of the quoted text ends it. -/
theorem scan_escaped (done s : List Char) :
    scan (.quotation done) line (s.flatMap (fun c => (escapedChar c).toList) ++ '"' :: cs) =
      scan .between (.quotation (String.ofList (done.reverse ++ s)) :: line) cs := by
  induction s generalizing done with
  | nil =>
      rw [List.append_nil]
      rfl
  | cons c s ih =>
      have hrest := ih (c :: done)
      rw [List.reverse_cons, List.append_assoc] at hrest
      rw [List.flatMap_cons, List.append_assoc, ← List.singleton_append (x := c), ← hrest]
      by_cases hbackslash : c = '\\'
      · subst hbackslash
        rfl
      · by_cases hquote : c = '"'
        · subst hquote
          rfl
        · simp [escapedChar, scan, hbackslash, hquote]

theorem scan_quotedLabel (s : String) :
    scan .between line ((quotedLabel s).toList ++ cs) =
      scan .between (.quotation s :: line) cs := by
  have hbody : scan (.quotation []) line
      (s.toList.flatMap (fun c => (escapedChar c).toList) ++ '"' :: cs) =
        scan .between (.quotation s :: line) cs := by
    rw [scan_escaped, List.reverse_nil, List.nil_append, String.ofList_toList]
  rw [toList_quotedLabel, List.cons_append, List.append_assoc, ← hbody]
  rfl

example : scan .between [] (quotedLabel "\\\" ]\n").toList = [[.quotation "\\\" ]\n"]] := by
  decide +kernel

theorem scan_ends_word {c : Char} (hc : c = ' ' ∨ c = '\n') (w : List Char) :
    scan (.word w) line (c :: cs) = scan .between (Token.ofWord w.reverse :: line) (c :: cs) := by
  cases hc with
  | inl hblank =>
      subst hblank
      rfl
  | inr hbreak =>
      subst hbreak
      rfl

theorem scan_word {w : List Char} (hw : ∀ c ∈ w, c ≠ '\n' ∧ c ≠ ' ' ∧ c ≠ '"')
    (done : List Char) :
    scan (.word done) line (w ++ cs) = scan (.word (w.reverse ++ done)) line cs := by
  induction w generalizing done with
  | nil => rfl
  | cons c w ih =>
      rw [List.forall_mem_cons] at hw
      rcases hw with ⟨⟨hbreak, hblank, hquote⟩, hw⟩
      rw [List.reverse_cons, List.append_assoc, List.singleton_append, ← ih hw]
      simp [scan, hbreak, hblank, hquote]

theorem ne_of_isDigit {c : Char} (h : c.isDigit = true) : c ≠ '\n' ∧ c ≠ ' ' ∧ c ≠ '"' := by
  refine ⟨?_, ?_, ?_⟩ <;> · rintro rfl; revert h; decide

theorem scan_number (n : Nat) {c : Char} (hc : c = ' ' ∨ c = '\n') :
    scan .between line ((toString n).toList ++ c :: cs) =
      scan .between (.number n :: line) (c :: cs) := by
  have hdigits : ∀ c ∈ Nat.toDigits 10 n, c.isDigit = true :=
    fun c hc => Nat.isDigit_of_mem_toDigits (by decide) (by decide) hc
  have hnumber : Token.ofWord (Nat.toDigits 10 n) = .number n := by
    unfold Token.ofWord
    rw [if_pos (List.all_eq_true.mpr hdigits), Nat.ofDigitChars_ten_toDigits]
  rw [Text.toList_toString_nat]
  cases hchars : Nat.toDigits 10 n with
  | nil => exact absurd hchars Nat.toDigits_ne_nil
  | cons d w =>
      rw [hchars] at hdigits hnumber
      rw [List.forall_mem_cons] at hdigits
      have hfirst : scan .between line (d :: w ++ c :: cs) =
          scan (.word [d]) line (w ++ c :: cs) := by
        simp [scan, ne_of_isDigit hdigits.1]
      rw [hfirst, scan_word (fun b hb => ne_of_isDigit (hdigits.2 b hb)), scan_ends_word hc,
        List.reverse_append, List.reverse_reverse, List.reverse_singleton, List.singleton_append,
        hnumber]

end Pieces

/-!
# Lines
-/

def ReadsAs (x : String) (e : Entry) : Prop :=
  ∃ tokens, entry? tokens = some e ∧
    ∀ cs, scan .between [] (x.toList ++ '\n' :: cs) = tokens :: scan .between [] cs

theorem readsAs_start (q : Nat) : ReadsAs ("    entry -> " ++ toString q) (.start q) := by
  have hentry : entry? [.word "entry", .word "->", .number q] = some (.start q) := rfl
  have hfirst : ∀ cs, scan .between [] ("    entry -> ".toList ++ cs) =
      scan .between [.word "->", .word "entry"] cs := fun _ => rfl
  refine ⟨_, hentry, fun cs => ?_⟩
  rw [String.toList_append, List.append_assoc, hfirst, scan_number q (Or.inr rfl)]
  rfl

theorem scan_indent (cs : List Char) :
    scan .between [] ("    ".toList ++ cs) = scan .between [] cs := rfl

theorem scan_attributes (line : List Token) (cs : List Char) :
    scan .between line (" [ label = ".toList ++ cs) =
      scan .between (.word "=" :: .word "label" :: .word "[" :: line) cs := rfl

theorem readsAs_stateLine (q : Nat) (s : DrawnState) :
    ReadsAs (stateLine q s) (.state q s.name s.accepting) := by
  rcases s with ⟨name, start, accepting⟩
  have hshape : ∀ line cs, scan .between line (" shape = ".toList ++ cs) =
      scan .between (.word "=" :: .word "shape" :: line) cs := fun _ _ => rfl
  have hnumber : ∀ cs, scan .between [] ((toString q).toList ++ (" [ label = ".toList ++ cs)) =
      scan .between [.number q] (" [ label = ".toList ++ cs) := fun cs => scan_number q (Or.inl rfl)
  simp only [ReadsAs, stateLine, String.toList_append, List.append_assoc, scan_indent, hnumber,
    scan_attributes, scan_quotedLabel, hshape]
  cases accepting with
  | true =>
      have hentry : entry? [.number q, .word "[", .word "label", .word "=", .quotation name,
          .word "shape", .word "=", .word "doublecircle", .word "]"] =
            some (.state q name true) := rfl
      refine ⟨_, hentry, fun cs => ?_⟩
      rw [if_pos rfl]
      rfl
  | false =>
      have hentry : entry? [.number q, .word "[", .word "label", .word "=", .quotation name,
          .word "shape", .word "=", .word "circle", .word "]"] =
            some (.state q name false) := rfl
      refine ⟨_, hentry, fun cs => ?_⟩
      rw [if_neg Bool.false_ne_true]
      rfl

theorem readsAs_edgeLine (e : DrawnEdge) :
    ReadsAs (edgeLine e) (.edge e.source e.target e.label) := by
  rcases e with ⟨source, target, label⟩
  have hentry : entry? [.number source, .word "->", .number target, .word "[", .word "label",
      .word "=", .quotation label, .word "]"] = some (.edge source target label) := rfl
  have harrow : ∀ line cs, scan .between line (" -> ".toList ++ cs) =
      scan .between (.word "->" :: line) cs := fun _ _ => rfl
  have hsource : ∀ cs, scan .between [] ((toString source).toList ++ (" -> ".toList ++ cs)) =
      scan .between [.number source] (" -> ".toList ++ cs) :=
    fun cs => scan_number source (Or.inl rfl)
  have htarget : ∀ line cs,
      scan .between line ((toString target).toList ++ (" [ label = ".toList ++ cs)) =
        scan .between (.number target :: line) (" [ label = ".toList ++ cs) :=
    fun line cs => scan_number target (Or.inl rfl)
  refine ⟨_, hentry, fun cs => ?_⟩
  simp only [edgeLine, String.toList_append, List.append_assoc, scan_indent, hsource, harrow,
    htarget, scan_attributes, scan_quotedLabel]
  rfl

theorem read_lines {xs : List String} {es : List Entry} (h : List.Forall₂ ReadsAs xs es) :
    read (Text.lines xs) = some es := by
  unfold read
  induction h with
  | nil => rfl
  | cons hline _ ih =>
      rcases hline with ⟨tokens, hentry, hscan⟩
      rw [Text.toList_lines_cons, hscan, List.mapM_cons, hentry, ih]
      rfl

/-!
# Whole drawings
-/

/-- The entries of the text: those around the drawing, the start, the states by their
numbers, and the edges. -/
def entries (g : Drawing) : List Entry :=
  [.frame, .frame, .frame, .start g.start]
    ++ g.states.mapIdx (fun q s => Entry.state q s.name s.accepting)
    ++ g.edges.map (fun e => Entry.edge e.source e.target e.label)
    ++ [.frame]

set_option maxRecDepth 1024 in
theorem readsAs_heading : List.Forall₂ ReadsAs
    ["digraph \x7b", "    rankdir = LR", "    entry [ label = \"\" shape = none width = 0 ]"]
    [.frame, .frame, .frame] := by
  refine List.Forall₂.cons ?_ (List.Forall₂.cons ?_ (List.Forall₂.cons ?_ List.Forall₂.nil))
  · exact ⟨[.word "digraph", .word "\x7b"], rfl, fun _ => rfl⟩
  · exact ⟨[.word "rankdir", .word "=", .word "LR"], rfl, fun _ => rfl⟩
  · exact ⟨[.word "entry", .word "[", .word "label", .word "=", .quotation "", .word "shape",
      .word "=", .word "none", .word "width", .word "=", .number 0, .word "]"], rfl, fun _ => rfl⟩

/-- The text of a drawing is read as the entries that it was made from. -/
theorem read_text (g : Drawing) : read g.text = some g.entries := by
  have hstart : List.Forall₂ ReadsAs ["    entry -> " ++ toString g.start] [.start g.start] :=
    List.Forall₂.cons (readsAs_start g.start) List.Forall₂.nil
  have hstates : List.Forall₂ ReadsAs (g.states.mapIdx stateLine)
      (g.states.mapIdx fun q s => Entry.state q s.name s.accepting) := by
    rw [List.mapIdx_eq_zipIdx_map, List.mapIdx_eq_zipIdx_map, List.forall₂_map_left_iff,
      List.forall₂_map_right_iff, List.forall₂_same]
    exact fun x _ => readsAs_stateLine x.2 x.1
  have hedges : List.Forall₂ ReadsAs (g.edges.map edgeLine)
      (g.edges.map fun e => .edge e.source e.target e.label) := by
    rw [List.forall₂_map_left_iff, List.forall₂_map_right_iff, List.forall₂_same]
    exact fun e _ => readsAs_edgeLine e
  have hclose : List.Forall₂ ReadsAs ["\x7d"] [.frame] :=
    List.Forall₂.cons ⟨[.word "\x7d"], rfl, fun _ => rfl⟩ List.Forall₂.nil
  have hlines := List.rel_append (List.rel_append (List.rel_append
    (List.rel_append readsAs_heading hstart) hstates) hedges) hclose
  exact read_lines hlines

def Entry.start? : Entry → Option Nat
  | .start q => some q
  | _ => none

def Entry.state? : Entry → Option (String × Bool)
  | .state _ name accepting => some (name, accepting)
  | _ => none

def Entry.edge? : Entry → Option (Nat × Nat × String)
  | .edge source target label => some (source, target, label)
  | _ => none

section Entries

variable (g : Drawing)

theorem start_entries : g.entries.filterMap Entry.start? = [g.start] := by
  simp [entries, List.mapIdx_eq_zipIdx_map, List.filterMap_cons, List.filterMap_map,
    Function.comp_def, Entry.start?]

theorem state_entries :
    g.entries.filterMap Entry.state? = g.states.map fun s => (s.name, s.accepting) := by
  have hfst : g.states.zipIdx.map Prod.fst = g.states := List.zipIdx_map_fst 0 g.states
  conv_rhs => rw [← hfst, List.map_map]
  simp [entries, List.mapIdx_eq_zipIdx_map, List.filterMap_cons, List.filterMap_map,
    Function.comp_def, Entry.state?]

theorem edge_entries :
    g.entries.filterMap Entry.edge? = g.edges.map fun e => (e.source, e.target, e.label) := by
  simp [entries, List.mapIdx_eq_zipIdx_map, List.filterMap_cons, List.filterMap_map,
    Function.comp_def, Entry.edge?]

end Entries

theorem agree_of_text_eq {g f : Drawing} (h : g.text = f.text) :
    g.start = f.start ∧
      g.states.map (fun s => (s.name, s.accepting)) =
        f.states.map (fun s => (s.name, s.accepting)) ∧
      g.edges.map (fun e => (e.source, e.target, e.label)) =
        f.edges.map (fun e => (e.source, e.target, e.label)) := by
  have hentries : g.entries = f.entries := by
    have hread := congrArg read h
    rw [read_text, read_text] at hread
    exact Option.some.inj hread
  have hstart := congrArg (List.filterMap Entry.start?) hentries
  have hstates := congrArg (List.filterMap Entry.state?) hentries
  have hedges := congrArg (List.filterMap Entry.edge?) hentries
  rw [start_entries, start_entries] at hstart
  rw [state_entries, state_entries] at hstates
  rw [edge_entries, edge_entries] at hedges
  exact ⟨List.head_eq_of_cons_eq hstart, hstates, hedges⟩

end Drawing

/-!
# Drawings of automata
-/

namespace Definition

variable {a b : Definition} {q : Nat}

theorem drawing_states (a : Definition) :
    (a.drawing .labels).states.map (fun s => (s.name, s.accepting)) =
      a.labels.mapIdx fun q label => (label, a.isAccepting q) := by
  apply List.ext_getElem?
  intro i
  simp [drawing, namesFor, Function.comp_def]

theorem WellFormed.mem_accepting_iff (ha : a.WellFormed) :
    q ∈ a.accepting ↔
      ∃ label, (a.labels.mapIdx fun q label => (label, a.isAccepting q))[q]? =
        some (label, true) := by
  simp only [List.getElem?_mapIdx, Option.map_eq_some_iff]
  constructor
  · intro h
    have hq : q < a.labels.length := by
      rw [labels, List.length_map, Array.length_toList]
      exact ha.accepting_lt q h
    exact ⟨a.labels[q], a.labels[q], List.getElem?_eq_getElem hq,
      by rw [isAccepting, decide_eq_true h]⟩
  · intro h
    rcases h with ⟨label, found, _, heq⟩
    injection heq with _ haccepting
    exact of_decide_eq_true haccepting

/-- What the text of a drawing with labels says of an automaton. -/
theorem agree_of_drawing_eq (ha : a.WellFormed) (hb : b.WellFormed)
    (h : (a.drawing .labels).text = (b.drawing .labels).text) :
    a.labels = b.labels ∧ a.start = b.start ∧ a.accepting = b.accepting ∧
      a.mergedEdges.map (fun e => (e.source, e.target, e.label)) =
        b.mergedEdges.map (fun e => (e.source, e.target, e.label)) := by
  rcases Drawing.agree_of_text_eq h with ⟨hstart, hstates, hedges⟩
  have hlabels := congrArg (List.map Prod.fst) hstates
  rw [List.map_map, List.map_map] at hlabels
  rw [drawing_states, drawing_states] at hstates
  have haccepting : a.accepting = b.accepting := by
    apply SortedSet.ext
    intro q
    rw [ha.mem_accepting_iff, hb.mem_accepting_iff, hstates]
  refine ⟨?_, hstart, haccepting, ?_⟩
  · rw [← a.names_drawing, ← b.names_drawing]
    exact hlabels
  · simpa [drawing, Function.comp_def] using hedges

end Definition

/-- The drawing of an automaton with its labels, whatever characters they hold, is read as
one entry for each state, in the order of their ids, and one for each merged edge.  So it
determines the labels, the start, the accepting states and the merged edges. -/
theorem Plan.read_drawing_build (e : Expr) (p : Plan) :
    let a := (p.build e).definition
    a.states.toList.map State.id = List.range a.states.size ∧
      Drawing.read (a.drawing .labels).text = some
        ([.frame, .frame, .frame, .start a.start]
          ++ a.labels.mapIdx (fun q label => Drawing.Entry.state q label (a.isAccepting q))
          ++ a.mergedEdges.map (fun e => Drawing.Entry.edge e.source e.target e.label)
          ++ [.frame]) ∧
      ∀ (e' : Expr) (p' : Plan), let b := (p'.build e').definition
        (a.drawing .labels).text = (b.drawing .labels).text →
          a.labels = b.labels ∧ a.start = b.start ∧ a.accepting = b.accepting ∧
            a.mergedEdges.map (fun e => (e.source, e.target, e.label)) =
              b.mergedEdges.map (fun e => (e.source, e.target, e.label)) := by
  intro a
  refine ⟨(p.presents_build e).formedOver.wellFormed.inPlace, ?_, ?_⟩
  · have hstates : (a.drawing .labels).states.mapIdx
          (fun q s => Drawing.Entry.state q s.name s.accepting) =
        a.labels.mapIdx fun q label => .state q label (a.isAccepting q) := by
      apply List.ext_getElem?
      intro i
      simp [Definition.drawing, Definition.namesFor, Function.comp_def]
    rw [Drawing.read_text, Drawing.entries, hstates]
    simp [Definition.drawing, Function.comp_def]
  · intro e' p' b
    exact Definition.agree_of_drawing_eq (p.presents_build e).formedOver.wellFormed
      (p'.presents_build e').formedOver.wellFormed

/-- A character that looks like the sign for reading nothing gives the same drawing. -/
theorem Plan.read_drawing_build_epsilon :
    let a := (Plan.build (.letter ⟨none, 'ε'⟩) ⟨.fragments, none⟩).definition
    let b := (Plan.build (.epsilon none) ⟨.fragments, none⟩).definition
    a ≠ b ∧ (a.drawing .labels).text = (b.drawing .labels).text ∧
      a.labels = b.labels ∧ a.start = b.start ∧ a.accepting = b.accepting ∧
        a.mergedEdges.map (fun e => (e.source, e.target, e.label)) =
          b.mergedEdges.map (fun e => (e.source, e.target, e.label)) := by
  intro a b
  have htext : (a.drawing .labels).text = (b.drawing .labels).text := by decide +kernel
  have hagree := (read_drawing_build (.letter ⟨none, 'ε'⟩) ⟨.fragments, none⟩).2.2 (.epsilon none)
    ⟨.fragments, none⟩ htext
  exact ⟨by decide +kernel, htext, hagree⟩

end Recognizer
