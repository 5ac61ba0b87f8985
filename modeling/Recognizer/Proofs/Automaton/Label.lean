import Recognizer.Automaton.Drawing
import Recognizer.Automaton.Table
import Recognizer.Proofs.Automaton.Reduced
import Recognizer.Proofs.Expr.RoundTrip
import Recognizer.Proofs.Text.Listing
import Recognizer.Proofs.Trace.Outcome

/-!
# Labels

The states of the automata of an expression that was read are told apart by their labels.
The labels of sets and of classes are lists in braces, which can be read in one way only:
different sets have different lists, and the list of a class nests one level deeper than
the label of any set.
-/

namespace Recognizer

/-!
# Lists of labels
-/

section Lists

variable {states : Array State} {s t : SortedSet Nat}

theorem State.InPlace.eq_of_labels_eq (h : State.InPlace states)
    (hnodup : (states.toList.map State.label).Nodup) (hs : ∀ q ∈ s, q < states.size)
    (ht : ∀ q ∈ t, q < states.size)
    (hlabels : s.toList.filterMap (fun q => states[q]?.map State.label) =
      t.toList.filterMap (fun q => states[q]?.map State.label)) : s = t := by
  have hunique : Relator.LeftUnique
      (fun (q : Nat) (label : String) => states[q]? = some ⟨q, label⟩) := by
    intro q r label hq hr
    have hlabel : ∀ p : Nat, states[p]? = some ⟨p, label⟩ →
        (states.toList.map State.label)[p]? = some label := by
      intro p hp
      rw [List.getElem?_map, Array.getElem?_toList, hp]
      rfl
    exact getElem?_inj_of_nodup hnodup (hlabel q hq) (hlabel r hr)
  have hs_shown := h.forall₂_labels hs
  rw [hlabels] at hs_shown
  have hlists := List.left_unique_forall₂' hunique hs_shown (h.forall₂_labels ht)
  apply SortedSet.ext
  intro q
  rw [← SortedSet.mem_toList, hlists, SortedSet.mem_toList]

theorem State.mem_labels_of_mem_filterMap {label : String} {qs : List Nat}
    (h : label ∈ qs.filterMap (fun q => states[q]?.map State.label)) :
    label ∈ states.toList.map State.label := by
  rcases List.mem_filterMap.mp h with ⟨q, _, hq⟩
  rcases Option.map_eq_some_iff.mp hq with ⟨s, hs, rfl⟩
  exact List.mem_map_of_mem (Array.mem_toList_iff.mpr (Array.mem_of_getElem? hs))

theorem State.labels_numbered (labels : List String) :
    (State.numbered labels).toList.map State.label = labels := by
  apply List.ext_getElem?
  intro i
  rw [List.getElem?_map, Array.getElem?_toList, State.label_numbered]

end Lists

/-!
# Numbers and letters as names
-/

theorem Expr.Plain.isSymbol_linearized {e : Expr} {l : Letter} (he : e.Plain)
    (hl : l ∈ e.linearized.letters) : Expr.IsSymbol l.symbol := by
  apply he.isSymbol_of_mem_alphabet
  rw [← alphabet_congr (language_numberedFrom e 1)]
  exact SortedSet.mem_ofList.mpr (List.mem_map_of_mem hl)

theorem Expr.IsSymbol.of_isDigit {c : Char} (h : c.isDigit = true) : Expr.IsSymbol c := by
  have hbounds : 48 ≤ c.val ∧ c.val ≤ 57 := by simpa [Char.isDigit] using h
  exact Or.inr (Or.inr hbounds)

namespace Text

def InLabel (c : Char) : Prop := Expr.IsSymbol c ∨ c = '[' ∨ c = ']'

theorem InLabel.ne {c : Char} (h : InLabel c) :
    c ≠ ',' ∧ c ≠ '\x7b' ∧ c ≠ '\x7d' ∧ c ≠ '∅' := by
  refine ⟨?_, ?_, ?_, ?_⟩ <;> · rintro rfl; revert h; unfold InLabel Expr.IsSymbol; decide

theorem isName_of_inLabel {x : String} (hne : x ≠ "") (hx : ∀ c ∈ x.toList, InLabel c) :
    IsName x ∧ x ≠ trapLabel := by
  refine ⟨⟨hne, fun c hc => ?_⟩, ?_⟩
  · have hc := (hx c hc).ne
    exact ⟨hc.1, hc.2.1, hc.2.2.1⟩
  · rintro rfl
    exact (hx '∅' (by decide)).ne.2.2.2 rfl

theorem toList_toString_nat (n : Nat) : (toString n).toList = Nat.toDigits 10 n := by
  rw [Nat.toString_eq_ofList_toDigits, String.toList_ofList]

theorem inLabel_of_mem_digits {n : Nat} {c : Char} (h : c ∈ Nat.toDigits 10 n) : InLabel c :=
  Or.inl (Expr.IsSymbol.of_isDigit (Nat.isDigit_of_mem_toDigits (by decide) (by decide) h))

theorem toDigits_inj {m n : Nat} (h : Nat.toDigits 10 m = Nat.toDigits 10 n) : m = n := by
  have hvalues := congrArg (fun digits => Nat.ofDigitChars 10 digits 0) h
  rwa [Nat.ofDigitChars_ten_toDigits, Nat.ofDigitChars_ten_toDigits] at hvalues

theorem toString_nat_inj {m n : Nat} (h : toString m = toString n) : m = n := by
  apply toDigits_inj
  rw [← toList_toString_nat, ← toList_toString_nat, h]

theorem isName_toString_nat (n : Nat) : IsName (toString n) ∧ toString n ≠ trapLabel := by
  apply isName_of_inLabel
  · intro h
    have hchars := congrArg String.toList h
    rw [toList_toString_nat] at hchars
    exact Nat.toDigits_ne_nil hchars
  · intro c hc
    rw [toList_toString_nat] at hc
    exact inLabel_of_mem_digits hc

end Text

namespace Letter

variable {a b : Letter} {i j : Nat}

theorem toList_text (ha : a.position = some i) :
    a.text.toList = a.symbol :: '[' :: (Nat.toDigits 10 i ++ [']']) := by
  unfold text
  rw [ha]
  simp

theorem text_inj (ha : a.position = some i) (hb : b.position = some j) (h : a.text = b.text) :
    a = b := by
  have hchars := congrArg String.toList h
  rw [toList_text ha, toList_text hb] at hchars
  injection hchars with hsymbol hchars
  injection hchars with _ hchars
  have hij := Text.toDigits_inj (List.append_cancel_right hchars)
  cases a
  cases b
  simp_all

theorem isName_text (ha : a.position = some i) (hsymbol : Expr.IsSymbol a.symbol) :
    Text.IsName a.text ∧ a.text ≠ trapLabel := by
  have hchars := toList_text ha
  apply Text.isName_of_inLabel
  · intro h
    rw [h] at hchars
    cases hchars
  · rw [hchars]
    intro c hc
    rcases List.mem_cons.mp hc with rfl | hc
    · exact Or.inl hsymbol
    · rcases List.mem_cons.mp hc with rfl | hc
      · exact Or.inr (Or.inl rfl)
      · cases List.mem_append.mp hc with
        | inl hc => exact Text.inLabel_of_mem_digits hc
        | inr hc => exact Or.inr (Or.inr (List.mem_singleton.mp hc))

end Letter

/-!
# Labels of the nondeterministic automata
-/

structure Named (labels : List String) : Prop where
  nodup : labels.Nodup
  isName : ∀ label ∈ labels, Text.IsName label ∧ label ≠ trapLabel

theorem named_cons_iff {label : String} {labels : List String} :
    Named (label :: labels) ↔
      (Text.IsName label ∧ label ≠ trapLabel) ∧ label ∉ labels ∧ Named labels := by
  constructor
  · intro h
    have hnodup := List.nodup_cons.mp h.nodup
    have hnames := List.forall_mem_cons.mp h.isName
    exact ⟨hnames.1, hnodup.1, hnodup.2, hnames.2⟩
  · intro h
    exact ⟨List.nodup_cons.mpr ⟨h.2.1, h.2.2.nodup⟩, List.forall_mem_cons.mpr ⟨h.1, h.2.2.isName⟩⟩

namespace Nfa

variable {e : Expr}

theorem named_ofPositions (he : e.Plain) : Named (ofPositions e).definition.labels := by
  have hletters := Expr.numberedWithin_letters e 1
  have hlabels : (ofPositions e).definition.labels =
      "q0" :: e.linearized.letters.map Letter.text := State.labels_numbered _
  rw [hlabels, named_cons_iff]
  refine ⟨by decide, ?_, ?_, ?_⟩
  · intro h
    rcases List.mem_map.mp h with ⟨l, hl, htext⟩
    rcases hletters.bounds l hl with ⟨p, hp, _⟩
    have hchars := congrArg String.toList htext
    rw [Letter.toList_text hp] at hchars
    simp at hchars
  · apply List.Nodup.map_on _ hletters.nodup
    intro a ha b hb h
    rcases hletters.bounds a ha with ⟨i, hi, _⟩
    rcases hletters.bounds b hb with ⟨j, hj, _⟩
    exact Letter.text_inj hi hj h
  · intro label hlabel
    rcases List.mem_map.mp hlabel with ⟨l, hl, rfl⟩
    rcases hletters.bounds l hl with ⟨p, hp, _⟩
    exact Letter.isName_text hp (he.isSymbol_linearized hl)

theorem named_ofFragments (e : Expr) : Named (ofFragments e).definition.labels := by
  have hlabels : ∃ k, (ofFragments e).definition.labels = (List.range k).map toString :=
    ⟨_, State.labels_numbered _⟩
  rcases hlabels with ⟨k, hlabels⟩
  rw [hlabels]
  constructor
  · exact List.nodup_range.map (fun _ _ h => Text.toString_nat_inj h)
  · intro label hlabel
    rcases List.mem_map.mp hlabel with ⟨i, _, rfl⟩
    exact Text.isName_toString_nat i

end Nfa

theorem Construction.named_build (k : Construction) {e : Expr} (he : e.Plain) :
    Named (k.build e).definition.labels := by
  cases k with
  | positions => exact Nfa.named_ofPositions he
  | fragments => exact Nfa.named_ofFragments e

/-!
# Labels of the deterministic automata
-/

/-- The labels are different nested lists, and none of them is a list of some of them: such
a list nests deeper. -/
structure OneLevel (labels : List String) : Prop where
  nodup : labels.Nodup
  nested : ∀ label ∈ labels, Text.Nested label
  ne_braced : ∀ label ∈ labels, ∀ items, items ≠ [] → (∀ item ∈ items, item ∈ labels) →
    label ≠ Text.braced items

/-- The label of a set of states: the sign for the empty set, or a list of names. -/
inductive IsSetLabel : String → Prop where
  | empty : IsSetLabel trapLabel
  | list {names : List String} :
      (∀ name ∈ names, Text.IsName name ∧ name ≠ trapLabel) → IsSetLabel (Text.braced names)

namespace IsSetLabel

variable {label : String}

theorem nested (h : IsSetLabel label) : Text.Nested label := by
  cases h with
  | empty => exact Text.Nested.name (by decide)
  | list hnames => exact Text.Nested.list fun name hname => Text.Nested.name (hnames name hname).1

theorem eq_trapLabel_of_isName (h : IsSetLabel label) (hname : Text.IsName label) :
    label = trapLabel := by
  cases h with
  | empty => rfl
  | list _ => exact absurd rfl hname.ne_braced

/-- A list of labels of sets nests too deep for a set. -/
theorem ne_braced (h : IsSetLabel label) {items : List String} (hne : items ≠ [])
    (hitems : ∀ item ∈ items, IsSetLabel item) : label ≠ Text.braced items := by
  intro hbraced
  cases h with
  | empty => exact Dfa.braced_ne_trapLabel items hbraced.symm
  | list hnames =>
      have hequal := Text.Nested.braced_inj
        (fun name hname => Text.Nested.name (hnames name hname).1)
        (fun item hitem => (hitems item hitem).nested) hbraced
      subst hequal
      rcases List.exists_mem_of_ne_nil _ hne with ⟨name, hname⟩
      have hboth := hnames name hname
      exact hboth.2 ((hitems name hname).eq_trapLabel_of_isName hboth.1)

end IsSetLabel

section Subsets

variable {n : Nfa} (hn : n.WellFormed) (hnamed : Named n.definition.labels)

theorem Nfa.subsetLabel_of_nonempty {s : SortedSet Nat} (hs : s ≠ .empty) :
    n.subsetLabel s = Text.braced (s.toList.filterMap fun q => n.states[q]?.map State.label) :=
  if_neg (fun h => hs (SortedSet.isEmpty_iff.mp h))

include hnamed

theorem Nfa.isSetLabel_subsetLabel (s : SortedSet Nat) : IsSetLabel (n.subsetLabel s) := by
  by_cases hs : s = .empty
  · rw [Dfa.subsetLabel_eq_trapLabel_iff.mpr hs]
    exact IsSetLabel.empty
  · rw [subsetLabel_of_nonempty hs]
    exact IsSetLabel.list fun name hname =>
      hnamed.isName name (State.mem_labels_of_mem_filterMap hname)

include hn

theorem Nfa.subsetLabel_inj {s t : SortedSet Nat} (hs : ∀ q ∈ s, q < n.states.size)
    (ht : ∀ q ∈ t, q < n.states.size) (h : n.subsetLabel s = n.subsetLabel t) : s = t := by
  by_cases hs_empty : s = .empty
  · rw [Dfa.subsetLabel_eq_trapLabel_iff.mpr hs_empty] at h
    rw [hs_empty, Dfa.subsetLabel_eq_trapLabel_iff.mp h.symm]
  · by_cases ht_empty : t = .empty
    · rw [Dfa.subsetLabel_eq_trapLabel_iff.mpr ht_empty] at h
      exact absurd (Dfa.subsetLabel_eq_trapLabel_iff.mp h) hs_empty
    · rw [subsetLabel_of_nonempty hs_empty, subsetLabel_of_nonempty ht_empty] at h
      have hnames : ∀ qs : List Nat,
          ∀ label ∈ qs.filterMap (fun q => n.states[q]?.map State.label), Text.Nested label :=
        fun qs label hlabel =>
          .name (hnamed.isName label (State.mem_labels_of_mem_filterMap hlabel)).1
      exact hn.inPlace.eq_of_labels_eq hnamed.nodup hs ht
        (Text.Nested.braced_inj (hnames _) (hnames _) h)

theorem Dfa.oneLevel_ofSubsets (trap : Bool) :
    OneLevel (ofSubsets n trap).definition.labels := by
  have hlabels : (ofSubsets n trap).definition.labels = (n.subsets trap).map n.subsetLabel :=
    State.labels_numbered _
  have hmembers : ∀ s ∈ n.subsets trap, ∀ q ∈ s, q < n.states.size :=
    fun s hs => Nfa.lt_of_mem_reached hn (reached_of_mem_breadthFirst hs)
  have hset : ∀ label ∈ (ofSubsets n trap).definition.labels, IsSetLabel label := by
    intro label hlabel
    rw [hlabels] at hlabel
    rcases List.mem_map.mp hlabel with ⟨s, _, rfl⟩
    exact Nfa.isSetLabel_subsetLabel hnamed s
  constructor
  · rw [hlabels]
    exact Nfa.nodup_subsets.map_on (fun s hs t ht =>
      Nfa.subsetLabel_inj hn hnamed (hmembers s hs) (hmembers t ht))
  · exact fun label hlabel => (hset label hlabel).nested
  · exact fun label hlabel items hne hitems =>
      (hset label hlabel).ne_braced hne fun item hitem => hset item (hitems item hitem)

end Subsets

namespace Dfa

variable {d : Dfa}

theorem classLabel_cases (d : Dfa) (s : SortedSet Nat) :
    (∃ label, s.toList.filterMap (fun q => d.states[q]?.map State.label) = [label] ∧
      d.classLabel s = label) ∨
    d.classLabel s = Text.braced (s.toList.filterMap fun q => d.states[q]?.map State.label) := by
  unfold classLabel
  split
  · rename_i label hlabel
    exact Or.inl ⟨label, hlabel, rfl⟩
  · exact Or.inr rfl

section Classes

variable (hd : d.WellFormed) (hlabels : OneLevel d.definition.labels) {s t : SortedSet Nat}

include hd hlabels

theorem ne_braced_labels_of_mem_classes {label : String} (hlabel : label ∈ d.definition.labels)
    (hs : s ∈ d.classes) :
    label ≠ Text.braced (s.toList.filterMap fun q => d.states[q]?.map State.label) := by
  apply hlabels.ne_braced label hlabel
  · intro hnil
    have hempty : s = .empty := hd.inPlace.eq_of_labels_eq hlabels.nodup
      (fun q hq => lt_of_mem_class hd hs hq) (by simp) hnil
    rcases exists_mem_class hd hs with ⟨q, hq⟩
    exact SortedSet.not_mem_empty (hempty ▸ hq)
  · intro item hitem
    exact State.mem_labels_of_mem_filterMap hitem

theorem classLabel_inj (hs : s ∈ d.classes) (ht : t ∈ d.classes)
    (h : d.classLabel s = d.classLabel t) : s = t := by
  have hnested : ∀ qs : List Nat,
      ∀ label ∈ qs.filterMap (fun q => d.states[q]?.map State.label), Text.Nested label :=
    fun qs label hlabel => hlabels.nested label (State.mem_labels_of_mem_filterMap hlabel)
  have hmem : ∀ {label : String} {u : SortedSet Nat},
      u.toList.filterMap (fun q => d.states[q]?.map State.label) = [label] →
        label ∈ d.definition.labels :=
    fun hlist => State.mem_labels_of_mem_filterMap (hlist ▸ List.mem_singleton.mpr rfl)
  apply hd.inPlace.eq_of_labels_eq hlabels.nodup (fun q hq => lt_of_mem_class hd hs hq)
    (fun q hq => lt_of_mem_class hd ht hq)
  rcases d.classLabel_cases s with ⟨label, hs_list, hs_label⟩ | hs_braced
  · rcases d.classLabel_cases t with ⟨other, ht_list, ht_label⟩ | ht_braced
    · rw [hs_list, ht_list, ← hs_label, ← ht_label, h]
    · rw [hs_label, ht_braced] at h
      exact absurd h (ne_braced_labels_of_mem_classes hd hlabels (hmem hs_list) ht)
  · rcases d.classLabel_cases t with ⟨other, ht_list, ht_label⟩ | ht_braced
    · rw [hs_braced, ht_label] at h
      exact absurd h.symm (ne_braced_labels_of_mem_classes hd hlabels (hmem ht_list) hs)
    · rw [hs_braced, ht_braced] at h
      exact Text.Nested.braced_inj (hnested _) (hnested _) h

theorem nodup_labels_quotient : d.quotient.definition.labels.Nodup := by
  have hclasses : d.quotient.definition.labels = d.classes.map d.classLabel :=
    State.labels_numbered _
  rw [hclasses]
  exact (nodup_classes d).map_on (fun _ hs _ ht => classLabel_inj hd hlabels hs ht)

end Classes

theorem repeat_quotient (hd : d.WellFormed) (k : Nat) :
    Nat.repeat quotient (k + 1) d = d.quotient := by
  induction k with
  | zero => rfl
  | succ k ih =>
      show quotient (Nat.repeat quotient (k + 1) d) = d.quotient
      rw [ih]
      exact quotient_of_reduced (wellFormed_quotient hd) (reduced_quotient hd)

end Dfa

theorem Determinization.nodup_labels {n : Nfa} (hn : n.WellFormed)
    (hnamed : Named n.definition.labels) (p : Determinization) :
    (p.build n).definition.labels.Nodup := by
  rcases p with ⟨trap, quotients⟩
  have honeLevel := Dfa.oneLevel_ofSubsets hn hnamed trap
  have hsubsets : (Dfa.ofSubsets n trap).WellFormed := Dfa.wellFormed_ofSubsets hn
  show (Nat.repeat Dfa.quotient quotients (Dfa.ofSubsets n trap)).definition.labels.Nodup
  cases quotients with
  | zero => exact honeLevel.nodup
  | succ k =>
      rw [Dfa.repeat_quotient hsubsets]
      exact Dfa.nodup_labels_quotient hsubsets honeLevel

theorem Definition.names_drawing (a : Definition) :
    (a.drawing .labels).states.map DrawnState.name = a.labels := by
  apply List.ext_getElem?
  intro i
  simp [drawing, namesFor, Function.comp_def]

/-- The states of every automaton of an expression that was read have different labels, and
so have the rows of its table and the states of its drawing. -/
theorem Plan.nodup_labels_build {text rest : String} {e : Expr}
    (h : Expr.parsePrefix text = .ok (e, rest)) (p : Plan) :
    (p.build e).definition.labels.Nodup ∧
      (Table.ofLabels (p.build e).definition).names.toList.Nodup ∧
      (((p.build e).definition.drawing .labels).states.map DrawnState.name).Nodup := by
  have hnodup : (p.build e).definition.labels.Nodup := by
    rcases p with ⟨construction, determinization⟩
    have hnamed := construction.named_build (Expr.plain_of_parsePrefix h).1
    cases determinization with
    | none => exact hnamed.nodup
    | some q => exact q.nodup_labels (construction.build_recognizes e).wellFormed hnamed
  refine ⟨hnodup, hnodup, ?_⟩
  rw [Definition.names_drawing]
  exact hnodup

/-- Labels of classes beside those of sets and of the trap. -/
theorem Plan.nodup_labels_build_merged :
    let e := Expr.choice (.letter ⟨none, 'a'⟩) (.letter ⟨none, 'b'⟩)
    let a := (Plan.build e ⟨.positions, some ⟨true, 2⟩⟩).definition
    Expr.parsePrefix "a|b" = .ok (e, "") ∧
      a.labels.Nodup ∧ (Table.ofLabels a).names.toList.Nodup ∧
        ((a.drawing .labels).states.map DrawnState.name).Nodup := by
  intro e a
  have hread : Expr.parsePrefix "a|b" = .ok (e, "") := by decide +kernel
  exact ⟨hread, nodup_labels_build hread ⟨.positions, some ⟨true, 2⟩⟩⟩

example : (Plan.build (.choice (.letter ⟨none, 'a'⟩) (.letter ⟨none, 'b'⟩))
    ⟨.positions, some ⟨true, 2⟩⟩).definition.labels =
      ["\x7bq0\x7d", "\x7b\x7ba[1]\x7d, \x7bb[2]\x7d\x7d", "∅"] := by
  decide +kernel

end Recognizer
