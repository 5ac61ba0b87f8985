import Recognizer.Proofs.Expr.Reading

/-!
# Why reading fails

A text that does not begin with an atom is refused at its first character.  Any other
failure is fatal and names a place of the text: an opening bracket behind which no group
is complete, an opening bracket with as many brackets open around it as there may be, or
a character of a part of the text whose expression would be one level too high.
-/

namespace Recognizer.Expr

/-!
# Reasons
-/

def Unclosed (z : List Char) : Prop :=
  ∀ w e, Derives .choice w e → ¬ '(' :: w ++ [')'] <+: '(' :: z

/-- So many brackets are open at the end of the text. -/
inductive LeavesOpen : Nat → List Char → Prop where
  | closed {u : List Char} : Balanced u → LeavesOpen 0 u
  | opened {count : Nat} {u v : List Char} :
      Balanced u → LeavesOpen count v → LeavesOpen (count + 1) (u ++ '(' :: v)

/-- A fatal failure names a place of the text, and there is a reason for it there: a
bracket that is not closed, one that is opened inside of too many others, or a place
within a part of the text that stands for an expression which is too high. -/
inductive Explains (depth : Nat) (s : Source) : ParseError → Prop where
  | unclosed {u v : List Char} :
      s.chars = u ++ '(' :: v → Unclosed v →
      Explains depth s (.unmatchedDelimiter (s.offset + byteCount u))
  | nested {u v : List Char} :
      s.chars = u ++ '(' :: v → LeavesOpen depth u →
      Explains depth s (.tooDeep ⟨depthLimit, s.offset + byteCount u⟩)
  | high {u w x v : List Char} {c : Char} {e : Expr} :
      s.chars = u ++ (w ++ c :: x) ++ v → Derives .choice (w ++ c :: x) e →
      e.height = depthLimit + 1 →
      Explains depth s (.tooDeep ⟨depthLimit, s.offset + byteCount (u ++ w)⟩)

def Explained (depth : Nat) (read : Source → Reading) : Prop :=
  ∀ s err, read s = .error err → err.isFatal = true → Explains depth s err

theorem balanced_nil : Balanced [] where
  count_eq := rfl
  count_le := by
    intro p hp
    rw [List.prefix_nil.mp hp]
    exact Nat.le_refl _

section Places

variable {count depth : Nat} {u v w z : List Char} {s t : Source} {err : ParseError} {e f : Expr}
  {c : Char}

theorem LeavesOpen.append (hw : Balanced w) (h : LeavesOpen count v) :
    LeavesOpen count (w ++ v) := by
  cases h with
  | closed hv => exact LeavesOpen.closed (hw.append hv)
  | opened hu hrest =>
      rw [← List.append_assoc]
      exact LeavesOpen.opened (hw.append hu) hrest

theorem Explains.behind (h : Explains depth t err) (hw : Balanced w)
    (hchars : s.chars = w ++ t.chars) (hoffset : t.offset = s.offset + byteCount w) :
    Explains depth s err := by
  cases h with
  | @unclosed u v ht hunclosed =>
      rw [hoffset, Nat.add_assoc, ← byteCount_append]
      refine Explains.unclosed ?_ hunclosed
      rw [hchars, ht, List.append_assoc]
  | @nested u v ht hopen =>
      rw [hoffset, Nat.add_assoc, ← byteCount_append]
      refine Explains.nested (v := v) ?_ (hopen.append hw)
      rw [hchars, ht, List.append_assoc]
  | @high u x y v c e ht hderives hheight =>
      rw [hoffset, Nat.add_assoc, ← byteCount_append, ← List.append_assoc]
      refine Explains.high (v := v) ?_ hderives hheight
      rw [hchars, ht]
      simp only [List.append_assoc]

/-- The reason for a failure inside of a group: one bracket more is open around it. -/
theorem Explains.inside {offset : Nat} (h : Explains depth ⟨offset + 1, z⟩ err) :
    Explains (depth + 1) ⟨offset, '(' :: z⟩ err := by
  have hoffset : ∀ u, offset + 1 + byteCount u = offset + byteCount ('(' :: u) := by
    intro u
    have hsize : '('.utf8Size = 1 := rfl
    rw [byteCount_cons, hsize, Nat.add_assoc]
  cases h with
  | @unclosed u v hz hunclosed =>
      show Explains _ _ (.unmatchedDelimiter (offset + 1 + byteCount u))
      rw [hoffset]
      exact Explains.unclosed (congrArg ('(' :: ·) hz) hunclosed
  | @nested u v hz hopen =>
      show Explains _ _ (.tooDeep ⟨depthLimit, offset + 1 + byteCount u⟩)
      rw [hoffset]
      exact Explains.nested (congrArg ('(' :: ·) hz) (LeavesOpen.opened balanced_nil hopen)
  | @high u w x v c e hz hderives hheight =>
      show Explains _ _ (.tooDeep ⟨depthLimit, offset + 1 + byteCount (u ++ w)⟩)
      rw [hoffset]
      exact Explains.high (u := '(' :: u) (congrArg ('(' :: ·) hz) hderives hheight

end Places

/-!
# Groups
-/

section Groups

variable {depth : Nat} {u z : List Char} {e : Expr}

theorem group_prefix_iff {w : List Char} :
    '(' :: w ++ [')'] <+: '(' :: z ↔ ∃ rest, z = w ++ ')' :: rest := by
  rw [List.cons_append, List.cons_prefix_cons, and_iff_right rfl]
  constructor
  · intro h
    rcases h with ⟨rest, hrest⟩
    exact ⟨rest, by rw [← hrest, List.append_assoc, List.singleton_append]⟩
  · intro h
    rcases h with ⟨rest, rfl⟩
    exact ⟨rest, by rw [List.append_assoc, List.singleton_append]⟩

theorem unclosed_of_derives (hderives : Derives .choice u e) (hstop : ¬ GoesOn z)
    (hclose : ∀ cs, z ≠ ')' :: cs) : Unclosed (u ++ z) := by
  intro w f hw hgroup
  rcases group_prefix_iff.mp hgroup with ⟨rest, hrest⟩
  have hle : w.length ≤ u.length :=
    hderives.length_le hstop hw ⟨_, hrest.symm⟩
  have hge : u.length ≤ w.length :=
    hw.length_le not_goesOn_close hderives ⟨_, hrest⟩
  exact hclose rest (List.append_inj hrest (Nat.le_antisymm hge hle)).2

theorem unclosed_of_not_opensAtom (h : ¬ OpensAtom z) : Unclosed z := by
  intro w f hw hgroup
  rcases group_prefix_iff.mp hgroup with ⟨rest, rfl⟩
  exact h (hw.opensAtom.append _)

theorem closeGroup_explained (hinside : Explained depth (readNested depth)) {offset : Nat}
    {err : ParseError} (h : closeGroup offset (readNested depth ⟨offset + 1, z⟩) = .error err) :
    Explains (depth + 1) ⟨offset, '(' :: z⟩ err := by
  have hunmatched : Unclosed z →
      Explains (depth + 1) ⟨offset, '(' :: z⟩ (.unmatchedDelimiter offset) :=
    Explains.unclosed (u := []) rfl
  unfold closeGroup at h
  split at h
  · rename_i p hread
    split at h
    · cases h
    · rename_i hclose
      cases h
      rcases readNested_eq_ok_iff.mp hread with ⟨⟨u, hu⟩, hstop⟩
      have hz : z = u ++ p.rest.chars := hu.chars_eq
      exact hunmatched (hz ▸ unclosed_of_derives hu.derives hstop hclose)
  · rename_i inner hread
    cases h
    split
    · rename_i hfatal
      exact (hinside _ _ hread hfatal).inside
    · rename_i hfatal
      apply hunmatched
      apply unclosed_of_not_opensAtom
      intro hopens
      rw [readNested_eq] at hread
      exact hfatal ((readChoice_expectsAtom _).fatal _ _ hopens hread)

end Groups

/-!
# Parts of the reader

A failure of a part lies behind what the part has taken, and is the failure of a smaller
part, or it comes from the height of what was taken.
-/

section Readers

variable {depth bound : Nat} {u v : List Char} {s : Source} {p left right : Parsed}
  {err : ParseError}

def GroupsExplained (depth : Nat) : Prop :=
  ∀ inner, depth = inner + 1 → Explained inner (readNested inner)

theorem Explains.after {t : Tier} (h : Explains depth p.rest err) (hp : Takes t depth u s p) :
    Explains depth s err :=
  h.behind hp.derives.balanced hp.chars_eq hp.offset_eq

/-- The expression of a part of the text is one level too high, which is noticed within
this part. -/
theorem explains_high {w x z : List Char} {c : Char} {e : Expr}
    (hchars : s.chars = w ++ c :: x ++ z)
    (hderives : Derives .choice (w ++ c :: x) e) (hheight : e.height = depthLimit + 1) :
    Explains depth s (.tooDeep ⟨depthLimit, s.offset + byteCount w⟩) :=
  Explains.high (u := []) hchars hderives hheight

theorem readAtom_explained (hgroup : GroupsExplained depth) :
    Explained depth (readAtom (groupOf depth)) := by
  intro s err h hfatal
  rcases s with ⟨offset, chars⟩
  unfold readAtom at h
  cases chars with
  | nil =>
      cases h
      cases hfatal
  | cons c cs =>
      dsimp only at h
      split at h
      · rename_i hopen
        subst hopen
        cases depth with
        | zero =>
            cases h
            exact Explains.nested (u := []) rfl (LeavesOpen.closed balanced_nil)
        | succ inner => exact closeGroup_explained (hgroup inner rfl) h
      · split at h
        · cases h
        · split at h
          · cases h
          · cases h
            cases hfatal

theorem readOperators_explained {e : Expr} {height offset : Nat} {z : List Char}
    (hp : Takes .suffixed depth u s ⟨e, height, ⟨offset, z⟩⟩)
    (h : readOperators e height offset z = .error err) : Explains depth s err := by
  induction z generalizing u e height offset with
  | nil => cases h
  | cons c z ih =>
      unfold readOperators at h
      split at h
      · cases h
      · rename_i apply hoperator
        have hc := operator?_eq_some_iff.mp hoperator
        split at h
        · rename_i hlimit
          cases h
          have hoffset : offset = s.offset + byteCount u := hp.offset_eq
          have hheight : height = e.height := hp.height_eq
          have hle := hp.height_le
          rw [hoffset]
          refine explains_high (x := []) (z := z) ?_
            (hp.derives.operator hc).suffixed.alternative ?_
          · rw [hp.chars_eq, List.append_assoc, List.singleton_append]
          · rw [hc.height_eq]
            show e.height + 1 = depthLimit + 1
            have hle : e.height ≤ depthLimit := hle
            omega
        · rename_i hlimit
          exact ih (hp.operator rfl hc (Nat.le_of_not_lt hlimit)) h

theorem readPostfix_explained (hgroup : GroupsExplained depth) :
    Explained depth (readPostfix (groupOf depth)) := by
  intro s err h hfatal
  unfold readPostfix at h
  split at h
  · rename_i p hatom
    rcases readAtom_takes (groupsTake depth) hatom with ⟨u, hu⟩
    exact readOperators_explained hu.suffixed h
  · rename_i hatom
    cases h
    exact readAtom_explained hgroup s err hatom hfatal

theorem joined_eq_error {join : Expr → Expr → Expr} {offset : Nat}
    (h : joined join offset left right = .error err) (hleft : left.height ≤ depthLimit)
    (hright : right.height ≤ depthLimit) :
    err = .tooDeep ⟨depthLimit, offset⟩ ∧ 1 + max left.height right.height = depthLimit + 1 := by
  unfold joined at h
  dsimp only at h
  split at h
  · rename_i hlimit
    cases h
    exact ⟨rfl, by omega⟩
  · cases h

theorem readFurther_explained (hgroup : GroupsExplained depth)
    (hleft : Takes .concat depth u s left)
    (h : readFurther (groupOf depth) bound left = .error err) :
    Explains depth s err := by
  induction bound generalizing u left with
  | zero => cases h
  | succ bound ih =>
      unfold readFurther at h
      split at h
      · rename_i right hread
        rcases readPostfix_takes (groupsTake depth) hread with ⟨⟨v, hv⟩, _⟩
        split at h
        · rename_i both hjoined
          exact ih (hleft.joined_concat hv hjoined) h
        · rename_i hjoined
          cases h
          rcases joined_eq_error hjoined (hleft.height_eq ▸ hleft.height_le)
            (hv.height_eq ▸ hv.height_le) with ⟨rfl, hheight⟩
          rw [hleft.height_eq, hv.height_eq] at hheight
          rcases hv.derives.opensAtom with ⟨c, x, rfl, _⟩
          rw [hleft.offset_eq]
          refine explains_high (z := right.rest.chars) ?_
            (hleft.derives.concat hv.derives).alternative hheight
          rw [hleft.chars_eq, hv.chars_eq, List.append_assoc]
      · rename_i hread
        split at h
        · rename_i hfatal
          cases h
          exact (readPostfix_explained hgroup left.rest err hread hfatal).after hleft
        · cases h

theorem readConcat_explained (hgroup : GroupsExplained depth) :
    Explained depth (readConcat (groupOf depth)) := by
  intro s err h hfatal
  unfold readConcat at h
  split at h
  · rename_i first hfirst
    rcases readPostfix_takes (groupsTake depth) hfirst with ⟨⟨u, hu⟩, _⟩
    exact readFurther_explained hgroup hu.concat h
  · rename_i hfirst
    cases h
    exact readPostfix_explained hgroup s err hfirst hfatal

theorem readAlternatives_explained (hgroup : GroupsExplained depth)
    (hleft : Takes .choice depth u s left)
    (h : readAlternatives (groupOf depth) bound left = .error err) : Explains depth s err := by
  induction bound generalizing u left with
  | zero => cases h
  | succ bound ih =>
      unfold readAlternatives at h
      split at h
      · rename_i cs hbar
        have hbehind : s.chars = (u ++ ['|']) ++ cs := by
          rw [hleft.chars_eq, hbar, List.append_assoc, List.singleton_append]
        have hoffset : left.rest.offset + 1 = s.offset + byteCount (u ++ ['|']) := by
          have hsize : byteCount ['|'] = 1 := rfl
          rw [hleft.offset_eq, byteCount_append, hsize, Nat.add_assoc]
        dsimp only at h
        split at h
        · rename_i right hread
          rcases readConcat_takes (groupsTake depth) hread with ⟨⟨v, hv⟩, _⟩
          split at h
          · rename_i both hjoined
            exact ih (hleft.joined_choice hbar hv hjoined) h
          · rename_i hjoined
            cases h
            rcases joined_eq_error hjoined (hleft.height_eq ▸ hleft.height_le)
              (hv.height_eq ▸ hv.height_le) with ⟨rfl, hheight⟩
            rw [hleft.height_eq, hv.height_eq] at hheight
            have hcs : cs = v ++ right.rest.chars := hv.chars_eq
            have hderives := hleft.derives.choice hv.derives
            rcases hv.derives.opensAtom with ⟨c, x, rfl, _⟩
            rw [hoffset]
            refine explains_high (e := choice left.expr right.expr) (c := c) (x := x)
              (z := right.rest.chars) ?_ ?_ hheight
            · rw [hbehind, hcs]
              simp only [List.append_assoc]
            · rwa [List.append_assoc, List.singleton_append]
        · rename_i hread
          split at h
          · rename_i hfatal
            cases h
            exact (readConcat_explained hgroup _ err hread hfatal).behind
              (hleft.derives.balanced.append balanced_bar) hbehind hoffset
          · cases h
      · cases h

theorem readChoice_explained (hgroup : GroupsExplained depth) :
    Explained depth (readChoice (groupOf depth)) := by
  intro s err h hfatal
  unfold readChoice at h
  split at h
  · rename_i first hfirst
    rcases readConcat_takes (groupsTake depth) hfirst with ⟨⟨u, hu⟩, _⟩
    exact readAlternatives_explained hgroup hu.choice h
  · rename_i hfirst
    cases h
    exact readConcat_explained hgroup s err hfirst hfatal

theorem readNested_explained (depth : Nat) : Explained depth (readNested depth) := by
  induction depth with
  | zero =>
      rw [readNested_eq]
      exact readChoice_explained (fun inner hinner => by cases hinner)
  | succ depth ih =>
      rw [readNested_eq]
      apply readChoice_explained
      intro inner hinner
      injection hinner with hinner
      exact hinner ▸ ih

end Readers

/-!
# Whole texts
-/

section Atoms

variable {group : Option (Source → Reading)} {s : Source} {c : Char} {cs : List Char}

theorem readAtom_of_not_beginsAtom (hchars : s.chars = c :: cs) (hc : ¬ BeginsAtom c) :
    readAtom group s = .error (.unexpectedChar c s.offset) := by
  unfold BeginsAtom at hc
  rw [not_or, not_or, ← isLetterSymbol_iff] at hc
  unfold readAtom
  simp [hchars, hc]

/-- Where no atom can be read, nothing can. -/
theorem readNested_of_readAtom_error {depth : Nat} {err : ParseError}
    (h : readAtom (groupOf depth) s = .error err) : readNested depth s = .error err := by
  rw [readNested_eq]
  simp only [readChoice, readConcat, readPostfix, h]

end Atoms

section Whole

variable {text : String} {err : ParseError}

theorem parsePrefix_eq_error_iff :
    parsePrefix text = .error err ↔ readNested depthLimit ⟨0, text.toList⟩ = .error err := by
  unfold parsePrefix
  split
  · rename_i hread
    simp [hread]
  · rename_i hread
    rw [hread]
    simp

theorem parsePrefix_empty : parsePrefix "" = .error .unexpectedEnd :=
  parsePrefix_eq_error_iff.mpr (readNested_of_readAtom_error rfl)

theorem parsePrefix_of_not_beginsAtom {c : Char} {cs : List Char} (htext : text.toList = c :: cs)
    (hc : ¬ BeginsAtom c) : parsePrefix text = .error (.unexpectedChar c 0) :=
  parsePrefix_eq_error_iff.mpr
    (readNested_of_readAtom_error (readAtom_of_not_beginsAtom htext hc))

theorem parsePrefix_error_cases (h : parsePrefix text = .error err) :
    (text = "" ∧ err = .unexpectedEnd) ∨
      (∃ c cs, text.toList = c :: cs ∧ ¬ BeginsAtom c ∧ err = .unexpectedChar c 0) ∨
      (OpensAtom text.toList ∧ err.isFatal = true ∧
        Explains depthLimit ⟨0, text.toList⟩ err) := by
  cases htext : text.toList with
  | nil =>
      have hempty : text = "" := String.toList_eq_nil_iff.mp htext
      rw [hempty, parsePrefix_empty] at h
      injection h with h
      exact Or.inl ⟨hempty, h.symm⟩
  | cons c cs =>
      by_cases hc : BeginsAtom c
      · have hread := parsePrefix_eq_error_iff.mp h
        have hopens : OpensAtom text.toList := htext ▸ opensAtom_cons_iff.mpr hc
        have hfatal : err.isFatal = true := by
          have hchoice := hread
          rw [readNested_eq] at hchoice
          exact (readChoice_expectsAtom _).fatal _ _ hopens hchoice
        rw [← htext]
        exact Or.inr (Or.inr ⟨hopens, hfatal, readNested_explained _ _ _ hread hfatal⟩)
      · rw [parsePrefix_of_not_beginsAtom htext hc] at h
        injection h with h
        exact Or.inr (Or.inl ⟨c, cs, rfl, hc, h.symm⟩)

theorem parsePrefix_eq_unexpectedEnd_iff :
    parsePrefix text = .error .unexpectedEnd ↔ text = "" := by
  constructor
  · intro h
    rcases parsePrefix_error_cases h with ⟨hempty, _⟩ | ⟨_, _, _, _, herr⟩ | ⟨_, hfatal, _⟩
    · exact hempty
    · cases herr
    · cases hfatal
  · intro h
    rw [h]
    exact parsePrefix_empty

theorem parsePrefix_eq_unexpectedChar_iff {found : Char} {offset : Nat} :
    parsePrefix text = .error (.unexpectedChar found offset) ↔
      offset = 0 ∧ ∃ rest, text.toList = found :: rest ∧ ¬ BeginsAtom found := by
  constructor
  · intro h
    rcases parsePrefix_error_cases h with ⟨_, herr⟩ | ⟨c, cs, htext, hc, herr⟩ | ⟨_, hfatal, _⟩
    · cases herr
    · cases herr
      exact ⟨rfl, cs, htext, hc⟩
    · cases hfatal
  · intro h
    rcases h with ⟨rfl, rest, htext, hfound⟩
    exact parsePrefix_of_not_beginsAtom htext hfound

end Whole

/-!
# Places of a text
-/

/-- At this offset of the text stands an opening bracket with which no group begins. -/
def OpensNoGroup (text : String) (offset : Nat) : Prop :=
  ∃ u v : String,
    text = u ++ String.singleton '(' ++ v ∧ u.utf8ByteSize = offset ∧ Unclosed v.toList

/-- At this offset of the text stands an opening bracket within 500 open ones, or a
character of a part of the text that stands for an expression with 501 levels. -/
def GoesTooDeep (text : String) (offset : Nat) : Prop :=
  ∃ (u : String) (c : Char) (v : String),
    text = u ++ String.singleton c ++ v ∧ u.utf8ByteSize = offset ∧
      ((c = '(' ∧ LeavesOpen 500 u.toList) ∨
        ∃ (start part rest : String) (e : Expr), text = start ++ part ++ rest ∧
          start.utf8ByteSize ≤ offset ∧ offset < start.utf8ByteSize + part.utf8ByteSize ∧
            Derives .choice part.toList e ∧ e.height = 501)

section Offsets

variable {text : String} {offset : Nat}

theorem utf8ByteSize_ofList_eq (u : List Char) : (String.ofList u).utf8ByteSize = byteCount u := by
  induction u with
  | nil => rfl
  | cons c u ih =>
      rw [String.ofList_cons, String.utf8ByteSize_append, String.utf8ByteSize_singleton, ih,
        byteCount_cons]

theorem eq_ofList_append {u v : List Char} {c : Char} (h : text.toList = u ++ c :: v) :
    text = String.ofList u ++ String.singleton c ++ String.ofList v := by
  apply String.toList_injective
  simp [h]

theorem Explains.opensNoGroup
    (h : Explains depthLimit ⟨0, text.toList⟩ (.unmatchedDelimiter offset)) :
    OpensNoGroup text offset := by
  cases h with
  | @unclosed u v htext hunclosed =>
      refine ⟨String.ofList u, String.ofList v, eq_ofList_append htext, ?_, ?_⟩
      · rw [utf8ByteSize_ofList_eq, Nat.zero_add]
      · rwa [String.toList_ofList]

theorem Explains.goesTooDeep {limit : Nat}
    (h : Explains depthLimit ⟨0, text.toList⟩ (.tooDeep ⟨limit, offset⟩)) :
    limit = depthLimit ∧ GoesTooDeep text offset := by
  cases h with
  | @nested u v htext hopen =>
      refine ⟨rfl, String.ofList u, '(', String.ofList v, eq_ofList_append htext, ?_,
        Or.inl ⟨rfl, ?_⟩⟩
      · rw [utf8ByteSize_ofList_eq, Nat.zero_add]
      · rwa [String.toList_ofList]
  | @high u w x v c e htext hderives hheight =>
      have htext : text.toList = u ++ (w ++ c :: x) ++ v := htext
      refine ⟨rfl, String.ofList (u ++ w), c, String.ofList (x ++ v), ?_, ?_, Or.inr
        ⟨String.ofList u, String.ofList (w ++ c :: x), String.ofList v, e, ?_, ?_, ?_, ?_, hheight⟩⟩
      · apply eq_ofList_append
        simp [htext]
      · rw [utf8ByteSize_ofList_eq, Nat.zero_add]
      · apply String.toList_injective
        simp [htext]
      · rw [utf8ByteSize_ofList_eq, byteCount_append]
        omega
      · have := c.utf8Size_pos
        simp only [utf8ByteSize_ofList_eq, byteCount_append, byteCount_cons]
        omega
      · rwa [String.toList_ofList]

end Offsets

/-- How reading fails.  Only the empty text ends too early, and only a text that does not
begin with an atom has an unexpected character, its first.  The other failures are fatal:
a bracket that opens no group is named, or a place at which the text goes too deep. -/
theorem parsePrefix_failures (text : String) :
    (parsePrefix text = .error .unexpectedEnd ↔ text = "") ∧
    (∀ found offset, parsePrefix text = .error (.unexpectedChar found offset) ↔
      offset = 0 ∧ ∃ rest, text.toList = found :: rest ∧ ¬ BeginsAtom found) ∧
    (∀ err, parsePrefix text = .error err → err = .unexpectedEnd ∨
      (∃ found, err = .unexpectedChar found 0) ∨
        (err.isFatal = true ∧ OpensAtom text.toList)) ∧
    (∀ offset, parsePrefix text = .error (.unmatchedDelimiter offset) →
      OpensNoGroup text offset) ∧
    ∀ limit offset, parsePrefix text = .error (.tooDeep ⟨limit, offset⟩) →
      limit = 500 ∧ GoesTooDeep text offset := by
  refine ⟨parsePrefix_eq_unexpectedEnd_iff, fun _ _ => parsePrefix_eq_unexpectedChar_iff,
    ?_, ?_, ?_⟩
  · intro err h
    rcases parsePrefix_error_cases h with ⟨_, herr⟩ | ⟨c, _, _, _, herr⟩ | ⟨hopens, hfatal, _⟩
    · exact Or.inl herr
    · exact Or.inr (Or.inl ⟨c, herr⟩)
    · exact Or.inr (Or.inr ⟨hfatal, hopens⟩)
  · intro offset h
    rcases parsePrefix_error_cases h with ⟨_, herr⟩ | ⟨_, _, _, _, herr⟩ | ⟨_, _, hexplains⟩
    · cases herr
    · cases herr
    · exact hexplains.opensNoGroup
  · intro limit offset h
    rcases parsePrefix_error_cases h with ⟨_, herr⟩ | ⟨_, _, _, _, herr⟩ | ⟨_, _, hexplains⟩
    · cases herr
    · cases herr
    · exact hexplains.goesTooDeep

theorem parsePrefix_failures_open :
    (parsePrefix "ab(c|d" = .error (.unmatchedDelimiter 2) ∧ OpensNoGroup "ab(c|d" 2) ∧
      parsePrefix (String.ofList ('a' :: List.replicate 500 '*')) = .error (.tooDeep ⟨500, 500⟩) ∧
        GoesTooDeep (String.ofList ('a' :: List.replicate 500 '*')) 500 := by
  have hopen : parsePrefix "ab(c|d" = .error (.unmatchedDelimiter 2) := by decide +kernel
  have hdeep : parsePrefix (String.ofList ('a' :: List.replicate 500 '*')) =
      .error (.tooDeep ⟨500, 500⟩) := by
    rw [parsePrefix_eq_error_iff, String.toList_ofList]
    decide +kernel
  exact ⟨⟨hopen, (parsePrefix_failures _).2.2.2.1 2 hopen⟩, hdeep,
    ((parsePrefix_failures _).2.2.2.2 500 500 hdeep).2⟩

end Recognizer.Expr
