import Recognizer.Expr.Parser
import Recognizer.Proofs.Expr.Grammar
import Mathlib.Algebra.GroupWithZero.Nat

/-!
# What is read

Reading a text yields an expression just when the text begins with one, by the grammar,
which stays within the limits and behind which nothing can be read on.  From left to
right, every part of the reader takes a text that the grammar derives; from right to
left, a derivation leads each loop of the reader to the place behind its text.
-/

namespace Recognizer.Expr

/-!
# Parts of the notation
-/

theorem isLetterSymbol_iff {c : Char} : isLetterSymbol c = true ↔ IsSymbol c := by
  unfold isLetterSymbol IsSymbol Char.isAlphanum Char.isAlpha Char.isUpper Char.isLower Char.isDigit
  simp [Char.le_def, or_assoc]

theorem operator?_eq_some_iff {c : Char} {apply : Expr → Expr} :
    operator? c = some apply ↔ IsOperator c apply := by
  constructor
  · intro h
    unfold operator? at h
    split at h
    · cases h
      exact IsOperator.plus
    · cases h
      exact IsOperator.star
    · cases h
      exact IsOperator.optional
    · cases h
  · intro h
    cases h <;> rfl

theorem IsOperator.height_eq {c : Char} {apply : Expr → Expr} (h : IsOperator c apply) (e : Expr) :
    (apply e).height = e.height + 1 := by
  cases h <;> exact Nat.add_comm 1 e.height

theorem IsOperator.utf8Size_eq {c : Char} {apply : Expr → Expr} (h : IsOperator c apply) :
    c.utf8Size = 1 := by
  cases h <;> rfl

/-- How groups are read where so many of them may be open. -/
def groupOf : Nat → Option (Source → Reading)
  | 0 => none
  | depth + 1 => some (readNested depth)

theorem readNested_eq (depth : Nat) : readNested depth = readChoice (groupOf depth) := by
  cases depth <;> rfl

def byteCount (u : List Char) : Nat := (u.map Char.utf8Size).sum

@[simp] theorem byteCount_append (u v : List Char) :
    byteCount (u ++ v) = byteCount u + byteCount v := by
  simp [byteCount]

@[simp] theorem byteCount_cons (c : Char) (u : List Char) :
    byteCount (c :: u) = c.utf8Size + byteCount u := by
  simp [byteCount]

@[simp] theorem byteCount_nil : byteCount [] = 0 := rfl

/-!
# Failures

A failure is fatal where an operator or an operand would go beyond a limit, and where a
group is not closed.  Any other failure means that there is no atom to begin with.
-/

section Failures

variable {group : Option (Source → Reading)} {offset : Nat} {err : ParseError}

theorem closeGroup_fatal {r : Reading} (h : closeGroup offset r = .error err) :
    err.isFatal = true := by
  unfold closeGroup at h
  split at h
  · split at h
    · cases h
    · cases h
      rfl
  · cases h
    split
    · assumption
    · rfl

theorem readOperators_fatal {e : Expr} {height : Nat} {z : List Char}
    (h : readOperators e height offset z = .error err) : err.isFatal = true := by
  induction z generalizing e height offset with
  | nil => cases h
  | cons c z ih =>
      unfold readOperators at h
      split at h
      · cases h
      · split at h
        · cases h
          rfl
        · exact ih h

theorem joined_fatal {join : Expr → Expr → Expr} {left right : Parsed}
    (h : joined join offset left right = .error err) : err.isFatal = true := by
  unfold joined at h
  dsimp only at h
  split at h
  · cases h
    rfl
  · cases h

theorem readFurther_fatal {bound : Nat} {left : Parsed}
    (h : readFurther group bound left = .error err) : err.isFatal = true := by
  induction bound generalizing left with
  | zero => cases h
  | succ bound ih =>
      unfold readFurther at h
      split at h
      · split at h
        · exact ih h
        · rename_i hjoined
          cases h
          exact joined_fatal hjoined
      · split at h
        · rename_i hfatal
          cases h
          exact hfatal
        · cases h

theorem readAlternatives_fatal {bound : Nat} {left : Parsed}
    (h : readAlternatives group bound left = .error err) : err.isFatal = true := by
  induction bound generalizing left with
  | zero => cases h
  | succ bound ih =>
      unfold readAlternatives at h
      split at h
      · dsimp only at h
        split at h
        · split at h
          · exact ih h
          · rename_i hjoined
            cases h
            exact joined_fatal hjoined
        · split at h
          · rename_i hfatal
            cases h
            exact hfatal
          · cases h
      · cases h

structure ExpectsAtom (read : Source → Reading) : Prop where
  fails : ∀ s, ¬ OpensAtom s.chars → ∃ err, read s = .error err ∧ err.isFatal = false
  fatal : ∀ s err, OpensAtom s.chars → read s = .error err → err.isFatal = true

theorem readAtom_expectsAtom (group : Option (Source → Reading)) :
    ExpectsAtom (readAtom group) where
  fails := by
    intro s hs
    unfold readAtom
    split
    · exact ⟨_, rfl, rfl⟩
    · rename_i c cs hchars
      have hc : ¬ BeginsAtom c := fun hc => hs ⟨c, cs, hchars, hc⟩
      unfold BeginsAtom at hc
      rw [not_or, not_or, ← isLetterSymbol_iff] at hc
      simp only [if_neg hc.1, if_neg hc.2.1, if_neg hc.2.2]
      exact ⟨_, rfl, rfl⟩
  fatal := by
    intro s err hs h
    rcases hs with ⟨c, cs, hchars, hc⟩
    unfold readAtom at h
    rw [hchars] at h
    dsimp only at h
    split at h
    · split at h
      · cases h
        rfl
      · exact closeGroup_fatal h
    · rename_i hopen
      split at h
      · cases h
      · rename_i hepsilon
        rw [if_pos (isLetterSymbol_iff.mpr ((hc.resolve_left hopen).resolve_left hepsilon))] at h
        cases h

theorem ExpectsAtom.followed {read : Source → Reading} {next : Parsed → Reading}
    (h : ExpectsAtom read) (hnext : ∀ p err, next p = .error err → err.isFatal = true) :
    ExpectsAtom (fun s => match read s with | .ok p => next p | .error err => .error err) where
  fails := by
    intro s hs
    rcases h.fails s hs with ⟨err, herr, hfatal⟩
    exact ⟨err, by simp only [herr], hfatal⟩
  fatal := by
    intro s err hs hread
    split at hread
    · exact hnext _ _ hread
    · rename_i herr
      cases hread
      exact h.fatal s err hs herr

theorem readPostfix_expectsAtom (group : Option (Source → Reading)) :
    ExpectsAtom (readPostfix group) :=
  (readAtom_expectsAtom group).followed (fun _ _ => readOperators_fatal)

theorem readConcat_expectsAtom (group : Option (Source → Reading)) :
    ExpectsAtom (readConcat group) :=
  (readPostfix_expectsAtom group).followed (fun _ _ => readFurther_fatal)

theorem readChoice_expectsAtom (group : Option (Source → Reading)) :
    ExpectsAtom (readChoice group) :=
  (readConcat_expectsAtom group).followed (fun _ _ => readAlternatives_fatal)

end Failures

/-!
# What is taken
-/

/-- The expression at the beginning of a text, with its height, and the rest of the text. -/
structure Takes (t : Tier) (depth : Nat) (u : List Char) (s : Source) (p : Parsed) : Prop where
  chars_eq : s.chars = u ++ p.rest.chars
  offset_eq : p.rest.offset = s.offset + byteCount u
  derives : Derives t u p.expr
  height_eq : p.height = p.expr.height
  height_le : p.expr.height ≤ depthLimit
  nests : NestsWithin depth u

section Takes

variable {depth offset height : Nat} {u v : List Char} {s : Source} {p left right both : Parsed}
  {e : Expr} {c : Char} {z : List Char} {apply : Expr → Expr}

theorem Takes.suffixed (h : Takes .atom depth u s p) : Takes .suffixed depth u s p :=
  ⟨h.chars_eq, h.offset_eq, h.derives.atom, h.height_eq, h.height_le, h.nests⟩

theorem Takes.concat (h : Takes .suffixed depth u s p) : Takes .concat depth u s p :=
  ⟨h.chars_eq, h.offset_eq, h.derives.suffixed, h.height_eq, h.height_le, h.nests⟩

theorem Takes.choice (h : Takes .concat depth u s p) : Takes .choice depth u s p :=
  ⟨h.chars_eq, h.offset_eq, h.derives.alternative, h.height_eq, h.height_le, h.nests⟩

theorem takes_leaf (hderives : Derives .atom [c] e) (hheight : e.height = 1) (hopen : c ≠ '(') :
    Takes .atom depth [c] ⟨offset, c :: z⟩ ⟨e, 1, ⟨offset + c.utf8Size, z⟩⟩ where
  chars_eq := rfl
  offset_eq := by simp
  derives := hderives
  height_eq := hheight.symm
  height_le := by
    rw [hheight]
    decide
  nests := nestsWithin_singleton hopen

theorem Takes.group (h : Takes .choice depth u ⟨offset + 1, z⟩ p) {cs : List Char}
    (hclose : p.rest.chars = ')' :: cs) :
    Takes .atom (depth + 1) ('(' :: u ++ [')']) ⟨offset, '(' :: z⟩
      ⟨p.expr, p.height, ⟨p.rest.offset + 1, cs⟩⟩ where
  chars_eq := by
    have hz : z = u ++ p.rest.chars := h.chars_eq
    simp [hz, hclose]
  offset_eq := by
    have hopen : '('.utf8Size = 1 := rfl
    have hclose : ')'.utf8Size = 1 := rfl
    simp [h.offset_eq, hopen, hclose]
    omega
  derives := h.derives.group
  height_eq := h.height_eq
  height_le := h.height_le
  nests := nestsWithin_group.mpr ⟨depth, rfl, h.nests⟩

theorem Takes.operator (h : Takes .suffixed depth u s p) (hrest : p.rest.chars = c :: z)
    (hc : IsOperator c apply) (hheight : p.height + 1 ≤ depthLimit) :
    Takes .suffixed depth (u ++ [c]) s ⟨apply p.expr, p.height + 1, ⟨p.rest.offset + 1, z⟩⟩ where
  chars_eq := by simp [h.chars_eq, hrest]
  offset_eq := by simp [h.offset_eq, hc.utf8Size_eq, Nat.add_assoc]
  derives := h.derives.operator hc
  height_eq := by rw [hc.height_eq, h.height_eq]
  height_le := by rw [hc.height_eq, ← h.height_eq]; exact hheight
  nests := (nestsWithin_append h.derives.balanced).mpr ⟨h.nests, nestsWithin_singleton hc.ne.1⟩

theorem joined_eq_ok_iff {join : Expr → Expr → Expr} :
    joined join offset left right = .ok both ↔
      1 + max left.height right.height ≤ depthLimit ∧
        both = ⟨join left.expr right.expr, 1 + max left.height right.height, right.rest⟩ := by
  unfold joined
  dsimp only
  split
  · rename_i hlimit
    simp [Nat.not_le_of_lt hlimit]
  · rename_i hlimit
    simp [Nat.le_of_not_lt hlimit, eq_comm]

theorem Takes.joined_concat (hleft : Takes .concat depth u s left)
    (hright : Takes .suffixed depth v left.rest right)
    (h : joined Expr.concat offset left right = .ok both) :
    Takes .concat depth (u ++ v) s both := by
  rcases joined_eq_ok_iff.mp h with ⟨hheight, rfl⟩
  rw [hleft.height_eq, hright.height_eq] at hheight ⊢
  exact {
    chars_eq := by rw [hleft.chars_eq, hright.chars_eq, List.append_assoc]
    offset_eq := by
      rw [hright.offset_eq, hleft.offset_eq, byteCount_append, Nat.add_assoc]
    derives := hleft.derives.concat hright.derives
    height_eq := rfl
    height_le := hheight
    nests := (nestsWithin_append hleft.derives.balanced).mpr ⟨hleft.nests, hright.nests⟩ }

theorem Takes.joined_choice (hleft : Takes .choice depth u s left)
    (hbar : left.rest.chars = '|' :: z)
    (hright : Takes .concat depth v ⟨left.rest.offset + 1, z⟩ right)
    (h : joined Expr.choice offset left right = .ok both) :
    Takes .choice depth (u ++ '|' :: v) s both := by
  rcases joined_eq_ok_iff.mp h with ⟨hheight, rfl⟩
  rw [hleft.height_eq, hright.height_eq] at hheight ⊢
  have hz : z = v ++ right.rest.chars := hright.chars_eq
  exact {
    chars_eq := by simp [hleft.chars_eq, hbar, hz]
    offset_eq := by
      have hsize : '|'.utf8Size = 1 := rfl
      simp [hright.offset_eq, hleft.offset_eq, hsize, Nat.add_assoc]
    derives := hleft.derives.choice hright.derives
    height_eq := rfl
    height_le := hheight
    nests := (nestsWithin_choice hleft.derives.balanced).mpr ⟨hleft.nests, hright.nests⟩ }

end Takes

/-!
# From reading to the grammar

Each loop takes its next element behind what it has taken so far, and stops where there
is none.  Groups are read by a reader for one level of brackets less.
-/

section Sound

variable {depth bound : Nat} {u : List Char} {s : Source} {p left : Parsed}

def GroupsTake (depth : Nat) : Prop :=
  ∀ inner s p, depth = inner + 1 → readNested inner s = .ok p → ∃ u, Takes .choice inner u s p

theorem readAtom_takes (hgroup : GroupsTake depth) (h : readAtom (groupOf depth) s = .ok p) :
    ∃ u, Takes .atom depth u s p := by
  rcases s with ⟨offset, chars⟩
  unfold readAtom at h
  cases chars with
  | nil => cases h
  | cons c cs =>
      dsimp only at h
      split at h
      · rename_i hopen
        subst hopen
        cases depth with
        | zero => cases h
        | succ inner =>
            dsimp only [groupOf, closeGroup] at h
            split at h
            · rename_i q hread
              split at h
              · rename_i hclose
                cases h
                rcases hgroup inner _ q rfl hread with ⟨u, hu⟩
                exact ⟨_, hu.group hclose⟩
              · cases h
            · cases h
      · rename_i hopen
        split at h
        · rename_i hepsilon
          subst hepsilon
          cases h
          exact ⟨_, takes_leaf Derives.epsilon rfl hopen⟩
        · split at h
          · rename_i hsymbol
            cases h
            exact ⟨_, takes_leaf (Derives.letter (isLetterSymbol_iff.mp hsymbol)) rfl hopen⟩
          · cases h

theorem readOperators_takes {e : Expr} {height offset : Nat} {z : List Char}
    (hp : Takes .suffixed depth u s ⟨e, height, ⟨offset, z⟩⟩)
    (h : readOperators e height offset z = .ok p) :
    (∃ v, Takes .suffixed depth v s p) ∧ ¬ OpensOperator p.rest.chars := by
  induction z generalizing u e height offset with
  | nil =>
      cases h
      exact ⟨⟨u, hp⟩, not_opensOperator_nil⟩
  | cons c z ih =>
      unfold readOperators at h
      split at h
      · rename_i hnone
        cases h
        refine ⟨⟨u, hp⟩, ?_⟩
        intro hopens
        rcases opensOperator_cons_iff.mp hopens with ⟨apply, hoperator⟩
        rw [operator?_eq_some_iff.mpr hoperator] at hnone
        cases hnone
      · rename_i apply hoperator
        split at h
        · cases h
        · rename_i hlimit
          have hc := operator?_eq_some_iff.mp hoperator
          exact ih (hp.operator rfl hc (Nat.le_of_not_lt hlimit)) h

theorem readPostfix_takes (hgroup : GroupsTake depth) (h : readPostfix (groupOf depth) s = .ok p) :
    (∃ u, Takes .suffixed depth u s p) ∧ ¬ OpensOperator p.rest.chars := by
  unfold readPostfix at h
  split at h
  · rename_i q hatom
    rcases readAtom_takes hgroup hatom with ⟨u, hu⟩
    exact readOperators_takes hu.suffixed h
  · cases h

theorem Takes.length_lt {t : Tier} (h : Takes t depth u s p) :
    p.rest.chars.length < s.chars.length := by
  have := List.length_pos_iff.mpr h.derives.ne_nil
  rw [h.chars_eq, List.length_append]
  omega

theorem readFurther_takes (hgroup : GroupsTake depth) (hleft : Takes .concat depth u s left)
    (hstop : ¬ OpensOperator left.rest.chars) (hbound : left.rest.chars.length ≤ bound)
    (h : readFurther (groupOf depth) bound left = .ok p) :
    (∃ v, Takes .concat depth v s p) ∧ ¬ OpensOperator p.rest.chars ∧
      ¬ OpensAtom p.rest.chars := by
  induction bound generalizing u left with
  | zero =>
      cases h
      refine ⟨⟨u, hleft⟩, hstop, ?_⟩
      rw [List.length_eq_zero_iff.mp (Nat.le_zero.mp hbound)]
      exact not_opensAtom_nil
  | succ bound ih =>
      unfold readFurther at h
      split at h
      · rename_i right hright
        split at h
        · rename_i both hjoined
          rcases readPostfix_takes hgroup hright with ⟨⟨v, hv⟩, hstop⟩
          have hlt := hv.length_lt
          have hboth : both.rest = right.rest := by
            rw [(joined_eq_ok_iff.mp hjoined).2]
          rw [← hboth] at hstop hlt
          exact ih (hleft.joined_concat hv hjoined) hstop (by omega) h
        · cases h
      · rename_i err herr
        split at h
        · cases h
        · rename_i hfatal
          cases h
          refine ⟨⟨u, hleft⟩, hstop, ?_⟩
          intro hopens
          exact hfatal ((readPostfix_expectsAtom _).fatal _ err hopens herr)

theorem readConcat_takes (hgroup : GroupsTake depth) (h : readConcat (groupOf depth) s = .ok p) :
    (∃ u, Takes .concat depth u s p) ∧ ¬ OpensOperator p.rest.chars ∧
      ¬ OpensAtom p.rest.chars := by
  unfold readConcat at h
  split at h
  · rename_i first hfirst
    rcases readPostfix_takes hgroup hfirst with ⟨⟨u, hu⟩, hstop⟩
    exact readFurther_takes hgroup hu.concat hstop (Nat.le_refl _) h
  · cases h

theorem readAlternatives_takes (hgroup : GroupsTake depth) (hleft : Takes .choice depth u s left)
    (hstop : ¬ OpensOperator left.rest.chars ∧ ¬ OpensAtom left.rest.chars)
    (hbound : left.rest.chars.length ≤ bound)
    (h : readAlternatives (groupOf depth) bound left = .ok p) :
    (∃ v, Takes .choice depth v s p) ∧ ¬ GoesOn p.rest.chars := by
  induction bound generalizing u left with
  | zero =>
      cases h
      refine ⟨⟨u, hleft⟩, not_goesOn hstop.2 hstop.1 ?_⟩
      intro rest hbar
      rw [hbar] at hbound
      cases hbound
  | succ bound ih =>
      unfold readAlternatives at h
      split at h
      · rename_i cs hbar
        dsimp only at h
        split at h
        · rename_i right hright
          split at h
          · rename_i both hjoined
            rcases readConcat_takes hgroup hright with ⟨⟨v, hv⟩, hstop⟩
            have hlt : right.rest.chars.length < cs.length := hv.length_lt
            have hboth : both.rest = right.rest := by
              rw [(joined_eq_ok_iff.mp hjoined).2]
            rw [← hboth] at hstop hlt
            rw [hbar, List.length_cons] at hbound
            exact ih (hleft.joined_choice hbar hv hjoined) hstop (by omega) h
          · cases h
        · rename_i err herr
          split at h
          · cases h
          · rename_i hfatal
            cases h
            refine ⟨⟨u, hleft⟩, not_goesOn hstop.2 hstop.1 ?_⟩
            intro rest hrest hopens
            rw [hbar] at hrest
            injection hrest with _ hrest
            rw [← hrest] at hopens
            exact hfatal ((readConcat_expectsAtom _).fatal _ err hopens herr)
      · rename_i hbar
        cases h
        exact ⟨⟨u, hleft⟩, not_goesOn hstop.2 hstop.1 (fun rest hrest => absurd hrest (hbar rest))⟩

theorem readChoice_takes (hgroup : GroupsTake depth) (h : readChoice (groupOf depth) s = .ok p) :
    (∃ u, Takes .choice depth u s p) ∧ ¬ GoesOn p.rest.chars := by
  unfold readChoice at h
  split at h
  · rename_i first hfirst
    rcases readConcat_takes hgroup hfirst with ⟨⟨u, hu⟩, hstop⟩
    exact readAlternatives_takes hgroup hu.choice hstop (Nat.le_refl _) h
  · cases h

theorem groupsTake (depth : Nat) : GroupsTake depth := by
  induction depth with
  | zero =>
      intro inner s p hdepth
      cases hdepth
  | succ depth ih =>
      intro inner s p hdepth h
      injection hdepth with hdepth
      rw [← hdepth, readNested_eq] at h
      exact hdepth ▸ (readChoice_takes ih h).1

end Sound

/-!
# From the grammar to reading

A text that the grammar derives leads each level of the reader to the place behind it:
a loop stands there with what it has taken, and goes on from there.
-/

section Complete

variable {group : Option (Source → Reading)} {depth bound offset : Nat} {t : Tier}
  {u z : List Char} {e : Expr} {p : Parsed}

theorem readOperators_stops {height : Nat} (hz : ¬ OpensOperator z) :
    readOperators e height offset z = .ok ⟨e, height, ⟨offset, z⟩⟩ := by
  cases z with
  | nil => rfl
  | cons c z =>
      have hnone : operator? c = none := by
        apply Option.eq_none_iff_forall_ne_some.mpr
        intro apply hoperator
        exact hz (opensOperator_cons_iff.mpr ⟨apply, operator?_eq_some_iff.mp hoperator⟩)
      unfold readOperators
      rw [hnone]

theorem readFurther_stops (hp : ¬ OpensAtom p.rest.chars) :
    readFurther group bound p = .ok p := by
  cases bound with
  | zero => rfl
  | succ bound =>
      rcases (readPostfix_expectsAtom group).fails p.rest hp with ⟨err, herr, hfatal⟩
      unfold readFurther
      rw [herr]
      simp [hfatal]

theorem readAlternatives_stops (hp : ¬ GoesOn p.rest.chars) :
    readAlternatives group bound p = .ok p := by
  cases bound with
  | zero => rfl
  | succ bound =>
      unfold readAlternatives
      split
      · rename_i cs hbar
        have hcs : ¬ OpensAtom cs := fun h => hp (Or.inr (Or.inr ⟨cs, hbar, h⟩))
        rcases (readConcat_expectsAtom group).fails ⟨p.rest.offset + 1, cs⟩ hcs with
          ⟨err, herr, hfatal⟩
        simp [herr, hfatal]
      · rfl

theorem readAlternatives_bar {left right both : Parsed} {cs : List Char}
    (hbar : left.rest.chars = '|' :: cs)
    (hright : readConcat group ⟨left.rest.offset + 1, cs⟩ = .ok right)
    (hjoined : joined choice (left.rest.offset + 1) left right = .ok both) :
    readAlternatives group (bound + 1) left = readAlternatives group bound both := by
  rw [readAlternatives]
  simp only [hbar, hright, hjoined]

def behind (e : Expr) (offset : Nat) (u z : List Char) : Parsed :=
  ⟨e, e.height, ⟨offset + byteCount u, z⟩⟩

def Reaches (depth : Nat) (u : List Char) (e : Expr) (offset : Nat) (z : List Char) : Tier → Prop
  | .atom => readAtom (groupOf depth) ⟨offset, u ++ z⟩ = .ok (behind e offset u z)
  | .suffixed =>
      readPostfix (groupOf depth) ⟨offset, u ++ z⟩ =
        readOperators e e.height (offset + byteCount u) z
  | .concat => ¬ OpensOperator z →
      ∃ bound, z.length ≤ bound ∧ readConcat (groupOf depth) ⟨offset, u ++ z⟩ =
        readFurther (groupOf depth) bound (behind e offset u z)
  | .choice => ¬ OpensOperator z → ¬ OpensAtom z →
      ∃ bound, z.length ≤ bound ∧ readChoice (groupOf depth) ⟨offset, u ++ z⟩ =
        readAlternatives (groupOf depth) bound (behind e offset u z)

/-!
One step for each rule of the grammar.
-/

section Rules

variable {v : List Char} {f : Expr} {c : Char} {apply : Expr → Expr}

theorem reaches_group (h : Reaches depth u e (offset + 1) (')' :: z) .choice) :
    Reaches (depth + 1) ('(' :: u ++ [')']) e offset z .atom := by
  rcases h (fun hopens => not_goesOn_close (Or.inr (Or.inl hopens)))
    (fun hopens => not_goesOn_close (Or.inl hopens)) with ⟨bound, _, hread⟩
  have hstops : readAlternatives (groupOf depth) bound (behind e (offset + 1) u (')' :: z)) =
      .ok (behind e (offset + 1) u (')' :: z)) :=
    readAlternatives_stops not_goesOn_close
  have hinside : readNested depth ⟨offset + 1, u ++ ')' :: z⟩ =
      .ok (behind e (offset + 1) u (')' :: z)) := by
    rw [readNested_eq, hread, hstops]
  have hgroup : readAtom (groupOf (depth + 1)) ⟨offset, '(' :: u ++ [')'] ++ z⟩ =
      closeGroup offset (readNested depth ⟨offset + 1, u ++ [')'] ++ z⟩) := rfl
  have hsizes : '('.utf8Size = 1 ∧ ')'.utf8Size = 1 := ⟨rfl, rfl⟩
  show readAtom _ _ = _
  rw [hgroup, List.append_assoc]
  show closeGroup offset (readNested depth ⟨offset + 1, u ++ ')' :: z⟩) = _
  rw [hinside]
  simp [closeGroup, behind, hsizes]
  omega

theorem reaches_letter (hc : IsSymbol c) :
    Reaches depth [c] (letter ⟨none, c⟩) offset z .atom := by
  have hsymbol := isLetterSymbol_iff.mpr hc
  simp [Reaches, readAtom, behind, height, hc.ne, hsymbol]

theorem reaches_epsilon : Reaches depth ['ε'] (epsilon none) offset z .atom := by
  simp [Reaches, readAtom, behind, height]

theorem reaches_suffixed (h : Reaches depth u e offset z .atom) :
    Reaches depth u e offset z .suffixed := by
  have h : readAtom (groupOf depth) ⟨offset, u ++ z⟩ = .ok (behind e offset u z) := h
  show readPostfix _ _ = _
  unfold readPostfix
  rw [h]
  rfl

theorem reaches_operator (h : Reaches depth u e offset (c :: z) .suffixed)
    (hc : IsOperator c apply) (hheight : (apply e).height ≤ depthLimit) :
    Reaches depth (u ++ [c]) (apply e) offset z .suffixed := by
  have h : readPostfix (groupOf depth) ⟨offset, u ++ c :: z⟩ =
      readOperators e e.height (offset + byteCount u) (c :: z) := h
  have hlimit : ¬ depthLimit < e.height + 1 := by
    rw [← hc.height_eq]
    exact Nat.not_lt_of_le hheight
  show readPostfix _ ⟨offset, u ++ [c] ++ z⟩ = _
  rw [List.append_assoc, List.singleton_append, h, readOperators, operator?_eq_some_iff.mpr hc]
  simp [hlimit, hc.height_eq, hc.utf8Size_eq, Nat.add_assoc]

theorem reaches_concat_of_suffixed (h : Reaches depth u e offset z .suffixed) :
    Reaches depth u e offset z .concat := by
  have h : readPostfix (groupOf depth) ⟨offset, u ++ z⟩ =
      readOperators e e.height (offset + byteCount u) z := h
  intro hz
  refine ⟨z.length, Nat.le_refl _, ?_⟩
  unfold readConcat
  rw [h, readOperators_stops hz]
  rfl

theorem reaches_concat (hleft : Reaches depth u e offset (v ++ z) .concat)
    (hright : Reaches depth v f (offset + byteCount u) z .suffixed) (hv : OpensAtom v)
    (hheight : (concat e f).height ≤ depthLimit) :
    Reaches depth (u ++ v) (concat e f) offset z .concat := by
  intro hz
  rcases hv with ⟨c, rest, rfl, hc⟩
  have hoperator : ¬ OpensOperator (c :: rest ++ z) := by
    intro hopens
    rcases opensOperator_cons_iff.mp hopens with ⟨apply, happly⟩
    exact hc.not_isOperator happly
  rcases hleft hoperator with ⟨bound, hbound, hread⟩
  cases bound with
  | zero => cases hbound
  | succ bound =>
      have hnext : readPostfix (groupOf depth) (behind e offset u (c :: rest ++ z)).rest =
          .ok (behind f (offset + byteCount u) (c :: rest) z) :=
        Eq.trans hright (readOperators_stops hz)
      have hjoined : joined concat (behind e offset u (c :: rest ++ z)).rest.offset
          (behind e offset u (c :: rest ++ z)) (behind f (offset + byteCount u) (c :: rest) z) =
          .ok (behind (concat e f) offset (u ++ c :: rest) z) := by
        refine joined_eq_ok_iff.mpr ⟨hheight, ?_⟩
        simp [behind, height, Nat.add_assoc]
      refine ⟨bound, ?_, ?_⟩
      · simp at hbound
        omega
      · rw [List.append_assoc, hread, readFurther, hnext]
        dsimp only
        rw [hjoined]

theorem reaches_choice_of_concat (h : Reaches depth u e offset z .concat) :
    Reaches depth u e offset z .choice := by
  intro hoperator hatom
  rcases h hoperator with ⟨bound, _, hread⟩
  refine ⟨z.length, Nat.le_refl _, ?_⟩
  unfold readChoice
  rw [hread, readFurther_stops (p := behind e offset u z) hatom]
  rfl

theorem reaches_choice (hleft : Reaches depth u e offset ('|' :: v ++ z) .choice)
    (hright : Reaches depth v f (offset + byteCount u + 1) z .concat)
    (hheight : (choice e f).height ≤ depthLimit) :
    Reaches depth (u ++ '|' :: v) (choice e f) offset z .choice := by
  intro hoperator hatom
  have hbar_operator : ¬ OpensOperator ('|' :: v ++ z) := by
    intro hopens
    rcases opensOperator_cons_iff.mp hopens with ⟨apply, happly⟩
    cases happly
  have hbar_atom : ¬ OpensAtom ('|' :: v ++ z) := by
    rw [List.cons_append, opensAtom_cons_iff]
    unfold BeginsAtom IsSymbol
    decide
  rcases hleft hbar_operator hbar_atom with ⟨bound, hbound, hread⟩
  rcases hright hoperator with ⟨right_bound, _, hright⟩
  cases bound with
  | zero => cases hbound
  | succ bound =>
      have hnext : readConcat (groupOf depth) ⟨offset + byteCount u + 1, v ++ z⟩ =
          .ok (behind f (offset + byteCount u + 1) v z) :=
        Eq.trans hright (readFurther_stops (p := behind f (offset + byteCount u + 1) v z) hatom)
      have hjoined : joined choice (offset + byteCount u + 1)
          (behind e offset u ('|' :: v ++ z)) (behind f (offset + byteCount u + 1) v z) =
          .ok (behind (choice e f) offset (u ++ '|' :: v) z) := by
        have hsize : '|'.utf8Size = 1 := rfl
        refine joined_eq_ok_iff.mpr ⟨hheight, ?_⟩
        simp [behind, height, hsize, Nat.add_assoc]
      refine ⟨bound, ?_, ?_⟩
      · simp at hbound
        omega
      · rw [List.append_assoc, hread]
        exact readAlternatives_bar rfl hnext hjoined

end Rules

/-- A derivation within the limits leads the reader behind its text. -/
theorem Derives.reaches (h : Derives t u e) (hheight : e.height ≤ depthLimit)
    (hnests : NestsWithin depth u) (offset : Nat) (z : List Char) :
    Reaches depth u e offset z t := by
  induction h generalizing depth offset z with
  | group _ ih =>
      rcases nestsWithin_group.mp hnests with ⟨inner, rfl, hinner⟩
      exact reaches_group (ih hheight hinner (offset + 1) (')' :: z))
  | letter hc => exact reaches_letter hc
  | epsilon => exact reaches_epsilon
  | atom _ ih => exact reaches_suffixed (ih hheight hnests offset z)
  | @operator u e c apply hu hc ih =>
      have hinner : e.height ≤ depthLimit := by
        rw [hc.height_eq] at hheight
        omega
      have hnests := ((nestsWithin_append hu.balanced).mp hnests).1
      exact reaches_operator (ih hinner hnests offset (c :: z)) hc hheight
  | suffixed _ ih => exact reaches_concat_of_suffixed (ih hheight hnests offset z)
  | @concat u v e f hleft hright ihleft ihright =>
      have hparts : 1 + max e.height f.height ≤ depthLimit := hheight
      have hnests := (nestsWithin_append hleft.balanced).mp hnests
      exact reaches_concat (ihleft (by omega) hnests.1 offset (v ++ z))
        (ihright (by omega) hnests.2 (offset + byteCount u) z) hright.opensAtom hheight
  | alternative _ ih => exact reaches_choice_of_concat (ih hheight hnests offset z)
  | @choice u v e f hleft hright ihleft ihright =>
      have hparts : 1 + max e.height f.height ≤ depthLimit := hheight
      have hnests := (nestsWithin_choice hleft.balanced).mp hnests
      exact reaches_choice (ihleft (by omega) hnests.1 offset ('|' :: v ++ z))
        (ihright (by omega) hnests.2 (offset + byteCount u + 1) z) hheight

end Complete

/-!
# Whole texts
-/

theorem readNested_eq_ok_iff {depth : Nat} {s : Source} {p : Parsed} :
    readNested depth s = .ok p ↔
      (∃ u, Takes .choice depth u s p) ∧ ¬ GoesOn p.rest.chars := by
  rw [readNested_eq]
  constructor
  · exact readChoice_takes (groupsTake depth)
  · rintro ⟨⟨u, hu⟩, hstop⟩
    rcases s with ⟨offset, chars⟩
    rcases p with ⟨e, height, ⟨next, z⟩⟩
    have hchars : chars = u ++ z := hu.chars_eq
    have hnext : next = offset + byteCount u := hu.offset_eq
    have hheight : height = e.height := hu.height_eq
    subst hchars hnext hheight
    have hreaches : Reaches depth u e offset z .choice :=
      hu.derives.reaches hu.height_le hu.nests offset z
    rcases hreaches (fun h => hstop (Or.inr (Or.inl h))) (fun h => hstop (Or.inl h)) with
      ⟨bound, _, hread⟩
    rw [hread]
    exact readAlternatives_stops hstop

/-- What is read of a text: an expression that the grammar derives from its beginning,
within the limits, where the expression cannot go on. -/
theorem parsePrefix_eq_ok_iff {text rest : String} {e : Expr} :
    parsePrefix text = .ok (e, rest) ↔
      ∃ u : String, text = u ++ rest ∧ Derives .choice u.toList e ∧ e.height ≤ depthLimit ∧
        NestsWithin depthLimit u.toList ∧ ¬ GoesOn rest.toList := by
  unfold parsePrefix
  constructor
  · intro h
    split at h
    · rename_i p hread
      cases h
      rcases readNested_eq_ok_iff.mp hread with ⟨⟨u, hu⟩, hstop⟩
      refine ⟨String.ofList u, ?_, ?_⟩
      · rw [← String.ofList_append, ← hu.chars_eq, String.ofList_toList]
      · rw [String.toList_ofList, String.toList_ofList]
        exact ⟨hu.derives, hu.height_le, hu.nests, hstop⟩
    · cases h
  · rintro ⟨u, rfl, hderives, hheight, hnests, hstop⟩
    have hread : readNested depthLimit ⟨0, (u ++ rest).toList⟩ =
        .ok ⟨e, e.height, ⟨0 + byteCount u.toList, rest.toList⟩⟩ :=
      readNested_eq_ok_iff.mpr
        ⟨⟨u.toList, String.toList_append, rfl, hderives, rfl, hheight, hnests⟩, hstop⟩
    rw [hread]
    dsimp only
    rw [String.ofList_toList]

/-- Reading follows the grammar: what is read is the longest beginning of the text that
the grammar derives, with its expression, and a whole text within the limits is read. -/
theorem parsePrefix_derives (text : String) (e : Expr) :
    (∀ rest, parsePrefix text = .ok (e, rest) →
      ∃ u : String, text = u ++ rest ∧ Derives .choice u.toList e ∧
        (∀ v f, v <+: text.toList → Derives .choice v f → v.length ≤ u.toList.length) ∧
        e.height ≤ depthLimit) ∧
    (Derives .choice text.toList e → e.height ≤ depthLimit → NestsWithin depthLimit text.toList →
      parsePrefix text = .ok (e, "")) := by
  constructor
  · intro rest h
    rcases parsePrefix_eq_ok_iff.mp h with ⟨u, rfl, hderives, hheight, _, hstop⟩
    refine ⟨u, rfl, hderives, ?_, hheight⟩
    intro v f hbegin hv
    rw [String.toList_append] at hbegin
    exact hderives.length_le hstop hv hbegin
  · intro hderives hheight hnests
    refine parsePrefix_eq_ok_iff.mpr ⟨text, ?_, hderives, hheight, hnests, ?_⟩
    · simp
    · exact not_goesOn_nil

theorem parsePrefix_derives_starred :
    parsePrefix "(a|b)*" = .ok (star (choice (letter ⟨none, 'a'⟩) (letter ⟨none, 'b'⟩)), "") ∧
    ∃ u : String, "a|b|)" = u ++ "|)" ∧
      ∀ v f, v <+: "a|b|)".toList → Derives .choice v f → v.length ≤ u.toList.length := by
  have hleft : Derives .concat ['a'] (letter ⟨none, 'a'⟩) :=
    (Derives.letter (by unfold IsSymbol; decide)).atom.suffixed
  have hright : Derives .concat ['b'] (letter ⟨none, 'b'⟩) :=
    (Derives.letter (by unfold IsSymbol; decide)).atom.suffixed
  have hstar : Derives .suffixed "(a|b)*".toList _ :=
    (hleft.alternative.choice hright).group.atom.operator IsOperator.star
  constructor
  · refine (parsePrefix_derives "(a|b)*" _).2 hstar.suffixed.alternative (by decide) ?_
    intro p hp
    have hcount : p.count '(' ≤ p.length := List.count_le_length
    have hlength : p.length ≤ depthLimit := hp.length_le.trans (by decide)
    omega
  · have hread : parsePrefix "a|b|)" =
        .ok (choice (letter ⟨none, 'a'⟩) (letter ⟨none, 'b'⟩), "|)") := by decide
    rcases (parsePrefix_derives "a|b|)" _).1 "|)" hread with ⟨u, htext, _, hlongest, _⟩
    exact ⟨u, htext, hlongest⟩

end Recognizer.Expr
