import Recognizer.Text.Listing
import Mathlib.Data.List.DropRight

/-!
# Taking lists of texts apart

Several texts that are shown as one can be told apart again, as long as no text holds what
stands between them.  For lists in braces it is enough that each item shows where it ends:
an item may then hold commas and braces of its own.
-/

namespace Recognizer.Text

/-!
# Texts up to a separator
-/

section Separators

variable {c : Char} {u v s t : List Char}

theorem takeWhile_append_separator (hu : c ∉ u) :
    (u ++ c :: s).takeWhile (fun b => decide (b ≠ c)) = u := by
  rw [List.takeWhile_append_of_pos]
  · simp
  · intro b hb
    exact decide_eq_true (fun hbc => hu (hbc ▸ hb))

theorem eq_of_append_separator (hu : c ∉ u) (hv : c ∉ v) (h : u ++ c :: s = v ++ c :: t) :
    u = v ∧ s = t := by
  have huv := congrArg (List.takeWhile (fun b => decide (b ≠ c))) h
  rw [takeWhile_append_separator hu, takeWhile_append_separator hv] at huv
  subst huv
  injection List.append_cancel_left h with _ hst
  exact ⟨rfl, hst⟩

theorem toList_lines_cons (x : String) (xs : List String) :
    (lines (x :: xs)).toList = x.toList ++ '\n' :: (lines xs).toList := by
  simp [lines]

theorem lines_cons_ne_nil (x : String) (xs : List String) : lines (x :: xs) ≠ lines [] := by
  intro h
  have hchars := congrArg String.toList h
  rw [toList_lines_cons] at hchars
  simp [lines] at hchars

theorem lines_inj {xs ys : List String} (hxs : ∀ x ∈ xs, '\n' ∉ x.toList)
    (hys : ∀ y ∈ ys, '\n' ∉ y.toList) (h : lines xs = lines ys) : xs = ys := by
  induction xs generalizing ys with
  | nil =>
      cases ys with
      | nil => rfl
      | cons y ys => exact absurd h.symm (lines_cons_ne_nil y ys)
  | cons x xs ih =>
      cases ys with
      | nil => exact absurd h (lines_cons_ne_nil x xs)
      | cons y ys =>
          rw [List.forall_mem_cons] at hxs hys
          have hchars := congrArg String.toList h
          rw [toList_lines_cons, toList_lines_cons] at hchars
          rcases eq_of_append_separator hxs.1 hys.1 hchars with ⟨hxy, hrest⟩
          rw [String.toList_inj.mp hxy, ih hxs.2 hys.2 (String.toList_inj.mp hrest)]

end Separators

/-!
# Blanks behind a text
-/

/-- A text can be told from the blanks behind it when it does not end in one itself. -/
def NoTrailingBlank (s : List Char) : Prop := s.getLast? ≠ some ' '

section Blanks

variable {u : List Char} {x : String}

theorem noTrailingBlank_of_not_mem (hu : ' ' ∉ u) : NoTrailingBlank u := by
  intro h
  exact hu (List.mem_of_getLast? h)

theorem noTrailingBlank_braced (xs : List String) : NoTrailingBlank (braced xs).toList := by
  have hclose : "\x7d".toList = ['\x7d'] := rfl
  unfold NoTrailingBlank braced
  rw [String.toList_append, hclose, List.getLast?_concat]
  decide

theorem rdropWhile_append_blanks (hu : NoTrailingBlank u) (n : Nat) :
    (u ++ List.replicate n ' ').rdropWhile (fun c => decide (c = ' ')) = u := by
  induction n with
  | zero =>
      rw [List.replicate_zero, List.append_nil, List.rdropWhile_eq_self_iff]
      intro hne hblank
      apply hu
      rw [List.getLast?_eq_some_getLast hne, of_decide_eq_true hblank]
  | succ n ih =>
      rw [List.replicate_succ', ← List.append_assoc,
        List.rdropWhile_concat_pos (fun c => decide (c = ' ')) _ _ (decide_eq_true rfl), ih]

theorem toList_padded (n : Nat) (x : String) :
    (padded n x).toList = x.toList ++ List.replicate (n - x.length) ' ' := by
  simp [padded]

theorem rdropWhile_padded (hx : NoTrailingBlank x.toList) (n : Nat) :
    (padded n x).toList.rdropWhile (fun c => decide (c = ' ')) = x.toList := by
  rw [toList_padded, rdropWhile_append_blanks hx]

theorem forall_mem_padded {R : Char → Prop} (hblank : R ' ') (hx : ∀ c ∈ x.toList, R c) (n : Nat) :
    ∀ c ∈ (padded n x).toList, R c := by
  rw [toList_padded, List.forall_mem_append]
  refine ⟨hx, fun c hc => ?_⟩
  rw [List.eq_of_mem_replicate hc]
  exact hblank

end Blanks

/-!
# Items of lists in braces
-/

/-- What may stand behind an item of a list: a comma, the closing brace, or nothing. -/
def EndsItem : List Char → Prop
  | [] => True
  | c :: _ => c = ',' ∨ c = '\x7d'

/-- The text shows where it ends, among the texts of a kind: whatever ends an item may
stand behind it, and it does not begin like the end of an item. -/
structure ShowsEnd (P : String → Prop) (x : String) : Prop where
  not_endsItem : ∀ s, ¬ EndsItem (x.toList ++ s)
  eq_of_append_eq : ∀ y s t, P y → EndsItem s → EndsItem t →
    x.toList ++ s = y.toList ++ t → x = y

def furtherItems (s : List Char) : List String → List Char
  | [] => '\x7d' :: s
  | x :: xs => ',' :: ' ' :: (x.toList ++ furtherItems s xs)

theorem endsItem_furtherItems (s : List Char) (xs : List String) :
    EndsItem (furtherItems s xs) := by
  cases xs with
  | nil => exact Or.inr rfl
  | cons x xs => exact Or.inl rfl

theorem toList_braced_nil_append (s : List Char) :
    (braced []).toList ++ s = '\x7b' :: '\x7d' :: s := by
  simp [braced, commaSeparated]

theorem toList_braced_cons_append (x : String) (xs : List String) (s : List Char) :
    (braced (x :: xs)).toList ++ s = '\x7b' :: (x.toList ++ furtherItems s xs) := by
  induction xs generalizing x with
  | nil => simp [braced, commaSeparated, furtherItems]
  | cons y ys ih =>
      have hrest := ih y
      simp only [braced, commaSeparated, String.toList_append, List.append_assoc] at hrest
      injection hrest with _ hrest
      simp only [braced, commaSeparated, String.intercalate_cons_cons, String.toList_append,
        List.append_assoc, furtherItems, ← hrest]
      rfl

theorem forall_mem_braced {R : Char → Prop} {xs : List String}
    (hbetween : ∀ c ∈ "\x7b, \x7d".toList, R c) (hxs : ∀ x ∈ xs, ∀ c ∈ x.toList, R c) :
    ∀ c ∈ (braced xs).toList, R c := by
  have hbetween : ∀ c ∈ ['\x7b', ',', ' ', '\x7d'], R c := hbetween
  simp only [List.forall_mem_cons] at hbetween
  have hfurther : ∀ ys : List String, (∀ y ∈ ys, ∀ c ∈ y.toList, R c) →
      ∀ c ∈ furtherItems [] ys, R c := by
    intro ys
    induction ys with
    | nil => simp [furtherItems, hbetween]
    | cons y ys ih =>
        intro hys
        rw [List.forall_mem_cons] at hys
        simp only [furtherItems, List.forall_mem_cons, List.forall_mem_append]
        exact ⟨hbetween.2.1, hbetween.2.2.1, hys.1, ih hys.2⟩
  rw [← List.append_nil (braced xs).toList]
  cases xs with
  | nil =>
      rw [toList_braced_nil_append]
      simp [hbetween]
  | cons x xs =>
      rw [toList_braced_cons_append]
      simp only [List.forall_mem_cons, List.forall_mem_append] at hxs ⊢
      exact ⟨hbetween.1, hxs.1, hfurther xs hxs.2⟩

section Items

variable {P : String → Prop} {xs ys : List String} {s t : List Char}

theorem furtherItems_inj (hxs : ∀ x ∈ xs, ShowsEnd P x) (hys : ∀ y ∈ ys, P y)
    (h : furtherItems s xs = furtherItems t ys) : xs = ys ∧ s = t := by
  induction xs generalizing ys with
  | nil =>
      cases ys with
      | nil =>
          injection h with _ hst
          exact ⟨rfl, hst⟩
      | cons y ys =>
          injection h with hbrace _
          exact absurd hbrace (by decide)
  | cons x xs ih =>
      cases ys with
      | nil =>
          injection h with hcomma _
          exact absurd hcomma (by decide)
      | cons y ys =>
          rw [List.forall_mem_cons] at hxs hys
          injection h with _ hitems
          injection hitems with _ hitems
          have hxy := hxs.1.eq_of_append_eq y _ _ hys.1 (endsItem_furtherItems s xs)
            (endsItem_furtherItems t ys) hitems
          subst hxy
          rcases ih hxs.2 hys.2 (List.append_cancel_left hitems) with ⟨rfl, hst⟩
          exact ⟨rfl, hst⟩

theorem append_ne_brace {x : String} (hx : ∀ s, ¬ EndsItem (x.toList ++ s)) :
    x.toList ++ s ≠ '\x7d' :: t := by
  intro h
  apply hx s
  rw [h]
  exact Or.inr rfl

/-- A list in braces can be told from what stands behind it, and its items from each other. -/
theorem braced_append_inj (hxs : ∀ x ∈ xs, ShowsEnd P x)
    (hys : ∀ y ∈ ys, P y ∧ ∀ s, ¬ EndsItem (y.toList ++ s))
    (h : (braced xs).toList ++ s = (braced ys).toList ++ t) : xs = ys ∧ s = t := by
  cases xs with
  | nil =>
      cases ys with
      | nil =>
          rw [toList_braced_nil_append, toList_braced_nil_append] at h
          injection h with _ h
          injection h with _ hst
          exact ⟨rfl, hst⟩
      | cons y ys =>
          rw [toList_braced_nil_append, toList_braced_cons_append] at h
          injection h with _ h
          exact absurd h.symm (append_ne_brace (hys y List.mem_cons_self).2)
  | cons x xs =>
      cases ys with
      | nil =>
          rw [toList_braced_nil_append, toList_braced_cons_append] at h
          injection h with _ h
          exact absurd h (append_ne_brace (hxs x List.mem_cons_self).not_endsItem)
      | cons y ys =>
          rw [toList_braced_cons_append, toList_braced_cons_append] at h
          injection h with _ h
          have hitems : furtherItems s (x :: xs) = furtherItems t (y :: ys) :=
            congrArg (fun rest => ',' :: ' ' :: rest) h
          exact furtherItems_inj hxs (fun z hz => (hys z hz).1) hitems

end Items

/-!
# Lists of lists
-/

def IsName (x : String) : Prop := x ≠ "" ∧ ∀ c ∈ x.toList, c ≠ ',' ∧ c ≠ '\x7b' ∧ c ≠ '\x7d'

instance (x : String) : Decidable (IsName x) :=
  @instDecidableAnd _ _ inferInstance (List.decidableBAll _ x.toList)

/-- Names, lists of names in braces, lists of such lists, and so on. -/
inductive Nested : String → Prop where
  | name {x : String} : IsName x → Nested x
  | list {xs : List String} : (∀ x ∈ xs, Nested x) → Nested (braced xs)

section Nested

variable {x y : String} {xs ys : List String} {s t : List Char}

theorem IsName.exists_cons (hx : IsName x) :
    ∃ c cs, x.toList = c :: cs ∧ c ≠ ',' ∧ c ≠ '\x7b' ∧ c ≠ '\x7d' := by
  cases hchars : x.toList with
  | nil => exact absurd (String.toList_eq_nil_iff.mp hchars) hx.1
  | cons c cs => exact ⟨c, cs, rfl, hx.2 c (hchars ▸ List.mem_cons_self)⟩

theorem toList_braced_append_eq (xs : List String) (s : List Char) :
    ∃ rest, (braced xs).toList ++ s = '\x7b' :: rest := by
  cases xs with
  | nil => exact ⟨_, toList_braced_nil_append s⟩
  | cons x xs => exact ⟨_, toList_braced_cons_append x xs s⟩

theorem IsName.append_ne_braced (hx : IsName x) : x.toList ++ s ≠ (braced ys).toList ++ t := by
  rcases hx.exists_cons with ⟨c, cs, hchars, _, hbrace, _⟩
  rcases toList_braced_append_eq ys t with ⟨rest, hrest⟩
  rw [hchars, hrest]
  intro h
  injection h with hc _
  exact hbrace hc

theorem IsName.ne_braced (hx : IsName x) : x ≠ braced ys := by
  intro h
  exact hx.append_ne_braced (congrArg (fun text => text.toList ++ []) h)

theorem IsName.not_endsItem (hx : IsName x) (s : List Char) : ¬ EndsItem (x.toList ++ s) := by
  rcases hx.exists_cons with ⟨c, cs, hchars, hcomma, _, hclose⟩
  rw [hchars]
  intro h
  cases h with
  | inl h => exact hcomma h
  | inr h => exact hclose h

theorem IsName.takeWhile_append (hx : IsName x) (hs : EndsItem s) :
    (x.toList ++ s).takeWhile (fun c => decide (c ≠ ',' ∧ c ≠ '\x7d')) = x.toList := by
  rw [List.takeWhile_append_of_pos]
  · cases s with
    | nil => simp
    | cons c cs =>
        cases hs with
        | inl hc => simp [hc]
        | inr hc => simp [hc]
  · intro c hc
    have hname := hx.2 c hc
    exact decide_eq_true ⟨hname.1, hname.2.2⟩

theorem IsName.eq_of_append_eq (hx : IsName x) (hy : IsName y) (hs : EndsItem s) (ht : EndsItem t)
    (h : x.toList ++ s = y.toList ++ t) : x = y := by
  apply String.toList_inj.mp
  rw [← hx.takeWhile_append hs, h, hy.takeWhile_append ht]

theorem not_endsItem_braced (xs : List String) (s : List Char) :
    ¬ EndsItem ((braced xs).toList ++ s) := by
  rcases toList_braced_append_eq xs s with ⟨rest, hrest⟩
  rw [hrest]
  simp [EndsItem]

theorem Nested.not_endsItem (hx : Nested x) (s : List Char) : ¬ EndsItem (x.toList ++ s) := by
  cases hx with
  | name hname => exact hname.not_endsItem s
  | list _ => exact not_endsItem_braced _ s

/-- Nested lists show where they end, and so they can be read in one way only. -/
theorem Nested.showsEnd (hx : Nested x) : ShowsEnd Nested x where
  not_endsItem := hx.not_endsItem
  eq_of_append_eq := by
    -- by the nesting of one text; the other one is any text of the kind
    induction hx with
    | name hname =>
        intro y s t hy hs ht h
        cases hy with
        | name hother => exact hname.eq_of_append_eq hother hs ht h
        | list _ => exact absurd h hname.append_ne_braced
    | list hitems ih =>
        intro y s t hy _ _ h
        cases hy with
        | name hother => exact absurd h.symm hother.append_ne_braced
        | list hothers =>
            have hends := fun x hx => ShowsEnd.mk (hitems x hx).not_endsItem (ih x hx)
            rw [(braced_append_inj hends (fun y hy => ⟨hothers y hy, (hothers y hy).not_endsItem⟩)
              h).1]

theorem Nested.braced_inj (hxs : ∀ x ∈ xs, Nested x) (hys : ∀ y ∈ ys, Nested y)
    (h : braced xs = braced ys) : xs = ys := by
  have hchars : (braced xs).toList ++ [] = (braced ys).toList ++ [] := by rw [h]
  exact (braced_append_inj (fun x hx => (hxs x hx).showsEnd)
    (fun y hy => ⟨hys y hy, (hys y hy).not_endsItem⟩) hchars).1

end Nested

end Recognizer.Text
