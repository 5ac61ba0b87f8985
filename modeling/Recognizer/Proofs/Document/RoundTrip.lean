import Recognizer.Expr.Encoding
import Recognizer.Proofs.Document.Edit
import Recognizer.Trace.Encoding
import Mathlib.Logic.Relation

/-!
# Reading what was written

Expressions and recorded runs are read back as they were written, as long as their numbers
have no more bits than a reader takes.  A document may be edited before it is read, in the
ways in which records of the same contents differ.
-/

namespace Recognizer

open Document (FieldNames FieldEdit SameContents ofNat ofChar ofOption required)

/-!
# Numbers, characters and values that may be absent
-/

namespace Document

section Values

variable {α : Type} {n bound : Nat} {decode : Document → Option α}

theorem natBelow?_ofNat (h : n < bound) : natBelow? bound (ofNat n) = some n := by
  show (if n < bound then some n else none) = some n
  rw [if_pos h]

theorem char?_ofChar (c : Char) : char? (ofChar c) = some c := by
  have hlist : c.toString.toList = [c] := by
    rw [Char.toString_eq_singleton, String.toList_singleton]
  unfold char? ofChar
  simp only [hlist]

theorem option?_ofOption {x : Option Nat} (h : ∀ n ∈ x, n < bound) :
    option? (natBelow? bound) (ofOption ofNat x) = some x := by
  cases x with
  | none => rfl
  | some n =>
      show (natBelow? bound (ofNat n)).map some = some (some n)
      rw [natBelow?_ofNat (h n rfl)]
      rfl

theorem ids?_ofIds {s : SortedSet Nat} (h : ∀ q ∈ s, q < Nat.pow 2 32) :
    ids? (ofIds s) = some s := by
  have hlist : list? id? (.list (s.toList.map ofNat)) = some s.toList :=
    list?_map fun q hq => natBelow?_ofNat (h q hq)
  unfold ids? ofIds
  rw [hlist]
  refine congrArg some ?_
  apply SortedSet.ext
  intro q
  rw [SortedSet.mem_ofList, SortedSet.mem_toList]

theorem optional_eq (fields : List (String × Document)) (name : String) :
    optional decode fields name = option? decode ((fields.lookup name).getD .null) := by
  unfold optional
  cases fields.lookup name with
  | none => rfl
  | some d => rfl

end Values

namespace SameContents

variable {α : Type} {names : FieldNames} {F G : List (String × Document)} {name : String}

theorem required_eq (h : SameContents names F G) (decode : Document → Option α)
    (hname : name ∈ names.plain) : required decode G name = required decode F name := by
  rw [required, required, h.plain name hname]

theorem optional_eq (h : SameContents names F G) (decode : Document → Option α)
    (hname : name ∈ names.nullable) : optional decode G name = optional decode F name := by
  rw [Document.optional_eq, Document.optional_eq, h.nullable name hname]

end SameContents

end Document

/-!
# Expressions
-/

namespace Letter

def Fits (l : Letter) : Prop := ∀ p ∈ l.position, p < Nat.pow 2 32

def fieldNames : FieldNames := ⟨["symbol"], ["position"], [], by decide⟩

theorem decode?_record (F : List (String × Document)) :
    decode? (.record F) = (do
      let position ← Document.optional Document.id? F "position"
      let symbol ← required Document.char? F "symbol"
      return ⟨position, symbol⟩) := rfl

theorem decode?_encode {l : Letter} (h : l.Fits) : decode? l.encode = some l := by
  rcases l with ⟨position, symbol⟩
  let F := [("position", ofOption ofNat position), ("symbol", ofChar symbol)]
  have hposition : Document.optional Document.id? F "position" = some position :=
    Document.option?_ofOption h
  have hsymbol : required Document.char? F "symbol" = some symbol := Document.char?_ofChar symbol
  show decode? (.record F) = _
  rw [decode?_record, hposition, hsymbol]
  rfl

theorem decode?_congr {F G : List (String × Document)} (h : SameContents fieldNames F G) :
    decode? (.record G) = decode? (.record F) := by
  rw [decode?_record, decode?_record, h.optional_eq _ (by decide), h.required_eq _ (by decide)]

end Letter

namespace Expr

def Fits : Expr → Prop
  | letter l => l.Fits
  | epsilon position => ∀ p ∈ position, p < Nat.pow 2 32
  | choice left right => left.Fits ∧ right.Fits
  | concat left right => left.Fits ∧ right.Fits
  | optional inner => inner.Fits
  | star inner => inner.Fits
  | plus inner => inner.Fits

theorem decode?_encode {e : Expr} (h : e.Fits) : decode? e.encode = some e := by
  induction e with
  | letter l => simp [encode, decode?, Letter.decode?_encode h]
  | epsilon position => simp [encode, decode?, Document.id?, Document.option?_ofOption h]
  | choice left right ihleft ihright => simp [encode, decode?, ihleft h.1, ihright h.2]
  | concat left right ihleft ihright => simp [encode, decode?, ihleft h.1, ihright h.2]
  | optional inner ih => simp [encode, decode?, ih h]
  | star inner ih => simp [encode, decode?, ih h]
  | plus inner ih => simp [encode, decode?, ih h]

inductive Edit : Document → Document → Prop where
  | letter {F G : List (String × Document)} : FieldEdit Letter.fieldNames F G →
      Edit (.record [("Letter", .record F)]) (.record [("Letter", .record G)])
  | left {name : String} {d d' : Document} (right : Document) :
      name = "Choice" ∨ name = "Concatenation" → Edit d d' →
        Edit (.record [(name, .list [d, right])]) (.record [(name, .list [d', right])])
  | right {name : String} {d d' : Document} (left : Document) :
      name = "Choice" ∨ name = "Concatenation" → Edit d d' →
        Edit (.record [(name, .list [left, d])]) (.record [(name, .list [left, d'])])
  | inner {name : String} {d d' : Document} :
      name = "Optional" ∨ name = "KleeneStar" ∨ name = "KleenePlus" → Edit d d' →
        Edit (.record [(name, d)]) (.record [(name, d')])

theorem Edit.decode?_eq {d d' : Document} (h : Edit d d') : decode? d' = decode? d := by
  induction h with
  | letter hfields => simp only [decode?, Letter.decode?_congr hfields.sameContents]
  | left right hname _ ih => rcases hname with rfl | rfl <;> simp only [decode?, ih]
  | right left hname _ ih => rcases hname with rfl | rfl <;> simp only [decode?, ih]
  | inner hname _ ih => rcases hname with rfl | rfl | rfl <;> simp only [decode?, ih]

end Expr

/-!
# Edges
-/

theorem Symbol.decode?_encode (s : Symbol) : decode? s.encode = some s := by
  cases s with
  | epsilon => rfl
  | char c =>
      show (ofChar c).char?.map char = some (char c)
      rw [Document.char?_ofChar]
      rfl

namespace Transition

def Fits (t : Transition) : Prop := t.source < Nat.pow 2 32 ∧ t.target < Nat.pow 2 32

theorem decode?_encode {t : Transition} (h : t.Fits) : decode? t.encode = some t := by
  rcases t with ⟨source, symbol, target⟩
  have hsource := Document.natBelow?_ofNat h.1
  have htarget := Document.natBelow?_ofNat h.2
  show (do
    let source ← Document.id? (ofNat source)
    let symbol ← Symbol.decode? symbol.encode
    let target ← Document.id? (ofNat target)
    return (⟨source, symbol, target⟩ : Transition)) = _
  rw [Document.id?, hsource, htarget, Symbol.decode?_encode]
  rfl

end Transition

/-!
# Recorded runs
-/

theorem Status.decode?_encode (s : Status) : decode? s.encode = some s := by
  cases s <;> rfl

namespace Step

/-- All ids have 32 bits, and all places have 64. -/
def Fits : Step → Prop
  | initial states edges => (∀ q ∈ states, q < Nat.pow 2 32) ∧ ∀ t ∈ edges, t.Fits
  | state index states => (∀ i ∈ index, i < Nat.pow 2 64) ∧ ∀ q ∈ states, q < Nat.pow 2 32
  | transition index _ edges => index < Nat.pow 2 64 ∧ ∀ t ∈ edges, t.Fits
  | error index _ => index < Nat.pow 2 64
  | complete _ states => ∀ q ∈ states, q < Nat.pow 2 32

theorem decodeEdges?_encodeEdges {edges : List Transition} (h : ∀ t ∈ edges, t.Fits) :
    decodeEdges? (encodeEdges edges) = some edges :=
  Document.list?_map fun t ht => Transition.decode?_encode (h t ht)

def fieldNames : String → FieldNames
  | "initial" => ⟨["kind", "edges"], [], ["states"], by decide⟩
  | "state" => ⟨["kind"], ["index"], ["states"], by decide⟩
  | "transition" => ⟨["kind", "index", "symbol", "edges"], [], [], by decide⟩
  | "error" => ⟨["kind", "index", "symbol"], [], [], by decide⟩
  | "complete" => ⟨["kind", "status"], [], ["states"], by decide⟩
  | _ => ⟨["kind"], [], [], by decide⟩

theorem kind_mem_plain (kind : String) : "kind" ∈ (fieldNames kind).plain := by
  unfold fieldNames
  split <;> decide

theorem decodeKind?_congr {kind : String} {F G : List (String × Document)}
    (h : SameContents (fieldNames kind) F G) :
    decodeKind? kind (.record G) = decodeKind? kind (.record F) := by
  have hread : ∀ {α : Type} (decode : Document → Option α) {name : String},
      name ∈ (fieldNames kind).plain → required decode G name = required decode F name :=
    fun decode _ hname => h.required_eq decode hname
  have hsets := h.sets
  unfold decodeKind?
  simp only [Document.fields?, Option.bind_eq_bind, Option.bind_some]
  split
  · rw [hsets "states" (by decide), hread decodeEdges? (by decide)]
  · rw [hsets "states" (by decide), h.optional_eq Document.place? (by decide)]
  · rw [hread Document.place? (by decide), hread Document.char? (by decide),
      hread decodeEdges? (by decide)]
  · rw [hread Document.place? (by decide), hread Document.char? (by decide)]
  · rw [hread Status.decode? (by decide), hsets "states" (by decide)]
  · rfl

theorem decode?_record {kind : String} {F : List (String × Document)}
    (h : F.lookup "kind" = some (.text kind)) :
    decode? (.record F) = decodeKind? kind (.record F) := by
  show (required Document.text? F "kind").bind (fun kind => decodeKind? kind (.record F)) = _
  rw [required, h]
  rfl

theorem decode?_encode {s : Step} (h : s.Fits) : decode? s.encode = some s := by
  cases s with
  | initial states edges =>
      have hstates := Document.ids?_ofIds h.1
      have hedges := decodeEdges?_encodeEdges h.2
      show (do
        let states ← Document.ids? (.ofIds states)
        let edges ← decodeEdges? (encodeEdges edges)
        return initial states edges) = _
      rw [hstates, hedges]
      rfl
  | state index states =>
      have hindex := Document.option?_ofOption h.1
      have hstates := Document.ids?_ofIds h.2
      show (do
        let index ← Document.option? Document.place? (ofOption ofNat index)
        let states ← Document.ids? (.ofIds states)
        return state index states) = _
      rw [Document.place?, hindex, hstates]
      rfl
  | transition index symbol edges =>
      have hindex := Document.natBelow?_ofNat h.1
      have hedges := decodeEdges?_encodeEdges h.2
      show (do
        let index ← Document.place? (ofNat index)
        let symbol ← Document.char? (ofChar symbol)
        let edges ← decodeEdges? (encodeEdges edges)
        return transition index symbol edges) = _
      rw [Document.place?, hindex, Document.char?_ofChar, hedges]
      rfl
  | error index symbol =>
      have hindex := Document.natBelow?_ofNat h
      show (do
        let index ← Document.place? (ofNat index)
        let symbol ← Document.char? (ofChar symbol)
        return error index symbol) = _
      rw [Document.place?, hindex, Document.char?_ofChar]
      rfl
  | complete status states =>
      have hstates := Document.ids?_ofIds h
      show (do
        let status ← Status.decode? status.encode
        let states ← Document.ids? (.ofIds states)
        return complete status states) = _
      rw [Status.decode?_encode, hstates]
      rfl

/-- Another way to write a step: its kind stays, and its fields are written in another way. -/
inductive Edit : Document → Document → Prop where
  | fields {kind : String} {F G : List (String × Document)} :
      F.lookup "kind" = some (.text kind) → FieldEdit (fieldNames kind) F G →
        Edit (.record F) (.record G)

theorem Edit.decode?_eq {d d' : Document} (h : Edit d d') : decode? d' = decode? d := by
  cases h with
  | @fields kind F G hkind hfields =>
      have hsame := hfields.sameContents
      have hkept : G.lookup "kind" = some (.text kind) :=
        (hsame.plain "kind" (kind_mem_plain kind)).trans hkind
      rw [decode?_record hkind, decode?_record hkept, decodeKind?_congr hsame]

end Step

namespace Trace

/-- All steps fit.  The place of the cursor has 64 bits in any case. -/
def Fits (t : Trace) : Prop := ∀ s ∈ t.steps, s.Fits

def fieldNames : FieldNames := ⟨["input", "steps", "cursor"], [], [], by decide⟩

theorem decode?_record (F : List (String × Document)) :
    decode? (.record F) = (do
      let input ← required Document.text? F "input"
      let steps ← required (Document.list? Step.decode?) F "steps"
      let cursor ← required Document.place? F "cursor"
      return ⟨input, steps, .ofNat cursor⟩) := rfl

theorem decode?_encode {t : Trace} (h : t.Fits) : decode? t.encode = some t := by
  rcases t with ⟨input, steps, cursor⟩
  let F := [("input", .text input), ("steps", .list (steps.map Step.encode)),
    ("cursor", ofNat cursor.toNat)]
  have hinput : required Document.text? F "input" = some input := rfl
  have hsteps : required (Document.list? Step.decode?) F "steps" = some steps :=
    Document.list?_map fun s hs => Step.decode?_encode (h s hs)
  have hcursor : required Document.place? F "cursor" = some cursor.toNat :=
    Document.natBelow?_ofNat cursor.toNat_lt
  show decode? (.record F) = _
  rw [decode?_record, hinput, hsteps, hcursor]
  show some (⟨input, steps, .ofNat cursor.toNat⟩ : Trace) = _
  rw [UInt64.ofNat_toNat]

inductive Edit : Document → Document → Prop where
  | fields {F G : List (String × Document)} : FieldEdit fieldNames F G →
      Edit (.record F) (.record G)
  | step (front back : List (String × Document)) (before after : List Document)
      {d d' : Document} : Step.Edit d d' →
        Edit (.record (front ++ ("steps", .list (before ++ d :: after)) :: back))
          (.record (front ++ ("steps", .list (before ++ d' :: after)) :: back))

theorem Edit.decode?_eq {d d' : Document} (h : Edit d d') : decode? d' = decode? d := by
  cases h with
  | fields hfields =>
      have hsame := hfields.sameContents
      rw [decode?_record, decode?_record, hsame.required_eq _ (by decide),
        hsame.required_eq _ (by decide), hsame.required_eq _ (by decide)]
  | @step front back before after d d' hstep =>
      have hlist : Document.list? Step.decode? (.list (before ++ d' :: after)) =
          Document.list? Step.decode? (.list (before ++ d :: after)) := by
        show (before ++ d' :: after).mapM Step.decode? = (before ++ d :: after).mapM Step.decode?
        rw [List.mapM_append, List.mapM_append, List.mapM_cons, List.mapM_cons, hstep.decode?_eq]
      have hother : ∀ {α : Type} (decode : Document → Option α) {name : String}, name ≠ "steps" →
          required decode (front ++ ("steps", .list (before ++ d' :: after)) :: back) name =
            required decode (front ++ ("steps", .list (before ++ d :: after)) :: back) name := by
        intro α decode name hname
        rw [required, required, Document.lookup_replace_of_ne hname]
      rw [decode?_record, decode?_record, hother Document.text? (by decide),
        hother Document.place? (by decide), Document.required_replace hlist]

end Trace

/-!
# Numbers that were read
-/

namespace Document

section Values

variable {α : Type} {decode : Document → Option α} {d : Document}

theorem exists_of_required {F : List (String × Document)} {name : String} {x : α}
    (h : required decode F name = some x) : ∃ d, decode d = some x := by
  rcases Option.bind_eq_some_iff.mp h with ⟨d, _, hd⟩
  exact ⟨d, hd⟩

theorem lt_of_natBelow? {n bound : Nat} (h : natBelow? bound d = some n) : n < bound := by
  unfold natBelow? at h
  split at h
  · rcases Option.ite_none_right_eq_some.mp h with ⟨hlt, heq⟩
    cases heq
    exact hlt
  · cases h

theorem lt_of_optional {F : List (String × Document)} {name : String} {bound : Nat}
    {x : Option Nat} (h : optional (natBelow? bound) F name = some x) : ∀ n ∈ x, n < bound := by
  intro n hn
  rw [Option.mem_def] at hn
  rw [optional_eq] at h
  unfold option? at h
  split at h
  · cases h
    cases hn
  · rcases Option.map_eq_some_iff.mp h with ⟨k, hk, rfl⟩
    cases hn
    exact lt_of_natBelow? hk

theorem exists_of_list? {xs : List α} (h : list? decode d = some xs) :
    ∀ x ∈ xs, ∃ item, decode item = some x := by
  intro x hx
  unfold list? at h
  split at h
  · rcases (mem_iff_of_mapM h x).mp hx with ⟨item, _, hitem⟩
    exact ⟨item, hitem⟩
  · cases h

theorem lt_of_ids? {s : SortedSet Nat} (h : ids? d = some s) : ∀ q ∈ s, q < Nat.pow 2 32 := by
  intro q hq
  rcases Option.map_eq_some_iff.mp h with ⟨xs, hxs, rfl⟩
  rw [SortedSet.mem_ofList] at hq
  rcases exists_of_list? hxs q hq with ⟨item, hitem⟩
  exact lt_of_natBelow? hitem

end Values

end Document

theorem Transition.fits_of_decode? {d : Document} {t : Transition} (h : decode? d = some t) :
    t.Fits := by
  simp only [decode?, Option.bind_eq_bind, Option.bind_eq_some_iff] at h
  rcases h with ⟨F, _, source, hsource, symbol, _, target, htarget, heq⟩
  cases heq
  rcases Document.exists_of_required hsource with ⟨_, hs⟩
  rcases Document.exists_of_required htarget with ⟨_, ht⟩
  exact ⟨Document.lt_of_natBelow? hs, Document.lt_of_natBelow? ht⟩

namespace Step

theorem fits_of_decodeEdges? {F : List (String × Document)} {name : String}
    {edges : List Transition} (h : required decodeEdges? F name = some edges) :
    ∀ t ∈ edges, t.Fits := by
  intro t ht
  rcases Document.exists_of_required h with ⟨_, hedges⟩
  rcases Document.exists_of_list? hedges t ht with ⟨_, hd⟩
  exact Transition.fits_of_decode? hd

theorem lt_of_states {F : List (String × Document)} {name : String} {states : SortedSet Nat}
    (h : required Document.ids? F name = some states) : ∀ q ∈ states, q < Nat.pow 2 32 := by
  rcases Document.exists_of_required h with ⟨_, hstates⟩
  exact Document.lt_of_ids? hstates

theorem lt_of_place {F : List (String × Document)} {name : String} {index : Nat}
    (h : required Document.place? F name = some index) : index < Nat.pow 2 64 := by
  rcases Document.exists_of_required h with ⟨_, hindex⟩
  exact Document.lt_of_natBelow? hindex

theorem fits_of_decodeKind? {kind : String} {d : Document} {s : Step}
    (h : decodeKind? kind d = some s) : s.Fits := by
  unfold decodeKind? at h
  split at h
  case h_6 => cases h
  all_goals simp only [Option.bind_eq_bind, Option.bind_eq_some_iff] at h
  · rcases h with ⟨F, _, states, hstates, edges, hedges, heq⟩
    cases heq
    exact ⟨lt_of_states hstates, fits_of_decodeEdges? hedges⟩
  · rcases h with ⟨F, _, index, hindex, states, hstates, heq⟩
    cases heq
    exact ⟨Document.lt_of_optional hindex, lt_of_states hstates⟩
  · rcases h with ⟨F, _, index, hindex, symbol, _, edges, hedges, heq⟩
    cases heq
    exact ⟨lt_of_place hindex, fits_of_decodeEdges? hedges⟩
  · rcases h with ⟨F, _, index, hindex, symbol, _, heq⟩
    cases heq
    exact lt_of_place hindex
  · rcases h with ⟨F, _, status, _, states, hstates, heq⟩
    cases heq
    exact lt_of_states hstates

theorem fits_of_decode? {d : Document} {s : Step} (h : decode? d = some s) : s.Fits := by
  unfold decode? at h
  split at h
  · rcases Option.bind_eq_some_iff.mp h with ⟨kind, _, hkind⟩
    exact fits_of_decodeKind? hkind
  · exact fits_of_decodeKind? h
  · cases h

end Step

theorem Trace.fits_of_decode? {d : Document} {t : Trace} (h : decode? d = some t) : t.Fits := by
  simp only [decode?, Option.bind_eq_bind, Option.bind_eq_some_iff] at h
  rcases h with ⟨F, _, input, _, steps, hsteps, cursor, _, heq⟩
  cases heq
  rcases Document.exists_of_required hsteps with ⟨_, hlist⟩
  intro s hs
  rcases Document.exists_of_list? hlist s hs with ⟨_, hd⟩
  exact Step.fits_of_decode? hd

/-!
# Edited documents
-/

/-- Edits that are not seen by a reader, one after the other. -/
theorem Document.decode?_eq_of_edits {α : Type} {edit : Document → Document → Prop}
    {decode : Document → Option α} {d d' : Document} (h : Relation.ReflTransGen edit d d')
    (hedit : ∀ d d', edit d d' → decode d' = decode d) : decode d' = decode d := by
  induction h with
  | refl => rfl
  | tail _ hlast ih => exact (hedit _ _ hlast).trans ih

/-- Expressions and recorded runs whose numbers fit are read back as they were written, and
so they are after any edits of letters and steps: fields that are not known, null positions
and places left out, sets listed in another way, fields in another order. -/
theorem Document.read_back_of_edits :
    (∀ (e : Expr) (d : Document), e.Fits → Relation.ReflTransGen Expr.Edit e.encode d →
      Expr.decode? d = some e) ∧
    (∀ (t : Trace) (d : Document), t.Fits → Relation.ReflTransGen Trace.Edit t.encode d →
      Trace.decode? d = some t) := by
  constructor
  · intro e d hfits hedits
    rw [decode?_eq_of_edits hedits (fun _ _ => Expr.Edit.decode?_eq), Expr.decode?_encode hfits]
  · intro t d hfits hedits
    rw [decode?_eq_of_edits hedits (fun _ _ => Trace.Edit.decode?_eq), Trace.decode?_encode hfits]

theorem Document.read_back_of_edits_abridged :
    let e := Expr.choice (.letter ⟨none, '"'⟩) (.epsilon (some 7))
    let t : Trace := ⟨"a", [.state none (.range 2), .error 0 'a'], 5⟩
    let tree := fun letter : List (String × Document) => Document.record [("Choice",
      .list [.record [("Letter", .record letter)], .record [("Epsilon", .integer 7)]])]
    let run := fun state : List (String × Document) => Document.record [("input", .text "a"),
      ("steps", .list [.record state, .record [("kind", .text "error"), ("index", .integer 0),
        ("symbol", .text "a")]]),
      ("cursor", .integer 5)]
    Expr.decode? (tree [("color", .bool true), ("symbol", .text "\"")]) = some e ∧
      Trace.decode? (run [("kind", .text "state"),
        ("states", .list [.integer 1, .integer 0, .integer 1])]) = some t := by
  intro e t tree run
  have hletter : Relation.ReflTransGen Expr.Edit e.encode
      (tree [("color", .bool true), ("symbol", .text "\"")]) := by
    have hdrop : FieldEdit Letter.fieldNames [("position", .null), ("symbol", .text "\"")]
        [("symbol", .text "\"")] :=
      FieldEdit.dropNull [] [("symbol", .text "\"")] (by decide) (by decide)
    have hadd : FieldEdit Letter.fieldNames [("symbol", .text "\"")]
        [("color", .bool true), ("symbol", .text "\"")] :=
      FieldEdit.addUnknown [] [("symbol", .text "\"")] (.bool true) (by decide)
    have hfirst : Expr.Edit e.encode (tree [("symbol", .text "\"")]) :=
      Expr.Edit.left _ (Or.inl rfl) (Expr.Edit.letter hdrop)
    exact (Relation.ReflTransGen.single hfirst).tail
      (Expr.Edit.left _ (Or.inl rfl) (Expr.Edit.letter hadd))
  have hstep : Relation.ReflTransGen Trace.Edit t.encode (run [("kind", .text "state"),
      ("states", .list [.integer 1, .integer 0, .integer 1])]) := by
    have hdrop : FieldEdit (Step.fieldNames "state")
        [("kind", .text "state"), ("index", .null), ("states", .list [.integer 0, .integer 1])]
        [("kind", .text "state"), ("states", .list [.integer 0, .integer 1])] :=
      FieldEdit.dropNull [("kind", .text "state")] [("states", .list [.integer 0, .integer 1])]
        (by decide) (by decide)
    have hlist : FieldEdit (Step.fieldNames "state")
        [("kind", .text "state"), ("states", .list [.integer 0, .integer 1])]
        [("kind", .text "state"), ("states", .list [.integer 1, .integer 0, .integer 1])] := by
      refine FieldEdit.relist [("kind", .text "state")] [] (by decide) ?_
      intro d
      simp only [List.mem_cons, List.not_mem_nil, or_false]
      tauto
    have hstate : ∀ {F G : List (String × Document)}, F.lookup "kind" = some (.text "state") →
        FieldEdit (Step.fieldNames "state") F G → Trace.Edit (run F) (run G) :=
      fun hkind hfields => Trace.Edit.step [("input", .text "a")] [("cursor", .integer 5)] []
        [.record [("kind", .text "error"), ("index", .integer 0), ("symbol", .text "a")]]
        (Step.Edit.fields hkind hfields)
    exact (Relation.ReflTransGen.single (hstate rfl hdrop)).tail (hstate rfl hlist)
  have he : e.Fits := by simp [e, Expr.Fits, Letter.Fits]
  have ht : t.Fits := by
    intro s hs
    simp only [t, List.mem_cons, List.not_mem_nil, or_false] at hs
    rcases hs with rfl | rfl
    · exact ⟨nofun, fun q hq => Nat.lt_trans (SortedSet.mem_range.mp hq) (by decide)⟩
    · exact Nat.two_pow_pos 64
  exact ⟨read_back_of_edits.1 e _ he hletter, read_back_of_edits.2 t _ ht hstep⟩

end Recognizer
