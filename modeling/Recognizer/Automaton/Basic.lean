import Recognizer.SortedSet

/-!
# Symbols, states and edges

What automata of both kinds are made of.  A state is known by its id, the place
at which it stands among the states; its label is only shown.
-/

namespace Recognizer

inductive Symbol where
  | epsilon
  | char (c : Char)
deriving DecidableEq, Repr

namespace Symbol

def char? : Symbol → Option Char
  | epsilon => none
  | char c => some c

/-- Reading nothing comes before every character. -/
instance : Ord Symbol := ⟨compareOn char?⟩

instance : Std.TransOrd Symbol := inferInstanceAs (Std.TransCmp (compareOn char?))

instance : Std.LawfulEqOrd Symbol where
  compare_self := Std.ReflCmp.compare_self
  eq_of_compare := by
    intro a b h
    have h : compare a.char? b.char? = .eq := h
    have := Std.LawfulEqCmp.eq_of_compare h
    cases a <;> cases b <;> simp_all [char?]

def text : Symbol → String
  | epsilon => "ε"
  | char c => c.toString

end Symbol

/-- An edge as seen from the state that it leaves. -/
structure Edge where
  symbol : Symbol
  target : Nat
deriving DecidableEq, Repr

namespace Edge

instance : Ord Edge := ⟨compareLex (compareOn Edge.symbol) (compareOn Edge.target)⟩

instance : Std.TransOrd Edge :=
  inferInstanceAs (Std.TransCmp (compareLex (compareOn Edge.symbol) (compareOn Edge.target)))

instance : Std.LawfulEqOrd Edge where
  compare_self := Std.ReflCmp.compare_self
  eq_of_compare := by
    intro ⟨a, s⟩ ⟨b, t⟩ h
    have ⟨hsymbol, htarget⟩ := Ordering.then_eq_eq.mp h
    have hab : a = b := Std.LawfulEqCmp.eq_of_compare hsymbol
    have hst : s = t := Std.LawfulEqCmp.eq_of_compare htarget
    rw [hab, hst]

end Edge

structure Transition where
  source : Nat
  symbol : Symbol
  target : Nat
deriving DecidableEq, Repr

structure State where
  id : Nat
  label : String
deriving DecidableEq, Repr

namespace State

def numbered (labels : List String) : Array State := (labels.mapIdx State.mk).toArray

end State

/-- What stands for a set without states. -/
def trapLabel : String := "∅"

end Recognizer
