import DerivativeParsing.Forest
import DerivativeParsing.Reducer

/-!
# Nodes of a grammar

A grammar is a graph of expression nodes.  A node refers to its operands by handle, so that an
expression can be shared and can contain itself; what a handle stands for is looked up in the
graph (`DerivativeParsing.Grammar.Graph`).  The three expressions `∅`, `ε` and `.` are the same
in every grammar and have fixed handles.
-/

set_option autoImplicit false

namespace DerivativeParsing

/-- The number of a place in a grammar graph. -/
structure Handle where
  index : Nat
deriving DecidableEq, Inhabited, Repr

namespace Handle

/-- Handles are ordered by number. -/
instance : Ord Handle := ⟨fun a b => compare a.index b.index⟩

theorem compare_eq (a b : Handle) : compare a b = compare a.index b.index := rfl

instance : Std.TransOrd Handle where
  eq_swap := by simp only [compare_eq]; exact Std.OrientedOrd.eq_swap
  isLE_trans := by simp only [compare_eq]; exact Std.TransOrd.isLE_trans

instance : Std.LawfulEqOrd Handle where
  compare_self := by simp only [compare_eq]; exact Std.ReflOrd.compare_self
  eq_of_compare h := by
    rw [compare_eq] at h
    exact congrArg Handle.mk (Std.LawfulEqOrd.eq_of_compare h)

/-- The handle of `∅`, which matches nothing. -/
def nil : Handle := ⟨0⟩

/-- The handle of `ε`, which matches the empty word only. -/
def empty : Handle := ⟨1⟩

/-- The handle of `.`, which matches any one character. -/
def any : Handle := ⟨2⟩

/-- The written form of a handle. -/
def render (h : Handle) : String := "#" ++ toString h.index

end Handle

/-- How often a repetition repeats its operand. -/
inductive Count where
  | exactly (n : Nat)
  | unbounded
deriving DecidableEq, Inhabited, Repr

/-- The written form of a count. -/
def Count.render : Count → String
  | .exactly n => "Exactly(" ++ toString n ++ ")"
  | .unbounded => "Unbounded"

/-- An expression whose operands are given by handle. -/
inductive Node where
  /-- Matches nothing. -/
  | nil
  /-- Matches the empty word. -/
  | empty
  /-- Matches any one character and records nothing. -/
  | any
  /-- Matches one character. -/
  | char (c : Char)
  /-- Matches one character between two bounds, which belong to the range. -/
  | range (first last : Char)
  /-- Matches a word of two or more characters. -/
  | token (text : List Char)
  /-- Matches what either operand matches. -/
  | alt (left right : Handle)
  /-- Matches a word of the first operand followed by one of the second. -/
  | seq (first second : Handle)
  /-- Matches any number of words of the operand. -/
  | star (operand : Handle)
  /-- Matches a given number of words of the operand. -/
  | rep (operand : Handle) (count : Count)
  /-- Matches what the operand does not match. -/
  | not (operand : Handle)
  /-- Matches the empty word if the operand does, with the trees that the operand gives it. -/
  | nullability (operand : Handle)
  /-- Matches the empty word, with the given trees. -/
  | emptyReduction (trees : Forest)
  /-- Matches what the operand matches, with every tree transformed. -/
  | reduction (operand : Handle) (reducer : Reducer)
deriving Inhabited

namespace Node

/-- The operands of a node, from left to right. -/
def children : Node → List Handle
  | .alt left right => [left, right]
  | .seq first second => [first, second]
  | .star operand => [operand]
  | .rep operand _ => [operand]
  | .not operand => [operand]
  | .nullability operand => [operand]
  | .reduction operand _ => [operand]
  | _ => []

/-- A node without operands. -/
def isAtomic (n : Node) : Bool := n.children.isEmpty

end Node

end DerivativeParsing
