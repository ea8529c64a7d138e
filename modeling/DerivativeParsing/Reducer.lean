import DerivativeParsing.Forest

/-!
# Reducers

A reducer is a named transformation that is applied to every tree of an expression.  Only the
name is compared: two reducers of one name count as the same, whatever they do.

Besides the two reducers that the library itself puts into expressions, `prepend` for the
derivative of a repetition and `flatten` for sequences of three or more parts, there is a table
of named actions (`standardAction?`) that grammars refer to by name.
-/

set_option autoImplicit false

namespace DerivativeParsing

/-- A named transformation of trees. -/
structure Reducer where
  name : String
  action : Tree → Tree
  /-- For how many trees an application makes room before it looks at its tree. -/
  room : Nat := 0
deriving Inhabited

namespace Reducer

/-- Reducers are told apart by their names. -/
instance : BEq Reducer := ⟨fun f g => f.name == g.name⟩

/-- The transformed tree. -/
def apply (f : Reducer) (t : Tree) : Tree := f.action t

/-- There can be room for what an application makes room for. -/
def Fits (f : Reducer) : Prop := f.room ≤ Tree.maxRoom

instance (f : Reducer) : Decidable f.Fits := inferInstanceAs (Decidable (_ ≤ _))

/-- What an application comes to.  It has no result if it makes too much room. -/
def result? (f : Reducer) (t : Tree) : Option Tree := if f.Fits then some (f.apply t) else none

/-- The transformed trees of a forest, one application for each. -/
def reduce? (f : Reducer) (F : Forest) : Option Forest := F.mapM f.result?

theorem reduce?_eq_some {f : Reducer} {F F' : Forest} :
    f.reduce? F = some F' ↔ (F.HasTree → f.Fits) ∧ F.map f.apply = F' := by
  have happly : ∀ trees : List Tree, trees.mapM f.result? =
      if trees = [] ∨ f.Fits then some (trees.map f.apply) else none := by
    intro trees
    induction trees with
    | nil => rfl
    | cons t trees ih =>
      by_cases hf : f.Fits
      · simp [ih, result?, hf]
      · simp [result?, hf]
  have hempty : (F.HasTree → f.Fits) ↔ F.trees = [] ∨ f.Fits := by
    rw [Classical.or_iff_not_imp_left]
    refine imp_congr ?_ Iff.rfl
    rw [← List.isEmpty_iff, Bool.not_eq_true, List.isEmpty_eq_false_iff_exists_mem]
    exact Iff.rfl
  rw [reduce?, Forest.mapM, happly, hempty]
  split
  · next h => simp [h, Forest.map]
  · next h => simp [h]

@[simp] theorem reduce?_empty (f : Reducer) : f.reduce? .empty = some .empty := rfl

/-- The written form of a reducer, which shows its name only. -/
def render (f : Reducer) : String := "Reducer(" ++ f.name ++ ")"

/-! ## The reducers of derivatives and sequences -/

/-- Turns a pair of an item and a list into the list with the item in front. -/
def prependAction : Tree → Tree
  | .list [head, .list tail] => .list (head :: tail)
  | t => t

/-- Glues one more match onto the list of the matches that follow it. -/
def prepend : Reducer where
  name := "prepend"
  action := prependAction

@[simp] theorem fits_prepend : prepend.Fits := Nat.zero_le _

/-- The parts of the left-nested pairs of a sequence of `n + 1` parts, in front of the parts that
are collected already.  There are none if the nesting is not that deep. -/
def unnest? : Nat → Tree → List Tree → Option (List Tree)
  | 0, t, parts => some (t :: parts)
  | n + 1, .list [init, last], parts => unnest? n init (last :: parts)
  | _ + 1, _, _ => none

/-- Turns the left-nested pairs of a sequence of `n` parts into the flat list of the parts, and
leaves any other tree as it is. -/
def flattenAction (n : Nat) (t : Tree) : Tree :=
  match unnest? (n - 1) t [] with
  | some parts => .list parts
  | none => t

/-- Flattens the pairs of a sequence of `n` parts.  Room for the parts is made before it is known
whether a tree has that many. -/
def flatten (n : Nat) : Reducer where
  name := "flatten" ++ toString n
  action := flattenAction n
  room := n

/-! ## Named actions -/

/-- `[left, operator, right]` with the operator in front. -/
def infixAction : Tree → Tree
  | .list [left, operator, right] => .list [operator, left, right]
  | t => t

/-- The middle of three items. -/
def innerAction : Tree → Tree
  | .list [_, inner, _] => inner
  | t => t

/-- `[[left, operator], right]` with the operator in front. -/
def binaryAction : Tree → Tree
  | .list [.list [left, operator], right] => .list [operator, left, right]
  | t => t

/-- What stands between two parentheses, `[[_, inner], _]`. -/
def parenthesisedAction : Tree → Tree
  | .list [.list [_, inner], _] => inner
  | t => t

/-- The items of a list in reverse. -/
def reverseAction : Tree → Tree
  | .list items => .list items.reverse
  | t => t

/-- The first item of a list that has one. -/
def firstAction : Tree → Tree
  | .list (first :: _) => first
  | t => t

/-- The flat list of the characters of a tree. -/
def charactersAction (t : Tree) : Tree := .list (t.chars.map .char)

/-- The actions that grammars name. -/
def standardAction? : String → Option (Tree → Tree)
  | "id" => some fun t => t
  | "infix" => some infixAction
  | "inner" => some innerAction
  | "binop" => some binaryAction
  | "parenthesised" => some parenthesisedAction
  | "wrap" => some fun t => .list [t]
  | "rev" => some reverseAction
  | "chars" => some charactersAction
  | "first" => some firstAction
  | "drop" => some fun _ => .unit
  | _ => none

/-- The reducer of a given name that acts as the table says. -/
def standard? (name action : String) : Option Reducer :=
  (standardAction? action).map fun act => { name, action := act }

end Reducer

end DerivativeParsing
