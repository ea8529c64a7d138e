import DerivativeParsing.Text.Quoted

/-!
# Parse trees

A parse records the characters it matched as leaves, and everything that is built out of them,
pairs for sequences, lists for repetitions, whatever a reducer returns, as a list of trees.
-/

set_option autoImplicit false

namespace DerivativeParsing

/-- A piece of a parse: a matched character, or a list of pieces. -/
inductive Tree where
  | char (c : Char)
  | list (items : List Tree)
deriving Inhabited

namespace Tree

/-- The tree of a repetition that matched nothing. -/
def unit : Tree := .list []

/-- The tree of a sequence of two parts. -/
def pair (first second : Tree) : Tree := .list [first, second]

/-- For how many trees the largest array has room: it has `2 ^ 63 - 1` bytes, and a tree takes 24. -/
def maxRoom : Nat := 0x7fffffffffffffff / 24

/-- The character of a leaf. -/
def asChar? : Tree → Option Char
  | .char c => some c
  | .list _ => none

/-- The items of a list. -/
def asList? : Tree → Option (List Tree)
  | .char _ => none
  | .list items => some items

mutual

/-- The characters of a tree, from left to right. -/
def chars : Tree → List Char
  | .char c => [c]
  | .list items => charsOfList items

/-- The characters of several trees, one tree after the other. -/
def charsOfList : List Tree → List Char
  | [] => []
  | item :: items => item.chars ++ charsOfList items

end

/-- The matched text of a tree. -/
def text (t : Tree) : String := String.ofList t.chars

mutual

/-- The written form of a tree: quoted characters, and lists in square brackets. -/
def render : Tree → String
  | .char c => Text.quotedChar c
  | .list items => "[" ++ ", ".intercalate (renderList items) ++ "]"

/-- The written forms of several trees. -/
def renderList : List Tree → List String
  | [] => []
  | item :: items => item.render :: renderList items

end

end Tree

end DerivativeParsing
