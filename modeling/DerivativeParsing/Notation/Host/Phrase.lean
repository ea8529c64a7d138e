import DerivativeParsing.Notation.Reader

/-!
# Phrases of the host language

A declaration stands in a program of a host language, and holds phrases of that language: the
path of a reducer may have types and constants as arguments, and an attribute may give the value
of an expression.  The library finds out where such a phrase ends and whether it is one, and
keeps its tokens, with every operator standing alone.  It does not know what a phrase means.

Phrases nest in each other in many ways.  The readers of this folder therefore take a reader for
every kind of phrase inside (`Inner`), and `Host.construct` ties the knot.
-/

set_option autoImplicit false

namespace DerivativeParsing.Notation.Host

open Lookahead Reader

/-! ## Kinds of phrases -/

/-- What a phrase is, as far as it matters to what may follow or enclose it. -/
inductive Form where
  | plain
  /-- A type that is a path of one part, and so may turn out to be the name of an argument. -/
  | name
  /-- Another type that is a path. -/
  | path
  /-- A type that is a bound, or a bound that asks for a trait. -/
  | bound
  /-- A label, or a bound that is one. -/
  | label
  /-- A bound that lists what a type captures. -/
  | captures
  /-- A phrase that is kept with the spacing that it has in the text. -/
  | verbatim
  /-- A range of expressions. -/
  | range
  /-- A comparison. -/
  | comparison
  /-- An expression that ends in a block, and needs nothing to separate it from the next. -/
  | block
  /-- A call of a macro in braces. -/
  | macroBlock
  /-- A pattern for everything that is left: `..`. -/
  | remainder
  /-- A range of patterns without a start or an end. -/
  | openRange
deriving DecidableEq, Inhabited

/-- The tokens of a phrase, and what it is. -/
structure Phrase where
  tokens : List Token
  form : Form
deriving Inhabited

/-- How tightly an operator binds its operands. -/
inductive Precedence where
  | any
  | assignment
  | range
  | disjunction
  | conjunction
  | comparison
  | bitOr
  | bitXor
  | bitAnd
  | shift
  | sum
  | product
  | conversion
deriving DecidableEq

/-- A number for a precedence, larger if it binds more tightly. -/
def Precedence.level : Precedence → Nat
  | .any => 0
  | .assignment => 1
  | .range => 2
  | .disjunction => 3
  | .conjunction => 4
  | .comparison => 5
  | .bitOr => 6
  | .bitXor => 7
  | .bitAnd => 8
  | .shift => 9
  | .sum => 10
  | .product => 11
  | .conversion => 12

/-- The kinds of phrases in which other phrases nest. -/
inductive Construct where
  /-- A type.  The flag says whether it may be a sum of bounds. -/
  | type (sum : Bool)
  /-- A bound of a type.  The flags say whether it may list captures, and be marked as constant. -/
  | bound (captures marks : Bool)
  /-- An expression.  The flag says whether a brace after a path belongs to it. -/
  | expression (braces : Bool)
  /-- An expression without operators between operands. -/
  | operand (braces : Bool)
  /-- What operators that bind at least so tightly make of a first operand. -/
  | operation (braces : Bool) (floor : Precedence) (first : Phrase)
  /-- An expression that a block at its start may end. -/
  | leading
  /-- A pattern without alternatives. -/
  | pattern
  /-- The statements of a block. -/
  | statements
  /-- An item with its attributes. -/
  | item
  /-- What is imported.  The flag says whether it may start with two colons. -/
  | importTree (rooted : Bool)

/-- A reader for the phrases inside a phrase. -/
abbrev Inner := Construct → Reader Phrase

/-- A phrase of which no more is known than its tokens. -/
def Phrase.plain (tokens : List Token) : Phrase := ⟨tokens, .plain⟩

/-! ## Parts of phrases -/

/-- The tokens of an operator, which has to come next. -/
def operator (op : String) : Reader (List Token) := do
  expect op
  pure (Token.operator op.toList)

/-- The tokens of an operator that may come next. -/
def optionalOperator (op : String) : Reader (List Token) := do
  return if ← accept op then Token.operator op.toList else []

/-- A certain word, which has to come next. -/
def word (text : String) : Reader (List Token) := do
  keyword text
  pure [.ident text]

/-- A certain word that may come next. -/
def optionalWord (text : String) : Reader (List Token) := do
  if ← sees (atWord text) then word text else pure []

/-- A name. -/
def name : Reader (List Token) := do return [.ident (← identifier)]

/-- Any word. -/
def anyWord : Reader (List Token) := do
  match ← remaining with
  | .ident text :: rest =>
    leave rest
    pure [.ident text]
  | _ => missing [.identifier]

/-- A label. -/
def label : Reader (List Token) := do
  match ← remaining with
  | .punct '\'' true :: .ident text :: rest =>
    leave rest
    pure [.punct '\'' true, .ident text]
  | _ => missing [.label]

/-- A label that may come next. -/
def optionalLabel : Reader (List Token) := do
  if ← sees atLabel then label else pure []

/-- A literal. -/
def literal : Reader (List Token) := do
  match splitLiteral (← remaining) with
  | some (found, rest) =>
    leave rest
    pure found
  | none => missing [.literal]

/-- A group with what a reader finds in it. -/
def grouped (delimiter : Delimiter) (content : Reader (List Token)) : Reader (List Token) := do
  let found ← group delimiter
  return [.group delimiter (← inside delimiter found content)]

/-- A group in any delimiters, with the tokens that it holds. -/
def anyGroup : Reader (List Token) := do
  match ← remaining with
  | .group delimiter content :: rest =>
    leave rest
    pure [.group delimiter content]
  | _ => missing [.anyGroup]

/-- The tokens that have been taken since there were those of `before`, with the spacing that they
have in the text. -/
def takenSince (before : List Token) : Reader (List Token) := do
  return before.take (before.length - (← remaining).length)

/-- What a reader takes, with the spacing that it has in the text. -/
def verbatim (reader : Reader (List Token)) : Reader (List Token) := do
  let before ← remaining
  let _ ← reader
  takenSince before

/-! ## Lists -/

/-- A phrase of a list, and whether a comma follows it. -/
abbrev ListItem := Phrase × Bool

/-- The tokens of a list. -/
def listTokens (items : List ListItem) : List Token :=
  items.flatMap fun item => item.1.tokens ++ if item.2 then [.alone ','] else []

/-- Reads on in a list, after some items.  The flag says whether the list is over. -/
def nextItem (ends : List Token → Bool) (last : Reader (Option Phrase)) (item : Reader Phrase)
    (state : List ListItem × Bool) : Reader (Option (List ListItem × Bool)) := do
  let (found, ended) := state
  if ended || (← sees ends) then return none
  if let some phrase ← last then return some (found ++ [(phrase, false)], true)
  let phrase ← item
  if ← sees ends then return some (found ++ [(phrase, false)], true)
  expect ","
  return some (found ++ [(phrase, true)], false)

/-- The phrases of a list with commas between them and perhaps after the last, up to an end.  A
list is also over after what `last` finds. -/
def items (ends : List Token → Bool) (last : Reader (Option Phrase)) (item : Reader Phrase) :
    Reader (List ListItem) := do
  return (← iterate (nextItem ends last item) ([], false)).1

/-- No special end of a list. -/
def noLast : Reader (Option Phrase) := pure none

/-- The tokens of a list up to an end. -/
def commaList (ends : List Token → Bool) (item : Reader Phrase) : Reader (List Token) := do
  return listTokens (← items ends noLast item)

/-- The tokens of a list up to the end of the group. -/
def groupList (item : Reader Phrase) : Reader (List Token) := commaList List.isEmpty item

end DerivativeParsing.Notation.Host
