import DerivativeParsing.Notation.Host.Block

/-!
# Paths

A path consists of names with two colons between them and perhaps in front, each with arguments
if need be, as in `ops::add` or `wrap::<u8>`.  Arguments are labels, types and constants, and
names with a value or a bound.  A path may start from a type, as in `<u8 as Into<u16>>::Out`.
-/

set_option autoImplicit false

namespace DerivativeParsing.Notation.Host

open Lookahead Reader

/-- A part of a path. -/
structure Part where
  name : String
  /-- The arguments with their brackets.  There are no tokens if there are no brackets. -/
  arguments : List Token

/-- A path. -/
structure Path where
  /-- Whether the path starts with two colons. -/
  rooted : Bool
  first : Part
  rest : List Part

namespace Part

/-- The tokens of a part. -/
def tokens (p : Part) : List Token := .ident p.name :: p.arguments

/-- Whether a part has no arguments, though it may have brackets for them. -/
def isBare (p : Part) : Bool :=
  match p.arguments.reverse with
  | [] => true
  | .punct '>' _ :: .punct '<' _ :: _ => true
  | _ => false

end Part

namespace Path

/-- The tokens of a path. -/
def tokens (p : Path) : List Token :=
  (if p.rooted then colons else []) ++ p.first.tokens ++
    p.rest.flatMap fun part => colons ++ part.tokens

/-- The last part of a path. -/
def last (p : Path) : Part := p.rest.getLast?.getD p.first

/-- The path with other arguments of the last part. -/
def withArguments (p : Path) (arguments : List Token) : Path :=
  match p.rest.reverse with
  | [] => { p with first := { p.first with arguments } }
  | part :: parts => { p with rest := ({ part with arguments } :: parts).reverse }

/-- Whether no part has brackets for arguments. -/
def isPlain (p : Path) : Bool := (p.first :: p.rest).all fun part => part.arguments.isEmpty

/-- What a path is as a type. -/
def form (p : Path) : Form := if p.rooted || !p.rest.isEmpty then .path else .name

end Path

/-! ## Arguments -/

/-- The tokens of items of which those with a label come first, as they are written. -/
def labelsFirst (items : List ListItem) : List Token :=
  let labels := items.filter (·.1.form = .label)
  let others := items.filter (·.1.form ≠ .label)
  let between := match labels.getLast?, others with
    | some (_, false), _ :: _ => [.alone ',']
    | _, _ => []
  listTokens labels ++ between ++ listTokens others

/-- Reads on in a sum up to an end.  The flag says whether the sum is over. -/
def nextSummand (ends : List Token → Bool) (summand : Reader (List Token))
    (state : List Token × Bool) : Reader (Option (List Token × Bool)) := do
  let (found, ended) := state
  if ended || (← sees ends) then return none
  let tokens ← summand
  let plus ← optionalOperator "+"
  return some (found ++ tokens ++ plus, plus.isEmpty)

/-- The tokens of a sum, which may be empty, up to an end or up to what is not followed by a plus
sign. -/
def sum (ends : List Token → Bool) (summand : Reader (List Token)) : Reader (List Token) := do
  return (← iterate (nextSummand ends summand) ([], false)).1

/-- The value that a named argument has. -/
def argumentValue (read : Inner) : Reader (List Token) := do
  if ← sees atConstant then constant read else return (← read (.type true)).tokens

/-- An argument of a path. -/
def argument (read : Inner) : Reader Phrase := do
  let tokens ← remaining
  if atLabel tokens && !atOperator "+" (skip tokens) then return ⟨← label, .label⟩
  if atConstant tokens then return .plain (← constant read)
  let found ← read (.type true)
  if found.form = .name then
    if ← accept "=" then
      return .plain (found.tokens ++ [.alone '='] ++ (← argumentValue read))
    if ← accept ":" then
      let bounds ← sum (atOneOf [",", ">"]) do return (← read (.bound false true)).tokens
      return .plain (found.tokens ++ [.alone ':'] ++ bounds)
  pure (.plain found.tokens)

/-- Arguments with their brackets. -/
def bracketedArguments (read : Inner) : Reader (List Token) := do
  let opening ← operator "<"
  let found ← items (atOperator ">") noLast (argument read)
  let closing ← operator ">"
  return opening ++ labelsFirst found ++ closing

/-- Arguments with their brackets, perhaps after two colons. -/
def arguments (read : Inner) : Reader (List Token) := do
  let front ← optionalOperator "::"
  return front ++ (← bracketedArguments read)

/-! ## Paths -/

/-- Where a path stands.  In an expression, arguments need two colons in front. -/
inductive Style where
  | type
  | expression
deriving DecidableEq

/-- Whether arguments of a path come next. -/
def opensArguments (style : Style) (tokens : List Token) : Bool :=
  (style = .type && atOperator "<" tokens && !atOneOf ["<=", "<<="] tokens) ||
    (atOperator "::" tokens && atOperator "<" (skip (skip tokens)))

/-- The words that can be a part of a path and take no arguments. -/
def bareWords : List String := ["super", "self", "crate", "try"]

/-- A part of a path. -/
def part (read : Inner) (style : Style) : Reader Part := do
  match ← remaining with
  | .ident text :: rest =>
    if bareWords.contains text then
      leave rest
      return ⟨text, []⟩
    if text = "Self" then leave rest else let _ ← identifier
    if opensArguments style (← remaining) then return ⟨text, ← arguments read⟩
    else return ⟨text, []⟩
  | _ => missing [.identifier]

/-- Whether a path goes on: two colons come next, and no parentheses after them. -/
def continuesPath (tokens : List Token) : Bool :=
  atOperator "::" tokens && !atGroup .parenthesis (skip (skip tokens))

/-- The parts of a path after the first, as long as the text looks like it goes on. -/
def furtherParts (read : Inner) (style : Style) (continues : List Token → Bool) :
    Reader (List Part) :=
  iterate (fun found => do
    if ← sees continues then
      expect "::"
      return some (found ++ [← part read style])
    else return none) []

/-- A path. -/
def path (read : Inner) (style : Style) : Reader Path := do
  let front ← accept "::"
  let first ← part read style
  return ⟨front, first, ← furtherParts read style continuesPath⟩

/-- A path that starts from a type, in angle brackets. -/
def pathFromType (read : Inner) (style : Style) : Reader (List Token) := do
  let opening ← operator "<"
  let start ← read (.type true)
  let trait ← if ← sees (atWord "as") then do
      let conversion ← word "as"
      pure (conversion ++ (← path read .type).tokens)
    else pure []
  let closing ← operator ">"
  expect "::"
  let first ← part read style
  let rest ← furtherParts read style (atOperator "::")
  return opening ++ start.tokens ++ trait ++ closing ++
    (first :: rest).flatMap fun part => colons ++ part.tokens

/-- The words that can start a path, except for names. -/
def pathWords : List String := ["super", "self", "Self", "crate"]

/-- Whether a path comes next, perhaps one that starts from a type. -/
def atPath (tokens : List Token) : Bool :=
  atName tokens || atWordOf pathWords tokens || atOneOf ["::", "<"] tokens

end DerivativeParsing.Notation.Host
