import DerivativeParsing.Notation.Fault
import DerivativeParsing.Notation.Lookahead

/-!
# Readers

A reader takes tokens from the front of a sequence and makes something of them, or fails.  Inside
a group it reads the content of the group; tokens that it leaves there are noted, and make the
whole reading fail once everything else has been read (`Reader.readAll`).
-/

set_option autoImplicit false

namespace DerivativeParsing.Notation

/-- What is left to read. -/
structure Input where
  tokens : List Token
  /-- The delimiter of the first group that held more than it should. -/
  overfull : Option Delimiter

/-- An action that takes tokens from the front of what is left to read. -/
abbrev Reader := StateT Input (Except SyntaxFault)

namespace Reader

open Lookahead

/-- The tokens that are left. -/
def remaining : Reader (List Token) := do return (← get).tokens

/-- Leaves these tokens. -/
def leave (tokens : List Token) : Reader Unit := modify fun input => ⟨tokens, input.overfull⟩

/-- Whether what is left looks a certain way. -/
def sees (look : List Token → Bool) : Reader Bool := do return look (← remaining)

/-- Fails for want of one of several things. -/
def missing {α : Type} (options : List Expectation) : Reader α := do
  throw (.expected options (← remaining).isEmpty)

/-- Refuses what has been read. -/
def refuse {α : Type} (what : Restriction) : Reader α := throw (.restricted what)

/-! ## Operators -/

/-- Takes an operator if it comes next, and says whether it did. -/
def accept (op : String) : Reader Bool := do
  match afterOperator op.toList (← remaining) with
  | some rest =>
    leave rest
    pure true
  | none => pure false

/-- Takes an operator, which has to come next. -/
def expect (op : String) : Reader Unit := do
  unless ← accept op do throw (.expected [.word op] false)

/-! ## Names and groups -/

/-- A name. -/
def identifier : Reader String := do
  match ← remaining with
  | .ident name :: rest =>
    if isKeyword name then throw (.keyword name)
    leave rest
    pure name
  | _ => missing [.identifier]

/-- Takes a keyword, which has to come next. -/
def keyword (word : String) : Reader Unit := do
  match ← remaining with
  | .ident name :: rest => if name = word then leave rest else missing [.word word]
  | _ => missing [.word word]

/-- The content of a group. -/
def group (delimiter : Delimiter) : Reader (List Token) := do
  match ← remaining with
  | .group found content :: rest =>
    if found ≠ delimiter then missing [.group delimiter]
    leave rest
    pure content
  | _ => missing [.group delimiter]

/-- Reads the content of a group, and notes whether something is left of it. -/
def inside {α : Type} (delimiter : Delimiter) (content : List Token) (reader : Reader α) :
    Reader α := do
  let outer ← get
  set (Input.mk content outer.overfull)
  let a ← reader
  let inner ← get
  let overfull := inner.overfull.or (if inner.tokens.isEmpty then none else some delimiter)
  set (Input.mk outer.tokens overfull)
  pure a

/-! ## Attempts -/

/-- What a reader finds, if it does not fail.  Nothing is taken if it does. -/
def attempt {α : Type} (reader : Reader α) : Reader (Option α) := fun input =>
  match reader.run input with
  | .ok (a, rest) => .ok (some a, rest)
  | .error _ => .ok (none, input)

/-! ## Repetition -/

/-- Repeats an action at most so often, until it has no result. -/
def iterateUpTo {α : Type} (action : α → Reader (Option α)) : Nat → α → Reader α
  | 0, _ => throw .unfinished
  | count + 1, a => do
    match ← action a with
    | some b => iterateUpTo action count b
    | none => pure a

/-- Repeats an action until it has no result.  It takes a token each time before that. -/
def iterate {α : Type} (action : α → Reader (Option α)) (start : α) : Reader α := do
  iterateUpTo action ((← remaining).length + 1) start

/-! ## The whole of a sequence -/

/-- At least as many steps as reading a sequence of tokens takes. -/
def stepBound (tokens : List Token) : Nat := 8 * Token.weightAll tokens + 8

/-- Reads all of a sequence of tokens. -/
def readAll {α : Type} (reader : Reader α) (tokens : List Token) : Except SyntaxFault α := do
  let (a, rest) ← reader.run ⟨tokens, none⟩
  if rest.overfull.isSome then throw (.leftover rest.overfull)
  if rest.tokens.isEmpty then pure a else throw (.leftover none)

end Reader

end DerivativeParsing.Notation
