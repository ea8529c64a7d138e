import DerivativeParsing.Notation.Host.Field
import DerivativeParsing.Notation.Host.Type

/-!
# Patterns

Patterns bind names and compare with constants: in the parameters of a closure, after `let`, and
in the arms of a `match`.  Several patterns may be alternatives of each other.
-/

set_option autoImplicit false

namespace DerivativeParsing.Notation.Host

open Lookahead Reader

/-! ## Alternatives -/

/-- Whether another alternative comes next. -/
def atAlternative (tokens : List Token) : Bool :=
  atOperator "|" tokens && !atOneOf ["||", "|="] tokens

/-- A pattern with its alternatives. -/
def alternatives (read : Inner) : Reader Phrase := do
  let front ← optionalOperator "|"
  let first ← read .pattern
  let rest ← iterate (fun found => do
    if ← sees atAlternative then
      let mark ← operator "|"
      return some (found ++ mark ++ (← read .pattern).tokens)
    else return none) []
  if front.isEmpty && rest.isEmpty then return first
  else return .plain (front ++ first.tokens ++ rest)

/-! ## Ranges -/

/-- Whether a range of patterns has no end. -/
def endsPatternRange (tokens : List Token) : Bool :=
  tokens.isEmpty || atOneOf ["|", "=", ",", ";"] tokens || atWord "if" tokens ||
    (atOperator ":" tokens && !atOperator "::" tokens)

/-- A path in an expression, perhaps one that starts from a type. -/
def pathOperand (read : Inner) : Reader (List Token) := do
  if ← sees (atOperator "<") then pathFromType read .expression
  else return (← path read .expression).tokens

/-- A constant that starts or ends a range of patterns. -/
def rangeBound (read : Inner) : Reader (List Token) := do
  let tokens ← remaining
  if atLiteral tokens then literal
  else if atPath tokens then pathOperand read
  else if atWord "const" tokens then
    let mark ← word "const"
    return mark ++ (← attributedBlock read)
  else missing [.literal, .identifier, .word "::", .word "<", .word "self", .word "Self",
    .word "super", .word "crate", .word "const"]

/-- The operator of a range of patterns, and whether the range includes its end.  Three points
are an old spelling of `..=`. -/
def patternRangeOperator : Reader (List Token × Bool) := do
  if ← sees (atOperator "..=") then return (← operator "..=", true)
  if ← accept "..." then return (Token.operator ['.', '.', '='], true)
  return (← operator "..", false)

/-- A range of patterns, after its start. -/
def patternRange (read : Inner) (start : List Token) : Reader Phrase := do
  let (limits, closed) ← patternRangeOperator
  if ← sees endsPatternRange then
    if closed then missing [.upperBound]
    return ⟨start ++ limits, if start.isEmpty then .remainder else .openRange⟩
  let last ← rangeBound read
  return ⟨start ++ limits ++ last, if start.isEmpty then .openRange else .plain⟩

/-! ## Patterns in delimiters -/

/-- The pattern of everything that is left, at the end of the fields of a structure.  Nothing is
taken if it does not come next. -/
def fieldRemainder (read : Inner) : Reader (Option Phrase) := do
  let start ← get
  let front ← outerAttributes read
  if ← sees (atOperator "..") then return some (.plain (front ++ (← operator "..")))
  else
    set start
    return none

/-- A pattern for a field of a structure.  A field that is given by its name alone is bound to
it. -/
def fieldPattern (read : Inner) : Reader Phrase := do
  let front ← outerAttributes read
  let boxed ← optionalWord "box"
  let byReference ← optionalWord "ref"
  let access ← optionalWord "mut"
  let marks := boxed ++ byReference ++ access
  if marks.isEmpty then
    let (found, named) ← field
    if !named || (← sees (atOperator ":")) then
      let colon ← operator ":"
      return .plain (front ++ [found] ++ colon ++ (← alternatives read).tokens)
    else return .plain (front ++ [found])
  else return .plain (front ++ marks ++ (← name))

/-- Patterns in brackets, of which none is a range without a start or an end. -/
def elementPattern (read : Inner) : Reader Phrase := do
  let found ← alternatives read
  if found.form = .openRange then refuse .openRange
  return found

/-! ## Patterns that start with a name -/

/-- Whether the name that comes next starts more than a name. -/
def extendsName (tokens : List Token) : Bool :=
  let after := skip tokens
  atOneOf ["::", "!", ".."] after || atGroup .brace after || atGroup .parenthesis after

/-- Whether a pattern that starts with a path comes next. -/
def atPathPattern (tokens : List Token) : Bool :=
  (atName tokens && extendsName tokens) ||
    (atWord "self" tokens && atOperator "::" (skip tokens)) ||
    atOneOf ["::", "<"] tokens || atWordOf ["Self", "super", "crate"] tokens

/-- What can follow a path in a pattern: fields, the end of a range, or nothing. -/
def afterPath (read : Inner) (start : List Token) : Reader Phrase := do
  let tokens ← remaining
  if atGroup .brace tokens then
    return .plain (start ++ (← grouped .brace do
      return listTokens (← items List.isEmpty (fieldRemainder read) (fieldPattern read))))
  else if atGroup .parenthesis tokens then
    return .plain (start ++ (← grouped .parenthesis (groupList (alternatives read))))
  else if atOperator ".." tokens then patternRange read start
  else return .plain start

/-- A pattern that starts with a path. -/
def pathPattern (read : Inner) : Reader Phrase := do
  if ← sees (atOperator "<") then afterPath read (← pathFromType read .expression)
  else
    let found ← path read .expression
    if found.isPlain && (← sees atMacroCall) then return .plain (← macroCall found.tokens)
    else afterPath read found.tokens

/-- A name that is bound, perhaps with a pattern for the same value. -/
def bindingPattern (read : Inner) : Reader (List Token) := do
  let byReference ← optionalWord "ref"
  let access ← optionalWord "mut"
  let found ← if ← sees (atWord "self") then word "self" else name
  if ← sees (atOperator "@") then
    let mark ← operator "@"
    return byReference ++ access ++ found ++ mark ++ (← read .pattern).tokens
  else return byReference ++ access ++ found

/-- A pattern without alternatives. -/
def pattern (read : Inner) : Reader Phrase := do
  let tokens ← remaining
  if atPathPattern tokens then pathPattern read
  else if atWord "_" tokens then return .plain (← word "_")
  else if atWord "box" tokens then return .plain (← verbatim do
    let mark ← word "box"
    return mark ++ (← read .pattern).tokens)
  else if atOperator "-" tokens || atLiteral tokens || atWord "const" tokens then
    let start ← rangeBound read
    if ← sees (atOperator "..") then patternRange read start else return .plain start
  else if atWordOf ["ref", "mut", "self"] tokens || atName tokens then
    return .plain (← bindingPattern read)
  else if atOperator "&" tokens then
    let mark ← operator "&"
    let access ← optionalWord "mut"
    return .plain (mark ++ access ++ (← read .pattern).tokens)
  else if atGroup .parenthesis tokens then
    return .plain (← grouped .parenthesis (groupList (alternatives read)))
  else if atGroup .bracket tokens then
    return .plain (← grouped .bracket (groupList (elementPattern read)))
  else if atOperator ".." tokens && !atOperator "..." tokens then patternRange read []
  else missing [.identifier, .word "::", .word "<", .word "_", .literal, .word "const",
    .word "ref", .word "mut", .word "&", .group .parenthesis, .group .bracket, .word "..",
    .word "const"]

end DerivativeParsing.Notation.Host
