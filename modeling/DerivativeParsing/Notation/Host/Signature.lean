import DerivativeParsing.Notation.Host.Generics
import DerivativeParsing.Notation.Host.Pattern

/-!
# Functions

The signature of a function names it and gives its parameters and the type of its result.  The
first parameter may be the value that a method is called on.
-/

set_option autoImplicit false

namespace DerivativeParsing.Notation.Host

open Lookahead Reader

/-! ## Parameters -/

/-- The value that a method is called on, or a reference to it. -/
def receiver (read : Inner) : Reader (List Token) := do
  let reference ← optionalOperator "&"
  let life ← if reference.isEmpty then pure [] else optionalLabel
  let access ← optionalWord "mut"
  let value ← word "self"
  let front := reference ++ life ++ access ++ value
  if reference.isEmpty then
    if ← accept ":" then return front ++ .alone ':' :: (← read (.type true)).tokens
  return front

/-- What kind of parameter stands in a list of them. -/
inductive ParameterKind where
  | typed
  | receiver
  /-- Any further parameters. -/
  | variadic

/-- A parameter with a pattern and a type, after its attributes. -/
def typedParameter (read : Inner) : Reader (List Token × ParameterKind) := do
  let tokens ← remaining
  if atName tokens && atOperator "<" (skip tokens) then
    return ([.ident "_", .alone ':'] ++ (← read (.type true)).tokens, .typed)
  let found ← read .pattern
  let colon ← operator ":"
  if ← sees (atOperator "...") then
    return (found.tokens ++ colon ++ (← operator "..."), .variadic)
  else return (found.tokens ++ colon ++ (← read (.type true)).tokens, .typed)

/-- A parameter. -/
def functionArgument (read : Inner) : Reader (List Token × ParameterKind) := do
  if ← sees (atOperator "...") then return (← operator "...", .variadic)
  match ← attempt (receiver read) with
  | some found => return (found, .receiver)
  | none => typedParameter read

/-- The parameters of a function so far. -/
structure ArgumentList where
  tokens : List Token
  isEmpty : Bool
  hasReceiver : Bool
  ended : Bool

/-- Reads on in the parameters of a function. -/
def nextArgument (read : Inner) (found : ArgumentList) : Reader (Option ArgumentList) := do
  if found.ended || (← remaining).isEmpty then return none
  let front ← outerAttributes read
  let (argument, kind) ← functionArgument read
  let tokens := found.tokens ++ front ++ argument
  let hasReceiver ← match kind with
    | .receiver =>
      if found.hasReceiver || !found.isEmpty then refuse (.receiver found.hasReceiver)
      pure true
    | _ => pure found.hasReceiver
  let comma ← if (← remaining).isEmpty then pure [] else operator ","
  return some ⟨tokens ++ comma, false, hasReceiver, kind matches .variadic || comma.isEmpty⟩

/-- The parameters of a function up to the end of the group. -/
def functionArguments (read : Inner) : Reader (List Token) := do
  return (← iterate (nextArgument read) ⟨[], true, false, false⟩).tokens

/-! ## Signatures -/

/-- Whether a signature comes next: `fn` after some of the words that may stand in front of it. -/
def atSignature (tokens : List Token) : Bool :=
  let past (text : String) (tokens : List Token) : List Token :=
    if atWord text tokens then skip tokens else tokens
  let tokens := past "unsafe" (past "async" (past "const" tokens))
  let tokens :=
    if atWord "extern" tokens then
      let after := skip tokens
      if atString after then skip after else after
    else tokens
  atWord "fn" tokens

/-- A signature. -/
def signature (read : Inner) : Reader (List Token) := do
  let constancy ← optionalWord "const"
  let suspension ← optionalWord "async"
  let safety ← optionalWord "unsafe"
  let interface ← interface
  let mark ← word "fn"
  let found ← name
  let parameters ← parameters read
  let inputs ← grouped .parenthesis (functionArguments read)
  let result ← resultType read true
  return constancy ++ suspension ++ safety ++ interface ++ mark ++ found ++ parameters.tokens ++
    inputs ++ result ++ (← conditions read)

/-- A function with its body.  One that has a semicolon in place of a body is kept as it stands. -/
def function (read : Inner) : Reader Phrase := do
  let head ← signature read
  if ← accept ";" then return ⟨head ++ [.alone ';'], .verbatim⟩
  return .plain (head ++ (← attributedBlock read))

end DerivativeParsing.Notation.Host
