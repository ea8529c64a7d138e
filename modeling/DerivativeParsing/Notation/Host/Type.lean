import DerivativeParsing.Notation.Host.Bound

/-!
# Types

Types are paths, references and pointers, tuples, slices and arrays, functions, and sums of
bounds.  A sum of more than one bound is read only where a plus sign cannot mean anything else.
-/

set_option autoImplicit false

namespace DerivativeParsing.Notation.Host

open Lookahead Reader

/-! ## Functions -/

/-- The name and the colon that may stand in front of a parameter of a function. -/
def parameterName (first : Bool) : Reader (List Token) := do
  let tokens ← remaining
  let named := atName tokens || atWord "_" tokens || (first && atWord "self" tokens)
  if named && atOperator ":" (skip tokens) && !atOperator "::" (skip tokens) then
    let found ← anyWord
    return found ++ (← operator ":")
  else return []

/-- Whether the first parameter is the value that a method is called on, which may be changed. -/
def atMutableSelf (tokens : List Token) : Bool :=
  atWord "mut" tokens && atWord "self" (skip tokens)

/-- A parameter of the type of a function. -/
def functionParameter (read : Inner) (first : Bool) : Reader Phrase := do
  let front ← outerAttributes read
  if first && (← sees atMutableSelf) then
    let found ← verbatim do
      let _ ← word "mut"
      let named ← parameterName true
      if named.isEmpty then word "self" else return (← read (.type true)).tokens
    return .plain (front ++ found)
  let named ← parameterName first
  return .plain (front ++ named ++ (← read (.type true)).tokens)

/-- Whether the type of a function takes any further parameters, perhaps with a name. -/
def atVariadic (tokens : List Token) : Bool :=
  atOperator "..." tokens ||
    ((atName tokens || atWord "_" tokens) && atOperator ":" (skip tokens) &&
      atOperator "..." (skip (skip tokens)))

/-- The mark of further parameters, if it comes next.  Nothing is taken if it does not. -/
def variadic (read : Inner) : Reader (Option Phrase) := do
  let start ← get
  let front ← outerAttributes read
  if ← sees atVariadic then
    let named ← if ← sees (atOperator "...") then pure [] else do
      let found ← anyWord
      pure (found ++ (← operator ":"))
    let dots ← operator "..."
    return some (.plain (front ++ named ++ dots ++ (← optionalOperator ",")))
  else
    set start
    return none

/-- The parameters of the type of a function. -/
def functionParameters (read : Inner) : Reader (List Token) := do
  let all := (← remaining).length
  return listTokens (← items List.isEmpty (variadic read) do
    functionParameter read ((← remaining).length = all))

/-- The interface of a function to other languages. -/
def interface : Reader (List Token) := do
  if ← sees (atWord "extern") then
    let mark ← word "extern"
    if ← sees atString then return mark ++ (← literal) else return mark
  else return []

/-- The type of a function. -/
def functionType (read : Inner) : Reader (List Token) := do
  let safety ← optionalWord "unsafe"
  let interface ← interface
  let mark ← word "fn"
  let inputs ← grouped .parenthesis (functionParameters read)
  return safety ++ interface ++ mark ++ inputs ++ (← resultType read false)

/-! ## Sums of bounds without a mark -/

/-- Further bounds of a sum, up to what is not followed by a plus sign. -/
def furtherBounds (read : Inner) : Reader (List Token) :=
  iterate (fun found => do
    if ← accept "+" then
      return some (found ++ [.alone '+'] ++ (← read (.bound false false)).tokens)
    else return none) []

/-- Reads on in a sum whose last plus sign need not be followed by a bound. -/
def nextLooseBound (read : Inner) (state : List Token × Bool) :
    Reader (Option (List Token × Bool)) := do
  let (found, ended) := state
  if ended || !(← accept "+") then return none
  if ← sees (atBound false) then
    return some (found ++ [.alone '+'] ++ (← read (.bound false false)).tokens, false)
  else return some (found ++ [.alone '+'], true)

/-- Tokens in parentheses, unless they are in parentheses already. -/
def parenthesised : List Token → List Token
  | [.group .parenthesis content] => [.group .parenthesis content]
  | tokens => [.group .parenthesis tokens]

/-! ## Types in delimiters -/

/-- What is found in parentheses. -/
inductive Enclosed where
  /-- Nothing more can belong to the type. -/
  | whole (content : List Token)
  /-- A bound, which further ones may follow. -/
  | summand (content : List Token)
  /-- A type, which may be the first bound of a sum. -/
  | single (type : Phrase)

/-- Reads what is in parentheses. -/
def enclosed (read : Inner) : Reader Enclosed := do
  let tokens ← remaining
  if tokens.isEmpty then return .whole []
  if atLabel tokens then return .whole (← objectBounds read true)
  if atOperator "?" tokens then return .summand (← traitBound read false).tokens
  let first ← read (.type true)
  if ← accept "," then
    return .whole (first.tokens ++ [.alone ','] ++ (← groupList (read (.type true))))
  return .single first

/-- A type that starts with parentheses. -/
def typeInParentheses (read : Inner) (sum : Bool) (content : List Token) : Reader Phrase := do
  match ← inside .parenthesis content (enclosed read) with
  | .whole found => return .plain [.group .parenthesis found]
  | .summand found =>
    let rest ← furtherBounds read
    return ⟨.group .parenthesis found :: rest, if rest.isEmpty then .bound else .plain⟩
  | .single first =>
    let isBound := first.form = .name || first.form = .path || first.form = .bound
    if isBound && sum && (← sees (atOperator "+")) then
      return .plain (parenthesised first.tokens ++ (← furtherBounds read))
    else return .plain [.group .parenthesis first.tokens]

/-- A slice or an array. -/
def elements (read : Inner) : Reader (List Token) := do
  let element ← read (.type true)
  if ← accept ";" then
    return element.tokens ++ [.alone ';'] ++ (← read (.expression true)).tokens
  else return element.tokens

/-! ## Types -/

/-- A pointer. -/
def pointer (read : Inner) : Reader (List Token) := do
  let mark ← operator "*"
  let tokens ← remaining
  let access ← if atWord "const" tokens then word "const"
    else if atWord "mut" tokens then word "mut"
    else missing [.word "const", .word "mut"]
  return mark ++ access ++ (← read (.type false)).tokens

/-- A reference. -/
def reference (read : Inner) : Reader (List Token) := do
  let mark ← operator "&"
  let life ← optionalLabel
  let access ← optionalWord "mut"
  return mark ++ life ++ access ++ (← read (.type false)).tokens

/-- A call of a macro, after its path. -/
def macroCall (path : List Token) : Reader (List Token) := do
  let mark ← operator "!"
  return path ++ mark ++ (← anyGroup)

/-- Whether the path of a macro has been read: a `!` comes next that starts no other operator. -/
def atMacroCall (tokens : List Token) : Bool := atOperator "!" tokens && !atOperator "!=" tokens

/-- A type that starts with a path, after the names that are bound for it. -/
def pathType (read : Inner) (sum : Bool) (bound : List Token) : Reader Phrase := do
  if ← sees (atOperator "<") then return .plain (← pathFromType read .type)
  let found ← path read .type
  let tokens ← remaining
  if atMacroCall tokens && found.isPlain then return .plain (← macroCall found.tokens)
  if !bound.isEmpty || (sum && atOperator "+" tokens) then
    let rest ← if sum then (·.1) <$> iterate (nextLooseBound read) ([], false) else pure []
    return ⟨bound ++ found.tokens ++ rest, if rest.isEmpty then .bound else .plain⟩
  else return ⟨found.tokens, found.form⟩

/-- An object type after its mark. -/
def objectType (read : Inner) (sum : Bool) : Reader (List Token) := do
  let mark ← word "dyn"
  let star ← optionalOperator "*"
  return mark ++ star ++ (← objectBounds read sum)

/-- Whether a function type comes next. -/
def atFunctionType (tokens : List Token) : Bool := atWordOf ["fn", "unsafe", "extern"] tokens

/-- A type after the names that are bound for it. -/
def boundType (read : Inner) (sum : Bool) : Reader Phrase := do
  let bound ← binder read
  let tokens ← remaining
  if atFunctionType tokens then return .plain (bound ++ (← functionType read))
  else if atName tokens || atWordOf pathWords tokens then pathType read sum bound
  else missing [.identifier, .word "fn", .word "unsafe", .word "extern", .word "super",
    .word "self", .word "Self", .word "crate"]

/-- A type. -/
def type (read : Inner) (sum : Bool) : Reader Phrase := do
  let tokens ← remaining
  if atWord "for" tokens then boundType read sum
  else match tokens with
  | .group .parenthesis content :: rest =>
    leave rest
    typeInParentheses read sum content
  | .group .bracket _ :: _ => return .plain (← grouped .bracket (elements read))
  | _ =>
    if atFunctionType tokens then return .plain (← functionType read)
    else if atPath tokens then pathType read sum []
    else if atWord "dyn" tokens then return .plain (← objectType read sum)
    else if atOperator "*" tokens then return .plain (← pointer read)
    else if atOperator "&" tokens then return .plain (← reference read)
    else if atOperator "!" tokens then return .plain (← operator "!")
    else if atWord "impl" tokens then
      let mark ← word "impl"
      return .plain (mark ++ (← opaqueBounds read sum))
    else if atWord "_" tokens then return .plain (← word "_")
    else if atLabel tokens then return .plain (← objectBounds read true)
    else missing Expectation.type

end DerivativeParsing.Notation.Host
