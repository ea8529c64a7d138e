import DerivativeParsing.Notation.Host.Item

/-!
# Statements

A block holds statements: items, definitions of names after `let`, and expressions.  A semicolon
follows every statement but the last, unless the statement is an item or ends in a block.
-/

set_option autoImplicit false

namespace DerivativeParsing.Notation.Host

open Lookahead Reader

/-- Whether a token is a group in braces. -/
def isBraced : Token → Bool
  | .group .brace _ => true
  | _ => false

/-- The definition of the names of a pattern. -/
def localDefinition (read : Inner) : Reader (List Token) := do
  let mark ← word "let"
  let found ← read .pattern
  let type ← if ← accept ":" then do pure (.alone ':' :: (← read (.type true)).tokens)
    else pure []
  let head := mark ++ found.tokens ++ type
  if ← accept "=" then
    let value ← read (.expression true)
    let head := head ++ [.alone '='] ++ value.tokens
    if !value.tokens.getLast?.any isBraced && (← sees (atWord "else")) then
      let other ← word "else"
      let body ← block read
      return head ++ other ++ body ++ (← operator ";")
    else return head ++ (← operator ";")
  else return head ++ (← operator ";")

/-- The tokens after the path of a macro and its `!`, if they come next. -/
def afterMacroPath? (tokens : List Token) : Option (List Token) :=
  match plainPath.run ⟨tokens, none⟩ with
  | .ok (_, rest) => if atOperator "!" rest.tokens then some (skip rest.tokens) else none
  | .error _ => none

/-- Whether a macro that is called in braces makes a statement, if its braces come next. -/
def endsInBraces (tokens : List Token) : Bool :=
  let after := skip tokens
  atGroup .brace tokens &&
    !((atOperator "." after && !atOperator ".." after) || atOperator "?" after)

/-- A call of a macro as a statement. -/
def macroStatement : Reader (List Token) := do
  let found ← plainPath
  let call ← macroCall found
  return call ++ (← optionalOperator ";")

/-- An expression as a statement. -/
def expressionStatement (read : Inner) : Reader Phrase := do
  let found ← read .leading
  let mark ← optionalOperator ";"
  let complete := !mark.isEmpty || found.form = .block || found.form = .macroBlock
  return ⟨found.tokens ++ mark, if complete then .block else .plain⟩

/-- A statement.  It has the form of a block if nothing has to separate it from the next. -/
def statement (read : Inner) : Reader Phrase := do
  let before ← remaining
  let front ← outerAttributes read
  let tokens ← remaining
  let afterMacro := afterMacroPath? tokens
  if afterMacro.any endsInBraces then return ⟨front ++ (← macroStatement), .block⟩
  else if atWord "let" tokens then return ⟨front ++ (← localDefinition read), .block⟩
  else if atItem tokens || afterMacro.any (fun after => atName after || atWord "try" after) then
    return ⟨← itemAfter read before front, .block⟩
  else
    let found ← expressionStatement read
    return { found with tokens := front ++ found.tokens }

/-- Reads on in the statements of a block. -/
def nextStatement (read : Inner) (found : List Token) : Reader (Option (List Token)) := do
  if (← remaining).isEmpty then return none
  if ← accept ";" then return some (found ++ [.alone ';'])
  let next ← statement read
  if next.form ≠ .block && !(← remaining).isEmpty then refuse .unseparated
  return some (found ++ next.tokens)

/-- The statements of a block. -/
def statements (read : Inner) : Reader Phrase := do
  return .plain (← iterate (nextStatement read) [])

end DerivativeParsing.Notation.Host
