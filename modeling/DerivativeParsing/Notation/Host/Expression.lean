import DerivativeParsing.Notation.Host.Operator
import DerivativeParsing.Notation.Host.Pattern

/-!
# Operands of expressions

An operand starts with the operators in front of it and ends with what is applied to it: calls,
fields, indices, and question marks.  In between stands a literal, a path, something in
delimiters, or an expression with a word of its own, such as a loop or a closure.
-/

set_option autoImplicit false

namespace DerivativeParsing.Notation.Host

open Lookahead Reader

/-- The expressions of a list up to the end of the group. -/
def expressionList (read : Inner) : Reader (List Token) := groupList (read (.expression true))

/-! ## Delimiters -/

/-- Something in parentheses or a tuple. -/
def tuple (read : Inner) : Reader (List Token) := grouped .parenthesis (expressionList read)

/-- The elements of an array, or an element and how often it is repeated. -/
def arrayContent (read : Inner) : Reader (List Token) := do
  if (← remaining).isEmpty then return []
  let first ← read (.expression true)
  let tokens ← remaining
  if tokens.isEmpty then return first.tokens
  else if atOperator "," tokens then
    let comma ← operator ","
    return first.tokens ++ comma ++ (← expressionList read)
  else if atOperator ";" tokens then
    let mark ← operator ";"
    return first.tokens ++ mark ++ (← read (.expression true)).tokens
  else missing [.word ",", .word ";"]

/-- A structure that takes the remaining fields from another, or from their defaults. -/
def baseOfFields (read : Inner) : Reader (Option Phrase) := do
  if ← sees (atOperator "..") then
    let mark ← operator ".."
    if (← remaining).isEmpty then return some (.plain mark)
    return some (.plain (mark ++ (← read (.expression true)).tokens))
  else return none

/-- A field of a structure with its value, or with its name for a value. -/
def fieldValue (read : Inner) : Reader Phrase := do
  let front ← outerAttributes read
  let (found, named) ← field
  if !named || (← sees (atOperator ":")) then
    let colon ← operator ":"
    return .plain (front ++ [found] ++ colon ++ (← read (.expression true)).tokens)
  else return .plain (front ++ [found])

/-- The fields of a structure in braces. -/
def structureFields (read : Inner) : Reader (List Token) :=
  grouped .brace do
    return listTokens (← items List.isEmpty (baseOfFields read) (fieldValue read))

/-- What a path starts: a call of a macro, a structure, or nothing more. -/
def pathExpression (read : Inner) (braces : Bool) : Reader Phrase := do
  if ← sees (atOperator "<") then
    let found ← pathFromType read .expression
    if braces && (← sees (atGroup .brace)) then
      return .plain (found ++ (← structureFields read))
    else return .plain found
  else
    let found ← path read .expression
    if found.isPlain && (← sees atMacroCall) then
      let isBlock := atGroup .brace (skip (← remaining))
      return ⟨← macroCall found.tokens, if isBlock then .macroBlock else .plain⟩
    else if braces && (← sees (atGroup .brace)) then
      return .plain (found.tokens ++ (← structureFields read))
    else return .plain found.tokens

/-! ## Closures -/

/-- Whether names are bound in front of a closure, and not a loop started. -/
def bindsLabels (tokens : List Token) : Bool :=
  let after := skip tokens
  atWord "for" tokens && atOperator "<" after &&
    (atLabel (skip after) || atOperator ">" (skip after))

/-- Whether a closure comes next. -/
def atClosure (tokens : List Token) : Bool :=
  let after := skip tokens
  atOperator "|" tokens || atWord "move" tokens || bindsLabels tokens ||
    (atWord "const" tokens && !atGroup .brace after) || atWord "static" tokens ||
    (atWord "async" tokens && (atOperator "|" after || atWord "move" after))

/-- A parameter of a closure. -/
def closureParameter (read : Inner) : Reader Phrase := do
  let front ← outerAttributes read
  let found ← read .pattern
  if ← sees (atOperator ":") then
    let colon ← operator ":"
    return .plain (front ++ found.tokens ++ colon ++ (← read (.type true)).tokens)
  else return .plain (front ++ found.tokens)

/-- A closure. -/
def closure (read : Inner) (braces : Bool) : Reader (List Token) := do
  let binder ← optionalBinder read
  let constancy ← optionalWord "const"
  let place ← optionalWord "static"
  let suspension ← optionalWord "async"
  let capture ← optionalWord "move"
  let opening ← operator "|"
  let parameters ← commaList (atOperator "|") (closureParameter read)
  let closing ← operator "|"
  let front := binder ++ constancy ++ place ++ suspension ++ capture
  let head := front ++ opening ++ parameters ++ closing
  if ← sees (atOperator "->") then
    let result ← resultType read true
    return head ++ result ++ (← block read)
  else return head ++ (← read (.expression braces)).tokens

/-! ## Branches and loops -/

/-- An expression in front of a block. -/
def beforeBlock (read : Inner) : Reader (List Token) := do
  return (← read (.expression false)).tokens

/-- Reads on in a chain of branches, after the tokens so far.  The flag says whether the chain is
over. -/
def nextBranch (read : Inner) (state : List Token × Bool) :
    Reader (Option (List Token × Bool)) := do
  let (found, ended) := state
  if ended then return none
  let mark ← word "if"
  let test ← beforeBlock read
  let body ← block read
  let found := found ++ mark ++ test ++ body
  if ← sees (atWord "else") then
    let other ← word "else"
    let tokens ← remaining
    if atWord "if" tokens then return some (found ++ other, false)
    else if atGroup .brace tokens then return some (found ++ other ++ (← block read), true)
    else missing [.word "if", .group .brace]
  else return some (found, true)

/-- A choice between blocks. -/
def ifExpression (read : Inner) : Reader (List Token) := do
  return (← iterate (nextBranch read) ([], false)).1

/-- A loop with a condition. -/
def whileLoop (read : Inner) : Reader (List Token) := do
  let mark ← word "while"
  let test ← beforeBlock read
  return mark ++ test ++ (← attributedBlock read)

/-- A loop over the items of a sequence. -/
def forLoop (read : Inner) : Reader (List Token) := do
  let mark ← word "for"
  let found ← alternatives read
  let source ← word "in"
  let sequence ← beforeBlock read
  return mark ++ found.tokens ++ source ++ sequence ++ (← attributedBlock read)

/-- A loop without an end. -/
def endlessLoop (read : Inner) : Reader (List Token) := do
  let mark ← word "loop"
  return mark ++ (← attributedBlock read)

/-- A loop or a block with a label. -/
def labelled (read : Inner) : Reader (List Token) := do
  let name ← label
  let colon ← operator ":"
  let tokens ← remaining
  let body ← if atWord "while" tokens then whileLoop read
    else if atWord "for" tokens then forLoop read
    else if atWord "loop" tokens then endlessLoop read
    else if atGroup .brace tokens then attributedBlock read
    else missing [.loop, .block]
  return name ++ colon ++ body

/-! ## Expressions that may end -/

/-- Whether an expression comes next. -/
def atExpression (tokens : List Token) : Bool :=
  (atAnyWord tokens && !atWord "as" tokens) || atGroup .parenthesis tokens ||
    atGroup .bracket tokens || atGroup .brace tokens || atLiteral tokens ||
    (atOperator "!" tokens && !atOperator "!=" tokens) ||
    (atOperator "-" tokens && !atOneOf ["-=", "->"] tokens) ||
    (atOperator "*" tokens && !atOperator "*=" tokens) ||
    (atOperator "|" tokens && !atOperator "|=" tokens) ||
    (atOperator "&" tokens && !atOperator "&=" tokens) ||
    (atOperator "<" tokens && !atOneOf ["<=", "<<="] tokens) ||
    atOneOf ["..", "::", "#"] tokens || atLabel tokens

/-- A word with a value, if one comes next. -/
def wordWithValue (read : Inner) (text : String) : Reader (List Token) := do
  let mark ← word text
  if ← sees atExpression then return mark ++ (← read (.expression true)).tokens else return mark

/-- An exit from a loop or a block, perhaps with its label and a value. -/
def breakExpression (read : Inner) (braces : Bool) : Reader (List Token) := do
  let mark ← word "break"
  let tokens ← remaining
  if atLabel tokens && atOperator ":" (skip tokens) then
    let _ ← read (.expression true)
    refuse .bareLabel
  let target ← optionalLabel
  let tokens ← remaining
  if atExpression tokens && (braces || !atGroup .brace tokens) then
    return mark ++ target ++ (← read (.expression true)).tokens
  else return mark ++ target

/-- A condition that binds the names of a pattern. -/
def letExpression (read : Inner) (braces : Bool) : Reader (List Token) := do
  let mark ← word "let"
  let found ← alternatives read
  let sign ← operator "="
  let value ← operation read braces .comparison (← read (.operand braces))
  return mark ++ found.tokens ++ sign ++ value.tokens

/-- A form that the compiler of the host language has built in. -/
def builtin : Reader (List Token) :=
  verbatim do
    let _ ← word "builtin"
    expect "#"
    let _ ← identifier
    let _ ← group .parenthesis
    return []

/-! ## Operands -/

/-- Adds a block to a word. -/
def wordAndBlock (read : Inner) (text : String) : Reader (List Token) := do
  let mark ← word text
  return mark ++ (← attributedBlock read)

/-- A block whose value comes later. -/
def asyncBlock (read : Inner) : Reader (List Token) := do
  let mark ← word "async"
  let capture ← optionalWord "move"
  return mark ++ capture ++ (← block read)

/-- A case of a choice by patterns.  A comma ends it, unless a block or the last case does. -/
def matchArm (read : Inner) : Reader (List Token) := do
  let front ← outerAttributes read
  let found ← alternatives read
  let guard ← if ← sees (atWord "if") then do
      let mark ← word "if"
      pure (mark ++ (← read (.expression true)).tokens)
    else pure []
  let arrow ← operator "=>"
  let body ← read .leading
  let isLast := (← remaining).isEmpty
  let comma ← if body.form = .block || isLast then optionalOperator "," else operator ","
  return front ++ found.tokens ++ guard ++ arrow ++ body.tokens ++ comma

/-- A choice by patterns. -/
def matchExpression (read : Inner) : Reader (List Token) := do
  let mark ← word "match"
  let subject ← beforeBlock read
  let cases ← grouped .brace do
    let front ← innerAttributes read
    iterate (fun found => do
      if (← remaining).isEmpty then return none
      return some (found ++ (← matchArm read))) front
  return mark ++ subject ++ cases

/-- An operand without the operators in front of it and without what is applied to it. -/
def atom (read : Inner) (braces : Bool) : Reader Phrase := do
  let tokens ← remaining
  let after := skip tokens
  let isBlock (found : List Token) : Phrase := ⟨found, .block⟩
  if atLiteral tokens then return .plain (← literal)
  else if atWord "async" tokens && (atGroup .brace after ||
      (atWord "move" after && atGroup .brace (skip after))) then
    return .plain (← asyncBlock read)
  else if atWord "try" tokens && atGroup .brace after then
    let mark ← word "try"
    return isBlock (mark ++ (← block read))
  else if atClosure tokens then return .plain (← closure read braces)
  else if atWord "builtin" tokens && atOperator "#" after then return .plain (← builtin)
  else if atPath tokens || (atWord "try" tokens && atOneOf ["!", "::"] after) then
    pathExpression read braces
  else if atGroup .parenthesis tokens then return .plain (← tuple read)
  else if atWord "break" tokens then return .plain (← breakExpression read braces)
  else if atWord "continue" tokens then
    let mark ← word "continue"
    return .plain (mark ++ (← optionalLabel))
  else if atWord "return" tokens then return .plain (← wordWithValue read "return")
  else if atWord "become" tokens then
    return .plain (← verbatim do
      let mark ← word "become"
      return mark ++ (← read (.expression true)).tokens)
  else if atGroup .bracket tokens then return .plain (← grouped .bracket (arrayContent read))
  else if atWord "let" tokens then return .plain (← letExpression read braces)
  else if atWord "if" tokens then return isBlock (← ifExpression read)
  else if atWord "while" tokens then return isBlock (← whileLoop read)
  else if atWord "for" tokens then return isBlock (← forLoop read)
  else if atWord "loop" tokens then return isBlock (← endlessLoop read)
  else if atWord "match" tokens then return isBlock (← matchExpression read)
  else if atWord "yield" tokens then return .plain (← wordWithValue read "yield")
  else if atWord "unsafe" tokens then return isBlock (← wordAndBlock read "unsafe")
  else if atWord "const" tokens then return isBlock (← wordAndBlock read "const")
  else if atGroup .brace tokens then return isBlock (← attributedBlock read)
  else if atOperator ".." tokens then range read braces []
  else if atWord "_" tokens then return .plain (← word "_")
  else if atLabel tokens then return isBlock (← labelled read)
  else missing [.expression]

/-! ## What is applied to an operand -/

/-- A field or a method of an operand, after the point in front. -/
def memberOf (read : Inner) (operand : List Token) : Reader (List Token) := do
  if ← sees (atWord "await") then return operand ++ [.alone '.'] ++ (← word "await")
  let (found, named) ← field
  let chosen := operand ++ [.alone '.', found]
  if named && (← sees (atOperator "::")) then
    let colons ← operator "::"
    let types ← bracketedArguments read
    return chosen ++ colons ++ types ++ (← grouped .parenthesis (expressionList read))
  else if named && (← sees (atGroup .parenthesis)) then
    return chosen ++ (← grouped .parenthesis (expressionList read))
  else return chosen

/-- The numbers after a point that look like one with a fraction, and the sign in front of it. -/
def splitFraction : List Token → Option (Bool × String × List Token)
  | .literal spelling .fraction :: rest => some (false, spelling, rest)
  | .punct '-' _ :: .literal spelling .fraction :: rest => some (true, spelling, rest)
  | _ => none

/-- What follows a point after an operand. -/
def afterPoint (read : Inner) (operand : List Token) : Reader (List Token) := do
  match splitFraction (← remaining) with
  | some (negative, spelling, rest) =>
    leave rest
    let (numbers, pointAtEnd) ← numbersOfFraction negative spelling
    if pointAtEnd then memberOf read (operand ++ numbers) else return operand ++ numbers
  | none => memberOf read operand

/-- Applies what comes next to an operand. -/
def nextApplication (read : Inner) (operand : Phrase) : Reader (Option Phrase) := do
  let tokens ← remaining
  let isRange := operand.form = .range
  if atGroup .parenthesis tokens then return some (.plain (operand.tokens ++ (← tuple read)))
  else if atOperator "." tokens && !atOperator ".." tokens && !isRange then
    expect "."
    return some (.plain (← afterPoint read operand.tokens))
  else if atGroup .bracket tokens then
    return some (.plain (operand.tokens ++ (← grouped .bracket do
      return (← read (.expression true)).tokens)))
  else if atOperator "?" tokens && !isRange then
    return some (.plain (operand.tokens ++ (← operator "?")))
  else return none

/-- Applies all that comes next to an operand. -/
def applications (read : Inner) (operand : Phrase) : Reader Phrase :=
  iterate (nextApplication read) operand

/-! ## Operators in front -/

/-- A reference to an operand, or its address. -/
def referenceTo (read : Inner) (braces : Bool) : Reader (List Token) := do
  let mark ← operator "&"
  let tokens ← remaining
  if atWord "raw" tokens && atWordOf ["mut", "const"] (skip tokens) then
    let address ← word "raw"
    let access ← anyWord
    return mark ++ address ++ access ++ (← read (.operand braces)).tokens
  else
    let access ← optionalWord "mut"
    return mark ++ access ++ (← read (.operand braces)).tokens

/-- An operand with the operators in front of it and what is applied to it. -/
def operand (read : Inner) (braces : Bool) : Reader Phrase := do
  let front ← outerAttributes read
  let tokens ← remaining
  if atOperator "&" tokens then return .plain (front ++ (← referenceTo read braces))
  for op in ["*", "!", "-"] do
    if atOperator op tokens then
      let mark ← operator op
      return .plain (front ++ mark ++ (← read (.operand braces)).tokens)
  let found ← applications read (← atom read braces)
  if found.form = .range && !front.isEmpty then refuse .attributedRange
  return { found with tokens := front ++ found.tokens }

/-! ## Expressions at the start of a statement -/

/-- An expression that starts with a word or a brace of its own and ends in a block, if one comes
next. -/
def leadingBlock (read : Inner) : Reader (Option (List Token)) := do
  let tokens ← remaining
  let after := skip tokens
  if atWord "if" tokens then return some (← ifExpression read)
  else if atWord "while" tokens then return some (← whileLoop read)
  else if atWord "for" tokens && !bindsLabels tokens then return some (← forLoop read)
  else if atWord "loop" tokens then return some (← endlessLoop read)
  else if atWord "match" tokens then return some (← matchExpression read)
  else if atWord "try" tokens && atGroup .brace after then
    let mark ← word "try"
    return some (mark ++ (← block read))
  else if atWord "unsafe" tokens then return some (← wordAndBlock read "unsafe")
  else if atWord "const" tokens && atGroup .brace after then
    return some (← wordAndBlock read "const")
  else if atGroup .brace tokens then return some (← attributedBlock read)
  else if atLabel tokens then return some (← labelled read)
  else return none

/-- An expression that may start a statement.  A block at its start ends it, unless a point or a
question mark follows. -/
def leadingExpression (read : Inner) : Reader Phrase := do
  let front ← outerAttributes read
  match ← leadingBlock read with
  | none =>
    let found ← read (.operand true)
    operation read true .any { found with tokens := front ++ found.tokens }
  | some found =>
    let tokens ← remaining
    if (atOperator "." tokens && !atOperator ".." tokens) || atOperator "?" tokens then
      operation read true .any (← applications read (.plain (front ++ found)))
    else return ⟨front ++ found, .block⟩

end DerivativeParsing.Notation.Host
