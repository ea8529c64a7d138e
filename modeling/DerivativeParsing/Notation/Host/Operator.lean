import DerivativeParsing.Notation.Host.Type

/-!
# Operators between operands

An operator takes what follows it as its second operand as far as that binds more tightly.  A
comparison of a comparison is refused, and a range has no operators after it.
-/

set_option autoImplicit false

namespace DerivativeParsing.Notation.Host

open Lookahead Reader

/-! ## Operators -/

/-- The operators on two operands.  One that starts with another comes before it. -/
def binaryOperators : List (String × Precedence) :=
  [("+=", .assignment), ("-=", .assignment), ("*=", .assignment), ("/=", .assignment),
    ("%=", .assignment), ("^=", .assignment), ("&=", .assignment), ("|=", .assignment),
    ("<<=", .assignment), (">>=", .assignment), ("&&", .conjunction), ("||", .disjunction),
    ("<<", .shift), (">>", .shift), ("==", .comparison), ("<=", .comparison),
    ("!=", .comparison), (">=", .comparison), ("+", .sum), ("-", .sum), ("*", .product),
    ("/", .product), ("%", .product), ("^", .bitXor), ("&", .bitAnd), ("|", .bitOr),
    ("<", .comparison), (">", .comparison)]

/-- The operator on two operands that comes next. -/
def binaryOperator? (tokens : List Token) : Option (String × Precedence) :=
  binaryOperators.find? (atOperator ·.1 tokens)

/-- Whether an assignment comes next. -/
def atAssignment (tokens : List Token) : Bool := atOperator "=" tokens && !atOperator "=>" tokens

/-- How tightly what comes next binds. -/
def nextPrecedence (tokens : List Token) : Precedence :=
  match binaryOperator? tokens with
  | some (_, precedence) => precedence
  | none =>
    if atAssignment tokens then .assignment
    else if atOperator ".." tokens then .range
    else if atWord "as" tokens then .conversion
    else .any

/-! ## Second operands -/

/-- Takes on what binds more tightly than an operator. -/
def nextOperation (read : Inner) (braces : Bool) (precedence : Precedence) (operand : Phrase) :
    Reader (Option Phrase) := do
  let tokens ← remaining
  let next := nextPrecedence tokens
  if next.level > precedence.level || (next = precedence && precedence = .assignment) then
    let found ← read (.operation braces next operand)
    if (← remaining).length = tokens.length then return none
    return some found
  else return none

/-- The second operand of an operator. -/
def secondOperand (read : Inner) (braces : Bool) (precedence : Precedence) : Reader Phrase := do
  iterate (nextOperation read braces precedence) (← read (.operand braces))

/-! ## Ranges -/

/-- Whether a range has no end. -/
def endsRange (braces : Bool) (tokens : List Token) : Bool :=
  tokens.isEmpty ||
    atOneOf [",", ";", "?", "=>", "=", "+", "/", "%", "^", ">", "<=", "!=", "-=", "*=", "&=", "|=",
      "<<="] tokens ||
    (atOperator "." tokens && !atOperator ".." tokens) ||
    (!braces && atGroup .brace tokens) || atWord "as" tokens

/-- A range, after its start. -/
def range (read : Inner) (braces : Bool) (start : List Token) : Reader Phrase := do
  let tokens ← remaining
  if atOperator "..=" tokens then
    let limits ← operator "..="
    return ⟨start ++ limits ++ (← secondOperand read braces .range).tokens, .range⟩
  if atOperator "..." tokens then missing [.word "..="]
  let limits ← operator ".."
  if ← sees (endsRange braces) then return ⟨start ++ limits, .range⟩
  return ⟨start ++ limits ++ (← secondOperand read braces .range).tokens, .range⟩

/-! ## Conversions -/

/-- What comes next that would apply to the result of a conversion. -/
def afterConversion? (tokens : List Token) : Option String :=
  let after := skip tokens
  if atOperator "." tokens && !atOperator ".." tokens then
    if atWord "await" after then some "`.await`"
    else if atName after &&
        (atGroup .parenthesis (skip after) || atOperator "::" (skip after)) then
      some "a method call"
    else some "a field access"
  else if atOperator "?" tokens then some "`?`"
  else if atGroup .bracket tokens then some "indexing"
  else if atGroup .parenthesis tokens then some "a function call"
  else none

/-- A conversion of an operand. -/
def conversion (read : Inner) (operand : List Token) : Reader Phrase := do
  let mark ← word "as"
  let type ← read (.type false)
  if let some what := afterConversion? (← remaining) then refuse (.afterConversion what)
  return .plain (operand ++ mark ++ type.tokens)

/-! ## Operations -/

/-- Takes on the next operator, if it binds at least so tightly. -/
def nextOperator (read : Inner) (braces : Bool) (floor : Precedence) (first : Phrase) :
    Reader (Option Phrase) := do
  let tokens ← remaining
  if first.form = .range then return none
  match binaryOperator? tokens with
  | some (op, precedence) =>
    if precedence.level < floor.level then return none
    if precedence = .comparison && first.form = .comparison then refuse .chainedComparison
    let sign ← operator op
    let second ← secondOperand read braces precedence
    return some ⟨first.tokens ++ sign ++ second.tokens,
      if precedence = .comparison then .comparison else .plain⟩
  | none =>
    if floor.level ≤ Precedence.assignment.level && atAssignment tokens then
      let sign ← operator "="
      let second ← secondOperand read braces .assignment
      return some (.plain (first.tokens ++ sign ++ second.tokens))
    else if floor.level ≤ Precedence.range.level && atOperator ".." tokens then
      return some (← range read braces first.tokens)
    else if atWord "as" tokens then return some (← conversion read first.tokens)
    else return none

/-- What operators that bind at least so tightly make of a first operand. -/
def operation (read : Inner) (braces : Bool) (floor : Precedence) (first : Phrase) :
    Reader Phrase :=
  iterate (nextOperator read braces floor) first

/-- An expression. -/
def expression (read : Inner) (braces : Bool) : Reader Phrase := do
  operation read braces .any (← read (.operand braces))

end DerivativeParsing.Notation.Host
