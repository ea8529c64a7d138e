import DerivativeParsing.Notation.Declaration
import DerivativeParsing.Notation.Lexer
import DerivativeParsing.Notation.Reader

/-!
# Reading declarations

The body of a rule is read by one token of lookahead.  `~` applies to the whole term after it
with everything that follows the term: `~a*` is `~(a*)`.  A branch ends in front of `|`, `;`,
`=>`, and at the end of a group; a reducer ends it for good.

Some phrases in a declaration belong to the language that it stands in.  How they are read is a
parameter, `HostSyntax`.
-/

set_option autoImplicit false

namespace DerivativeParsing.Notation

/-- How the phrases of the host language in a declaration are read. -/
structure HostSyntax where
  /-- The path of a reducer. -/
  path : Reader Path
  /-- The attributes in front of a declaration. -/
  attributes : Reader (List (List Token))
  /-- Who may use the grammar. -/
  visibility : Reader (List Token)

namespace Reader

open Lookahead

/-! ## Terms -/

/-- The last character of a range. -/
def characterLiteral : Reader CharLiteral := do
  match ← remaining with
  | .literal spelling (.character c) :: rest =>
    leave rest
    pure ⟨spelling, c⟩
  | _ => missing [.character]

/-- A whole number, perhaps after a minus sign. -/
def countLiteral : Reader CountLiteral := do
  match ← remaining with
  | .literal spelling (.number n) :: rest =>
    leave rest
    pure ⟨false, spelling, n⟩
  | .punct '-' _ :: .literal spelling (.number n) :: rest =>
    leave rest
    pure ⟨true, spelling, n⟩
  | _ => missing [.integer]

/-- What follows a term and applies to it. -/
def postfixes : Nat → Term → Reader Term
  | 0, _ => throw .unfinished
  | steps + 1, term => do
    if ← accept "*" then postfixes steps (.star term)
    else if ← accept "+" then postfixes steps (.plus term)
    else if ← accept "?" then postfixes steps (.optional term)
    else match ← remaining with
    | .group .brace content :: rest =>
      leave rest
      let count ← inside .brace content countLiteral
      postfixes steps (.rep term count)
    | _ => pure term

/-- Whether no further term of a branch comes next. -/
def endsBranch : Reader Bool := do
  let tokens ← remaining
  return tokens.isEmpty || atOneOf ["|", ";", "=>"] tokens

variable (host : HostSyntax)

/-- The reducer of a branch, if there is one. -/
def reducer : Reader (Option Path) := do
  if ← accept "=>" then return some (← host.path) else return none

mutual

/-- A term without what follows it. -/
def atom : Nat → Reader Term
  | 0 => throw .unfinished
  | steps + 1 => do
    match ← remaining with
    | .group .parenthesis content :: rest =>
      leave rest
      inside .parenthesis content do
        let body ← alternatives steps
        unless (← remaining).isEmpty do throw (.expected Expectation.alternative false)
        pure (.group body)
    | .literal spelling (.character c) :: rest =>
      leave rest
      if ← accept "..=" then return .range ⟨spelling, c⟩ (← characterLiteral)
      else return .char ⟨spelling, c⟩
    | .literal spelling (.text chars) :: rest =>
      leave rest
      pure (.text ⟨spelling, String.ofList chars⟩)
    | .ident "_" :: rest =>
      leave rest
      pure .any
    | .ident name :: rest =>
      if isKeyword name then missing Expectation.operand
      leave rest
      pure (.rule name)
    | _ => missing Expectation.operand

/-- A term. -/
def term : Nat → Reader Term
  | 0 => throw .unfinished
  | steps + 1 => do
    if ← accept "~" then return .not (← term steps)
    postfixes steps (← atom steps)

/-- The terms of a branch. -/
def terms : Nat → Reader (List Term)
  | 0 => throw .unfinished
  | steps + 1 => do
    if ← endsBranch then return []
    let first ← term steps
    let rest ← terms steps
    pure (first :: rest)

/-- A branch. -/
def branch : Nat → Reader Branch
  | 0 => throw .unfinished
  | steps + 1 => do
    let found ← terms steps
    pure ⟨found, ← reducer host⟩

/-- The branches after the first, each with a bar in front. -/
def furtherBranches : Nat → Reader (List Branch)
  | 0 => throw .unfinished
  | steps + 1 => do
    if ← accept "|" then
      let next ← branch steps
      let rest ← furtherBranches steps
      pure (next :: rest)
    else pure []

/-- A choice between branches. -/
def alternatives : Nat → Reader Alternatives
  | 0 => throw .unfinished
  | steps + 1 => do
    let first ← branch steps
    pure ⟨first, ← furtherBranches steps⟩

end

/-! ## Rules and declarations -/

/-- A rule with its body. -/
def ruleDefinition (steps : Nat) : Reader RuleDefinition := do
  let name ← identifier
  expect "="
  let body ← alternatives host steps
  expect ";"
  pure ⟨name, body⟩

/-- Rules up to the end. -/
def ruleDefinitions : Nat → Reader (List RuleDefinition)
  | 0 => throw .unfinished
  | steps + 1 => do
    if (← remaining).isEmpty then return []
    let first ← ruleDefinition host steps
    let rest ← ruleDefinitions steps
    pure (first :: rest)

/-- A declaration. -/
def declaration (steps : Nat) : Reader Declaration := do
  let attributes ← host.attributes
  let visibility ← host.visibility
  keyword "struct"
  let name ← identifier
  let content ← group .brace
  let rules ← inside .brace content (ruleDefinitions host steps)
  pure ⟨attributes, visibility, name, rules⟩

end Reader

/-- Reads a rule from all of a sequence of tokens. -/
def RuleDefinition.ofTokens (host : HostSyntax) (tokens : List Token) :
    Except SyntaxFault RuleDefinition :=
  Reader.readAll (Reader.ruleDefinition host (Reader.stepBound tokens)) tokens

/-- Reads a declaration from all of a sequence of tokens. -/
def Declaration.ofTokens (host : HostSyntax) (tokens : List Token) :
    Except SyntaxFault Declaration :=
  Reader.readAll (Reader.declaration host (Reader.stepBound tokens)) tokens

/-- Reads a declaration from a text. -/
def Declaration.ofText (host : HostSyntax) (text : String) : Except SyntaxFault Declaration :=
  match tokenize text with
  | some tokens => Declaration.ofTokens host tokens
  | none => .error .unreadable

end DerivativeParsing.Notation
