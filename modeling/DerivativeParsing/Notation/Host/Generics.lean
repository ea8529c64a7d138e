import DerivativeParsing.Notation.Host.Bound

/-!
# Parameters of items

An item may have parameters in angle brackets, which stand for labels, types and constants, and
conditions on them after `where`.
-/

set_option autoImplicit false

namespace DerivativeParsing.Notation.Host

open Lookahead Reader

/-! ## Parameters -/

/-- A parameter of an item. -/
def itemParameter (read : Inner) : Reader Phrase := do
  let front ← outerAttributes read
  let tokens ← remaining
  if atLabel tokens then labelParameter front
  else if atName tokens then typeParameter read front
  else if atWord "const" tokens then constantParameter read front
  else if atWord "_" tokens then return .plain (front ++ (← word "_"))
  else missing [.label, .identifier, .word "const"]

/-- Parameters in angle brackets. -/
structure Parameters where
  /-- There are no tokens if there are no parameters. -/
  tokens : List Token
  /-- Whether there are brackets. -/
  bracketed : Bool

/-- The parameters of an item. -/
def parameters (read : Inner) : Reader Parameters := do
  unless ← sees (atOperator "<") do return ⟨[], false⟩
  let opening ← operator "<"
  let found ← items (atOperator ">") noLast (itemParameter read)
  let closing ← operator ">"
  if found.isEmpty then return ⟨[], true⟩
  else return ⟨opening ++ labelsFirst found ++ closing, true⟩

/-- Whether angle brackets hold parameters, and do not start a path. -/
def atParameters (tokens : List Token) : Bool :=
  let after := skip tokens
  let further := skip after
  atOperator "<" tokens &&
    (atOneOf [">", "#"] after || atWord "const" after ||
      ((atLabel after || atName after) &&
        (atOneOf [">", ",", "="] further ||
          (atOperator ":" further && !atOperator "::" further))))

/-! ## Conditions -/

/-- Whether the bounds of a label in a condition are over. -/
def endsLabelCondition (tokens : List Token) : Bool :=
  tokens.isEmpty || atGroup .brace tokens || atOneOf [",", ";", ":", "="] tokens

/-- Whether a condition is over. -/
def endsCondition (tokens : List Token) : Bool :=
  tokens.isEmpty || atGroup .brace tokens || atOneOf [",", ";", "="] tokens ||
    (atOperator ":" tokens && !atOperator "::" tokens)

/-- A condition on a label or a type. -/
def condition (read : Inner) : Reader (List Token) := do
  let tokens ← remaining
  if atLabel tokens && atOperator ":" (skip tokens) then
    let subject ← label
    let colon ← operator ":"
    return subject ++ colon ++ (← sum endsLabelCondition label)
  else
    let binder ← optionalBinder read
    let subject ← read (.type true)
    let colon ← operator ":"
    let bounds ← sum endsCondition do return (← read (.bound false true)).tokens
    return binder ++ subject.tokens ++ colon ++ bounds

/-- Reads on in the conditions of an item.  The flag says whether they are over. -/
def nextCondition (read : Inner) (state : List Token × Bool) :
    Reader (Option (List Token × Bool)) := do
  let (found, ended) := state
  if ended || (← sees endsCondition) then return none
  let next ← condition read
  let comma ← optionalOperator ","
  return some (found ++ next ++ comma, comma.isEmpty)

/-- The conditions of an item, if there are any.  There are no tokens if `where` has none. -/
def conditions (read : Inner) : Reader (List Token) := do
  unless ← sees (atWord "where") do return []
  let mark ← word "where"
  let (found, _) ← iterate (nextCondition read) ([], false)
  return if found.isEmpty then [] else mark ++ found

end DerivativeParsing.Notation.Host
