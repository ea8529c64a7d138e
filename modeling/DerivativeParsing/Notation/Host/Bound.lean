import DerivativeParsing.Notation.Host.Path

/-!
# Bounds

A bound says what a type can do, by the path of a trait, or how long its values live, by a label.
Several bounds form a sum.  Names that a bound or a type speaks about may be bound in front, as in
`for<'a> Fn(&'a u8) -> &'a u8`.
-/

set_option autoImplicit false

namespace DerivativeParsing.Notation.Host

open Lookahead Reader

/-! ## Binders -/

/-- The bounds of a label up to an end, with the colon in front. -/
def labelBounds (ends : List Token → Bool) : Reader (List Token) := do
  if ← accept ":" then
    let bounds ← sum ends label
    return if bounds.isEmpty then [] else .alone ':' :: bounds
  else return []

/-- The bounds of a type up to an end, with the colon in front. -/
def typeBounds (read : Inner) (ends : List Token → Bool) : Reader (List Token) := do
  if ← accept ":" then
    let bounds ← sum ends do return (← read (.bound false true)).tokens
    return if bounds.isEmpty then [] else .alone ':' :: bounds
  else return []

/-- Whether the bounds of a parameter are over. -/
def endsParameter (tokens : List Token) : Bool := tokens.isEmpty || atOneOf [",", ">"] tokens

/-- A parameter that stands for a label. -/
def labelParameter (front : List Token) : Reader Phrase := do
  let found ← label
  return ⟨front ++ found ++ (← labelBounds endsParameter), .label⟩

/-- A parameter that stands for a type. -/
def typeParameter (read : Inner) (front : List Token) : Reader Phrase := do
  let found ← name
  let bounds ← typeBounds read fun tokens => endsParameter tokens || atOperator "=" tokens
  let default ← if ← accept "=" then do pure (.alone '=' :: (← read (.type true)).tokens)
    else pure []
  return .plain (front ++ found ++ bounds ++ default)

/-- A parameter that stands for a constant. -/
def constantParameter (read : Inner) (front : List Token) : Reader Phrase := do
  let mark ← word "const"
  let found ← name
  let colon ← operator ":"
  let type ← read (.type true)
  let default ← if ← accept "=" then do pure (.alone '=' :: (← constant read)) else pure []
  return .plain (front ++ mark ++ found ++ colon ++ type.tokens ++ default)

/-- A parameter. -/
def parameter (read : Inner) : Reader Phrase := do
  let front ← outerAttributes read
  let tokens ← remaining
  if atName tokens then typeParameter read front
  else if atLabel tokens then labelParameter front
  else if atWord "const" tokens then constantParameter read front
  else missing [.identifier, .label, .word "const"]

/-- Names that are bound for what follows. -/
def binder (read : Inner) : Reader (List Token) := do
  let mark ← word "for"
  let opening ← operator "<"
  let parameters ← commaList (atOperator ">") (parameter read)
  return mark ++ opening ++ parameters ++ (← operator ">")

/-- Names that may be bound for what follows. -/
def optionalBinder (read : Inner) : Reader (List Token) := do
  if ← sees (atWord "for") then binder read else pure []

/-! ## Single bounds -/

/-- The type of a result, with an arrow in front. -/
def resultType (read : Inner) (sum : Bool) : Reader (List Token) := do
  if ← sees (atOperator "->") then
    let arrow ← operator "->"
    return arrow ++ (← read (.type sum)).tokens
  else return []

/-- Whether the parameters of a function come next, perhaps after two colons. -/
def atFunctionArguments (tokens : List Token) : Bool :=
  atGroup .parenthesis tokens ||
    (atOperator "::" tokens && atGroup .parenthesis (skip (skip tokens)))

/-- The path of a trait, which may be one of functions: `Fn(u8) -> u8`. -/
def traitPath (read : Inner) : Reader (List Token) := do
  let found ← path read .type
  if found.last.isBare && (← sees atFunctionArguments) then
    let _ ← accept "::"
    let inputs ← grouped .parenthesis (groupList (read (.type true)))
    return (found.withArguments (inputs ++ (← resultType read false))).tokens
  else return found.tokens

/-- The mark of a bound that holds in constants only, or in constants as well. -/
def constantMark (marks : Bool) : Reader (List Token) := do
  let tokens ← remaining
  if atGroup .bracket tokens then
    let found ← grouped .bracket (word "const")
    if marks then return found else refuse (.mark "[const]")
  else if atWord "const" tokens then
    let found ← word "const"
    if marks then return found else refuse (.mark "const")
  else return []

/-- A bound that asks for a trait. -/
def traitBound (read : Inner) (marks : Bool) : Reader Phrase := do
  let outer ← optionalBinder read
  let mark ← constantMark marks
  let relaxed ← optionalOperator "?"
  let binder ← if outer.isEmpty && !relaxed.isEmpty then optionalBinder read else pure outer
  let found ← traitPath read
  return ⟨binder ++ mark ++ relaxed ++ found, if mark.isEmpty then .bound else .verbatim⟩

/-- Whether an item of a list of captures comes next. -/
def atCapture (tokens : List Token) : Bool :=
  atLabel tokens || atName tokens || atWord "Self" tokens

/-- An item of a list of captures. -/
def capture : Reader Phrase := do
  let tokens ← remaining
  if atLabel tokens then return ⟨← label, .label⟩
  if atCapture tokens then return .plain (← anyWord)
  missing [.label, .identifier, .word ">"]

/-- Reads on in a list of captures. -/
def nextCapture (state : List ListItem × Bool) : Reader (Option (List ListItem × Bool)) := do
  let (found, ended) := state
  if ended || (← sees (atOperator ">")) then return none
  let item ← capture
  if ← accept "," then return some (found ++ [(item, true)], false)
  if ← sees (atOperator ">") then return some (found ++ [(item, false)], true)
  missing [.word ",", .word ">"]

/-- A list of what a type captures. -/
def captures : Reader (List Token) := do
  let mark ← word "use"
  let opening ← operator "<"
  let (found, _) ← iterate nextCapture ([], false)
  return mark ++ opening ++ labelsFirst found ++ (← operator ">")

/-- A bound, perhaps in parentheses. -/
def bound (read : Inner) (captured marks : Bool) : Reader Phrase := do
  let before ← remaining
  if atLabel before then return ⟨← label, .label⟩
  if atWord "use" before then
    let found ← captures
    if captured then return ⟨found, .captures⟩ else refuse .captures
  let found ← match before with
    | .group .parenthesis content :: rest => do
      leave rest
      let found ← inside .parenthesis content (traitBound read marks)
      pure { found with tokens := [.group .parenthesis found.tokens] }
    | _ => traitBound read marks
  if found.form = .verbatim then return ⟨← takenSince before, .verbatim⟩ else return found

/-! ## Sums of bounds -/

/-- Whether another bound of a sum comes next. -/
def atBound (marks : Bool) (tokens : List Token) : Bool :=
  atAnyWord tokens || atOneOf ["::", "?"] tokens || atLabel tokens || atGroup .parenthesis tokens ||
    (marks && atGroup .bracket tokens)

/-- Reads on in a sum of bounds.  The flag says whether the sum is over. -/
def nextBound (read : Inner) (sum captured marks : Bool) (state : List Phrase × Bool) :
    Reader (Option (List Phrase × Bool)) := do
  let (found, ended) := state
  if ended then return none
  let next ← read (.bound captured marks)
  if sum && (← accept "+") then
    let next := { next with tokens := next.tokens ++ [.alone '+'] }
    return some (found ++ [next], !(← sees (atBound marks)))
  else return some (found ++ [next], true)

/-- One bound, or in a sum several, each with the plus sign that follows it. -/
def bounds (read : Inner) (sum captured marks : Bool) : Reader (List Phrase) := do
  return (← iterate (nextBound read sum captured marks) ([], false)).1

/-- The bounds of an object type, of which one has to ask for a trait. -/
def objectBounds (read : Inner) (sum : Bool) : Reader (List Token) := do
  let found ← bounds read sum false false
  if found.all (·.form = .label) then refuse .noTraitOfObject
  return found.flatMap Phrase.tokens

/-- The bounds of a type that is known by them only, of which one has to ask for a trait. -/
def opaqueBounds (read : Inner) (sum : Bool) : Reader (List Token) := do
  let found ← bounds read sum true true
  if found.all fun b => b.form = .label || b.form = .captures then refuse .noTrait
  return found.flatMap Phrase.tokens

end DerivativeParsing.Notation.Host
