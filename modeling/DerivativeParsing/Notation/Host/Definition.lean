import DerivativeParsing.Notation.Host.Expression
import DerivativeParsing.Notation.Host.Signature

/-!
# Definitions

Items that define one thing: a structure, an enumeration, a union, another name for a type, a
constant, or names that are imported.  Each starts after its attributes and its visibility.  A
form that the host language only reserves is kept as it stands.
-/

set_option autoImplicit false

namespace DerivativeParsing.Notation.Host

open Lookahead Reader

/-! ## Structures -/

/-- A field with a name. -/
def namedField (read : Inner) : Reader Phrase := do
  let front ← outerAttributes read
  let access ← visibility
  let found ← if ← sees (atWord "_") then word "_" else name
  let colon ← operator ":"
  return .plain (front ++ access ++ found ++ colon ++ (← read (.type true)).tokens)

/-- A field without a name. -/
def unnamedField (read : Inner) : Reader Phrase := do
  let front ← outerAttributes read
  let access ← visibility
  return .plain (front ++ access ++ (← read (.type true)).tokens)

/-- Fields in braces. -/
def namedFields (read : Inner) : Reader (List Token) :=
  grouped .brace (groupList (namedField read))

/-- Fields in parentheses. -/
def unnamedFields (read : Inner) : Reader (List Token) :=
  grouped .parenthesis (groupList (unnamedField read))

/-- What follows the parameters of a structure. -/
def structureBody (read : Inner) : Reader (List Token) := do
  let start ← remaining
  let condition ← conditions read
  let tokens ← remaining
  let conditional := atWord "where" start
  let options := if conditional then [] else [.word "where", .group .parenthesis]
  if !conditional && atGroup .parenthesis tokens then
    let fields ← unnamedFields read
    let tokens ← remaining
    let conditional := atWord "where" tokens
    let condition ← conditions read
    if ← sees (atOperator ";") then return fields ++ condition ++ (← operator ";")
    else missing ((if conditional then [] else [.word "where"]) ++ [.word ";"])
  else if atGroup .brace tokens then return condition ++ (← namedFields read)
  else if atOperator ";" tokens then return condition ++ (← operator ";")
  else missing (options ++ [.group .brace, .word ";"])

/-- A structure. -/
def structureItem (read : Inner) : Reader (List Token) := do
  let mark ← word "struct"
  let found ← name
  let parameters ← parameters read
  return mark ++ found ++ parameters.tokens ++ (← structureBody read)

/-- A union. -/
def unionItem (read : Inner) : Reader (List Token) := do
  let mark ← word "union"
  let found ← name
  let parameters ← parameters read
  let condition ← conditions read
  return mark ++ found ++ parameters.tokens ++ condition ++ (← namedFields read)

/-- A case of an enumeration.  A visibility in front means nothing and is left out. -/
def enumerator (read : Inner) : Reader Phrase := do
  let front ← outerAttributes read
  let _ ← visibility
  let found ← name
  let tokens ← remaining
  let fields ← if atGroup .brace tokens then namedFields read
    else if atGroup .parenthesis tokens then unnamedFields read
    else pure []
  let value ← if ← accept "=" then do pure (.alone '=' :: (← read (.expression true)).tokens)
    else pure []
  return .plain (front ++ found ++ fields ++ value)

/-- An enumeration. -/
def enumeration (read : Inner) : Reader (List Token) := do
  let mark ← word "enum"
  let found ← name
  let parameters ← parameters read
  let condition ← conditions read
  let cases ← grouped .brace (groupList (enumerator read))
  return mark ++ found ++ parameters.tokens ++ condition ++ cases

/-! ## Types -/

/-- The tokens of bounds with plus signs between them and perhaps after the last, up to an end. -/
def boundsTo (read : Inner) (ends : List Token → Bool) : Reader (List Token) :=
  iterate (fun found => do
    if ← sees ends then return none
    let next ← read (.bound false true)
    if ← sees ends then return some (found ++ next.tokens)
    return some (found ++ next.tokens ++ (← operator "+"))) []

/-- Whether the bounds of a named type are over. -/
def endsTypeBounds (tokens : List Token) : Bool :=
  atWord "where" tokens || atOneOf ["=", ";"] tokens

/-- A named type, with or without a definition. -/
structure TypeItem where
  tokens : List Token
  /-- Whether a colon for bounds follows the name. -/
  hasBounds : Bool
  hasDefinition : Bool

/-- A named type.  Conditions come before the definition, or with `late` after it. -/
def typeItem (read : Inner) (late : Bool) : Reader TypeItem := do
  let mark ← word "type"
  let found ← name
  let parameters ← parameters read
  let sign ← optionalOperator ":"
  let bounds ← if sign.isEmpty then pure [] else boundsTo read endsTypeBounds
  let colon := if bounds.isEmpty then [] else sign
  let early ← if late then pure [] else conditions read
  let definition ← if ← accept "=" then do pure (.alone '=' :: (← read (.type true)).tokens)
    else pure []
  let condition ← if late then conditions read else pure []
  let tokens := mark ++ found ++ parameters.tokens ++ colon ++ bounds ++ early ++ definition ++
    condition ++ (← operator ";")
  return ⟨tokens, !sign.isEmpty, !definition.isEmpty⟩

/-! ## Constants -/

/-- A constant.  The flag says whether it needs a value. -/
def constantItem (read : Inner) (valued : Bool) : Reader Phrase := do
  let mark ← word "const"
  let tokens ← remaining
  unless atName tokens || atWord "_" tokens do missing [.identifier, .word "_"]
  let found ← anyWord
  let parameters ← parameters read
  let colon ← operator ":"
  let type ← read (.type true)
  let value ← if ← accept "=" then do pure (.alone '=' :: (← read (.expression true)).tokens)
    else pure []
  let conditional ← sees (atWord "where")
  let condition ← conditions read
  let tokens := mark ++ found ++ parameters.tokens ++ colon ++ type.tokens ++ value ++ condition ++
    (← operator ";")
  let reserved := parameters.bracketed || conditional || (valued && value.isEmpty)
  return ⟨tokens, if reserved then .verbatim else .plain⟩

/-- A value that is kept for the whole run of a program. -/
def staticItem (read : Inner) : Reader Phrase := do
  let mark ← word "static"
  let access ← optionalWord "mut"
  let found ← name
  let front := mark ++ access ++ found
  if ← accept "=" then
    let value ← read (.expression true)
    return ⟨front ++ [.alone '='] ++ value.tokens ++ (← operator ";"), .verbatim⟩
  let colon ← operator ":"
  let type ← read (.type true)
  if ← accept ";" then return ⟨front ++ colon ++ type.tokens ++ [.alone ';'], .verbatim⟩
  let sign ← operator "="
  let value ← read (.expression true)
  return .plain (front ++ colon ++ type.tokens ++ sign ++ value.tokens ++ (← operator ";"))

/-! ## Imports -/

/-- Another name for what is imported. -/
def importedAs : Reader (List Token) := do
  let mark ← word "as"
  let tokens ← remaining
  unless atName tokens || atWord "_" tokens do missing [.identifier, .underscore]
  return mark ++ (← anyWord)

/-- An import in a list of them.  One that starts with two colons is reserved. -/
def listedImport (read : Inner) (rooted : Bool) : Reader Phrase := do
  let front ← if rooted then optionalOperator "::" else pure []
  let found ← read (.importTree (rooted && front.isEmpty))
  return ⟨front ++ found.tokens, if front.isEmpty then found.form else .verbatim⟩

/-- What is imported: a name, everything, or a list, after the names that lead to it. -/
def importTree (read : Inner) (rooted : Bool) : Reader Phrase := do
  let tokens ← remaining
  if atName tokens || atWordOf ["self", "super", "crate", "try"] tokens then
    let found ← anyWord
    let tokens ← remaining
    if atOperator "::" tokens then
      let colons ← operator "::"
      let rest ← read (.importTree false)
      return { rest with tokens := found ++ colons ++ rest.tokens }
    else if atWord "as" tokens then return .plain (found ++ (← importedAs))
    else return .plain found
  else if atOperator "*" tokens then return .plain (← operator "*")
  else match tokens with
  | .group .brace content :: rest =>
    leave rest
    let found ← inside .brace content (items List.isEmpty noLast (listedImport read rooted))
    let reserved := found.any (·.1.form = .verbatim)
    return ⟨[.group .brace (listTokens found)], if reserved then .verbatim else .plain⟩
  | _ => missing [.identifier, .word "self", .word "super", .word "crate", .word "try", .word "*",
      .group .brace]

/-- An import. -/
def importItem (read : Inner) : Reader Phrase := do
  let mark ← word "use"
  let front ← optionalOperator "::"
  let found ← read (.importTree front.isEmpty)
  return { found with tokens := mark ++ front ++ found.tokens ++ (← operator ";") }

/-- The import of a whole library. -/
def libraryItem : Reader (List Token) := do
  let front ← word "extern"
  let mark ← word "crate"
  let found ← if ← sees (atWord "self") then word "self" else name
  let other ← if ← sees (atWord "as") then do
      let mark ← word "as"
      pure (mark ++ (← if ← sees (atWord "_") then word "_" else name))
    else pure []
  return front ++ mark ++ found ++ other ++ (← operator ";")

end DerivativeParsing.Notation.Host
