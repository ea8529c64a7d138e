import DerivativeParsing.Notation.Host.Phrase

/-!
# Attributes and visibility

What may stand in front of a declaration: attributes such as `#[derive(Debug)]`, and a
visibility, `pub`, perhaps restricted to a part of the program as in `pub(crate)` or
`pub(in a::b)`.  Attributes may also stand inside phrases, and with a `!` inside a block.
-/

set_option autoImplicit false

namespace DerivativeParsing.Notation.Host

open Lookahead Reader

/-! ## Plain paths -/

/-- The operator between the parts of a path. -/
def colons : List Token := Token.operator [':', ':']

/-- Whether a word can be a part of a plain path. -/
def isPlainPart (text : String) : Bool :=
  !isKeyword text || ["super", "self", "Self", "crate"].contains text

/-- Names with two colons between them, as many as there are, and the tokens after them. -/
def plainParts : List Token → List Token × List Token
  | .ident text :: .punct ':' true :: .punct ':' joint :: rest =>
    if isPlainPart text then
      let (parts, rest) := plainParts rest
      (.ident text :: colons ++ parts, rest)
    else ([], .ident text :: .punct ':' true :: .punct ':' joint :: rest)
  | .ident text :: rest =>
    if isPlainPart text then ([.ident text], rest) else ([], .ident text :: rest)
  | tokens => ([], tokens)

/-- A path whose parts have no arguments. -/
def plainPath : Reader (List Token) := do
  let front ← optionalOperator "::"
  let (parts, rest) := plainParts (← remaining)
  leave rest
  match parts.getLast? with
  | none => return front ++ (← name)
  | some (.punct _ _) => missing [.segment]
  | some _ => pure (front ++ parts)

/-! ## Attributes -/

/-- The value of an attribute: an expression, and no more than a literal if it starts with one
and ends there. -/
def attributeValue (read : Inner) : Reader (List Token) := do
  let tokens ← remaining
  match splitLiteral tokens with
  | some (found, []) =>
    leave []
    pure found
  | _ =>
    if atOperator "#" tokens && atGroup .bracket (skip tokens) then refuse .nestedAttribute
    return (← read (.expression true)).tokens

/-- What an attribute says: a path, perhaps with a group or a value. -/
def attributeContent (read : Inner) : Reader (List Token) := do
  let said ← if ← sees (atWord "unsafe") then word "unsafe" else plainPath
  let tokens ← remaining
  match tokens with
  | .group delimiter content :: rest =>
    leave rest
    pure (said ++ [.group delimiter content])
  | _ =>
    if atOperator "=" tokens && !atOneOf ["==", "=>"] tokens then
      let sign ← operator "="
      return said ++ sign ++ (← attributeValue read)
    else pure said

/-- The attributes that come next, one after the other. -/
def attributes (read : Inner) : Reader (List (List Token)) :=
  iterate (fun found => do
    if ← sees (atOperator "#") then
      let mark ← operator "#"
      return some (found ++ [mark ++ (← grouped .bracket (attributeContent read))])
    else return none) []

/-- The tokens of the attributes that come next. -/
def outerAttributes (read : Inner) : Reader (List Token) := do return (← attributes read).flatten

/-- The tokens of the attributes with a `!` that come next. -/
def innerAttributes (read : Inner) : Reader (List Token) :=
  iterate (fun found => do
    let tokens ← remaining
    if atOperator "#" tokens && atOperator "!" (skip tokens) then
      let mark ← operator "#"
      let sign ← operator "!"
      return some (found ++ mark ++ sign ++ (← grouped .bracket (attributeContent read)))
    else return none) []

/-! ## Visibility -/

/-- The parts of a program that a visibility can name with one word. -/
def scopeWords : List String := ["crate", "self", "super"]

/-- A visibility.  Parentheses that hold something else belong to what follows. -/
def visibility : Reader (List Token) := do
  match ← remaining with
  | .ident "pub" :: rest =>
    match rest with
    | .group .parenthesis (.ident "in" :: content) :: after =>
      leave after
      let scope ← inside .parenthesis content plainPath
      return [.ident "pub", .group .parenthesis (.ident "in" :: scope)]
    | .group .parenthesis [.ident text] :: after =>
      if scopeWords.contains text then
        leave after
        return [.ident "pub", .group .parenthesis [.ident text]]
    | _ => pure ()
    leave rest
    pure [.ident "pub"]
  | _ => pure []

end DerivativeParsing.Notation.Host
