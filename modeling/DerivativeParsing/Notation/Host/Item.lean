import DerivativeParsing.Notation.Host.Definition

/-!
# Items

A block may hold items beside its statements: functions and other definitions, and groups of
items such as modules, traits, and implementations.  A macro may stand for an item.
-/

set_option autoImplicit false

namespace DerivativeParsing.Notation.Host

open Lookahead Reader

/-! ## Calls of macros -/

/-- The path of a macro, and the tokens that it is called with.  A semicolon follows a call
that is not in braces. -/
def macroItem (named : Bool) : Reader (List Token) := do
  let found ← plainPath
  let mark ← operator "!"
  let tokens ← remaining
  let definition ← if named && (atName tokens || atWord "try" tokens) then anyWord else pure []
  let isBlock ← sees (atGroup .brace)
  let content ← anyGroup
  let ending ← if isBlock then pure [] else operator ";"
  return found ++ mark ++ definition ++ content ++ ending

/-- Whether the path of a macro comes next. -/
def atPlainPath (tokens : List Token) : Bool :=
  atName tokens || atWordOf ["self", "super", "crate"] tokens || atOperator "::" tokens

/-- What can start the path of a macro. -/
def plainPathStart : List Expectation :=
  [.identifier, .word "self", .word "super", .word "crate", .word "::"]

/-! ## Members of traits and implementations -/

/-- A phrase, or if it is reserved the tokens that it has in the text since `before`. -/
def kept (before : List Token) (front : List Token) (found : Phrase) : Reader (List Token) := do
  if found.form = .verbatim then takenSince before else return front ++ found.tokens

/-- A function of a trait, of which the body may be missing. -/
def traitFunction (read : Inner) : Reader (List Token) := do
  let head ← signature read
  let tokens ← remaining
  if atGroup .brace tokens then return head ++ (← attributedBlock read)
  else if atOperator ";" tokens then return head ++ (← operator ";")
  else missing [.group .brace, .word ";"]

/-- A member of a trait. -/
def traitMember (read : Inner) : Reader (List Token) := do
  let before ← remaining
  let front ← outerAttributes read
  let access ← visibility
  let default ← optionalWord "default"
  let tokens ← remaining
  let marked := !access.isEmpty || !default.isEmpty
  let found : Phrase ← if atSignature tokens then pure (.plain (← traitFunction read))
    else if atWord "const" tokens then
      let after := skip tokens
      if atName after || atWord "_" after then constantItem read false
      else if atWordOf ["async", "unsafe", "extern", "fn"] after then
        pure (.plain (← traitFunction read))
      else do
        let _ ← word "const"
        missing [.identifier, .word "_", .word "async", .word "unsafe", .word "extern", .word "fn"]
    else if atWord "type" tokens then pure (.plain (← typeItem read true).tokens)
    else if !marked && atPlainPath tokens then pure (.plain (← macroItem false))
    else missing ([.word "fn", .word "const", .word "type"] ++
      if marked then [] else plainPathStart)
  kept before front (if marked then { found with form := .verbatim } else found)

/-- A member of an implementation. -/
def implementationMember (read : Inner) : Reader (List Token) := do
  let before ← remaining
  let front ← outerAttributes read
  let access ← visibility
  let tokens ← remaining
  let hasDefault := atWord "default" tokens && !atOperator "!" (skip tokens)
  let default ← if hasDefault then word "default" else pure []
  let tokens ← remaining
  let front := front ++ access ++ default
  let marked := !access.isEmpty || !default.isEmpty
  let found : Phrase ← if atSignature tokens then function read
    else if atWord "const" tokens then constantItem read true
    else if atWord "type" tokens then
      let found ← typeItem read true
      let plain := found.hasDefinition && !found.hasBounds
      pure ⟨found.tokens, if plain then .plain else .verbatim⟩
    else if !marked && atPlainPath tokens then pure (.plain (← macroItem false))
    else missing ((if hasDefault then [] else [.word "default"]) ++
      [.word "fn", .word "const", .word "type"] ++ if marked then [] else plainPathStart)
  kept before front found

/-- A member of a block of functions in another language. -/
def foreignMember (read : Inner) : Reader (List Token) := do
  let before ← remaining
  let front ← outerAttributes read
  let access ← visibility
  let tokens ← remaining
  let front := front ++ access
  let found : Phrase ← if atSignature tokens then
      let head ← signature read
      if ← sees (atGroup .brace) then pure ⟨head ++ (← attributedBlock read), .verbatim⟩
      else pure (.plain (head ++ (← operator ";")))
    else if atWord "static" tokens then
      let mark ← word "static"
      let mutability ← optionalWord "mut"
      let found ← name
      let colon ← operator ":"
      let type ← read (.type true)
      let head := mark ++ mutability ++ found ++ colon ++ type.tokens
      if ← accept "=" then
        let value ← read (.expression true)
        pure ⟨head ++ value.tokens ++ (← operator ";"), .verbatim⟩
      else pure (.plain (head ++ (← operator ";")))
    else if atWord "type" tokens then
      let found ← typeItem read false
      let plain := !found.hasDefinition && !found.hasBounds
      pure ⟨found.tokens, if plain then .plain else .verbatim⟩
    else if access.isEmpty && atPlainPath tokens then pure (.plain (← macroItem false))
    else missing ([.word "fn", .word "static", .word "type"] ++
      if access.isEmpty then plainPathStart else [])
  kept before front found

/-- Members in braces, up to the end of the group. -/
def members (read : Inner) (member : Reader (List Token)) : Reader (List Token) :=
  grouped .brace do
    let front ← innerAttributes read
    iterate (fun found => do
      if (← remaining).isEmpty then return none
      return some (found ++ (← member))) front

/-! ## Groups of items -/

/-- A module. -/
def moduleItem (read : Inner) : Reader (List Token) := do
  let safety ← optionalWord "unsafe"
  let mark ← word "mod"
  let found ← if ← sees (atWord "try") then word "try" else name
  let tokens ← remaining
  let front := safety ++ mark ++ found
  if atOperator ";" tokens then return front ++ (← operator ";")
  else if atGroup .brace tokens then
    return front ++ (← members read do return (← read .item).tokens)
  else missing [.word ";", .group .brace]

/-- Functions in another language. -/
def foreignItem (read : Inner) : Reader (List Token) := do
  let safety ← optionalWord "unsafe"
  let _ ← if ← sees (atWord "extern") then pure [] else word "extern"
  let interface ← interface
  return safety ++ interface ++ (← members read (foreignMember read))

/-- Whether the traits that a trait builds on are over. -/
def endsSupertraits (tokens : List Token) : Bool := atWord "where" tokens || atGroup .brace tokens

/-- Whether the traits that another name stands for are over. -/
def endsAlias (tokens : List Token) : Bool := atWord "where" tokens || atOperator ";" tokens

/-- A trait, or another name for traits. -/
def traitItem (read : Inner) : Reader (List Token) := do
  let safety ← optionalWord "unsafe"
  let auto ← optionalWord "auto"
  let mark ← word "trait"
  let found ← name
  let parameters ← parameters read
  let front := safety ++ auto ++ mark ++ found ++ parameters.tokens
  let tokens ← remaining
  let full := !safety.isEmpty || !auto.isEmpty
  if full || atGroup .brace tokens || atOperator ":" tokens || atWord "where" tokens then
    let colon ← optionalOperator ":"
    let bounds ← if colon.isEmpty then pure [] else boundsTo read endsSupertraits
    let colon := if bounds.isEmpty then [] else colon
    let condition ← conditions read
    return front ++ colon ++ bounds ++ condition ++ (← members read (traitMember read))
  else if atOperator "=" tokens then
    let sign ← operator "="
    let bounds ← boundsTo read endsAlias
    let condition ← conditions read
    return front ++ sign ++ bounds ++ condition ++ (← operator ";")
  else missing [.group .brace, .word ":", .word "where", .word "="]

/-- An implementation of methods, perhaps those of a trait. -/
def implementation (read : Inner) : Reader Phrase := do
  let default ← optionalWord "default"
  let safety ← optionalWord "unsafe"
  let mark ← word "impl"
  let parameters ← if ← sees atParameters then parameters read else pure ⟨[], false⟩
  let tokens ← remaining
  let constant := atWord "const" tokens || (atOperator "?" tokens && atWord "const" (skip tokens))
  if constant then
    let _ ← accept "?"
    let _ ← word "const"
  let tokens ← remaining
  let negated := atOperator "!" tokens && !atGroup .brace (skip tokens)
  let polarity ← if negated then operator "!" else pure []
  let first ← read (.type true)
  let ofTrait ← sees (atWord "for")
  let target ← if ofTrait then do
      let mark ← word "for"
      pure (mark ++ (← read (.type true)).tokens)
    else pure []
  if negated && !ofTrait then refuse .negation
  let condition ← conditions read
  let body ← members read (implementationMember read)
  let isTrait := first.form = .name || first.form = .path
  return ⟨default ++ safety ++ mark ++ parameters.tokens ++ polarity ++ first.tokens ++ target ++
    condition ++ body, if constant || (ofTrait && !isTrait) then .verbatim else .plain⟩

/-! ## Items -/

/-- A definition of a macro by its cases. -/
def macroDefinition : Reader Phrase := do
  let mark ← word "macro"
  let found ← name
  let tokens ← remaining
  let isRule := atGroup .parenthesis tokens
  let inputs ← if isRule then group .parenthesis else pure []
  let tokens ← remaining
  if atGroup .brace tokens then
    let body ← group .brace
    return ⟨mark ++ found ++ [.group .parenthesis inputs, .group .brace body], .verbatim⟩
  else missing (if isRule then [.group .brace] else [.group .parenthesis, .group .brace])

/-- An item that starts with `unsafe`, except for a function. -/
def unsafeItem (read : Inner) : Reader Phrase := do
  let after := skip (← remaining)
  if atWord "trait" after || (atWord "auto" after && atWord "trait" (skip after)) then
    return .plain (← traitItem read)
  else if atWord "impl" after then implementation read
  else if atWord "extern" after then return .plain (← foreignItem read)
  else if atWord "mod" after then return .plain (← moduleItem read)
  else
    let _ ← word "unsafe"
    missing [.word "trait", .word "auto", .word "impl", .word "extern", .word "mod"]

/-- An item that starts with `extern`, except for a function. -/
def externalItem (read : Inner) : Reader Phrase := do
  let after := skip (← remaining)
  if atWord "crate" after then return .plain (← libraryItem)
  else if atGroup .brace after then return .plain (← foreignItem read)
  else if atString after then
    if atGroup .brace (skip after) then return .plain (← foreignItem read)
    else
      leave (skip after)
      missing [.group .brace]
  else
    leave after
    missing [.word "crate", .group .brace, .string]

/-- The words that start an item. -/
def itemWords : List Expectation :=
  ["fn", "extern", "use", "static", "const", "unsafe", "mod", "type", "struct", "enum", "union",
    "trait", "auto", "impl", "default", "macro"].map .word

/-- An item after its attributes and its visibility.  The flag says whether it has none. -/
def itemBody (read : Inner) (inherited : Bool) : Reader Phrase := do
  let tokens ← remaining
  let after := skip tokens
  if atSignature tokens then function read
  else if atWord "extern" tokens then externalItem read
  else if atWord "use" tokens then importItem read
  else if atWord "static" tokens then staticItem read
  else if atWord "const" tokens then constantItem read true
  else if atWord "unsafe" tokens then unsafeItem read
  else if atWord "mod" tokens then return .plain (← moduleItem read)
  else if atWord "type" tokens then
    let found ← typeItem read false
    let plain := found.hasDefinition && !found.hasBounds
    return ⟨found.tokens, if plain then .plain else .verbatim⟩
  else if atWord "struct" tokens then return .plain (← structureItem read)
  else if atWord "enum" tokens then return .plain (← enumeration read)
  else if atWord "union" tokens && atName after then return .plain (← unionItem read)
  else if atWord "trait" tokens then return .plain (← traitItem read)
  else if atWord "auto" tokens && atWord "trait" after then return .plain (← traitItem read)
  else if atWord "impl" tokens || (atWord "default" tokens && !atOperator "!" after) then
    let found ← implementation read
    return if inherited then found else { found with form := .verbatim }
  else if atWord "macro" tokens then macroDefinition
  else if inherited && atPlainPath tokens then return .plain (← macroItem true)
  else missing (itemWords ++ if inherited then plainPathStart else [])

/-- An item after its attributes, which started with the tokens `before`. -/
def itemAfter (read : Inner) (before front : List Token) : Reader (List Token) := do
  let access ← visibility
  let found ← itemBody read access.isEmpty
  kept before (front ++ access) found

/-- An item. -/
def item (read : Inner) : Reader Phrase := do
  let before ← remaining
  let front ← outerAttributes read
  return .plain (← itemAfter read before front)

/-- Whether an item comes next, and no expression. -/
def atItem (tokens : List Token) : Bool :=
  let after := skip tokens
  let further := skip after
  atWordOf ["pub", "extern", "use", "fn", "mod", "type", "struct", "enum", "trait", "impl",
      "macro"] tokens ||
    (atWord "crate" tokens && !atOperator "::" after) ||
    (atWord "static" tokens && (atWord "mut" after || atName after)) ||
    (atWord "const" tokens && !(atGroup .brace after || atWordOf ["static", "move"] after ||
      atOperator "|" after ||
      (atWord "async" after && !atWordOf ["unsafe", "extern", "fn"] further))) ||
    (atWord "unsafe" tokens && !atGroup .brace after) ||
    (atWord "async" tokens && atWordOf ["unsafe", "extern", "fn"] after) ||
    (atWord "union" tokens && atName after) ||
    (atWord "auto" tokens && atWord "trait" after) ||
    (atWord "default" tokens && atWordOf ["unsafe", "impl"] after)

end DerivativeParsing.Notation.Host
