import DerivativeParsing.Notation.Literal
import DerivativeParsing.Text.Blank
import DerivativeParsing.Text.Quoted

/-!
# From text to tokens

A text is read from left to right.  Blanks and comments separate tokens; a documentation comment
stands for an attribute `#[doc = "…"]`.  A quote that opens no character literal and a name form a
label.  Delimiters have to be balanced.
-/

set_option autoImplicit false

namespace DerivativeParsing.Notation

/-- A token that is not a group, or one end of a group. -/
inductive Lexeme where
  | leaf (token : Token)
  | opening (delimiter : Delimiter)
  | closing (delimiter : Delimiter)

namespace Lexer

/-! ## Comments -/

/-- A line without its end, and the text from the line feed on. -/
def splitLine : List Char → List Char × List Char
  | [] => ([], [])
  | '\n' :: rest => ([], '\n' :: rest)
  | '\r' :: '\n' :: rest => ([], '\n' :: rest)
  | c :: rest =>
    let (line, after) := splitLine rest
    (c :: line, after)

/-- The text of a block comment, which may hold others, up to the end of the outermost of `depth`
comments, and the text after it. -/
def splitComment (depth : Nat) : List Char → Option (List Char × List Char)
  | [] => none
  | '*' :: '/' :: rest =>
    if depth ≤ 1 then some ([], rest)
    else do
      let (inside, after) ← splitComment (depth - 1) rest
      some ('*' :: '/' :: inside, after)
  | '/' :: '*' :: rest => do
    let (inside, after) ← splitComment (depth + 1) rest
    some ('/' :: '*' :: inside, after)
  | c :: rest => do
    let (inside, after) ← splitComment depth rest
    some (c :: inside, after)

/-- Whether every carriage return of a text is followed by a line feed. -/
def hasWholeLineEnds : List Char → Bool
  | [] => true
  | '\r' :: '\n' :: rest => hasWholeLineEnds rest
  | '\r' :: _ => false
  | _ :: rest => hasWholeLineEnds rest

/-- The attribute that a documentation comment stands for.  An inner one documents what it stands
in. -/
def documentation (inner : Bool) (text : List Char) : List Lexeme :=
  let mark := if inner then [Lexeme.leaf (.alone '!')] else []
  [.leaf (.alone '#')] ++ mark ++
    [.opening .bracket, .leaf (.ident "doc"), .leaf (.alone '='),
      .leaf (.literal (Text.stringLiteral (String.ofList text)) (.text text)), .closing .bracket]

/-- A documentation comment with its text. -/
def readDocumentation (inner : Bool) (found : List Char × List Char) :
    Option (List Lexeme × List Char) :=
  if hasWholeLineEnds found.1 then some (documentation inner found.1, found.2) else none

/-- A comment.  One that is no documentation has no tokens. -/
def readComment : List Char → Option (List Lexeme × List Char)
  | '/' :: '/' :: '/' :: '/' :: rest => some ([], (splitLine rest).2)
  | '/' :: '/' :: '/' :: rest => readDocumentation false (splitLine rest)
  | '/' :: '/' :: '!' :: rest => readDocumentation true (splitLine rest)
  | '/' :: '/' :: rest => some ([], (splitLine rest).2)
  | '/' :: '*' :: '*' :: '/' :: rest => some ([], rest)
  | '/' :: '*' :: '*' :: '*' :: rest => do
    let (_, rest) ← splitComment 1 ('*' :: '*' :: rest)
    some ([], rest)
  | '/' :: '*' :: '*' :: rest => do
    let (text, rest) ← splitComment 1 ('*' :: rest)
    readDocumentation false (text.drop 1, rest)
  | '/' :: '*' :: '!' :: rest => do
    let (text, rest) ← splitComment 1 rest
    readDocumentation true (text, rest)
  | '/' :: '*' :: rest => do
    let (_, rest) ← splitComment 1 rest
    some ([], rest)
  | _ => none

/-! ## Punctuation and names -/

/-- Whether a text starts with a comment. -/
def startsComment : List Char → Bool
  | '/' :: '/' :: _ => true
  | '/' :: '*' :: _ => true
  | _ => false

/-- The characters that are tokens of their own. -/
def punctuation : List Char := "~!@#$%^&*-=+|;:,<.>/?'".toList

/-- Whether a text starts with punctuation. -/
def startsPunctuation (text : List Char) : Bool :=
  !startsComment text && (text.head?.any punctuation.contains)

/-- The names that have no raw spelling. -/
def neverRaw : List String := ["_", "super", "self", "Self", "crate"]

/-- A name, plain or raw. -/
def readAnyName (text : List Char) : Option (String × List Char) :=
  match text with
  | 'r' :: '#' :: rest => do
    let (name, rest) ← Literal.readName rest
    let name := String.ofList name
    if neverRaw.contains name then none else some ("r#" ++ name, rest)
  | _ => (Literal.readName text).map fun (name, rest) => (String.ofList name, rest)

/-- Starts of literals: a text with one of them that is no literal is no name either. -/
def literalStarts : List (List Char) :=
  ["r\"", "r#\"", "r##", "b\"", "b'", "br\"", "br#", "c\"", "cr\"", "cr#"].map String.toList

/-- A name, which does not look like a literal. -/
def readIdentifier (text : List Char) : Option (Token × List Char) :=
  if literalStarts.any (·.isPrefixOf text) then none
  else (readAnyName text).map fun (name, rest) => (.ident name, rest)

/-- A punctuation character.  A quote has to be followed by a name, and the name not by another
quote. -/
def readPunctuation (text : List Char) : Option (Token × List Char) :=
  if !startsPunctuation text then none
  else match text with
  | [] => none
  | '\'' :: rest =>
    match readAnyName rest with
    | none => none
    | some (_, '\'' :: _) => none
    | some (_, '#' :: _) =>
      if "r#".toList.isPrefixOf rest then some (.punct '\'' true, rest) else none
    | some _ => some (.punct '\'' true, rest)
  | c :: rest => some (.punct c (startsPunctuation rest), rest)

/-! ## Tokens -/

/-- The delimiter that a character opens or closes. -/
def delimiter? : Char → Option Lexeme
  | '(' => some (.opening .parenthesis)
  | '[' => some (.opening .bracket)
  | '\x7b' => some (.opening .brace)
  | ')' => some (.closing .parenthesis)
  | ']' => some (.closing .bracket)
  | '\x7d' => some (.closing .brace)
  | _ => none

/-- A token that is not a group. -/
def readLeaf (text : List Char) : Option (Token × List Char) :=
  ((Literal.read text).or (readPunctuation text)).or (readIdentifier text)

/-- How a token that could not be read is spelled in a text that was written by a program. -/
def unreadable : String := "(/*ERROR*/)"

/-- A token that could not be read is a literal of its own kind. -/
def readUnreadable (text : List Char) : Option (Token × List Char) :=
  if unreadable.toList.isPrefixOf text then
    some (.literal unreadable .other, text.drop unreadable.length)
  else none

/-- What a text starts with: a blank, a comment, a delimiter, or a token. -/
def readNext (text : List Char) : Option (List Lexeme × List Char) :=
  match text with
  | [] => none
  | c :: rest =>
    if Text.isBlank c then some ([], rest)
    else if startsComment text then readComment text
    else match readUnreadable text with
    | some (token, rest) => some ([.leaf token], rest)
    | none => match delimiter? c with
      | some lexeme => some ([lexeme], rest)
      | none => (readLeaf text).map fun (token, rest) => ([.leaf token], rest)

/-- The lexemes of a text. -/
def lexemes (text : List Char) : Option (List Lexeme) :=
  match text with
  | [] => some []
  | first :: tail =>
    match readNext (first :: tail) with
    | none => none
    | some (found, rest) =>
      if _ : rest.length ≤ tail.length then (lexemes rest).map (found ++ ·) else none
termination_by text.length
decreasing_by simp only [List.length_cons]; omega

/-- The tokens of a sequence of lexemes.  The groups that are open wait with the tokens in front
of them, the innermost first; all token lists are in reverse. -/
def assemble : List (Delimiter × List Token) → List Token → List Lexeme → Option (List Token)
  | [], tokens, [] => some tokens.reverse
  | _ :: _, _, [] => none
  | waiting, tokens, .leaf token :: rest => assemble waiting (token :: tokens) rest
  | waiting, tokens, .opening delimiter :: rest => assemble ((delimiter, tokens) :: waiting) [] rest
  | (delimiter, outer) :: waiting, tokens, .closing delimiter' :: rest =>
    if delimiter = delimiter' then
      assemble waiting (.group delimiter tokens.reverse :: outer) rest
    else none
  | [], _, .closing _ :: _ => none

end Lexer

/-- The tokens of a text, which may start with a byte order mark. -/
def tokenize (text : String) : Option (List Token) := do
  let chars := match text.toList with
    | '\ufeff' :: rest => rest
    | chars => chars
  Lexer.assemble [] [] (← Lexer.lexemes chars)

end DerivativeParsing.Notation
