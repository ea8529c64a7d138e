import DerivativeParsing.Notation.Token

/-!
# What comes next

Questions about the front of a sequence of tokens.  Operators are matched character by character:
a single character is found at the start of a longer operator, and the characters of a longer
operator have to be joint.
-/

set_option autoImplicit false

namespace DerivativeParsing.Notation.Lookahead

/-! ## Operators -/

/-- The tokens after an operator, if they start with it. -/
def afterOperator : List Char → List Token → Option (List Token)
  | [], tokens => some tokens
  | [c], .punct d _ :: rest => if c = d then some rest else none
  | c :: op, .punct d true :: rest => if c = d then afterOperator op rest else none
  | _, _ => none

/-- Whether an operator comes next. -/
def atOperator (op : String) (tokens : List Token) : Bool :=
  (afterOperator op.toList tokens).isSome

/-- Whether one of several operators comes next. -/
def atOneOf (ops : List String) (tokens : List Token) : Bool := ops.any (atOperator · tokens)

/-! ## Names -/

/-- The words that are no names. -/
def keywords : List String :=
  ["_", "abstract", "as", "async", "await", "become", "box", "break", "const", "continue", "crate",
    "do", "dyn", "else", "enum", "extern", "false", "final", "fn", "for", "if", "impl", "in", "let",
    "loop", "macro", "match", "mod", "move", "mut", "override", "priv", "pub", "ref", "return",
    "Self", "self", "static", "struct", "super", "trait", "true", "try", "type", "typeof",
    "unsafe", "unsized", "use", "virtual", "where", "while", "yield"]

/-- Whether a word is no name. -/
def isKeyword (word : String) : Bool := keywords.contains word

/-- Whether a certain word comes next. -/
def atWord (word : String) : List Token → Bool
  | .ident name :: _ => name == word
  | _ => false

/-- Whether one of several words comes next. -/
def atWordOf (words : List String) (tokens : List Token) : Bool := words.any (atWord · tokens)

/-- Whether any word comes next, be it a keyword or a name. -/
def atAnyWord : List Token → Bool
  | .ident _ :: _ => true
  | _ => false

/-- Whether a name comes next. -/
def atName : List Token → Bool
  | .ident name :: _ => !isKeyword name
  | _ => false

/-- Whether a label comes next: a quote and a word. -/
def atLabel : List Token → Bool
  | .punct '\'' true :: .ident _ :: _ => true
  | _ => false

/-! ## Literals and groups -/

/-- The literal at the front of a sequence and the tokens after it.  The truth values are
literals, and so is a number after a minus sign. -/
def splitLiteral : List Token → Option (List Token × List Token)
  | .literal spelling meaning :: rest => some ([.literal spelling meaning], rest)
  | .ident "true" :: rest => some ([.ident "true"], rest)
  | .ident "false" :: rest => some ([.ident "false"], rest)
  | .punct '-' _ :: .literal spelling (.number n) :: rest =>
    some ([.alone '-', .literal spelling (.number n)], rest)
  | .punct '-' _ :: .literal spelling .fraction :: rest =>
    some ([.alone '-', .literal spelling .fraction], rest)
  | _ => none

/-- Whether a literal comes next. -/
def atLiteral (tokens : List Token) : Bool := (splitLiteral tokens).isSome

/-- Whether a string literal comes next. -/
def atString : List Token → Bool
  | .literal _ (.text _) :: _ => true
  | _ => false

/-- Whether a group in certain delimiters comes next. -/
def atGroup (delimiter : Delimiter) : List Token → Bool
  | .group found _ :: _ => found == delimiter
  | _ => false

/-! ## Further ahead -/

/-- The tokens after the next one, where a label counts as one. -/
def skip : List Token → List Token
  | .punct '\'' true :: .ident _ :: rest => rest
  | _ :: rest => rest
  | [] => []

end DerivativeParsing.Notation.Lookahead
