/-!
# Tokens

The text of a grammar declaration is a sequence of tokens: names, punctuation, literals, and
groups of tokens between delimiters.  A punctuation character is *joint* if the next character is
punctuation too, with nothing between them; a longer operator such as `=>` is spelled with joint
characters.

Tokens are written with a blank between any two of them, except after a joint character and just
inside parentheses and brackets (`Token.renderAll`).
-/

set_option autoImplicit false

namespace DerivativeParsing.Notation

/-- What encloses a group of tokens. -/
inductive Delimiter where
  | parenthesis
  | bracket
  | brace
deriving DecidableEq, Inhabited, Repr

/-- What a literal stands for. -/
inductive Meaning where
  | character (c : Char)
  | text (chars : List Char)
  /-- A whole number. -/
  | number (n : Nat)
  /-- A number with a point or an exponent. -/
  | fraction
  /-- A literal that the notation has no use for. -/
  | other
deriving DecidableEq, Inhabited, Repr

/-- A token. -/
inductive Token where
  | group (delimiter : Delimiter) (content : List Token)
  | ident (name : String)
  | punct (c : Char) (joint : Bool)
  /-- A literal as it is spelled, and what it stands for. -/
  | literal (spelling : String) (meaning : Meaning)
deriving Inhabited

namespace Token

/-- A punctuation character on its own. -/
def alone (c : Char) : Token := .punct c false

/-- The tokens of an operator of one or more characters. -/
def operator : List Char → List Token
  | [] => []
  | [c] => [.punct c false]
  | c :: rest => .punct c true :: operator rest

mutual

/-- The number of tokens of a token, itself and those inside it. -/
def weight : Token → Nat
  | .group _ content => weightAll content + 1
  | _ => 1

/-- The number of tokens of a sequence and of everything inside it. -/
def weightAll : List Token → Nat
  | [] => 0
  | t :: ts => t.weight + weightAll ts

end

theorem weightAll_append (ts us : List Token) :
    weightAll (ts ++ us) = weightAll ts + weightAll us := by
  induction ts with
  | nil => simp [weightAll]
  | cons t ts ih => simp [weightAll, ih, Nat.add_assoc]

/-- What stands between a token and the next. -/
def gap : Token → String
  | .punct _ true => ""
  | _ => " "

mutual

/-- The written form of a token. -/
def render : Token → String
  | .group .parenthesis content => "(" ++ renderAll content ++ ")"
  | .group .bracket content => "[" ++ renderAll content ++ "]"
  | .group .brace [] => "\x7b \x7d"
  | .group .brace content => "\x7b " ++ renderAll content ++ " \x7d"
  | .ident name => name
  | .punct c _ => String.singleton c
  | .literal spelling _ => spelling

/-- The written form of a sequence of tokens. -/
def renderAll : List Token → String
  | [] => ""
  | [t] => t.render
  | t :: u :: rest => t.render ++ t.gap ++ renderAll (u :: rest)

end

end Token

end DerivativeParsing.Notation
