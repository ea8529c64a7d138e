import DerivativeParsing.Text.Printable

/-!
# Quoted text

Characters and strings are written between quotes, with the backslash escapes of a programming
language: the named escapes for NUL, tab, carriage return, newline and the backslash, an escape
for the quote that encloses the text (and for no other), and `\u{…}` with lower-case hexadecimal
digits for everything that `isPrintable` rejects.
-/

set_option autoImplicit false

namespace DerivativeParsing.Text

/-- The number of a character between braces, as `\u` introduces it. -/
def escapeByNumber (c : Char) : List Char :=
  "\\u\x7b".toList ++ Nat.toDigits 16 c.toNat ++ "\x7d".toList

/-- How one character is written inside text that `quote` encloses. -/
def escape (quote c : Char) : List Char :=
  if c = '\x00' then "\\0".toList
  else if c = '\t' then "\\t".toList
  else if c = '\r' then "\\r".toList
  else if c = '\n' then "\\n".toList
  else if c = '\\' then "\\\\".toList
  else if c = quote then ['\\', quote]
  else if isPrintable c then [c]
  else escapeByNumber c

/-- Text between two copies of `quote`, escaped. -/
def quotedBy (quote : Char) (text : List Char) : String :=
  String.ofList (quote :: (text.flatMap (escape quote) ++ [quote]))

/-- A character in single quotes. -/
def quotedChar (c : Char) : String := quotedBy '\'' [c]

/-- A string in double quotes. -/
def quotedString (text : List Char) : String := quotedBy '"' text

/-- A string literal that reads back under every rule for escapes: like `quotedString`, but a NUL
in front of an octal digit is written with two hexadecimal digits, so that it cannot be taken for
a longer escape. -/
def literalBody : List Char → List Char
  | [] => []
  | c :: rest =>
    let written :=
      if c = '\x00' && (rest.head?.any fun d => '0' ≤ d && d ≤ '7') then "\\x00".toList
      else escape '"' c
    written ++ literalBody rest

/-- The string literal of a text: `literalBody` between double quotes. -/
def stringLiteral (text : String) : String :=
  String.ofList ('"' :: (literalBody text.toList ++ ['"']))

end DerivativeParsing.Text
