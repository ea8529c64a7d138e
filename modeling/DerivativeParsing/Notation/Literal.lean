import DerivativeParsing.Notation.Token
import DerivativeParsing.Text.Identifier

/-!
# Reading literals

A literal is a character, a string, or a number.  Strings come plain or raw, and characters and
strings may be marked as bytes (`b`) or as strings for foreign code (`c`).  Any literal may end in
a suffix that looks like a name.  Each reader returns what a literal stands for and the text after
it, and has no result if the text does not start with such a literal.
-/

set_option autoImplicit false

namespace DerivativeParsing.Notation.Literal

/-! ## Names -/

/-- A name at the start of a text: a character that may start one and all that may follow. -/
def readName : List Char → Option (List Char × List Char)
  | [] => none
  | c :: rest =>
    if Text.isIdentifierStart c then
      some (c :: rest.takeWhile Text.isIdentifierContinue,
        rest.dropWhile Text.isIdentifierContinue)
    else none

/-- The text after a suffix, if there is a suffix. -/
def skipSuffix (text : List Char) : List Char :=
  match readName text with
  | some (_, rest) => rest
  | none => text

/-! ## Escapes -/

/-- What kind of string a literal is. -/
inductive Kind where
  | text
  | bytes
  | foreign
deriving DecidableEq

/-- A character that may stand for itself in a string of a kind. -/
def Kind.admits : Kind → Char → Bool
  | .text, _ => true
  | .bytes, c => c.toNat < 0x80
  | .foreign, c => c ≠ '\x00'

/-- The value of a hexadecimal digit. -/
def hexDigit? (c : Char) : Option Nat :=
  if '0' ≤ c && c ≤ '9' then some (c.toNat - '0'.toNat)
  else if 'a' ≤ c && c ≤ 'f' then some (c.toNat - 'a'.toNat + 10)
  else if 'A' ≤ c && c ≤ 'F' then some (c.toNat - 'A'.toNat + 10)
  else none

/-- Two hexadecimal digits, as `\x` introduces them: below 128 in text, and not 0 in strings for
foreign code. -/
def readByte (kind : Kind) : List Char → Option (Char × List Char)
  | high :: low :: rest => do
    let value := 16 * (← hexDigit? high) + (← hexDigit? low)
    let admitted : Bool := match kind with
      | .text => value < 0x80
      | .bytes => true
      | .foreign => value ≠ 0
    if admitted then some (Char.ofNat value, rest) else none
  | _ => none

/-- Up to six hexadecimal digits and a closing brace.  Underscores may stand between the digits
and after them. -/
def readDigitsToBrace (value count : Nat) : List Char → Option (Char × List Char)
  | [] => none
  | c :: rest =>
    match hexDigit? c with
    | some digit =>
      if count = 6 then none else readDigitsToBrace (16 * value + digit) (count + 1) rest
    | none =>
      if count = 0 then none
      else if c = '_' then readDigitsToBrace value count rest
      else if c = '\x7d' && value.isValidChar then some (Char.ofNat value, rest)
      else none

/-- A character by its number, as `\u` introduces it. -/
def readCodePoint : List Char → Option (Char × List Char)
  | '\x7b' :: rest => readDigitsToBrace 0 0 rest
  | _ => none

/-- The text after a line break that a backslash escapes, and after the blanks that follow.  A
carriage return has to be followed by a line feed; the flag says that one was just read. -/
def skipIndentation : Bool → List Char → Option (List Char)
  | true, '\n' :: rest => skipIndentation false rest
  | true, _ => none
  | false, [] => none
  | false, c :: rest =>
    if c = ' ' || c = '\t' || c = '\n' then skipIndentation false rest
    else if c = '\r' then skipIndentation true rest
    else some (c :: rest)

/-- What a backslash introduces: a character, or in a string nothing but a line break. -/
def readEscape (kind : Kind) (inString : Bool) : List Char → Option (Option Char × List Char)
  | 'n' :: rest => some (some '\n', rest)
  | 'r' :: rest => some (some '\r', rest)
  | 't' :: rest => some (some '\t', rest)
  | '\\' :: rest => some (some '\\', rest)
  | '\'' :: rest => some (some '\'', rest)
  | '"' :: rest => some (some '"', rest)
  | '0' :: rest => if kind = .foreign then none else some (some '\x00', rest)
  | 'x' :: rest => do
    let (c, rest) ← readByte kind rest
    some (some c, rest)
  | 'u' :: rest => do
    let (c, rest) ← readCodePoint rest
    if kind = .bytes || !kind.admits c then none else some (some c, rest)
  | '\n' :: rest => if inString then (skipIndentation false rest).map (none, ·) else none
  | '\r' :: rest => if inString then (skipIndentation true rest).map (none, ·) else none
  | _ => none

/-! ## Strings and characters -/

/-- A string up to its closing quote.  A carriage return has to be followed by a line feed, and
the two stand for a line feed. -/
def readString (kind : Kind) (text : List Char) : Option (List Char × List Char) :=
  match text with
  | [] => none
  | '"' :: rest => some ([], rest)
  | '\r' :: '\n' :: rest => do
    let (chars, rest) ← readString kind rest
    some ('\n' :: chars, rest)
  | '\r' :: _ => none
  | '\\' :: rest =>
    match readEscape kind true rest with
    | none => none
    | some (escaped, afterEscape) =>
      if _ : afterEscape.length ≤ rest.length then do
        let (chars, rest) ← readString kind afterEscape
        some (escaped.toList ++ chars, rest)
      else none
  | c :: rest =>
    if kind.admits c then do
      let (chars, rest) ← readString kind rest
      some (c :: chars, rest)
    else none
termination_by text.length
decreasing_by all_goals simp only [List.length_cons]; omega

/-- A raw string up to a quote with as many hash signs after it as the string started with. -/
def readRaw (kind : Kind) (hashes : Nat) : List Char → Option (List Char × List Char)
  | [] => none
  | '\r' :: '\n' :: rest => do
    let (chars, rest) ← readRaw kind hashes rest
    some ('\r' :: '\n' :: chars, rest)
  | '\r' :: _ => none
  | c :: rest =>
    if c = '"' && (rest.take hashes).length = hashes && (rest.take hashes).all (· = '#') then
      some ([], rest.drop hashes)
    else if kind.admits c then do
      let (chars, rest) ← readRaw kind hashes rest
      some (c :: chars, rest)
    else none

/-- The hash signs and the quote that open a raw string, and the string. -/
def readHashedRaw (kind : Kind) (text : List Char) : Option (List Char × List Char) :=
  let hashes := (text.takeWhile (· = '#')).length
  match text.drop hashes with
  | '"' :: rest => if hashes ≤ 255 then readRaw kind hashes rest else none
  | _ => none

/-- One character and the quote that closes it. -/
def readCharacter (kind : Kind) : List Char → Option (Char × List Char)
  | '\\' :: rest => do
    match ← readEscape kind false rest with
    | (some c, '\'' :: rest) => some (c, rest)
    | _ => none
  | c :: '\'' :: rest => if kind.admits c then some (c, rest) else none
  | _ => none

/-! ## Numbers -/

/-- A digit or an underscore. -/
def isDigitOrUnderscore (c : Char) : Bool := c.isDigit || c = '_'

/-- The exponent of a number, after its letter. -/
def readExponent (signed valued : Bool) : List Char → Option (List Char)
  | [] => if valued then some [] else none
  | c :: rest =>
    if c = '+' || c = '-' then
      if valued then some (c :: rest)
      else if signed then none
      else readExponent true valued rest
    else if c.isDigit then readExponent signed true rest
    else if c = '_' then readExponent signed valued rest
    else if valued then some (c :: rest)
    else none

/-- The text after the digits of a number with a fraction or an exponent.  A point that is
followed by another one or by a name does not belong to a number. -/
def skipFloatDigits (text : List Char) : Option (List Char) :=
  match text with
  | [] => none
  | first :: rest =>
    if !first.isDigit then none
    else match rest.dropWhile isDigitOrUnderscore with
    | '.' :: afterPoint =>
      match afterPoint with
      | '.' :: _ => none
      | _ =>
        if (readName afterPoint).isSome then none
        else match afterPoint.dropWhile isDigitOrUnderscore with
        | e :: afterLetter =>
          if e = 'e' || e = 'E' then
            some ((readExponent false false afterLetter).getD (e :: afterLetter))
          else some (e :: afterLetter)
        | [] => some []
    | e :: afterLetter => if e = 'e' || e = 'E' then readExponent false false afterLetter else none
    | [] => none

/-- The text after digits of a base. -/
def skipDigits (base : Nat) (seen : Bool) : List Char → Option (List Char)
  | [] => if seen then some [] else none
  | c :: rest =>
    if c = '_' then if !seen && base = 10 then none else skipDigits base seen rest
    else match hexDigit? c with
    | some digit =>
      if digit < base then skipDigits base true rest
      else if c.isDigit then none
      else if seen then some (c :: rest)
      else none
    | none => if seen then some (c :: rest) else none

/-- The base that the start of a number gives, and the text after the start. -/
def baseOf : List Char → Nat × List Char
  | '0' :: 'x' :: rest => (16, rest)
  | '0' :: 'o' :: rest => (8, rest)
  | '0' :: 'b' :: rest => (2, rest)
  | text => (10, text)

/-- The text after the digits of a whole number. -/
def skipIntegerDigits (text : List Char) : Option (List Char) :=
  let (base, rest) := baseOf text
  skipDigits base false rest

/-- A suffix ends where no character could continue it. -/
def endNumber (text : List Char) : Option (List Char) :=
  match skipSuffix text with
  | [] => some []
  | c :: rest => if Text.isIdentifierContinue c then none else some (c :: rest)

/-- The text after a number. -/
def skipNumber (text : List Char) : Option (List Char) :=
  ((skipFloatDigits text).bind endNumber).or ((skipIntegerDigits text).bind endNumber)

/-- Whether what follows the letter `e` in a number makes it an exponent. -/
def isExponent (valued : Bool) : List Char → Bool
  | [] => valued
  | c :: rest =>
    if c = '_' then isExponent valued rest
    else if c = '+' || c = '-' then true
    else if c.isDigit then isExponent true rest
    else valued

/-- The value of a whole number as it is spelled, with underscores between its digits and with a
suffix.  A number with a point or an exponent is not whole. -/
def integerValue (base value : Nat) (seen : Bool) : List Char → Option Nat
  | [] => if seen then some value else none
  | c :: rest =>
    let ended := if seen then some value else none
    if c = '_' then integerValue base value seen rest
    else if c = '.' && base = 10 then none
    else if (c = 'e' || c = 'E') && base = 10 then
      if isExponent false rest then none else ended
    else match hexDigit? c with
    | some digit =>
      if digit < base then integerValue base (base * value + digit) true rest
      else if c.isDigit then none
      else ended
    | none => ended

/-- What a number stands for. -/
def numberMeaning (spelling : List Char) : Meaning :=
  let (base, digits) := baseOf spelling
  match integerValue base 0 false digits with
  | some n => .number n
  | none => .fraction

/-- The suffix of a whole number. -/
def integerSuffix (spelling : List Char) : List Char :=
  let (base, digits) := baseOf spelling
  digits.dropWhile fun c => c = '_' || (hexDigit? c).any (· < base)

/-! ## Literals -/

/-- A string of a kind, with what it stands for in a text. -/
def stringOf (kind : Kind) (found : Option (List Char × List Char)) :
    Option (Meaning × List Char) :=
  found.map fun (chars, rest) =>
    (if kind = .text then .text chars else .other, skipSuffix rest)

/-- A literal other than a number, by how it starts. -/
def readQuoted : List Char → Option (Meaning × List Char)
  | '"' :: rest => stringOf .text (readString .text rest)
  | 'r' :: rest => stringOf .text (readHashedRaw .text rest)
  | 'b' :: '"' :: rest => stringOf .bytes (readString .bytes rest)
  | 'b' :: 'r' :: rest => stringOf .bytes (readHashedRaw .bytes rest)
  | 'b' :: '\'' :: rest => (readCharacter .bytes rest).map fun found => (.other, skipSuffix found.2)
  | 'c' :: '"' :: rest => stringOf .foreign (readString .foreign rest)
  | 'c' :: 'r' :: rest => stringOf .foreign (readHashedRaw .foreign rest)
  | '\'' :: rest =>
    (readCharacter .text rest).map fun (c, rest) => (.character c, skipSuffix rest)
  | _ => none

/-- The part of a text in front of its end. -/
def spellingOf (text rest : List Char) : List Char := text.take (text.length - rest.length)

/-- The literal at the start of a text. -/
def read (text : List Char) : Option (Token × List Char) :=
  match readQuoted text with
  | some (meaning, rest) =>
    some (.literal (String.ofList (spellingOf text rest)) meaning, rest)
  | none => do
    let rest ← skipNumber text
    let spelling := spellingOf text rest
    some (.literal (String.ofList spelling) (numberMeaning spelling), rest)

end DerivativeParsing.Notation.Literal
