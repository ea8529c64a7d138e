import DerivativeParsing.Notation.Host.Phrase
import DerivativeParsing.Notation.Literal

/-!
# Fields

A field of a structure has a name, and a part of a tuple has a number, which is written in
decimal and without a suffix.  After a point, two numbers may look like one with a fraction.
-/

set_option autoImplicit false

namespace DerivativeParsing.Notation.Host

open Lookahead Reader

/-- The number of a part of a tuple, as it is spelled and after an optional minus sign. -/
def fieldNumber (negative : Bool) (spelling : String) (value : Nat) : Reader Token := do
  unless (Literal.integerSuffix spelling.toList).isEmpty do
    throw (.expected [.unsuffixedInteger] false)
  if negative then refuse .negativeIndex
  if UInt32.size ≤ value then refuse .indexTooLarge
  return .literal (toString value) (.number value)

/-- A field, and whether it has a name. -/
def field : Reader (Token × Bool) := do
  match ← remaining with
  | .literal spelling (.number value) :: rest =>
    leave rest
    return (← fieldNumber false spelling value, false)
  | .punct '-' _ :: .literal spelling (.number value) :: _ =>
    return (← fieldNumber true spelling value, false)
  | .ident text :: rest =>
    if isKeyword text then missing [.identifier, .index]
    leave rest
    return (.ident text, true)
  | _ => missing [.identifier, .index]

/-! ## Numbers with a fraction -/

/-- The parts of a text between points. -/
def splitAtPoints : List Char → List (List Char)
  | [] => [[]]
  | '.' :: rest => [] :: splitAtPoints rest
  | c :: rest =>
    match splitAtPoints rest with
    | part :: parts => (c :: part) :: parts
    | [] => [[c]]

/-- One of several numbers that are spelled with points between them. -/
def partNumber (negative : Bool) (spelling : List Char) : Reader Token := do
  match Literal.read spelling with
  | some (.literal spelling (.number value), []) => fieldNumber negative spelling value
  | _ => throw (.expected [.integer] false)

/-- The numbers of a literal with a fraction, each after a point, and whether a point is left over
for what follows. -/
def numbersOfFraction (negative : Bool) (spelling : String) : Reader (List Token × Bool) := do
  let parts := splitAtPoints spelling.toList
  let pointAtEnd := parts.length > 1 && parts.getLast?.any List.isEmpty
  let parts := if pointAtEnd then parts.dropLast else parts
  let numbers ← (parts.zipIdx).mapM fun (part, i) => partNumber (negative && i = 0) part
  return (numbers.flatMap fun number => [.alone '.', number], pointAtEnd)

end DerivativeParsing.Notation.Host
