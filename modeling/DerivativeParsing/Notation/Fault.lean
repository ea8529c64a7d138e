import DerivativeParsing.Notation.Token

/-!
# Why a text is no declaration

Reading stops at the first token that cannot continue a declaration, and says what was expected
instead.  Where the text, or the group that is being read, is at its end, most expectations say
so.  Some phrases are refused although they could be read (`Restriction`).  A group that holds
more than it should is reported only if everything else can be read.
-/

set_option autoImplicit false

namespace DerivativeParsing.Notation

/-! ## What was expected -/

/-- What could have come next. -/
inductive Expectation where
  /-- A keyword or an operator. -/
  | word (text : String)
  | identifier
  /-- A name after a quote. -/
  | label
  | literal
  | character
  | string
  | integer
  | group (delimiter : Delimiter)
  /-- A group in any delimiters. -/
  | anyGroup
  /-- A part of a path, after two colons. -/
  | segment
  | expression
  /-- The number of a part of a tuple. -/
  | index
  | unsuffixedInteger
  /-- What a label can name. -/
  | loop
  | block
  /-- The end of a range of patterns. -/
  | upperBound
  /-- No name for what is imported. -/
  | underscore
deriving DecidableEq, Repr

namespace Expectation

/-- The words for an expectation. -/
def name : Expectation → String
  | .word text => "`" ++ text ++ "`"
  | .identifier => "identifier"
  | .label => "lifetime"
  | .literal => "literal"
  | .character => "character literal"
  | .string => "string literal"
  | .integer => "integer literal"
  | .group .parenthesis => "parentheses"
  | .group .bracket => "square brackets"
  | .group .brace => "curly braces"
  | .anyGroup => "delimiter"
  | .segment => "path segment after `::`"
  | .expression => "an expression"
  | .index => "integer"
  | .unsuffixedInteger => "unsuffixed integer"
  | .loop => "loop"
  | .block => "block expression"
  | .upperBound => "range upper bound"
  | .underscore => "underscore"

/-- What a term can start with. -/
def operand : List Expectation :=
  [.group .parenthesis, .character, .string, .word "_", .identifier]

/-- What can follow the alternatives of a group. -/
def alternative : List Expectation := [.word "|", .word ")"]

/-- What a type can start with. -/
def type : List Expectation :=
  [.word "for", .group .parenthesis, .word "fn", .word "unsafe", .word "extern", .identifier,
    .word "::", .word "<", .word "dyn", .group .bracket, .word "*", .word "&", .word "!",
    .word "impl", .word "_", .label]

/-- The wording of several expectations, of which one would do. -/
def message : List Expectation → String
  | [] => "unexpected token"
  | [e] => "expected " ++ e.name
  | [e, e'] => "expected " ++ e.name ++ " or " ++ e'.name
  | es => "expected one of: " ++ ", ".intercalate (es.map name)

/-- The wording of expectations at the end of what is read. -/
def messageAtEnd : List Expectation → String
  | [] => "unexpected end of input"
  | es => "unexpected end of input, " ++ message es

end Expectation

/-! ## What is refused -/

/-- What may not stand where it does. -/
inductive Restriction where
  /-- A comparison of the result of a comparison. -/
  | chainedComparison
  /-- Something that would apply to the type of a conversion. -/
  | afterConversion (what : String)
  /-- A type that says of its values only how long they live. -/
  | noTraitOfObject
  | noTrait
  /-- A mark on a bound. -/
  | mark (text : String)
  /-- A list of what a type captures. -/
  | captures
  /-- Attributes on a range without a start. -/
  | attributedRange
  /-- A labelled expression after a label to leave. -/
  | bareLabel
  /-- A range of patterns without a start or an end, in a list of patterns. -/
  | openRange
  | nestedAttribute
  /-- A statement that goes on after its end. -/
  | unseparated
  /-- The value that a method is called on, where it is no parameter.  The flag says whether there
  is one before. -/
  | receiver (second : Bool)
  /-- The negation of methods that belong to no trait. -/
  | negation
  /-- The number of a part of a tuple does not fit. -/
  | indexTooLarge
  | negativeIndex
deriving DecidableEq, Repr

/-- The wording of a restriction. -/
def Restriction.message : Restriction → String
  | .chainedComparison => "comparison operators cannot be chained"
  | .afterConversion what => "casts cannot be followed by " ++ what
  | .noTraitOfObject => "at least one trait is required for an object type"
  | .noTrait => "at least one trait must be specified"
  | .mark text => "`" ++ text ++ "` is not allowed here"
  | .captures => "`use<...>` precise capturing syntax is not allowed here"
  | .attributedRange =>
    "attributes are not allowed on range expressions starting with `..`"
  | .bareLabel => "parentheses required"
  | .openRange => "range pattern is not allowed unparenthesized inside a slice pattern"
  | .nestedAttribute => "unexpected attribute inside of attribute"
  | .unseparated => "unexpected token, expected `;`"
  | .receiver true => "unexpected second method receiver"
  | .receiver false => "unexpected method receiver"
  | .negation => "inherent impls cannot be negative"
  | .indexTooLarge => "number too large to fit in target type"
  | .negativeIndex => "invalid digit found in string"

/-! ## Faults -/

/-- Why a text is no declaration. -/
inductive SyntaxFault where
  /-- The text has no tokens. -/
  | unreadable
  /-- Something else should come next.  The flag says whether nothing comes next. -/
  | expected (options : List Expectation) (atEnd : Bool)
  /-- A keyword stands where a name should. -/
  | keyword (name : String)
  | restricted (what : Restriction)
  /-- More tokens than a group, or the text if there is no delimiter, should hold. -/
  | leftover (inside : Option Delimiter)
  /-- Reading was given too few steps. -/
  | unfinished
deriving DecidableEq, Repr

namespace SyntaxFault

/-- The wording of a fault. -/
def message : SyntaxFault → String
  | .unreadable => "cannot parse string into token stream"
  | .expected options false => Expectation.message options
  | .expected options true => Expectation.messageAtEnd options
  | .keyword name => Expectation.message [.identifier] ++ ", found keyword `" ++ name ++ "`"
  | .restricted what => what.message
  | .leftover none => "unexpected token"
  | .leftover (some .parenthesis) => "unexpected token, expected `)`"
  | .leftover (some .bracket) => "unexpected token, expected `]`"
  | .leftover (some .brace) => "unexpected token, expected `\x7d`"
  | .unfinished => "too long to read"

end SyntaxFault

end DerivativeParsing.Notation
