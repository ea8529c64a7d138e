import DerivativeParsing.Notation.Host.Construct
import DerivativeParsing.Notation.Program
import DerivativeParsing.Recognition

/-!
# Languages

A language is a grammar with a start rule.  Some languages come with the library, as declarations
of their grammars.
-/

set_option autoImplicit false

namespace DerivativeParsing

/-- A grammar with the rules of a declaration, of which the first one is the start. -/
structure Language where
  grammar : Grammar
  start : Handle
  /-- The names of the rules that were declared. -/
  rules : List String

/-- Why a declaration makes no language. -/
inductive DeclarationFault where
  /-- The declaration cannot be read. -/
  | unreadable (fault : Notation.SyntaxFault)
  | mistaken (mistakes : List Notation.Mistake)
  /-- The rules cannot be defined. -/
  | undefinable (failure : Failure)

/-- Reads a declaration that has no mistakes. -/
def Notation.Declaration.checked (text : String) : Except DeclarationFault Notation.Declaration :=
  match Notation.Declaration.ofText Notation.Host.standard text with
  | .error fault => .error (.unreadable fault)
  | .ok d => if d.mistakes.isEmpty then .ok d else .error (.mistaken d.mistakes)

namespace Language

/-- The language of a declaration. -/
def ofText (text : String) : Except DeclarationFault Language := do
  let d ← Notation.Declaration.checked text
  match (d.build .standard).run .initial with
  | (.ok start, grammar) => pure ⟨grammar, start, d.ruleNames⟩
  | (.error failure, _) => throw (.undefinable failure)

/-- The handle of a rule that was declared. -/
def rule? (language : Language) (name : String) : Option Handle :=
  if language.rules.contains name then language.grammar.rules.lookup name else none

/-! ## Languages that come with the library -/

/-- Balanced parentheses, nested before they are repeated. -/
def parens : String := "struct Parens \x7b s = '(' s ')' | ; \x7d"

/-- Balanced parentheses, repeated before they are nested. -/
def leftParens : String := "struct LeftParens \x7b s = s '(' s ')' | ; \x7d"

/-- Formulas with two connectives, ambiguously nested. -/
def logic : String :=
  "struct Logic \x7b formula = formula connective formula => infix | atom; atom = 'P'..='S'; " ++
    "connective = '∧' | '∨'; \x7d"

/-- Sentences of propositional logic, with parentheses and negation. -/
def sentences : String :=
  "struct Sentences \x7b sentence = atomic | complex; atomic = 'P'..='Z'; " ++
    "complex = '(' sentence ')' => inner | sentence connective sentence => infix | '~' sentence; " ++
    "connective = '∧' | '∨' | '→' | '⟺'; \x7d"

/-- Three letters and perhaps a digit. -/
def codes : String :=
  "struct Codes \x7b code = letter\x7b3\x7d digit?; letter = 'A'..='Z'; digit = '0'..='9'; \x7d"

/-- Rules that have nothing to do with each other. -/
def misc : String :=
  "struct Misc \x7b quoted = '\"' _* '\"'; not_if = ~\"if\"; " ++
    "keyword = \"let\" | \"fn\" | \"if\"; many = ('a' | 'b')+; \x7d"

/-- Sums of products of numbers, nested to the left. -/
def sums : String :=
  "struct Sums \x7b sum = sum '+' product => infix | product; " ++
    "product = product '*' factor => infix | factor; " ++
    "factor = digit+ | '(' sum ')' => inner; digit = '0'..='9'; \x7d"

/-- Nested lists of words. -/
def lists : String :=
  "struct Lists \x7b list = '[' (item (',' item)*)? ']'; item = list | word => wrap; " ++
    "word = ('a'..='z' | '\\'' | \"\\\\n\")+ => rev; \x7d"

/-- The declarations that come with the library, by name. -/
def library : List (String × String) :=
  [("Parens", parens), ("LeftParens", leftParens), ("Logic", logic), ("Sentences", sentences),
    ("Codes", codes), ("Misc", misc), ("Sums", sums), ("Lists", lists)]

/-- The language with a name. -/
def named? (name : String) : Option Language := do
  let text ← library.lookup name
  (ofText text).toOption

end Language

end DerivativeParsing
