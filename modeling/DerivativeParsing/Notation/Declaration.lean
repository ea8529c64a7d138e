import DerivativeParsing.Notation.Token

/-!
# Grammar declarations

A declaration names a grammar and lists its rules:

    pub struct Sums {
      sum = sum '+' digit => infix | digit;
      digit = '0'..='9';
    }

The body of a rule is a choice between branches.  A branch is a sequence of terms, which may be
empty, and may end in the path of a reducer.  Literals are kept with their spelling, so that a
declaration can be written again as it was.
-/

set_option autoImplicit false

namespace DerivativeParsing.Notation

/-- A character literal. -/
structure CharLiteral where
  spelling : String
  value : Char
deriving Inhabited

/-- A string literal. -/
structure TextLiteral where
  spelling : String
  value : String
deriving Inhabited

/-- How often a term is repeated, as it is written: a whole number, perhaps after a minus sign. -/
structure CountLiteral where
  negative : Bool
  spelling : String
  /-- The number without its sign. -/
  magnitude : Nat
deriving Inhabited

/-- The decimal digits of a count, after its sign. -/
def CountLiteral.digits (n : CountLiteral) : String :=
  (if n.negative then "-" else "") ++ toString n.magnitude

/-- The path of a reducer. -/
structure Path where
  tokens : List Token
  /-- The name in the last part of the path. -/
  lastName : String
deriving Inhabited

mutual

/-- One part of a branch. -/
inductive Term where
  | rule (name : String)
  /-- Any one character: `_`. -/
  | any
  | char (literal : CharLiteral)
  | range (first last : CharLiteral)
  | text (literal : TextLiteral)
  | group (body : Alternatives)
  | star (operand : Term)
  | plus (operand : Term)
  | optional (operand : Term)
  | rep (operand : Term) (count : CountLiteral)
  | not (operand : Term)

/-- Terms in sequence, and what becomes of their trees. -/
structure Branch where
  terms : List Term
  reducer : Option Path

/-- A choice between branches, of which there is at least one. -/
structure Alternatives where
  first : Branch
  rest : List Branch

end

/-- All branches of a choice, in order. -/
def Alternatives.branches (body : Alternatives) : List Branch := body.first :: body.rest

/-- A rule with its body. -/
structure RuleDefinition where
  name : String
  body : Alternatives

/-- A declaration of a grammar. -/
structure Declaration where
  /-- The attributes in front, each with its hash sign and brackets. -/
  attributes : List (List Token)
  /-- Who may use the grammar.  There are no tokens if nothing is said about it. -/
  visibility : List Token
  name : String
  rules : List RuleDefinition

/-- The names of the rules, in order. -/
def Declaration.ruleNames (d : Declaration) : List String := d.rules.map (·.name)

end DerivativeParsing.Notation
