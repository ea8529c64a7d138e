import DerivativeParsing.Grammar.Node

/-!
# Descriptions of expressions

A description says how to build an expression: which nodes to make and which rules and named
handles to refer to.  Building it in a grammar (`DerivativeParsing.Grammar.Build`) makes the nodes
in a fixed order.  A *suspended* description is kept in the grammar as it is and built only when
the expression is first needed; this is how an expression can refer to something that does not
exist yet.
-/

set_option autoImplicit false

namespace DerivativeParsing

/-- How to build an expression. -/
inductive Description where
  /-- A text that becomes an expression only where it is used as an operand. -/
  | text (text : String)
  | nil
  | empty
  | any
  | char (c : Char)
  | range (first last : Char)
  /-- A text that must have at least one character. -/
  | token (text : String)
  /-- A text that may be empty. -/
  | lit (text : String)
  /-- Any number of alternatives, nested to the left. -/
  | alternatives (operands : List Description)
  /-- Any number of parts in sequence, nested to the left. -/
  | sequence (operands : List Description)
  | star (operand : Description)
  | rep (operand : Description) (count : Count)
  | not (operand : Description)
  /-- The operand at least once. -/
  | plus (operand : Description)
  | reduction (operand : Description) (reducer : Reducer)
  | nullability (operand : Description)
  | emptyReduction (trees : List Tree)
  /-- A reference to a rule of the grammar, defined or not. -/
  | rule (name : String)
  /-- A handle that was given a name. -/
  | named (name : String)
  /-- A description that is built when it is first needed. -/
  | suspended (body : Description)
  /-- `seed`, and then `times` times over `layer`, in which `name` stands for what was built last. -/
  | nest (times : Nat) (name : String) (layer seed : Description)
  /-- Operands that do not add up to a description: they are built, and then building fails. -/
  | malformed (operands : List Description)
deriving Inhabited

namespace Description

/-- The operand or nothing. -/
def optional (operand : Description) : Description := .alternatives [operand, .empty]

mutual

/-- At least as many places as building a description can take in a graph, now and when
everything that it suspends is built in its turn. -/
def slotBound : Description → Nat
  | .text _ | .char _ | .range _ _ | .token _ | .lit _ | .emptyReduction _ | .rule _ => 1
  | .nil | .empty | .any | .named _ => 0
  | .alternatives ps | .sequence ps | .malformed ps => slotBounds ps
  | .star p | .rep p _ | .not p | .plus p | .reduction p _ | .nullability p =>
    p.slotBound + 3
  | .suspended p => p.slotBound + 2
  | .nest times _ layer seed => seed.slotBound + times * (layer.slotBound + 1) + 1

/-- The bound for several operands that are joined in pairs. -/
def slotBounds : List Description → Nat
  | [] => 0
  | p :: ps => p.slotBound + 2 + slotBounds ps

end

end Description

end DerivativeParsing
