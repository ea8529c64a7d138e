import DerivativeParsing.Notation.Host.Attribute

/-!
# Blocks and constants

A block is a group of statements in braces.  Where a constant is wanted, as in the arguments of a
path, it is a literal, a name, or a block.
-/

set_option autoImplicit false

namespace DerivativeParsing.Notation.Host

open Lookahead Reader

/-- A block. -/
def block (read : Inner) : Reader (List Token) :=
  grouped .brace do return (← read .statements).tokens

/-- A block that may start with attributes of its own. -/
def attributedBlock (read : Inner) : Reader (List Token) :=
  grouped .brace do
    let attributes ← innerAttributes read
    return attributes ++ (← read .statements).tokens

/-- Whether a constant comes next that is no name. -/
def atConstant (tokens : List Token) : Bool := atLiteral tokens || atGroup .brace tokens

/-- A constant. -/
def constant (read : Inner) : Reader (List Token) := do
  let tokens ← remaining
  if atLiteral tokens then literal
  else if atName tokens then name
  else if atGroup .brace tokens then attributedBlock read
  else missing []

end DerivativeParsing.Notation.Host
