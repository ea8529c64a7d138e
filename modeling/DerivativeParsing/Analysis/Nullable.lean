import DerivativeParsing.Analysis.Reading

/-!
# Nullable expressions

An expression is nullable if it matches the empty word.  The property is a least fixpoint: a
node that could be nullable only because it refers to itself is not.
-/

set_option autoImplicit false

namespace DerivativeParsing

namespace Nullable

/-- The rule for each kind of node.  An alternative asks for its right operand only if the left
one is not nullable, and a sequence for its second operand only if the first one is. -/
def ofNode (g : Graph) : Node → Reading Bool Bool
  | .nil | .any | .char _ | .range _ _ | .token _ => pure false
  | .empty | .star _ | .emptyReduction _ => pure true
  | .alt left right => do
    if ← .ask g left then pure true else .ask g right
  | .seq first second => do
    if ← .ask g first then .ask g second else pure false
  | .rep _ (.exactly 0) | .rep _ .unbounded => pure true
  | .rep operand (.exactly (_ + 1)) => .ask g operand
  | .not operand => do return !(← .ask g operand)
  | .nullability operand | .reduction operand _ => .ask g operand

/-- Whether each node is nullable. -/
def table : Table Bool where
  bottom := false
  rule g h := ofNode g (g.node h)

end Nullable

/-- Whether an expression is nullable. -/
def Graph.nullable (fuel : Nat) (g : Graph) (root : Handle) : Option Bool :=
  Nullable.table.evaluate fuel g root

/-- Whether an expression matches the empty word. -/
def Grammar.nullable (fuel : Nat) (root : Handle) : GrammarM Bool := do
  let r ← prepare root
  answer (·.nullable fuel r)

end DerivativeParsing
