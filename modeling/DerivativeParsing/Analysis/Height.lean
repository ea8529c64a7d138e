import DerivativeParsing.Analysis.Reading

/-!
# The height of an expression

The height of a node is one more than that of its highest operand, and 0 without operands.  Where
an expression contains itself, the inner occurrence counts as 0.  Simplification puts lower
alternatives first.
-/

set_option autoImplicit false

namespace DerivativeParsing

namespace Height

/-- The height above operands, given the height that the ones before them require. -/
def above (g : Graph) (height : Nat) : List Handle → Reading Nat Nat
  | [] => pure height
  | h :: hs => do above g (max height ((← .ask g h) + 1)) hs

/-- The height of each node. -/
def table : Table Nat where
  bottom := 0
  rule g h := above g 0 (g.node h).children

end Height

/-- The height of an expression. -/
def Graph.height (g : Graph) (root : Handle) : Option Nat := Height.table.evaluateOnce g root

/-- The height of an expression. -/
def Grammar.height (root : Handle) : GrammarM Nat := do
  let r ← prepare root
  answer (·.height r)

end DerivativeParsing
