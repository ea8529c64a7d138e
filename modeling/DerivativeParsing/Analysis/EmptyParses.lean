import DerivativeParsing.Analysis.Nullable

/-!
# The parses of the empty word

The trees that an expression gives to the empty word are the least solution of one equation for
each node.  An expression like `s = s s | ε` gives it infinitely many trees, and then there is no
finite solution.
-/

set_option autoImplicit false

namespace DerivativeParsing

namespace EmptyParses

/-- The forest of the tree of a repetition without matches. -/
def unit : Forest := .singleton .unit

/-- The equation for each kind of node.  An operand `ε` of a sequence leaves no trace in the
trees.  The complement of an expression has a tree if the expression is not nullable; nullability
is decided with `fuel` passes. -/
def ofNode (fuel : Nat) (g : Graph) : Node → Reading Forest Forest
  | .nil | .any | .char _ | .range _ _ | .token _ => pure .empty
  | .empty | .star _ => pure unit
  | .emptyReduction trees => pure trees
  | .alt left right => do
    let fromLeft ← .ask g left
    let fromRight ← .ask g right
    pure (fromLeft.union fromRight)
  | .seq first second => do
    if ← Fixpoint.Rule.query fun _ => g.isEmpty first then .ask g second
    else if ← Fixpoint.Rule.query fun _ => g.isEmpty second then .ask g first
    else
      let fromFirst ← .ask g first
      let fromSecond ← .ask g second
      pure (fromFirst.product fromSecond)
  | .rep _ (.exactly 0) | .rep _ .unbounded => pure unit
  | .rep operand (.exactly 1) => .ask g operand
  | .rep operand (.exactly n) => do
    let each ← .ask g operand
    Fixpoint.Rule.query fun _ => each.power? n
  | .not operand => do
    if ← Fixpoint.Rule.query fun _ => g.nullable fuel operand then pure .empty else pure unit
  | .nullability operand => .ask g operand
  | .reduction operand reducer => do
    let trees ← .ask g operand
    Fixpoint.Rule.query fun _ => reducer.reduce? trees

/-- The trees of each node. -/
def table (fuel : Nat) : Table Forest where
  bottom := .empty
  rule g h := ofNode fuel g (g.node h)

end EmptyParses

/-- The trees that an expression gives to the empty word. -/
def Graph.emptyParses (fuel : Nat) (g : Graph) (root : Handle) : Option Forest :=
  (EmptyParses.table fuel).evaluate fuel g root

/-- The trees that an expression gives to the empty word. -/
def Grammar.emptyParses (fuel : Nat) (root : Handle) : GrammarM Forest := do
  let r ← prepare root
  answer (·.emptyParses fuel r)

end DerivativeParsing
