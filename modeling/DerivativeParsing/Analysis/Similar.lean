import DerivativeParsing.Analysis.Reading

/-!
# Equality of expressions

Two expressions are equal if their graphs have the same shape: nodes of the same kind and with
the same data, with equal operands.  The property is a greatest fixpoint: two nodes differ only if
following operands from them leads to a difference, however the two graphs share nodes or repeat
themselves.
-/

set_option autoImplicit false

namespace DerivativeParsing

open Fixpoint

namespace Similar

/-- Pairs of handles are ordered lexicographically. -/
instance : Ord (Handle × Handle) := lexOrd

/-- A computation that asks whether nodes are equal. -/
abbrev Comparing (α : Type) := Rule Unit (Handle × Handle) Bool α

/-- Whether two operands are equal. -/
def ask (g : Graph) (a b : Handle) : Comparing Bool :=
  match g.resolve a, g.resolve b with
  | some a, some b => Rule.ask (a, b)
  | _, _ => Rule.stuck

/-- Whether two nodes are equal.  A second pair of operands is compared only if the first one is
equal. -/
def ofNodes (g : Graph) : Node → Node → Comparing Bool
  | .nil, .nil | .empty, .empty | .any, .any => pure true
  | .char a, .char b => pure (a == b)
  | .range a a', .range b b' => pure (a == b && a' == b')
  | .token a, .token b => pure (a == b)
  | .alt a a', .alt b b' | .seq a a', .seq b b' => do
    if ← ask g a b then ask g a' b' else pure false
  | .star a, .star b | .not a, .not b | .nullability a, .nullability b => ask g a b
  | .rep a n, .rep b m => if n == m then ask g a b else pure false
  | .emptyReduction a, .emptyReduction b => pure (a == b)
  | .reduction a f, .reduction b f' => if f == f' then ask g a b else pure false
  | _, _ => pure false

/-- The rules of equality: a node is equal to itself, and other nodes are compared. -/
def rules (g : Graph) : Rules Unit (Handle × Handle) Bool where
  bottom _ _ := (true, ())
  rule pair := if pair.1 = pair.2 then pure true else ofNodes g (g.node pair.1) (g.node pair.2)

end Similar

/-- Whether two expressions are equal.  A pass that has to be repeated has found a new pair of
nodes that differ, so that there are no more passes than pairs. -/
def Graph.similar (g : Graph) (a b : Handle) : Option Bool := do
  let a ← g.resolve a
  let b ← g.resolve b
  let bound := g.size * g.size + 1
  let (v, _) ← run (Similar.rules g) bound bound (a, b) ()
  some v

/-- Whether two expressions are equal. -/
def Grammar.similar (a b : Handle) : GrammarM Bool := do
  let a ← prepare a
  let b ← prepare b
  answer (·.similar a b)

end DerivativeParsing
