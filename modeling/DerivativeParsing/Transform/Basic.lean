import DerivativeParsing.Analysis.Reading

/-!
# Transforming a graph

A transformation of expressions computes a new handle for each node and adds the nodes that it
needs.  While the result for a node is being computed, a new slot stands in for it, a
*placeholder*.  When the result is known, the placeholder becomes a forward to it, so that an
expression that contains itself is transformed into one that contains its own transform.

Only slots that are new in the transformation are ever changed.
-/

set_option autoImplicit false

namespace DerivativeParsing

open Fixpoint

/-- A computation that asks for the results of nodes and adds nodes to a graph. -/
abbrev TransformM (α : Type) := Rule Graph Handle Handle α

namespace Transform

/-- The result for an operand. -/
def ask (h : Handle) : TransformM Handle := fun g =>
  match g.resolve h with
  | some r => .ask r g .done
  | none => .stuck

/-- A handle for a node. -/
def make (n : Node) : TransformM Handle := Rule.update fun g => g.make n

/-- The answer of a question about the graph as it is now. -/
def look {α : Type} (f : Graph → Option α) : TransformM α := Rule.query f

/-- The rules of a transformation.  The placeholder of a node forwards to `standIn` of the node
until the result is known. -/
def rules (standIn : Handle → Handle) (rule : Handle → TransformM Handle) :
    Rules Graph Handle Handle where
  bottom h g := g.alloc (.forward (standIn h))
  rule := rule
  settle provisional computed g := g.redirect provisional computed

/-- The result of a transformation for an expression, and the graph with what was added. -/
def apply (rules : Rules Graph Handle Handle) (g : Graph) (root : Handle) :
    Option (Handle × Graph) := do
  let r ← g.resolve root
  runOnce rules (g.size + 1) r g

end Transform

end DerivativeParsing
