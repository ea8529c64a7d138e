import Std.Data.TreeSet.Basic
import DerivativeParsing.Grammar.Build

/-!
# Following references

A reference leads through forwards and suspended descriptions to a node, to a rule without a
body, or back to itself.  `traceWithin` follows it and builds each suspended description that it meets,
once: the slot becomes a forward to what was built.

An operation on an expression first *prepares* it: it follows every reference that can be reached
from the expression, so that afterwards each of them leads to a node through forwards alone.
-/

set_option autoImplicit false

namespace DerivativeParsing

/-- Where a reference leads. -/
inductive Destination where
  /-- To a slot with a node. -/
  | node (h : Handle)
  /-- To a rule that has no body. -/
  | undefined (h : Handle) (name : String)
  /-- Back to a slot that it came from. -/
  | circular

namespace Grammar

/-- Follows a reference, given the slots that it has come through.  Each step uses up one of
`steps`. -/
def traceWithin : Nat → List Handle → Handle → GrammarM Destination
  | 0, _, _ => throw .exhausted
  | steps + 1, passed, h => do
    if passed.contains h then
      return .circular
    match (← get).graph.slot? h with
    | some (.forward target) => traceWithin steps (h :: passed) target
    | some (.suspended body) =>
      let target ← force body
      onGraph fun graph => ((), graph.setForward h target)
      traceWithin steps (h :: passed) target
    | some (.undefined name) => pure (.undefined h name)
    | _ => pure (.node h)

/-- The slot of the node that a reference leads to. -/
def settleWithin (steps : Nat) (h : Handle) : GrammarM Handle := do
  match ← traceWithin steps [] h with
  | .node r => pure r
  | .undefined _ name => fault (.undefinedRule name)
  | .circular => fault .cyclicReference

/-- Follows every reference that can be reached from a stack of handles, the top one first, and
remembers the nodes that it has seen.  Each handle uses up one of the steps given last, and may
take `reach` steps to follow. -/
def exploreWithin (reach : Nat) : Nat → Std.TreeSet Handle → List Handle → GrammarM Unit
  | _, _, [] => pure ()
  | 0, _, _ :: _ => throw .exhausted
  | steps + 1, seen, h :: todo => do
    let r ← settleWithin reach h
    if seen.contains r then
      exploreWithin reach steps seen todo
    else
      let children := ((← get).graph.node r).children
      exploreWithin reach steps (seen.insert r) (children.reverse ++ todo)

/-- The number of steps that suffices to follow a reference: a chain passes no slot twice, so the
number of slots that there can ever be bounds its length. -/
def reachBound (g : Grammar) : Nat := g.graph.slotBound + 1

/-- Makes an expression ready for use: every reference that can be reached from it leads to a
node through forwards alone.  The result is the slot of the expression's own node.  A node has at
most two operands, which bounds the number of handles to look at. -/
def prepare (root : Handle) : GrammarM Handle := do
  let reach := reachBound (← get)
  let r ← settleWithin reach root
  exploreWithin reach (2 * reach) ∅ [r]
  pure r

/-- The node that a handle stands for.  A rule without a body reads as `∅`. -/
def nodeOf (h : Handle) : GrammarM Node := do
  match ← traceWithin (reachBound (← get)) [] h with
  | .node r => pure ((← get).graph.node r)
  | .undefined _ _ => pure .nil
  | .circular => throw .exhausted

end Grammar

end DerivativeParsing
