import DerivativeParsing.Grammar.Reference
import DerivativeParsing.Fixpoint.Evaluator

/-!
# Reading a graph

A function on the nodes of a graph is a table of rules with one plan for each node (`Table`).
The keys are resolved handles: a rule asks for an operand by the handle at the end of the
operand's chain of forwards.  The graph itself does not change while it is read, so the rules have
no state.

A plan nests its questions at most as deep as there are nodes, since a node that is already being
evaluated is not evaluated again.
-/

set_option autoImplicit false

namespace DerivativeParsing

open Fixpoint

/-- A computation that asks for the values `ν` of nodes. -/
abbrev Reading (ν α : Type) := Rule Unit Handle ν α

/-- A function on the nodes of a graph. -/
structure Table (ν : Type) where
  /-- The provisional value of a node. -/
  bottom : ν
  /-- The value of a node, given the resolved handle. -/
  rule : Graph → Handle → Reading ν ν

/-- The value of an operand. -/
def Reading.ask {ν : Type} (g : Graph) (h : Handle) : Reading ν ν :=
  match g.resolve h with
  | some r => Rule.ask r
  | none => Rule.stuck

/-- The rules of a table for one graph. -/
def Table.rules {ν : Type} (table : Table ν) (g : Graph) : Rules Unit Handle ν where
  bottom _ _ := (table.bottom, ())
  rule := table.rule g

/-- The value of an expression after one pass. -/
def Table.evaluateOnce {ν : Type} [BEq ν] (table : Table ν) (g : Graph) (root : Handle) :
    Option ν := do
  let r ← g.resolve root
  let (v, _) ← runOnce (table.rules g) (g.size + 1) r ()
  some v

/-- The value of an expression when no further pass would change it, if `fuel` passes are
enough. -/
def Table.evaluate {ν : Type} [BEq ν] (table : Table ν) (fuel : Nat) (g : Graph)
    (root : Handle) : Option ν := do
  let r ← g.resolve root
  let (v, _) ← run (table.rules g) (g.size + 1) fuel r ()
  some v

namespace Grammar

/-- The answer of a question about the graph as it is now. -/
def answer {α : Type} (f : Graph → Option α) : GrammarM α := do ofOption (f (← get).graph)

end Grammar

end DerivativeParsing
