import DerivativeParsing.Transform.Derivative
import DerivativeParsing.Transform.Simplify
import DerivativeParsing.Analysis.EmptyParses

/-!
# Matching and parsing

A word is matched by taking one derivative for each of its characters: the word belongs to the
expression if the last derivative is nullable.  Its parses are the parses of the empty word of the
last derivative.  The derivatives are simplified as they are taken.  `matches` simplifies once
after each character; `parse` simplifies at the start and after each character until nothing
changes.  Both give up when nothing can match any more, and both release the nodes that they
added.
-/

set_option autoImplicit false

namespace DerivativeParsing

namespace Graph

/-- Whether an expression matches a word, with the graph that the derivatives leave. -/
def accepts (fuel : Nat) : Graph → Handle → List Char → Option (Bool × Graph)
  | g, h, [] => do return (← g.nullable fuel h, g)
  | g, h, c :: rest => do
    let (h, g) ← g.derivative c h
    let (h, g) ← g.simplify fuel h
    if ← g.isNil h then return (false, g)
    g.accepts fuel h rest

/-- The parses of a word by an expression that simplification leaves as it is, with the graph
that the derivatives leave. -/
def parsesFrom (fuel : Nat) : Graph → Handle → List Char → Option (Forest × Graph)
  | g, h, [] => do return (← g.emptyParses fuel h, g)
  | g, h, c :: rest => do
    let (h, g) ← g.derivative c h
    let (h, g) ← g.normalise fuel h
    if ← g.isNil h then return (.empty, g)
    g.parsesFrom fuel h rest

/-- The parses of a word, with the graph that the derivatives leave. -/
def parses (fuel : Nat) (g : Graph) (h : Handle) (word : List Char) :
    Option (Forest × Graph) := do
  let (h, g) ← g.normalise fuel h
  g.parsesFrom fuel h word

/-- Carries out a computation and drops the slots that it added. -/
def releasing {α : Type} (f : Graph → Option (α × Graph)) (g : Graph) : Option (α × Graph) := do
  let (a, after) ← f g
  return (a, after.truncate g.size)

end Graph

namespace Grammar

/-- Whether an expression matches all of a text. -/
def «matches» (fuel : Nat) (root : Handle) (text : String) : GrammarM Bool := do
  let r ← prepare root
  onGraph? (Graph.releasing fun g => g.accepts fuel r text.toList)

/-- The parses of a text.  There are none if the expression does not match it. -/
def parse (fuel : Nat) (root : Handle) (text : String) : GrammarM Forest := do
  let r ← prepare root
  onGraph? (Graph.releasing fun g => g.parses fuel r text.toList)

end Grammar

end DerivativeParsing
