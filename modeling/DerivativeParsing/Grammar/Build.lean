import DerivativeParsing.Grammar.Basic

/-!
# Building descriptions

Building a description in a grammar makes its nodes: operands from left to right, then the node
that joins them.  A text stays a text until a combinator uses it.  A suspended description takes
one slot now and is built by `force` when it is needed; if that fails, it stands for `∅`.
-/

set_option autoImplicit false

namespace DerivativeParsing.Grammar

/-- Repeats `layer` on a handle, which has the name `name` while the next one is built. -/
def iterate (name : String) (layer : GrammarM Operand) : Nat → Handle → GrammarM Handle
  | 0, h => pure h
  | times + 1, h => do
    bindName name h
    let next ← coerce (← layer)
    iterate name layer times next

/-- A handle as an operand. -/
def asOperand (action : GrammarM Handle) : GrammarM Operand := do pure (.handle (← action))

mutual

/-- Builds a description.  The result is an operand, since a text is not yet an expression. -/
def build : Description → GrammarM Operand
  | .text text => pure (.text text)
  | .nil => pure (.handle .nil)
  | .empty => pure (.handle .empty)
  | .any => pure (.handle .any)
  | .char c => asOperand (char c)
  | .range first last => asOperand (range first last)
  | .token text => asOperand (token text)
  | .lit text => asOperand (lit text)
  | .alternatives ps => do asOperand (alternatives (← buildEach ps))
  | .sequence ps => do asOperand (sequence (← buildEach ps))
  | .star p => do asOperand (unary .star (← build p))
  | .rep p count => do asOperand (unary (.rep · count) (← build p))
  | .not p => do asOperand (unary .not (← build p))
  | .plus p => do asOperand (plus (← build p))
  | .reduction p reducer => do asOperand (unary (.reduction · reducer) (← build p))
  | .nullability p => do asOperand (unary .nullability (← build p))
  | .emptyReduction trees => asOperand (make (.emptyReduction (Forest.ofList trees)))
  | .rule name => asOperand (rule name)
  | .named name => asOperand (named name)
  | .suspended body => asOperand (alloc (.suspended body))
  | .nest times name layer seed => do
    let h ← coerce (← build seed)
    asOperand (iterate name (build layer) times h)
  | .malformed ps => do
    let _ ← buildEach ps
    throw .malformed

/-- Builds several descriptions from left to right. -/
def buildEach : List Description → GrammarM (List Operand)
  | [] => pure []
  | p :: ps => do
    let operand ← build p
    let operands ← buildEach ps
    pure (operand :: operands)

end

/-- Builds a description and makes it an expression. -/
def express (p : Description) : GrammarM Handle := do coerce (← build p)

/-- Builds what a suspended reference stands for, or `∅` if that fails. -/
def force (body : Description) : GrammarM Handle := do
  modify fun g => { g with forced := g.forced + 1 }
  tryCatch (express body) fun _ => pure .nil

end DerivativeParsing.Grammar
