import DerivativeParsing.Analysis.Reading

/-!
# Written expressions

The written form of an expression shows leaves as quoted text or as a symbol and puts every
operand in parentheses, unless it is a leaf or a nullability, whose form has parentheses of its
own.  Where an expression contains itself, the inner occurrence is shown as an ellipsis.
-/

set_option autoImplicit false

namespace DerivativeParsing

/-- A character range between square brackets. -/
def Text.bracketedRange (first last : Char) : String :=
  "[" ++ Text.quotedChar first ++ "-" ++ Text.quotedChar last ++ "]"

/-- The empty word with the trees that it is reduced to. -/
def Forest.renderReduction (f : Forest) : String :=
  "ε↓\x7b" ++ ", ".intercalate f.renderEach ++ "\x7d"

/-- A count between braces. -/
def Count.renderBraced : Count → String
  | .exactly n => "\x7b" ++ toString n ++ "\x7d"
  | .unbounded => "\x7b∞\x7d"

namespace Rendering

/-- What stands for an expression inside itself. -/
def ellipsis : String := "…"

/-- A node whose written form needs no parentheses as an operand. -/
def isSelfContained : Node → Bool
  | .nullability _ => true
  | n => n.isAtomic

/-- The written form of an operand. -/
def operand (g : Graph) (h : Handle) : Reading String String := do
  let text ← .ask g h
  let n ← Fixpoint.Rule.query fun _ => g.nodeAt h
  if isSelfContained n || text == ellipsis then return text
  return "(" ++ text ++ ")"

/-- The written form of each kind of node. -/
def ofNode (g : Graph) : Node → Reading String String
  | .nil => pure "∅"
  | .empty => pure "ε"
  | .any => pure "."
  | .char c => pure (Text.quotedChar c)
  | .range first last => pure (Text.bracketedRange first last)
  | .token text => pure (Text.quotedString text)
  | .alt left right => do
    let left ← operand g left
    let right ← operand g right
    return left ++ " | " ++ right
  | .seq first second => do
    let first ← operand g first
    let second ← operand g second
    return first ++ " " ++ second
  | .star p => do return (← operand g p) ++ "*"
  | .rep p count => do return (← operand g p) ++ count.renderBraced
  | .not p => do return "~" ++ (← operand g p)
  | .nullability p => do return "δ(" ++ (← .ask g p) ++ ")"
  | .emptyReduction trees => pure trees.renderReduction
  | .reduction p reducer => do return (← operand g p) ++ " → " ++ reducer.name

/-- The written form of each node. -/
def table : Table String where
  bottom := ellipsis
  rule g h := ofNode g (g.node h)

end Rendering

/-- The written form of an expression. -/
def Graph.render (g : Graph) (root : Handle) : Option String :=
  Rendering.table.evaluateOnce g root

namespace Grammar

/-- The written form of an expression. -/
def renderExpression (root : Handle) : GrammarM String := do
  let r ← prepare root
  answer (·.render r)

/-- The written form of an expression, or the message of the fault that prevents it. -/
def display (root : Handle) : GrammarM String :=
  tryCatch (renderExpression root) fun
    | .grammar e => pure ("<" ++ e.message ++ ">")
    | failure => throw failure

end Grammar

end DerivativeParsing
