import Std.Data.TreeSet.Basic
import DerivativeParsing.Rendering.Expression

/-!
# Diagrams

The graph of an expression as input for Graphviz: a line for each node that can be reached, the
root with a double circle, followed by a line for each of the node's operands.  The two operands
of a sequence are numbered.  A label escapes backslashes and quotes, on top of the escapes of the
quoted text in it.
-/

set_option autoImplicit false

namespace DerivativeParsing

namespace Diagram

/-- What a node shows. -/
def label : Node → String
  | .nil => "∅"
  | .empty => "ε"
  | .any => "."
  | .char c => Text.quotedChar c
  | .range first last => Text.bracketedRange first last
  | .token text => Text.quotedString text
  | .alt _ _ => "|"
  | .seq _ _ => "◦"
  | .star _ => "*"
  | .rep _ count => count.renderBraced
  | .not _ => "¬"
  | .nullability _ => "δ"
  | .emptyReduction trees => trees.renderReduction
  | .reduction _ reducer => "→ " ++ reducer.name

/-- One character of a label between quotes. -/
def escapeChar (c : Char) : List Char := if c = '\\' || c = '"' then ['\\', c] else [c]

/-- A label as it stands between quotes. -/
def escapeLabel (text : String) : String := String.ofList (text.toList.flatMap escapeChar)

/-- The name of a node in the diagram. -/
def nodeName (h : Handle) : String := "id" ++ toString h.index

/-- The line of a node. -/
def nodeLine (root h : Handle) (n : Node) : String :=
  let shape := if h = root then ", shape=doublecircle" else ""
  "node[label=\"" ++ escapeLabel (label n) ++ "\"" ++ shape ++ "] " ++ nodeName h ++ "\n"

/-- The lines of the edges to operands, numbered from `position` if the operands are numbered. -/
def edgeLines (source : Handle) (numbered : Bool) : Nat → List Handle → String
  | _, [] => ""
  | position, target :: rest =>
    let number := if numbered then " [label=\"" ++ toString position ++ "\"]" else ""
    nodeName source ++ " -> " ++ nodeName target ++ number ++ "\n" ++
      edgeLines source numbered (position + 1) rest

/-- Whether the operands of a node are numbered. -/
def isNumbered : Node → Bool
  | .seq _ _ => true
  | _ => false

/-- The lines of the nodes that can be reached from a stack of handles, the top one first, except
for those that have been drawn. -/
def linesWithin (g : Graph) (root : Handle) :
    Nat → Std.TreeSet Handle → List Handle → Option (List String)
  | _, _, [] => some []
  | 0, _, _ :: _ => none
  | steps + 1, drawn, h :: todo =>
    if drawn.contains h then linesWithin g root steps drawn todo
    else do
      let n := g.node h
      let targets ← n.children.mapM g.resolve
      let rest ← linesWithin g root steps (drawn.insert h) (targets.reverse ++ todo)
      some (nodeLine root h n :: edgeLines h (isNumbered n) 1 targets :: rest)

end Diagram

/-- The diagram of an expression, given the slot of its own node.  A node has at most two
operands, which bounds the number of handles to look at. -/
def Graph.diagram (g : Graph) (root : Handle) : Option String := do
  let lines ← Diagram.linesWithin g root (2 * g.size + 2) ∅ [root]
  some ("digraph \x7b\n" ++ String.join lines ++ "\x7d\n")

/-- The diagram of an expression. -/
def Grammar.diagram (root : Handle) : GrammarM String := do
  let r ← prepare root
  answer (·.diagram r)

end DerivativeParsing
