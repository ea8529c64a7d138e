import DerivativeParsing.Transform.Basic

/-!
# Derivatives

The derivative of an expression by a character `c` matches what remains of the words of the
expression that start with `c`, after that character.  The character itself is recorded: what
matched it becomes a reduction of the empty word to the tree of the character.
-/

set_option autoImplicit false

namespace DerivativeParsing

namespace Derivative

open Transform

/-- The empty word, with the tree of the character that was consumed. -/
def matched (c : Char) : TransformM Handle := make (.emptyReduction (.singleton (.char c)))

/-- One more match of a repetition, in front of the rest of it. -/
def another (first rest : Handle) : TransformM Handle := do
  let both ← make (.seq first rest)
  make (.reduction both .prepend)

/-- The derivative of each kind of node, where `self` is the node's own handle:

* `D (p | q) = D p | D q`,
* `D (p q) = D p q | δ(p) D q`,
* `D (p*) = D p p* → prepend`,
* `D (p{n}) = D p p{n-1} → prepend`, where a pair needs no reduction,
* `D (~p) = ~D p` and `D (p → f) = D p → f`.
-/
def ofNode (c : Char) (self : Handle) : Node → TransformM Handle
  | .nil | .empty | .nullability _ | .emptyReduction _ => pure .nil
  | .any => pure .empty
  | .char v => if v = c then matched c else pure .nil
  | .range first last => if first ≤ c && c ≤ last then matched c else pure .nil
  | .token [] => pure .nil
  | .token (first :: rest) =>
    if first = c then do
      let rest ← make (Grammar.literalNode rest)
      make (.seq (← matched c) rest)
    else pure .nil
  | .alt left right => do
    let left ← ask left
    let right ← ask right
    make (.alt left right)
  | .seq first second => do
    let fromFirst ← ask first
    let left ← make (.seq fromFirst second)
    let fromSecond ← ask second
    let skipped ← make (.nullability first)
    let right ← make (.seq skipped fromSecond)
    make (.alt left right)
  | .not operand => do make (.not (← ask operand))
  | .star operand | .rep operand .unbounded => do another (← ask operand) self
  | .rep _ (.exactly 0) => pure .nil
  | .rep operand (.exactly 1) => ask operand
  | .rep operand (.exactly 2) => do make (.seq (← ask operand) operand)
  | .rep operand (.exactly (n + 1)) => do
    let first ← ask operand
    let rest ← make (.rep operand (.exactly n))
    another first rest
  | .reduction operand reducer => do make (.reduction (← ask operand) reducer)

/-- The rules of the derivative by a character.  An expression whose derivative is being computed
has `∅` for its derivative until then. -/
def rules (c : Char) : Fixpoint.Rules Graph Handle Handle :=
  Transform.rules (fun _ => .nil) fun h => do
    let n ← look fun g => some (g.node h)
    ofNode c h n

end Derivative

/-- The derivative of an expression by a character. -/
def Graph.derivative (c : Char) (g : Graph) (root : Handle) : Option (Handle × Graph) :=
  Transform.apply (Derivative.rules c) g root

/-- The derivative of an expression by a character, as it is: the result is not simplified. -/
def Grammar.derivative (root : Handle) (c : Char) : GrammarM Handle := do
  let r ← prepare root
  onGraph? (·.derivative c r)

end DerivativeParsing
