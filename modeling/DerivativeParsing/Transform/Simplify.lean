import DerivativeParsing.Transform.Basic
import DerivativeParsing.Analysis.Height
import DerivativeParsing.Analysis.Nullable
import DerivativeParsing.Analysis.Similar

/-!
# Simplification

Simplification turns an expression, from its leaves upwards, into a smaller one that matches the
same words with the same trees.  Parts that match nothing disappear, `ε` disappears from
sequences, repeated repetitions and double complements collapse, reductions of known trees are
carried out, and alternatives lose their duplicates and are sorted by height.  A node whose
operands stay what they were is kept.

While an expression is being simplified, its placeholder forwards to the expression itself.
-/

set_option autoImplicit false

namespace DerivativeParsing

namespace Simplify

open Transform

/-- Whether an operand was given back as it was.  A placeholder never counts as unchanged, even
while it still forwards to the operand: what it stands for may turn out different. -/
def unchanged (g : Graph) (new old : Handle) : Option Bool :=
  if new = old then some true else do return new == (← g.resolve old)

/-! ## Alternatives -/

/-- The operands of nested alternatives, from left to right.  Only alternatives that are stored
in a slot themselves are opened; references are kept whole.  An alternative is stored after its
operands, which bounds the nesting. -/
def branches (g : Graph) (h : Handle) : List Handle :=
  match g.stored? h with
  | some (.alt left right) =>
    if _ : left.index < h.index ∧ right.index < h.index then
      branches g left ++ branches g right
    else [h]
  | _ => [h]
termination_by h.index

/-- Whether a branch is equal to one of those kept so far. -/
def isKept (g : Graph) (branch : Handle) : List Handle → Option Bool
  | [] => some false
  | k :: kept => do if ← g.similar k branch then some true else isKept g branch kept

/-- The branches that match something, without duplicates, in front of which the branches kept
so far stand in reverse. -/
def distinct (g : Graph) (kept : List Handle) : List Handle → Option (List Handle)
  | [] => some kept.reverse
  | branch :: rest => do
    if ← g.isNil branch then distinct g kept rest
    else if ← isKept g branch kept.reverse then distinct g kept rest
    else distinct g (branch :: kept) rest

/-- Branches with their heights. -/
def withHeights (g : Graph) (branches : List Handle) : Option (List (Nat × Handle)) :=
  branches.mapM fun branch => do return (← g.height branch, branch)

/-- Branches in the order of their heights.  Branches of one height keep their order.  The heights
matter, and are looked at, only if there are two branches to compare. -/
def byHeight (g : Graph) (branches : List Handle) : Option (List Handle) := do
  if branches.length < 2 then return branches
  let ranked ← withHeights g branches
  return (ranked.mergeSort fun a b => a.1 ≤ b.1).map (·.2)

/-- The operands of an alternative that is stored in a slot itself. -/
def alternative? (g : Graph) (h : Handle) : Option (Handle × Handle) :=
  match g.stored? h with
  | some (.alt left right) => some (left, right)
  | _ => none

/-- Builds `a₁ | (a₂ | (… | aₙ))`, with the nodes of an existing expression where that has the
same shape. -/
def rebuild : List Handle → Option Handle → TransformM Handle
  | [], _ => pure .nil
  | [only], _ => pure only
  | first :: rest, existing => do
    let shape ← look fun g => some (existing.bind fun e => (alternative? g e).map (e, ·))
    match shape with
    | some (e, left, right) => do
      let existingRest ← look (·.resolve right)
      let tail ← rebuild rest (some existingRest)
      let same ← look fun g => do
        if ← unchanged g first left then unchanged g tail right else some false
      if same then pure e else make (.alt first tail)
    | none => do
      let tail ← rebuild rest none
      make (.alt first tail)

/-- Joins two simplified operands of an alternative: flattened, without `∅` and duplicates, and
sorted by height. -/
def alternatives (self left right : Handle) : TransformM Handle := do
  let kept ← look fun g => do
    let kept ← distinct g [] (branches g left ++ branches g right)
    byHeight g kept
  rebuild kept (some self)

/-! ## The other nodes -/

/-- The node `self` if its operand stayed what it was, and else a new node. -/
def keepOrMake (self new old : Handle) (n : Node) : TransformM Handle := do
  if ← look (unchanged · new old) then pure self else make n

/-- The repetition of a simplified operand that needs no new node: `∅* = ε* = ε` and
`p** = p*`. -/
def starred? (operand : Handle) : Node → Option Handle
  | .nil | .empty => some .empty
  | .star _ => some operand
  | _ => none

/-- The simplified form of each kind of node, where `self` is the node's own handle. -/
def ofNode (fuel : Nat) (self : Handle) : Node → TransformM Handle
  | .nil | .empty | .any | .char _ | .token _ | .emptyReduction _ => pure self
  | .range first last => if first = last then make (.char first) else pure self
  | .alt left right => do
    let left ← ask left
    let right ← ask right
    alternatives self left right
  | .seq first second => do
    let newFirst ← ask first
    let newSecond ← ask second
    if ← look (·.isNil newFirst) then pure .nil
    else if ← look (·.isNil newSecond) then pure .nil
    else if ← look (·.isEmpty newFirst) then pure newSecond
    else if ← look (·.isEmpty newSecond) then pure newFirst
    else
      let same ← look fun g => do
        if ← unchanged g newFirst first then unchanged g newSecond second else some false
      if same then pure self else make (.seq newFirst newSecond)
  | .star operand => do
    let new ← ask operand
    match starred? new (← look (·.nodeAt new)) with
    | some done => pure done
    | none => keepOrMake self new operand (.star new)
  | .rep _ (.exactly 0) => pure .empty
  | .rep operand (.exactly 1) => ask operand
  | .rep operand .unbounded => do
    let new ← ask operand
    match starred? new (← look (·.nodeAt new)) with
    | some done => pure done
    | none => make (.star new)
  | .rep operand (.exactly n) => do
    let new ← ask operand
    match ← look (·.nodeAt new) with
    | .nil => pure .nil
    | .empty => pure .empty
    | _ => keepOrMake self new operand (.rep new (.exactly n))
  | .not operand => do
    let new ← ask operand
    match ← look (·.nodeAt new) with
    | .not inner => pure inner
    | _ => keepOrMake self new operand (.not new)
  | .nullability operand => do
    if ← look (·.nullable fuel operand) then
      let new ← ask operand
      match ← look (·.nodeAt new) with
      | .empty | .emptyReduction _ | .nullability _ => pure new
      | _ => keepOrMake self new operand (.nullability new)
    else pure .nil
  | .reduction operand reducer => do
    let new ← ask operand
    match ← look (·.nodeAt new) with
    | .nil => pure .nil
    | .emptyReduction trees => do
      let reduced ← look fun _ => reducer.reduce? trees
      make (.emptyReduction reduced)
    | _ => keepOrMake self new operand (.reduction new reducer)

/-- The rules of simplification.  Nullability is decided with `fuel` passes. -/
def rules (fuel : Nat) : Fixpoint.Rules Graph Handle Handle :=
  Transform.rules id fun h => do
    let n ← look fun g => some (g.node h)
    ofNode fuel h n

end Simplify

/-- One simplification from the leaves upwards. -/
def Graph.simplify (fuel : Nat) (g : Graph) (root : Handle) : Option (Handle × Graph) :=
  Transform.apply (Simplify.rules fuel) g root

/-- Simplifies an expression until that makes no difference, at most as many times as the second
argument says. -/
def Graph.normaliseWithin (fuel : Nat) : Nat → Graph → Handle → Option (Handle × Graph)
  | 0, _, _ => none
  | rounds + 1, g, root => do
    let (next, g) ← g.simplify fuel root
    if next = root then some (next, g)
    else if ← g.similar root next then some (next, g)
    else g.normaliseWithin fuel rounds next

/-- Simplifies an expression until that makes no difference. -/
def Graph.normalise (fuel : Nat) (g : Graph) (root : Handle) : Option (Handle × Graph) :=
  g.normaliseWithin fuel fuel root

/-- One simplification of an expression from its leaves upwards. -/
def Grammar.simplify (fuel : Nat) (root : Handle) : GrammarM Handle := do
  let r ← prepare root
  onGraph? (·.simplify fuel r)

end DerivativeParsing
