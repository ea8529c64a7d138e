import DerivativeParsing.Recognition
import DerivativeParsing.Rendering.Expression

/-!
# Successive derivatives

Taking the derivatives of an expression by the characters of a text, one after the other, and
looking at each of them on the way.
-/

set_option autoImplicit false

namespace DerivativeParsing

/-- What can be seen of an expression. -/
structure Appearance where
  handle : Handle
  text : String
  nullable : Bool
  height : Nat

namespace Grammar

/-- Looks at an expression. -/
def appearance (fuel : Nat) (h : Handle) : GrammarM Appearance := do
  let text ← renderExpression h
  let isNullable ← nullable fuel h
  let ownHeight ← height h
  pure ⟨h, text, isNullable, ownHeight⟩

/-- The derivative of an expression by a character, simplified if that is asked for. -/
def advance (fuel : Nat) (simplified : Bool) (h : Handle) (c : Char) : GrammarM Handle := do
  let next ← derivative h c
  if simplified then simplify fuel next else pure next

/-- The derivatives of an expression by the characters of a word, one after the other: how each
of them looks, and the last one. -/
def successiveDerivatives (fuel : Nat) (simplified : Bool) :
    Handle → List Char → GrammarM (List Appearance × Handle)
  | h, [] => pure ([], h)
  | h, c :: rest => do
    let next ← advance fuel simplified h c
    let seen ← appearance fuel next
    let (seenLater, last) ← successiveDerivatives fuel simplified next rest
    pure (seen :: seenLater, last)

end Grammar

end DerivativeParsing
