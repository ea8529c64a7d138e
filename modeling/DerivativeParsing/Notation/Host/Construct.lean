import DerivativeParsing.Notation.Host.Statement
import DerivativeParsing.Notation.Reading

/-!
# Reading phrases

Ties the readers of all kinds of phrases together.  A phrase inside another takes fewer steps, so
that reading comes to an end; `Host.standard` grants steps enough.
-/

set_option autoImplicit false

namespace DerivativeParsing.Notation

/-- Reads a phrase of some kind, where `read` reads the phrases inside. -/
def Host.constructFrom (read : Host.Inner) : Host.Inner
  | .type sum => Host.type read sum
  | .bound captured marks => Host.bound read captured marks
  | .expression braces => Host.expression read braces
  | .operand braces => Host.operand read braces
  | .operation braces floor first => Host.operation read braces floor first
  | .leading => Host.leadingExpression read
  | .pattern => Host.pattern read
  | .statements => Host.statements read
  | .item => Host.item read
  | .importTree rooted => Host.importTree read rooted

/-- Reads a phrase of some kind in a number of steps. -/
def Host.construct : Nat → Host.Inner
  | 0 => fun _ => throw .unfinished
  | steps + 1 => Host.constructFrom (Host.construct steps)

open Reader in
/-- The phrases that declarations of grammars are used with. -/
def Host.standard : HostSyntax where
  path := do
    let read := Host.construct (stepBound (← remaining))
    let found ← Host.path read .type
    return ⟨found.tokens, found.last.name⟩
  attributes := do Host.attributes (Host.construct (stepBound (← remaining)))
  visibility := Host.visibility

end DerivativeParsing.Notation
