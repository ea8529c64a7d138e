import DerivativeParsing.Text.Quoted

/-!
# What can go wrong with a grammar

`GrammarError` lists the faults that a grammar can have, each with its message.  A `Failure` of
an operation is such a fault, a description that says nothing, or the end of the number of steps
that the operation was given.
-/

set_option autoImplicit false

namespace DerivativeParsing

/-- A fault of a grammar. -/
inductive GrammarError where
  /-- The first bound of a range comes after the last. -/
  | invalidRange (first last : Char)
  /-- A token without characters. -/
  | emptyToken
  /-- A rule is referred to and has no body. -/
  | undefinedRule (name : String)
  /-- A rule is given a second body. -/
  | duplicateRule (name : String)
  /-- The body of a rule is the rule. -/
  | cyclicRule (name : String)
  /-- A chain of references leads back to its start. -/
  | cyclicReference
deriving DecidableEq, Repr

namespace GrammarError

/-- The wording of a fault. -/
def message : GrammarError → String
  | .invalidRange first last =>
    "invalid range: " ++ Text.quotedChar first ++ " comes after " ++ Text.quotedChar last
  | .emptyToken => "a token must contain at least one character"
  | .undefinedRule name => "rule `" ++ name ++ "` is referenced but never defined"
  | .duplicateRule name => "rule `" ++ name ++ "` is defined more than once"
  | .cyclicRule name => "rule `" ++ name ++ "` is defined as nothing but itself"
  | .cyclicReference => "a suspended reference resolves to nothing but itself"

end GrammarError

/-- Why an operation on a grammar has no result. -/
inductive Failure where
  /-- The grammar has a fault. -/
  | grammar (fault : GrammarError)
  /-- A description uses a name that no handle has. -/
  | unboundName (name : String)
  /-- A description says nothing. -/
  | malformed
  /-- The operation needs more steps than it was given, or has no result at all. -/
  | exhausted
deriving DecidableEq, Repr

end DerivativeParsing
