import DerivativeParsing.Notation.Declaration
import DerivativeParsing.Text.Quoted

/-!
# Mistakes in a declaration

A declaration that can be read may still say something impossible.  `Declaration.mistakes` lists
what is wrong with it: first the names of the rules, in order, then what their bodies say, in the
order of the text.  A count is judged after the term that it belongs to.
-/

set_option autoImplicit false

namespace DerivativeParsing.Notation

/-- What can be wrong with a declaration. -/
inductive Mistake where
  /-- A rule has a name that the generated code needs for itself. -/
  | reservedName (name : String)
  | duplicateRule (name : String)
  | noRules
  /-- A body refers to a rule that is not declared. -/
  | unknownRule (name : String)
  /-- The first character of a range comes after the last. -/
  | reversedRange (first last : Char)
  /-- A count does not fit into a machine word. -/
  | countTooLarge
  | negativeCount
deriving DecidableEq, Repr

namespace Mistake

/-- The wording of a mistake. -/
def message : Mistake → String
  | .reservedName name => "`" ++ name ++ "` can't be used as a rule name"
  | .duplicateRule name => "rule `" ++ name ++ "` is defined more than once"
  | .noRules => "a grammar needs at least one rule"
  | .unknownRule name => "unknown rule `" ++ name ++ "`"
  | .reversedRange first last =>
    "range starts after it ends: " ++ Text.quotedChar first ++ " > " ++ Text.quotedChar last
  | .countTooLarge => "number too large to fit in target type"
  | .negativeCount => "invalid digit found in string"

end Mistake

/-! ## Bodies -/

/-- The number of a count. -/
def CountLiteral.value? (n : CountLiteral) : Except Mistake Nat :=
  if n.negative then .error .negativeCount
  else if UInt64.size ≤ n.magnitude then .error .countTooLarge
  else .ok n.magnitude

/-- What is wrong with a count. -/
def CountLiteral.mistakes (n : CountLiteral) : List Mistake :=
  match n.value? with
  | .ok _ => []
  | .error mistake => [mistake]

/-- What is wrong with a range. -/
def rangeMistakes (first last : Char) : List Mistake :=
  if last < first then [.reversedRange first last] else []

mutual

/-- What is wrong with a term, if `rules` are declared. -/
def Term.mistakes (rules : List String) : Term → List Mistake
  | .rule name => if rules.contains name then [] else [.unknownRule name]
  | .any | .char _ | .text _ => []
  | .range first last => rangeMistakes first.value last.value
  | .group body => Alternatives.mistakes rules body
  | .star t | .plus t | .optional t | .not t => Term.mistakes rules t
  | .rep t n => Term.mistakes rules t ++ n.mistakes

/-- What is wrong with the terms of a branch. -/
def Branch.mistakes (rules : List String) : Branch → List Mistake
  | ⟨terms, _⟩ => termMistakes rules terms

/-- What is wrong with the branches of a choice. -/
def Alternatives.mistakes (rules : List String) : Alternatives → List Mistake
  | ⟨first, rest⟩ => Branch.mistakes rules first ++ branchMistakes rules rest

/-- What is wrong with several terms. -/
def termMistakes (rules : List String) : List Term → List Mistake
  | [] => []
  | t :: ts => Term.mistakes rules t ++ termMistakes rules ts

/-- What is wrong with several branches. -/
def branchMistakes (rules : List String) : List Branch → List Mistake
  | [] => []
  | b :: bs => Branch.mistakes rules b ++ branchMistakes rules bs

end

/-! ## Names -/

/-- The names that the generated code needs for itself. -/
def reservedNames : List String := ["new", "grammar", "start", "matches", "parse"]

/-- What is wrong with the names of rules that follow others. -/
def nameMistakes (earlier : List String) : List String → List Mistake
  | [] => []
  | name :: rest =>
    (if reservedNames.contains name then [.reservedName name] else []) ++
      (if earlier.contains name then [.duplicateRule name] else []) ++
        nameMistakes (name :: earlier) rest

/-- What is wrong with a declaration. -/
def Declaration.mistakes (d : Declaration) : List Mistake :=
  nameMistakes [] d.ruleNames ++ (if d.rules.isEmpty then [.noRules] else []) ++
    d.rules.flatMap fun r => r.body.mistakes d.ruleNames

end DerivativeParsing.Notation
