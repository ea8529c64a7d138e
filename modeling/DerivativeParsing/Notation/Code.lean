import DerivativeParsing.Grammar.Description
import DerivativeParsing.Notation.Mistake

/-!
# Code for the bodies of rules

The body of a rule becomes code that calls the combinators of a grammar `g`.  A branch without
terms is `ε` and a branch with one term is that term; the trees of three or more terms are made a
flat list.  A group, and a choice with a single branch, leave no trace in the code.

Code has a written form (`Code.render`) and a meaning (`Code.description`): how to build the
expression that running the code would build.
-/

set_option autoImplicit false

namespace DerivativeParsing.Notation

/-- Code that builds an expression. -/
inductive Code where
  | rule (name : String)
  | any
  | char (literal : CharLiteral)
  | range (first last : CharLiteral)
  | text (literal : TextLiteral)
  | star (operand : Code)
  | plus (operand : Code)
  | optional (operand : Code)
  | rep (operand : Code) (count : Nat)
  | not (operand : Code)
  | empty
  | sequence (parts : List Code)
  | alternatives (choices : List Code)
  /-- Makes the trees of a sequence of `parts` parts flat. -/
  | flatten (operand : Code) (parts : Nat)
  | reduce (operand : Code) (reducer : Path)

/-! ## Generating code -/

/-- The code for a branch, given the code for its terms. -/
def codeOfParts : List Code → Code
  | [] => .empty
  | [part] => part
  | [first, second] => .sequence [first, second]
  | parts => .flatten (.sequence parts) parts.length

/-- The code for a repetition.  A count that is a mistake leaves the operand. -/
def codeOfCount (operand : Code) (count : CountLiteral) : Code :=
  match count.value? with
  | .ok n => .rep operand n
  | .error _ => operand

/-- Adds a reducer to code. -/
def codeWithReducer (body : Code) : Option Path → Code
  | some path => .reduce body path
  | none => body

/-- The code for a choice, given the code for its branches. -/
def codeOfChoice (first : Code) : List Code → Code
  | [] => first
  | rest => .alternatives (first :: rest)

mutual

/-- The code for a term. -/
def Term.code : Term → Code
  | .rule name => .rule name
  | .any => .any
  | .char c => .char c
  | .range first last => .range first last
  | .text text => .text text
  | .group body => body.code
  | .star t => .star t.code
  | .plus t => .plus t.code
  | .optional t => .optional t.code
  | .rep t n => codeOfCount t.code n
  | .not t => .not t.code

/-- The code for a branch. -/
def Branch.code : Branch → Code
  | ⟨terms, reducer⟩ => codeWithReducer (codeOfParts (codeOfTerms terms)) reducer

/-- The code for a choice. -/
def Alternatives.code : Alternatives → Code
  | ⟨first, rest⟩ => codeOfChoice first.code (codeOfBranches rest)

/-- The code for each of several terms. -/
def codeOfTerms : List Term → List Code
  | [] => []
  | t :: ts => t.code :: codeOfTerms ts

/-- The code for each of several branches. -/
def codeOfBranches : List Branch → List Code
  | [] => []
  | b :: bs => b.code :: codeOfBranches bs

end

/-! ## Written form -/

/-- The written form of a path. -/
def Path.render (p : Path) : String := Token.renderAll p.tokens

/-- The name of the reducer with a path: the path without blanks. -/
def Path.reducerName (p : Path) : String :=
  String.ofList (p.render.toList.filter (· ≠ ' '))

/-- The path of a reducer's constructors. -/
def reducerPath : String := ":: derivatives :: Reducer"

/-- A call of a combinator. -/
def renderCall (combinator arguments : String) : String :=
  "g . " ++ combinator ++ " (" ++ arguments ++ ")"

mutual

/-- The written form of code. -/
def Code.render : Code → String
  | .rule name => renderCall "rule" (Text.stringLiteral name)
  | .any => renderCall "any" ""
  | .char c => renderCall "char" c.spelling
  | .range first last => renderCall "range" (first.spelling ++ " , " ++ last.spelling) ++ " ?"
  | .text text => renderCall "lit" text.spelling
  | .star c => renderCall "star" c.render
  | .plus c => renderCall "plus" c.render
  | .optional c => renderCall "opt" c.render
  | .rep c n => renderCall "rep" (c.render ++ " , " ++ toString n ++ "usize")
  | .not c => renderCall "not" c.render
  | .empty => renderCall "empty" ""
  | .sequence parts => renderCall "seq" ("[" ++ renderCodes parts ++ "]")
  | .alternatives choices => renderCall "alt" ("[" ++ renderCodes choices ++ "]")
  | .flatten c n =>
    renderCall "reduce"
      (c.render ++ " , " ++ reducerPath ++ " :: flatten (" ++ toString n ++ "usize) ,")
  | .reduce c p =>
    renderCall "reduce"
      (c.render ++ " , " ++ reducerPath ++ " :: new (" ++ Text.stringLiteral p.reducerName ++
        " , " ++ p.render ++ ")")

/-- The written forms of several pieces of code, with commas between them. -/
def renderCodes : List Code → String
  | [] => ""
  | [c] => c.render
  | c :: d :: rest => c.render ++ " , " ++ renderCodes (d :: rest)

end

/-! ## Meaning -/

/-- The functions on trees that paths stand for.  They belong to the program around a declaration.
-/
abbrev Actions : Type := Path → Tree → Tree

/-- Each path stands for the standard action with its last name; a name without an action leaves
trees as they are. -/
def Actions.standard : Actions := fun p => (Reducer.standardAction? p.lastName).getD id

/-- The reducer with a path. -/
def Path.reducer (actions : Actions) (p : Path) : Reducer where
  name := p.reducerName
  action := actions p

mutual

/-- How to build the expression that code builds. -/
def Code.description (actions : Actions) : Code → Description
  | .rule name => .rule name
  | .any => .any
  | .char c => .char c.value
  | .range first last => .range first.value last.value
  | .text text => .lit text.value
  | .star c => .star (c.description actions)
  | .plus c => .plus (c.description actions)
  | .optional c => .optional (c.description actions)
  | .rep c n => .rep (c.description actions) (.exactly n)
  | .not c => .not (c.description actions)
  | .empty => .empty
  | .sequence parts => .sequence (descriptions actions parts)
  | .alternatives choices => .alternatives (descriptions actions choices)
  | .flatten c n => .reduction (c.description actions) (.flatten n)
  | .reduce c p => .reduction (c.description actions) (p.reducer actions)

/-- How to build several expressions. -/
def descriptions (actions : Actions) : List Code → List Description
  | [] => []
  | c :: cs => c.description actions :: descriptions actions cs

end

end DerivativeParsing.Notation
