import DerivativeParsing.Grammar.Build
import DerivativeParsing.Notation.Code

/-!
# From declarations to grammars

A declaration becomes a program that defines its rules one after the other.  The program has a
written form, `Declaration.program`, which also reports the mistakes of the declaration, and can
be carried out on a grammar, `Declaration.build`, given the functions that the paths of reducers
stand for.
-/

set_option autoImplicit false

namespace DerivativeParsing.Notation

/-! ## Written form -/

/-- Text inside braces. -/
def braced (content : List String) : List String := ["\x7b"] ++ content ++ ["\x7d"]

/-- The report of a mistake. -/
def Mistake.report (m : Mistake) : List String :=
  [":: core :: compile_error !"] ++ braced [Text.stringLiteral m.message]

/-- A documentation attribute with the spelling of its text. -/
def documentation (text : String) : String := "# [doc = " ++ text ++ "]"

/-- The visibility of a declaration, if it has one. -/
def Declaration.visibilityWords (d : Declaration) : List String :=
  if d.visibility.isEmpty then [] else [Token.renderAll d.visibility]

/-- The definition of a rule. -/
def RuleDefinition.definition (r : RuleDefinition) : String :=
  "g . define (" ++ Text.stringLiteral r.name ++ " , " ++ r.body.code.render ++ ") ? ;"

/-- The function that returns a rule. -/
def Declaration.accessor (d : Declaration) (r : RuleDefinition) : List String :=
  [documentation (Text.stringLiteral ("The `" ++ r.name ++ "` rule."))] ++ d.visibilityWords ++
    ["fn", r.name, "(& self) -> :: derivatives :: Expr"] ++
    braced ["self . grammar . rule (" ++ Text.stringLiteral r.name ++ ")"]

/-- The name of the first rule, and the empty text if there is no rule. -/
def Declaration.startName (d : Declaration) : String := d.ruleNames.headD ""

/-- The function that builds the grammar. -/
def Declaration.constructor (d : Declaration) : List String :=
  [documentation "r\" Builds the grammar. Fails if a range or repetition in it is\"",
    documentation "r\" invalid.\""] ++ d.visibilityWords ++
  ["fn new () -> :: core :: result :: Result < Self , :: derivatives :: GrammarError >"] ++
  braced (["let g = :: derivatives :: Grammar :: new () ;"] ++
    d.rules.map RuleDefinition.definition ++
    ["let start = g . rule (" ++ Text.stringLiteral d.startName ++ ") ;",
      ":: core :: result :: Result :: Ok (Self \x7b grammar : g , start \x7d)"])

/-- The functions that make the grammar a language. -/
def Declaration.languageItems : List String :=
  ["fn grammar (& self) -> & :: derivatives :: Grammar"] ++ braced ["& self . grammar"] ++
  ["fn start (& self) -> :: derivatives :: Expr"] ++ braced ["self . start"]

/-- The written form of the program, after the reports of all mistakes. -/
def Declaration.program (d : Declaration) : String :=
  " ".intercalate
    (d.mistakes.flatMap Mistake.report ++ d.attributes.map Token.renderAll ++ d.visibilityWords ++
      ["struct", d.name] ++
      braced ["grammar : :: derivatives :: Grammar , start : :: derivatives :: Expr ,"] ++
      ["impl", d.name] ++ braced (d.constructor ++ d.rules.flatMap d.accessor) ++
      ["impl :: derivatives :: Language for", d.name] ++ braced Declaration.languageItems)

/-! ## Carrying it out -/

/-- Defines a rule. -/
def RuleDefinition.define (actions : Actions) (r : RuleDefinition) : GrammarM Handle := do
  let body ← Grammar.express (r.body.code.description actions)
  Grammar.define r.name (.handle body)

/-- Defines several rules. -/
def defineAll (actions : Actions) : List RuleDefinition → GrammarM Unit
  | [] => pure ()
  | r :: rest => do
    let _ ← r.define actions
    defineAll actions rest

/-- Defines the rules of a declaration, and returns the first one. -/
def Declaration.build (actions : Actions) (d : Declaration) : GrammarM Handle := do
  defineAll actions d.rules
  Grammar.rule d.startName

end DerivativeParsing.Notation
