import DerivativeParsing.Grammar.Graph
import DerivativeParsing.Grammar.Error

/-!
# Grammars under construction

A grammar is a graph together with the names of its rules, the names that handles were given
while it was built, and the number of suspended references that have been built so far.  The
operations that build a grammar are actions of `GrammarM`: they change the grammar, and what they
changed before they fail stays changed.

A combinator takes operands that are handles or texts.  A text becomes an expression only when
the combinator uses it, after all operands are known: that decides which slot each node gets.
-/

set_option autoImplicit false

namespace DerivativeParsing

/-- A graph with names. -/
structure Grammar where
  graph : Graph
  /-- The rules that have been referred to or defined, oldest first. -/
  rules : List (String × Handle)
  /-- The handles that have been given names, oldest name first. -/
  names : List (String × Handle)
  /-- How many suspended references have been built. -/
  forced : Nat
deriving Inhabited

/-- An action on a grammar, which may fail. -/
abbrev GrammarM := ExceptT Failure (StateM Grammar)

/-- An expression, or a text that is to become one. -/
inductive Operand where
  | handle (h : Handle)
  | text (text : String)
deriving Inhabited

namespace Grammar

/-- The grammar without rules. -/
def initial : Grammar := ⟨Graph.initial, [], [], 0⟩

/-- The number of slots taken so far. -/
def nodeCount (g : Grammar) : Nat := g.graph.size

/-- The written form of a grammar, which shows its size only. -/
def render (g : Grammar) : String :=
  "Grammar \x7b nodes: " ++ toString g.nodeCount ++ ", rules: " ++ toString g.rules.length ++ " \x7d"

/-! ## Slots -/

/-- Fails with a fault of the grammar. -/
def fault {α : Type} (e : GrammarError) : GrammarM α := throw (.grammar e)

/-- The answer of a question that has none when it needs too many steps. -/
def ofOption {α : Type} : Option α → GrammarM α
  | some a => pure a
  | none => throw .exhausted

/-- Changes the graph and has an answer. -/
def onGraph {α : Type} (f : Graph → α × Graph) : GrammarM α :=
  modifyGet fun g =>
    let ⟨graph, rules, names, forced⟩ := g
    let (a, graph) := f graph
    (a, ⟨graph, rules, names, forced⟩)

/-- Changes the graph, if there is an answer. -/
def onGraph? {α : Type} (f : Graph → Option (α × Graph)) : GrammarM α := do
  match f (← get).graph with
  | some (a, graph) =>
    modify fun g => { g with graph }
    pure a
  | none => throw .exhausted

/-- A handle for a node. -/
def make (n : Node) : GrammarM Handle := onGraph fun graph => graph.make n

/-- Takes a slot. -/
def alloc (s : Slot) : GrammarM Handle := onGraph fun graph => graph.alloc s

/-! ## Leaves -/

/-- One character. -/
def char (c : Char) : GrammarM Handle := make (.char c)

/-- One character between two bounds.  A range of one character is that character. -/
def range (first last : Char) : GrammarM Handle :=
  if last < first then fault (.invalidRange first last)
  else if first = last then char first
  else make (.range first last)

/-- The node of a text: `ε` if it is empty, a character if it has one, and else a token. -/
def literalNode : List Char → Node
  | [] => .empty
  | [c] => .char c
  | text => .token text

/-- A text, which may be empty. -/
def lit (text : String) : GrammarM Handle := make (literalNode text.toList)

/-- A text, which must not be empty. -/
def token (text : String) : GrammarM Handle :=
  if text.isEmpty then fault .emptyToken else lit text

/-- The handle of an operand. -/
def coerce : Operand → GrammarM Handle
  | .handle h => pure h
  | .text text => lit text

/-! ## Combinators -/

/-- Joins operands from the left, coercing each one when it is its turn. -/
def joinFrom (join : Handle → Handle → Node) (acc : Handle) : List Operand → GrammarM Handle
  | [] => pure acc
  | p :: ps => do
    let h ← coerce p
    let acc ← make (join acc h)
    joinFrom join acc ps

/-- Any number of alternatives, nested to the left.  No alternative at all is `∅`. -/
def alternatives : List Operand → GrammarM Handle
  | [] => pure .nil
  | p :: ps => do joinFrom .alt (← coerce p) ps

/-- Any number of parts in sequence, nested to the left.  No part at all is `ε`. -/
def sequence : List Operand → GrammarM Handle
  | [] => pure .empty
  | p :: ps => do joinFrom .seq (← coerce p) ps

/-- A node with one operand. -/
def unary (node : Handle → Node) (p : Operand) : GrammarM Handle := do make (node (← coerce p))

/-- At least one match of the operand: `p p*`. -/
def plus (p : Operand) : GrammarM Handle := do
  let h ← coerce p
  let rest ← make (.star h)
  make (.seq h rest)

/-! ## Rules -/

/-- The handle of a rule, which is the same for every reference to the rule. -/
def rule (name : String) : GrammarM Handle := do
  match (← get).rules.lookup name with
  | some h => pure h
  | none =>
    let h ← alloc (.undefined name)
    modify fun g => { g with rules := g.rules ++ [(name, h)] }
    pure h

/-- Whether the slot of a rule waits for a body. -/
def isOpen (graph : Graph) (h : Handle) : Bool :=
  match graph.slot? h with
  | some (.undefined _) => true
  | _ => false

/-- Gives a rule its body. -/
def define (name : String) (body : Operand) : GrammarM Handle := do
  let h ← rule name
  if !isOpen (← get).graph h then fault (.duplicateRule name)
  let target ← coerce body
  if (← get).graph.resolve target == some h then fault (.cyclicRule name)
  onGraph fun graph => ((), graph.setForward h target)
  pure h

/-- Whether a rule has a body. -/
def isDefined (g : Grammar) (name : String) : Bool :=
  match g.rules.lookup name with
  | some h => !isOpen g.graph h
  | none => false

/-! ## Named handles -/

/-- The list of names in which `name` stands for `h`. -/
def rename (name : String) (h : Handle) : List (String × Handle) → List (String × Handle)
  | [] => [(name, h)]
  | entry :: rest => if entry.1 = name then (name, h) :: rest else entry :: rename name h rest

/-- Gives a handle a name, which the name's last handle loses. -/
def bindName (name : String) (h : Handle) : GrammarM Unit :=
  modify fun g => { g with names := rename name h g.names }

/-- The handle of a name. -/
def named (name : String) : GrammarM Handle := do
  match (← get).names.lookup name with
  | some h => pure h
  | none => throw (.unboundName name)

end Grammar

end DerivativeParsing
