import DerivativeParsing.Grammar.Description

/-!
# Grammar graphs

A graph is a row of slots, numbered in the order in which they were taken.  A slot holds a node,
or a reference: one that is suspended, one to a rule without a body, or a forward to another
handle.  A handle stands for the node at the end of its chain of forwards (`resolve`).  Slots are
only ever added at the end, turned into forwards, or dropped from the end again.

A chain of forwards may be circular.  Such a handle stands for nothing, and `resolve` has no
answer for it.
-/

set_option autoImplicit false

namespace DerivativeParsing

/-- What a place in a grammar graph holds. -/
inductive Slot where
  | node (n : Node)
  /-- A reference that is built when it is first needed. -/
  | suspended (body : Description)
  /-- A rule that is referred to and has no body yet. -/
  | undefined (name : String)
  /-- A reference to another place. -/
  | forward (target : Handle)
deriving Inhabited

/-- A row of slots. -/
structure Graph where
  slots : Array Slot
deriving Inhabited

namespace Graph

/-- The graph that holds `∅`, `ε` and `.` only. -/
def initial : Graph := ⟨#[.node .nil, .node .empty, .node .any]⟩

/-- The number of slots. -/
def size (g : Graph) : Nat := g.slots.size

/-- What a slot holds. -/
def slot? (g : Graph) (h : Handle) : Option Slot := g.slots[h.index]?

/-! ## Adding and changing slots -/

/-- Takes the next slot. -/
def alloc (g : Graph) (s : Slot) : Handle × Graph :=
  (⟨g.slots.size⟩, ⟨g.slots.push s⟩)

/-- A handle for a node: the fixed one for `∅`, `ε` and `.`, and a new slot for any other. -/
def make (g : Graph) : Node → Handle × Graph
  | .nil => (.nil, g)
  | .empty => (.empty, g)
  | .any => (.any, g)
  | n => g.alloc (.node n)

/-- Turns a slot into a forward. -/
def setForward (g : Graph) (h target : Handle) : Graph :=
  ⟨g.slots.setIfInBounds h.index (.forward target)⟩

/-- Sends a placeholder on to its target, unless it is the target itself. -/
def redirect (g : Graph) (placeholder target : Handle) : Graph :=
  if placeholder = target then g else g.setForward placeholder target

/-- Drops all slots from `mark` on. -/
def truncate (g : Graph) (mark : Nat) : Graph := ⟨g.slots.take mark⟩

/-! ## Looking things up -/

/-- The end of a chain of at most `steps` forwards. -/
def resolveWithin (g : Graph) : Nat → Handle → Option Handle
  | 0, _ => none
  | steps + 1, h =>
    match g.slot? h with
    | some (.forward target) => g.resolveWithin steps target
    | _ => some h

/-- The end of a chain of forwards, if the chain has one: a chain that does not repeat itself
has no more links than the graph has slots. -/
def resolve (g : Graph) (h : Handle) : Option Handle := g.resolveWithin (g.size + 1) h

/-- The node that is stored in a slot itself. -/
def stored? (g : Graph) (h : Handle) : Option Node :=
  match g.slot? h with
  | some (.node n) => some n
  | _ => none

/-- The node of a resolved handle.  A reference that leads nowhere reads as `∅`. -/
def node (g : Graph) (h : Handle) : Node := (g.stored? h).getD .nil

/-- A handle at the end of its chain, and the node there. -/
def view (g : Graph) (h : Handle) : Option (Handle × Node) :=
  (g.resolve h).map fun r => (r, g.node r)

/-- The node that a handle stands for. -/
def nodeAt (g : Graph) (h : Handle) : Option Node := (g.resolve h).map g.node

/-- Whether a handle stands for `∅`. -/
def isNil (g : Graph) (h : Handle) : Option Bool :=
  (g.nodeAt h).map fun
    | .nil => true
    | _ => false

/-- Whether a handle stands for `ε`. -/
def isEmpty (g : Graph) (h : Handle) : Option Bool :=
  (g.nodeAt h).map fun
    | .empty => true
    | _ => false

/-- At least as many slots as the graph can have once everything suspended in it is built. -/
def slotBound (g : Graph) : Nat :=
  g.slots.foldl (fun bound s =>
    match s with
    | .suspended body => bound + body.slotBound + 2
    | _ => bound + 1) 0

end Graph

end DerivativeParsing
