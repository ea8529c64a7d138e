import Std.Data.TreeMap.Basic
import DerivativeParsing.Fixpoint.Plan

/-!
# The fixpoint evaluator

The nodes of a grammar form a graph with cycles, so a function on nodes cannot simply call itself
on the operands of a node.  It is given as a table of rules instead, one plan for each key, and
evaluated with a memory:

* each key is evaluated at most once in a pass, and remembered;
* before the rule of a key runs, the key has a provisional value: its value from the pass before,
  or the table's `bottom` in the first pass.  A question about a key whose rule is still running
  gets the provisional value;
* `run` repeats the pass, with the values remembered so far, until no provisional value that was
  given away in a pass differs from the value that its key had in the end.  `runOnce` makes do
  with one pass.

The depth to which questions may nest and the number of passes are bounded from outside.  An
evaluation that would go beyond the bounds has no result.
-/

set_option autoImplicit false

namespace DerivativeParsing.Fixpoint

/-- A function on keys `κ` with values `ν`, as a table of rules over a state `σ`. -/
structure Rules (σ κ ν : Type) where
  /-- The provisional value of a key that has no value yet. -/
  bottom : κ → σ → ν × σ
  /-- How the value of a key is computed. -/
  rule : κ → Rule σ κ ν ν
  /-- What happens to the state when a key has its value.  The arguments are the provisional
  value and the computed one. -/
  settle : ν → ν → σ → σ := fun _ _ s => s

/-- How far a key has come in a pass. -/
inductive Progress where
  /-- The rule of the key is running.  The provisional value may have been given away. -/
  | underway (givenAway : Bool)
  /-- The key has its value. -/
  | finished
deriving DecidableEq, Inhabited

/-- What is remembered about the keys that have been asked for. -/
structure Memory (κ ν : Type) [Ord κ] where
  /-- The last value of each key, provisional or computed. -/
  values : Std.TreeMap κ ν
  /-- The keys of this pass. -/
  progress : Std.TreeMap κ Progress
  /-- Whether a provisional value was given away in this pass that was not the value in the
  end. -/
  stale : Bool

namespace Memory

variable {κ ν : Type} [Ord κ]

/-- Nothing is remembered. -/
def empty : Memory κ ν := ⟨∅, ∅, false⟩

/-- A new pass, which remembers the values. -/
def nextPass (m : Memory κ ν) : Memory κ ν := ⟨m.values, ∅, false⟩

/-- The rule of a key starts. -/
def start (m : Memory κ ν) (key : κ) (provisional : ν) : Memory κ ν :=
  ⟨m.values.insert key provisional, m.progress.insert key (.underway false), m.stale⟩

/-- A key of this pass is asked for again. -/
def giveAway (m : Memory κ ν) (key : κ) : Progress → Memory κ ν
  | .underway _ => ⟨m.values, m.progress.insert key (.underway true), m.stale⟩
  | .finished => m

/-- Whether the provisional value of a key was given away while its rule was running. -/
def wasGivenAway (m : Memory κ ν) (key : κ) : Bool :=
  m.progress[key]? == some (.underway true)

/-- The rule of a key ends. -/
def finish [BEq ν] (m : Memory κ ν) (key : κ) (provisional computed : ν) : Memory κ ν :=
  let stale := m.stale || (m.wasGivenAway key && provisional != computed)
  ⟨m.values.insert key computed, m.progress.insert key .finished, stale⟩

end Memory

variable {σ κ ν α : Type} [Ord κ]

/-- Carries out a plan, with `visit` to answer its questions. -/
def carryOut (visit : κ → Memory κ ν → σ → Option (ν × Memory κ ν × σ)) :
    Plan σ κ ν α → Memory κ ν → Option (α × Memory κ ν × σ)
  | .done result s, m => some (result, m, s)
  | .ask key s resume, m =>
    match visit key m s with
    | some (v, m, s) => carryOut visit (resume v s) m
    | none => none
  | .stuck, _ => none

/-- The value of a key: a remembered one if the key has been asked for in this pass, and else the
one that its rule computes.  Questions nest at most as deep as the first argument says. -/
def visit [BEq ν] (rules : Rules σ κ ν) :
    Nat → κ → Memory κ ν → σ → Option (ν × Memory κ ν × σ)
  | 0, _, _, _ => none
  | depth + 1, key, m, s =>
    match m.progress[key]? with
    | some progress =>
      match m.values[key]? with
      | some v => some (v, m.giveAway key progress, s)
      | none => none
    | none =>
      let (provisional, s) :=
        match m.values[key]? with
        | some v => (v, s)
        | none => rules.bottom key s
      match carryOut (visit rules depth) (rules.rule key s) (m.start key provisional) with
      | some (computed, m, s) =>
        some (computed, m.finish key provisional computed, rules.settle provisional computed s)
      | none => none

/-- The value of a key after one pass, and the state. -/
def runOnce [BEq ν] (rules : Rules σ κ ν) (depth : Nat) (key : κ) (s : σ) : Option (ν × σ) :=
  match visit rules depth key .empty s with
  | some (v, _, s) => some (v, s)
  | none => none

/-- Repeats passes until one gives away no provisional value that turns out different. -/
def iterate [BEq ν] (rules : Rules σ κ ν) (depth : Nat) (key : κ) :
    Nat → Memory κ ν → σ → Option (ν × σ)
  | 0, _, _ => none
  | passes + 1, m, s =>
    match visit rules depth key m.nextPass s with
    | some (v, m, s) => if m.stale then iterate rules depth key passes m s else some (v, s)
    | none => none

/-- The value of a key after as many passes as it takes, but no more than `passes`. -/
def run [BEq ν] (rules : Rules σ κ ν) (depth passes : Nat) (key : κ) (s : σ) : Option (ν × σ) :=
  iterate rules depth key passes .empty s

end DerivativeParsing.Fixpoint
