/-!
# Plans: rules that ask for the values of other keys

The value of a key, a node of a graph say, is computed by a rule that may ask for the values of
other keys.  A `Plan` is such a computation seen from outside: it is either done, or it asks for
the value of a key and goes on when it gets one.  Which questions come next may depend on the
answers, and a rule has no other way to learn about a key.

A rule also has a state, which it may look at and change between its questions.  Whoever answers a
question may change the state as well, so the state is handed over with the question and comes
back with the answer.
-/

set_option autoImplicit false

namespace DerivativeParsing.Fixpoint

/-- A computation with state `σ` and result `α` that asks for values `ν` of keys `κ`. -/
inductive Plan (σ κ ν α : Type) where
  /-- The result, and the state in the end. -/
  | done (result : α) (state : σ)
  /-- A question, the state in which it is asked, and what happens with the answer. -/
  | ask (key : κ) (state : σ) (resume : ν → σ → Plan σ κ ν α)
  /-- There is no result. -/
  | stuck

/-- Goes on after a plan with its result. -/
def Plan.bind {σ κ ν α β : Type} : Plan σ κ ν α → (α → σ → Plan σ κ ν β) → Plan σ κ ν β
  | .done result state, next => next result state
  | .ask key state resume, next => .ask key state fun v s => (resume v s).bind next
  | .stuck, _ => .stuck

/-- A plan that starts in a given state. -/
def Rule (σ κ ν α : Type) := σ → Plan σ κ ν α

namespace Rule

variable {σ κ ν α : Type}

instance : Monad (Rule σ κ ν) where
  pure a := fun s => .done a s
  bind x f := fun s => (x s).bind f

/-- Asks for the value of a key. -/
def ask (key : κ) : Rule σ κ ν ν := fun s => .ask key s .done

/-- Has no result. -/
def stuck : Rule σ κ ν α := fun _ => .stuck

/-- Looks at the state, without a result if there is no answer. -/
def query (f : σ → Option α) : Rule σ κ ν α := fun s =>
  match f s with
  | some a => .done a s
  | none => .stuck

/-- Changes the state and has a result. -/
def update (f : σ → α × σ) : Rule σ κ ν α := fun s =>
  let (a, s) := f s
  .done a s

end Rule

end DerivativeParsing.Fixpoint
