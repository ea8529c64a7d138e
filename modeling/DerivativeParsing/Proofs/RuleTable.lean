import DerivativeParsing.Grammar.Reference
import DerivativeParsing.Proofs.Actions

/-!
# The table of rules

A rule gets its handle when it is first referred to, and from then on the table says that this is
the handle of the rule: no action of the library takes an entry out of the table or changes one.
Every action only adds entries at the end (`Appends`), so that a rule that has been looked up once
is found again for ever (`run_rule_again`).

That an action moves the grammar along some relation whatever it comes to is said by `Moves`, for
relations that can be followed step by step.
-/

set_option autoImplicit false

namespace DerivativeParsing.Grammar

variable {α β : Type}

/-! ## Moving along a relation -/

/-- A relation between grammars that can be followed step by step. -/
class Course (R : Grammar → Grammar → Prop) : Prop where
  refl : ∀ g, R g g
  trans : ∀ {g g' g''}, R g g' → R g' g'' → R g g''

/-- However an action comes out, it has moved the grammar along a relation. -/
def Moves (R : Grammar → Grammar → Prop) (x : GrammarM α) : Prop := ∀ g, R g (x.run.run g).2

section Moves

variable {R : Grammar → Grammar → Prop} [Course R]

namespace Moves

theorem pure (a : α) : Moves R (pure a : GrammarM α) := fun g => Course.refl g

theorem throw (e : Failure) : Moves R (throw e : GrammarM α) := fun g => Course.refl g

theorem bind {x : GrammarM α} {f : α → GrammarM β} (hx : Moves R x) (hf : ∀ a, Moves R (f a)) :
    Moves R (x >>= f) := by
  intro g
  have h := hx g
  rw [run_bind]
  rcases he : x.run.run g with ⟨e | a, g'⟩ <;> rw [he] at h
  · exact h
  · exact Course.trans h (hf a g')

omit [Course R] in
/-- An action that looks at the grammar goes on with the grammar as it is. -/
theorem get_bind {f : Grammar → GrammarM β} (hf : ∀ g, R g ((f g).run.run g).2) :
    Moves R (get >>= f) := by
  intro g
  rw [run_bind, run_get]
  exact hf g

omit [Course R] in
theorem get {f : Grammar → GrammarM β} (hf : ∀ g, Moves R (f g)) : Moves R (get >>= f) :=
  get_bind fun g => hf g g

theorem tryCatch {x : GrammarM α} {f : Failure → GrammarM α} (hx : Moves R x)
    (hf : ∀ e, Moves R (f e)) : Moves R (tryCatch x f) := by
  intro g
  have h := hx g
  rw [run_tryCatch]
  rcases he : x.run.run g with ⟨e | a, g'⟩ <;> rw [he] at h
  · exact Course.trans h (hf e g')
  · exact h

omit [Course R] in
theorem ite {p : Prop} [Decidable p] {x y : GrammarM α} (hx : Moves R x) (hy : Moves R y) :
    Moves R (if p then x else y) := by
  split
  · exact hx
  · exact hy

end Moves

/-! ## Combinators -/

section Combinators

variable (hmake : ∀ n, Moves R (make n))

include hmake

omit [Course R] in
theorem moves_lit (text : String) : Moves R (lit text) := hmake _

theorem moves_range (first last : Char) : Moves R (range first last) :=
  .ite (.throw _) (.ite (hmake _) (hmake _))

theorem moves_token (text : String) : Moves R (token text) := .ite (.throw _) (hmake _)

theorem moves_coerce (o : Operand) : Moves R (coerce o) := by
  cases o with
  | handle h => exact .pure h
  | text text => exact hmake _

theorem moves_joinFrom (join : Handle → Handle → Node) (acc : Handle) (ps : List Operand) :
    Moves R (joinFrom join acc ps) := by
  induction ps generalizing acc with
  | nil => exact .pure acc
  | cons p ps ih => exact (moves_coerce hmake p).bind fun _ => (hmake _).bind fun acc => ih acc

theorem moves_alternatives (ps : List Operand) : Moves R (alternatives ps) := by
  cases ps with
  | nil => exact .pure _
  | cons p ps => exact (moves_coerce hmake p).bind fun _ => moves_joinFrom hmake _ _ ps

theorem moves_sequence (ps : List Operand) : Moves R (sequence ps) := by
  cases ps with
  | nil => exact .pure _
  | cons p ps => exact (moves_coerce hmake p).bind fun _ => moves_joinFrom hmake _ _ ps

theorem moves_unary (node : Handle → Node) (o : Operand) : Moves R (unary node o) :=
  (moves_coerce hmake o).bind fun _ => hmake _

theorem moves_plus (o : Operand) : Moves R (plus o) :=
  (moves_coerce hmake o).bind fun _ => (hmake _).bind fun _ => hmake _

end Combinators

/-! ## Descriptions -/

theorem moves_named (name : String) : Moves R (named name) := by
  refine .get fun g => ?_
  rcases g.names.lookup name with _ | h
  · exact .throw _
  · exact .pure h

theorem moves_asOperand {x : GrammarM Handle} (hx : Moves R x) : Moves R (asOperand x) :=
  hx.bind fun _ => .pure _

/-- All steps that building a description consists of move the grammar along a relation. -/
structure Carries (R : Grammar → Grammar → Prop) : Prop where
  make : ∀ n, Moves R (make n)
  suspend : ∀ body, Moves R (alloc (.suspended body))
  rule : ∀ name, Moves R (rule name)
  bindName : ∀ name h, Moves R (bindName name h)

namespace Carries

theorem iterate (hR : Carries R) (name : String) {layer : GrammarM Operand}
    (hlayer : Moves R layer) (times : Nat) (h : Handle) : Moves R (iterate name layer times h) := by
  induction times generalizing h with
  | zero => exact .pure h
  | succ times ih =>
      refine (hR.bindName name h).bind fun _ => ?_
      exact hlayer.bind fun o => (moves_coerce hR.make o).bind fun h => ih h

mutual

/-- Building a description moves the grammar as its steps do. -/
theorem build (hR : Carries R) (p : Description) : Moves R (build p) := by
  have hunary (node : Handle → Node) (o : Operand) : Moves R (asOperand (unary node o)) :=
    moves_asOperand (moves_unary hR.make node o)
  cases p with
  | text text => exact .pure _
  | nil => exact .pure _
  | empty => exact .pure _
  | any => exact .pure _
  | char c => exact moves_asOperand (hR.make _)
  | range first last => exact moves_asOperand (moves_range hR.make first last)
  | token text => exact moves_asOperand (moves_token hR.make text)
  | lit text => exact moves_asOperand (moves_lit hR.make text)
  | alternatives ps =>
      exact (buildEach hR ps).bind fun os => moves_asOperand (moves_alternatives hR.make os)
  | sequence ps => exact (buildEach hR ps).bind fun os => moves_asOperand (moves_sequence hR.make os)
  | star p => exact (build hR p).bind fun o => hunary _ o
  | rep p count => exact (build hR p).bind fun o => hunary _ o
  | not p => exact (build hR p).bind fun o => hunary _ o
  | plus p => exact (build hR p).bind fun o => moves_asOperand (moves_plus hR.make o)
  | reduction p reducer => exact (build hR p).bind fun o => hunary _ o
  | nullability p => exact (build hR p).bind fun o => hunary _ o
  | emptyReduction trees => exact moves_asOperand (hR.make _)
  | rule name => exact moves_asOperand (hR.rule name)
  | named name => exact moves_asOperand (moves_named name)
  | suspended body => exact moves_asOperand (hR.suspend _)
  | nest times name layer seed =>
      refine (build hR seed).bind fun o => (moves_coerce hR.make o).bind fun h => ?_
      exact moves_asOperand (hR.iterate name (build hR layer) times h)
  | malformed ps => exact (buildEach hR ps).bind fun _ => .throw _

theorem buildEach (hR : Carries R) (ps : List Description) : Moves R (buildEach ps) := by
  cases ps with
  | nil => exact .pure _
  | cons p ps => exact (build hR p).bind fun o => (buildEach hR ps).bind fun os => .pure _

end

theorem express (hR : Carries R) (p : Description) : Moves R (express p) :=
  (hR.build p).bind fun o => moves_coerce hR.make o

/-- What a suspended reference stands for is built and counted. -/
theorem force (hR : Carries R)
    (hcount : Moves R (modify fun g => { g with forced := g.forced + 1 })) (body : Description) :
    Moves R (force body) :=
  hcount.bind fun _ => (hR.express body).tryCatch fun _ => .pure _

end Carries

end Moves

/-! ## Adding entries -/

/-- Entries have been added at the end of the table of rules. -/
def Lengthens (g g' : Grammar) : Prop := g.rules <+: g'.rules

instance : Course Lengthens := ⟨fun _ => List.prefix_rfl, List.IsPrefix.trans⟩

/-- An action adds rules at the end of the table, if it changes the table at all. -/
abbrev Appends (x : GrammarM α) : Prop := Moves Lengthens x

theorem appends_onGraph (f : Graph → α × Graph) : Appends (onGraph f) := fun _ => List.prefix_rfl

theorem appends_make (n : Node) : Appends (make n) := appends_onGraph _

theorem appends_alloc (s : Slot) : Appends (alloc s) := appends_onGraph _

theorem appends_modify {f : Grammar → Grammar} (hf : ∀ g, g.rules <+: (f g).rules) :
    Appends (modify f : GrammarM Unit) := hf

/-- A rule that is new gets the last entry. -/
theorem appends_rule (name : String) : Appends (rule name) := by
  refine .get fun g => ?_
  rcases g.rules.lookup name with _ | h
  · refine (appends_alloc _).bind fun h => ?_
    exact (appends_modify fun g => List.prefix_append g.rules _).bind fun _ => .pure h
  · exact .pure h

theorem appends_define (name : String) (body : Operand) : Appends (define name body) := by
  refine (appends_rule name).bind fun h => .get fun g => ?_
  refine .ite ((Moves.throw _).bind fun _ => ?_) ?_
  all_goals
    refine (moves_coerce appends_make body).bind fun target => .get fun g => ?_
    refine .ite ((Moves.throw _).bind fun _ => ?_) ?_
    all_goals exact (appends_onGraph _).bind fun _ => .pure h

theorem appends_bindName (name : String) (h : Handle) : Appends (bindName name h) :=
  fun _ => List.prefix_rfl

theorem carries_lengthens : Carries Lengthens where
  make := appends_make
  suspend _ := appends_alloc _
  rule := appends_rule
  bindName := appends_bindName

theorem appends_force (body : Description) : Appends (force body) :=
  carries_lengthens.force (appends_modify fun _ => List.prefix_rfl) body

/-! ## Following references -/

section Following

variable {R : Grammar → Grammar → Prop} [Course R]

/-- What every step of following a reference does, following references does. -/
theorem moves_settleWithin
    (htrace : ∀ steps passed h, Moves R (traceWithin steps passed h)) (steps : Nat) (h : Handle) :
    Moves R (settleWithin steps h) := by
  refine (htrace steps [] h).bind fun d => ?_
  cases d with
  | node r => exact .pure r
  | undefined h name => exact .throw _
  | circular => exact .throw _

theorem moves_exploreWithin
    (htrace : ∀ steps passed h, Moves R (traceWithin steps passed h)) (reach steps : Nat)
    (seen : Std.TreeSet Handle) (todo : List Handle) :
    Moves R (exploreWithin reach steps seen todo) := by
  induction steps generalizing seen todo with
  | zero =>
      cases todo with
      | nil => exact .pure ()
      | cons h todo => exact .throw _
  | succ steps ih =>
      cases todo with
      | nil => exact .pure ()
      | cons h todo =>
          refine (moves_settleWithin htrace reach h).bind fun r => ?_
          exact .ite (ih _ _) (.get fun _ => ih _ _)

theorem moves_prepare (htrace : ∀ steps passed h, Moves R (traceWithin steps passed h))
    (root : Handle) : Moves R (prepare root) :=
  .get fun _ => (moves_settleWithin htrace _ _).bind fun r =>
    (moves_exploreWithin htrace _ _ _ _).bind fun _ => .pure r

end Following

theorem appends_traceWithin (steps : Nat) (passed : List Handle) (h : Handle) :
    Appends (traceWithin steps passed h) := by
  induction steps generalizing passed h with
  | zero => exact .throw _
  | succ steps ih =>
      unfold traceWithin
      refine .ite (.pure _) (.get fun g => ?_)
      split
      · exact ih _ _
      · exact (appends_force _).bind fun t => (appends_onGraph _).bind fun _ => ih _ _
      · exact .pure _
      · exact .pure _

/-- Preparing an expression adds the rules that suspended references are the first to refer to. -/
theorem appends_prepare (root : Handle) : Appends (prepare root) :=
  moves_prepare appends_traceWithin root

/-! ## Looking rules up -/

variable {g g' : Grammar} {name : String} {h : Handle}

/-- An entry of the table is found when entries have been added at the end. -/
theorem lookup_lengthened {entries entries' : List (String × Handle)} (hp : entries <+: entries')
    (hlookup : entries.lookup name = some h) : entries'.lookup name = some h := by
  obtain ⟨rest, rfl⟩ := hp
  rw [List.lookup_append, hlookup]
  rfl

/-- A rule that is in the table is found there. -/
theorem run_rule_of_lookup (hlookup : g.rules.lookup name = some h) :
    (rule name).run.run g = (.ok h, g) := by
  unfold rule
  rw [run_bind, run_get]
  simp only [hlookup]
  rfl

/-- A rule that is not in the table gets a new slot and the last entry. -/
theorem run_rule_of_new (hlookup : g.rules.lookup name = none) :
    (rule name).run.run g = (.ok ⟨g.graph.size⟩,
      { g with graph := (g.graph.alloc (.undefined name)).2
               rules := g.rules ++ [(name, ⟨g.graph.size⟩)] }) := by
  unfold rule
  rw [run_bind, run_get]
  simp only [hlookup]
  rfl

/-- Looking a rule up never fails, and the rule is in the table afterwards. -/
theorem run_rule (name : String) (g : Grammar) :
    ∃ h g', (rule name).run.run g = (.ok h, g') ∧ g'.rules.lookup name = some h := by
  rcases hlookup : g.rules.lookup name with _ | h
  · exact ⟨_, _, run_rule_of_new hlookup, by simp [List.lookup_append, hlookup]⟩
  · exact ⟨h, g, run_rule_of_lookup hlookup, hlookup⟩

/-- Once a rule has been referred to, every later reference to it gives the same handle, and changes
nothing. -/
theorem run_rule_again {g'' : Grammar} (hrun : (rule name).run.run g = (.ok h, g'))
    (hrules : g'.rules <+: g''.rules) : (rule name).run.run g'' = (.ok h, g'') := by
  obtain ⟨h', g₁, hrun', hlookup⟩ := run_rule name g
  rw [hrun] at hrun'
  cases hrun'
  exact run_rule_of_lookup (lookup_lengthened hrules hlookup)

end DerivativeParsing.Grammar
