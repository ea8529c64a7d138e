import DerivativeParsing.Analysis.Height
import DerivativeParsing.Analysis.Similar
import DerivativeParsing.Rendering.Diagram
import DerivativeParsing.Rendering.Expression
import DerivativeParsing.Proofs.Construction
import DerivativeParsing.Proofs.ForcingOrder

/-!
# Operations and what they build

Whatever is done with a grammar, three things happen to its slots: slots are added, a rule gets its
body, and a suspended reference is built (`History`).  The history of a grammar tells in which order
references have been built.  A reference that has been built is a forward, and a forward stays, so
that no reference occurs twice in a history (`History.once`).

A preparation builds what it comes through and nothing else.  It reports what is true of the chains
of references once everything has been built, in whatever order (`prepare_settles`).
-/

set_option autoImplicit false

namespace DerivativeParsing.Grammar

open DerivativeParsing.Graph

variable {α : Type} {g g' g₁ : Grammar} {l l' : List Handle} {root h p r t : Handle}

/-! ## Histories -/

/-- What has happened to a grammar, with the suspended references that have been built, in their
order. -/
inductive History (g : Grammar) : List Handle → Grammar → Prop where
  | nil : History g [] g
  /-- Slots have been added, and perhaps names and rules. -/
  | adds {g₁ g' : Grammar} {l : List Handle} (h : History g l g₁)
      (hkept : g'.graph.Extends g₁.graph) (hforced : g'.forced = g₁.forced) : History g l g'
  /-- A rule has got its body. -/
  | defines {g₁ : Grammar} {l : List Handle} {p t : Handle} {name : String} (h : History g l g₁)
      (hs : g₁.graph.slot? p = some (.undefined name)) :
      History g l { g₁ with graph := g₁.graph.setForward p t }
  /-- A suspended reference has been built. -/
  | builds {g₁ g' : Grammar} {l : List Handle} {p : Handle} (h : History g l g₁)
      (hforced : Forced p g₁ g') : History g (l ++ [p]) g'

/-- Slots have been added, and nothing has been built. -/
def Adding (g g' : Grammar) : Prop := g'.graph.Extends g.graph ∧ g'.forced = g.forced

instance : Course Adding :=
  ⟨fun _ => ⟨.refl _, rfl⟩, fun h h' => ⟨h'.1.trans h.1, h'.2.trans h.2⟩⟩

theorem adding_make (n : Node) : Moves Adding (make n) := fun _ => ⟨extends_make, rfl⟩

theorem adding_rule (name : String) : Moves Adding (rule name) := by
  intro g
  rcases hlookup : g.rules.lookup name with _ | h
  · rw [run_rule_of_new hlookup]
    exact ⟨extends_alloc, rfl⟩
  · rw [run_rule_of_lookup hlookup]
    exact Course.refl g

theorem carries_adding : Carries Adding where
  make := adding_make
  suspend _ _ := ⟨extends_alloc, rfl⟩
  rule := adding_rule
  bindName _ _ g := Course.refl (R := Adding) g

namespace Forced

/-- Building a suspended reference counts once, and changes no other slot. -/
theorem cases (hforced : Forced p g g') :
    ∃ (body : Description) (t : Handle) (g₁ : Grammar),
      g.graph.slot? p = some (.suspended body) ∧ g₁.graph.Extends g.graph ∧
      g₁.forced = g.forced + 1 ∧ g' = { g₁ with graph := g₁.graph.setForward p t } := by
  obtain ⟨body, t, g₁, hs, hrun, rfl⟩ := hforced
  have hadds : Moves Adding (tryCatch (express body) fun _ => pure .nil) :=
    (carries_adding.express body).tryCatch fun _ => .pure _
  have h := hadds { g with forced := g.forced + 1 }
  unfold force at hrun
  rw [run_bind, run_modify] at hrun
  dsimp only at hrun
  rw [hrun] at h
  exact ⟨body, t, g₁, hs, h.1, h.2, rfl⟩

theorem slot?_self (hforced : Forced p g g') : ∃ t, g'.graph.slot? p = some (.forward t) := by
  obtain ⟨body, t, g₁, hs, hkept, -, rfl⟩ := hforced.cases
  exact ⟨t, slot?_setForward_self ((slot?_lt hs).trans_le hkept.1)⟩

theorem forward (hforced : Forced p g g') (hh : g.graph.slot? h = some (.forward t)) :
    g'.graph.slot? h = some (.forward t) := by
  obtain ⟨body, t', g₁, hs, hkept, -, rfl⟩ := hforced.cases
  have hne : h ≠ p := fun he => by
    rw [he, hs] at hh
    cases hh
  exact (slot?_setForward_of_ne hne).trans ((hkept.2 h (slot?_lt hh)).trans hh)

end Forced

namespace History

theorem trans {g₂ : Grammar} (h : History g l g₁) (h' : History g₁ l' g₂) :
    History g (l ++ l') g₂ := by
  induction h' with
  | nil => rwa [List.append_nil]
  | adds _ hkept hforced ih => exact ih.adds hkept hforced
  | defines _ hs ih => exact ih.defines hs
  | builds _ hforced ih =>
      rw [← List.append_assoc]
      exact ih.builds hforced

/-- A forward stays a forward, whatever happens. -/
theorem forward (h' : History g l g') (hh : g.graph.slot? h = some (.forward t)) :
    g'.graph.slot? h = some (.forward t) := by
  induction h' with
  | nil => exact hh
  | adds _ hkept _ ih => exact (hkept.2 h (slot?_lt ih)).trans ih
  | @defines g₁ _ p _ _ _ hs ih =>
      have hne : h ≠ p := fun he => by
        rw [he, hs] at ih
        cases ih
      exact (slot?_setForward_of_ne hne).trans ih
  | builds _ hforced ih => exact hforced.forward ih

/-- What has been built is a forward now, and it has been counted. -/
theorem built (h : History g l g') :
    (∀ p ∈ l, ∃ t, g'.graph.slot? p = some (.forward t)) ∧ g'.forced = g.forced + l.length := by
  induction h with
  | nil => exact ⟨by simp, rfl⟩
  | adds _ hkept hforced ih =>
      refine ⟨fun p hp => ?_, hforced.trans ih.2⟩
      obtain ⟨t, ht⟩ := ih.1 p hp
      exact ⟨t, (hkept.2 p (slot?_lt ht)).trans ht⟩
  | @defines g₁ _ q _ _ _ hs ih =>
      refine ⟨fun p hp => ?_, ih.2⟩
      obtain ⟨t, ht⟩ := ih.1 p hp
      exact ⟨t, (History.nil.defines hs).forward ht⟩
  | @builds g₁ g' l q _ hforced ih =>
      refine ⟨fun p hp => ?_, ?_⟩
      · rcases List.mem_append.1 hp with hp | hp
        · obtain ⟨t, ht⟩ := ih.1 p hp
          exact ⟨t, hforced.forward ht⟩
        · rw [List.mem_singleton.1 hp]
          exact hforced.slot?_self
      · obtain ⟨-, -, g₂, -, -, hcount, rfl⟩ := hforced.cases
        rw [List.length_append, List.length_singleton, ← Nat.add_assoc, ← ih.2]
        exact hcount

/-- No suspended reference is built twice. -/
theorem once (h : History g l g') : l.Nodup := by
  induction h with
  | nil => exact List.nodup_nil
  | adds _ _ _ ih => exact ih
  | defines _ _ ih => exact ih
  | @builds g₁ _ l p hrest hforced ih =>
      have hnew : p ∉ l := fun hp => by
        obtain ⟨body, -, -, hs, -⟩ := hforced.cases
        obtain ⟨t, ht⟩ := hrest.built.1 p hp
        rw [hs] at ht
        cases ht
      exact List.nodup_append.2 ⟨ih, List.nodup_singleton p, fun a ha b hb he =>
        hnew (List.mem_singleton.1 hb ▸ he ▸ ha)⟩

end History

/-! ## Actions have a history -/

/-- There is a history from one grammar to another. -/
def Evolves (g g' : Grammar) : Prop := ∃ l, History g l g'

instance : Course Evolves :=
  ⟨fun _ => ⟨[], .nil⟩, fun ⟨l, h⟩ ⟨l', h'⟩ => ⟨l ++ l', h.trans h'⟩⟩

theorem Adding.evolves (h : Adding g g') : Evolves g g' := ⟨[], History.nil.adds h.1 h.2⟩

theorem Forced.evolves (h : Forced p g g') : Evolves g g' := ⟨[p], History.nil.builds h⟩

theorem Moves.evolves {x : GrammarM α} (hx : Moves Adding x) : Moves Evolves x :=
  fun g => (hx g).evolves

theorem evolves_traceWithin (steps : Nat) (passed : List Handle) (h : Handle) :
    Moves Evolves (traceWithin steps passed h) :=
  moves_traceWithin Forced.evolves steps passed h

theorem evolves_prepare (root : Handle) : Moves Evolves (prepare root) :=
  moves_prepare evolves_traceWithin root

theorem evolves_define (name : String) (body : Operand) : Moves Evolves (define name body) := by
  refine (adding_rule name).evolves.bind fun h => .get_bind fun g => ?_
  split
  · exact Course.refl (R := Evolves) g
  · next hopen =>
      obtain ⟨name', hs⟩ : ∃ name', g.graph.slot? h = some (.undefined name') := by
        have hopen : isOpen g.graph h = true := by simpa using hopen
        unfold isOpen at hopen
        split at hopen
        · next name' hs => exact ⟨name', hs⟩
        · cases hopen
      have hadds := moves_coerce adding_make body g
      rw [run_bind]
      rcases hc : (coerce body).run.run g with ⟨e | t, g₁⟩ <;> rw [hc] at hadds <;> dsimp only
      · exact hadds.evolves
      · rw [run_bind, run_get]
        dsimp only
        split
        · exact hadds.evolves
        · exact ⟨[], (History.nil.adds hadds.1 hadds.2).defines
            ((hadds.1.2 h (slot?_lt hs)).trans hs)⟩

theorem evolves_onGraph? {f : Graph → Option (α × Graph)}
    (hf : ∀ g a g', f g = some (a, g') → g'.Extends g) : Moves Evolves (onGraph? f) := by
  refine .get_bind fun g => ?_
  rcases hrun : f g.graph with _ | ⟨a, graph⟩
  · exact Course.refl (R := Evolves) g
  · exact ⟨[], History.nil.adds (hf _ _ _ hrun) rfl⟩

/-! ## Operations -/

/-- What can be done with a grammar.  Some operations are given a number of steps. -/
inductive Operation where
  | construct (k : Constructor)
  | build (p : Description)
  | define (name : String) (body : Operand)
  | bindName (name : String) (h : Handle)
  | prepare (h : Handle)
  | nodeOf (h : Handle)
  | nullable (fuel : Nat) (h : Handle)
  | height (h : Handle)
  | similar (h k : Handle)
  | emptyParses (fuel : Nat) (h : Handle)
  | render (h : Handle)
  | display (h : Handle)
  | diagram (h : Handle)
  | derivative (h : Handle) (c : Char)
  | simplify (fuel : Nat) (h : Handle)
  | «matches» (fuel : Nat) (h : Handle) (text : String)
  | parse (fuel : Nat) (h : Handle) (text : String)

namespace Operation

/-- The grammar that an operation leaves, whether it succeeds or fails. -/
def effect (g : Grammar) : Operation → Grammar
  | .construct k => (k.perform.run.run g).2
  | .build p => ((Grammar.build p).run.run g).2
  | .define name body => ((Grammar.define name body).run.run g).2
  | .bindName name h => ((Grammar.bindName name h).run.run g).2
  | .prepare h => ((Grammar.prepare h).run.run g).2
  | .nodeOf h => ((Grammar.nodeOf h).run.run g).2
  | .nullable fuel h => ((Grammar.nullable fuel h).run.run g).2
  | .height h => ((Grammar.height h).run.run g).2
  | .similar h k => ((Grammar.similar h k).run.run g).2
  | .emptyParses fuel h => ((Grammar.emptyParses fuel h).run.run g).2
  | .render h => ((Grammar.renderExpression h).run.run g).2
  | .display h => ((Grammar.display h).run.run g).2
  | .diagram h => ((Grammar.diagram h).run.run g).2
  | .derivative h c => ((Grammar.derivative h c).run.run g).2
  | .simplify fuel h => ((Grammar.simplify fuel h).run.run g).2
  | .matches fuel h text => ((Grammar.matches fuel h text).run.run g).2
  | .parse fuel h text => ((Grammar.parse fuel h text).run.run g).2

/-- The grammar that several operations leave, one after the other. -/
def effects (ops : List Operation) (g : Grammar) : Grammar := ops.foldl effect g

/-- An operation that asks something about an expression. -/
def Asks : Operation → Prop
  | .construct _ | .build _ | .define _ _ | .bindName _ _ | .derivative _ _ | .simplify _ _ => False
  | _ => True

section Asking

variable {R : Grammar → Grammar → Prop} [Course R]

/-- A question about the graph changes nothing. -/
theorem moves_answer (f : Graph → Option α) : Moves R (answer f) := by
  refine .get fun g => ?_
  rcases f g.graph with _ | a
  · exact .throw _
  · exact .pure a

/-- What is released again leaves no trace. -/
theorem moves_releasing {f : Graph → Option (α × Graph)}
    (hf : ∀ g a g', f g = some (a, g') → g'.Extends g) :
    Moves R (onGraph? (Graph.releasing f)) := by
  intro g
  rw [run_releasing fun a graph => hf g.graph a graph]
  exact Course.refl g

/-- Whoever asks follows references and does nothing else. -/
theorem moves_asking (htrace : ∀ steps passed h, Moves R (traceWithin steps passed h))
    {op : Operation} (hop : op.Asks) (g : Grammar) : R g (op.effect g) := by
  have hinquiry {α : Type} (h : Handle) (f : Handle → Graph → Option α) :
      Moves R (do
        let r ← Grammar.prepare h
        answer (f r)) :=
    (moves_prepare htrace h).bind fun _ => moves_answer _
  cases op with
  | prepare h => exact moves_prepare htrace h g
  | nodeOf h =>
      refine Moves.get (fun g => (htrace _ _ h).bind fun d => ?_) g
      cases d with
      | node r => exact .get fun g => .pure _
      | undefined r name => exact .pure _
      | circular => exact .throw _
  | nullable fuel h => exact hinquiry h (fun r graph => graph.nullable fuel r) g
  | height h => exact hinquiry h (fun r graph => graph.height r) g
  | similar h k =>
      exact ((moves_prepare htrace h).bind fun _ =>
        hinquiry k fun s graph => graph.similar _ s) g
  | emptyParses fuel h => exact hinquiry h (fun r graph => graph.emptyParses fuel r) g
  | render h => exact hinquiry h (fun r graph => graph.render r) g
  | display h =>
      refine ((hinquiry h fun r graph => graph.render r).tryCatch fun e => ?_) g
      cases e with
      | grammar e => exact .pure _
      | _ => exact .throw _
  | diagram h => exact hinquiry h (fun r graph => graph.diagram r) g
  | «matches» fuel h text =>
      exact ((moves_prepare htrace h).bind fun r =>
        moves_releasing fun _ _ _ hrun => (Reworks.of_accepts hrun).kept) g
  | parse fuel h text =>
      exact ((moves_prepare htrace h).bind fun r =>
        moves_releasing fun _ _ _ hrun => (Reworks.of_parses hrun).kept) g
  | _ => exact hop.elim

end Asking

/-- Every operation leaves a grammar with a history. -/
theorem evolves (op : Operation) (g : Grammar) : Evolves g (op.effect g) := by
  cases op with
  | construct k => exact (moves_perform adding_make adding_rule k).evolves g
  | build p => exact (carries_adding.build p).evolves g
  | define name body => exact evolves_define name body g
  | bindName name h => exact (carries_adding.bindName name h).evolves g
  | derivative h c =>
      exact ((evolves_prepare h).bind fun r => evolves_onGraph? fun _ _ _ => derivative_extends) g
  | simplify fuel h =>
      exact ((evolves_prepare h).bind fun r => evolves_onGraph? fun _ _ _ => simplify_extends) g
  | _ => exact moves_asking evolves_traceWithin (by trivial) g

/-- Over any sequence of operations, every suspended reference is built at most once. -/
theorem effects_history (ops : List Operation) (g : Grammar) :
    ∃ l, History g l (effects ops g) ∧ l.Nodup ∧ (effects ops g).forced = g.forced + l.length := by
  have hevolves : Evolves g (effects ops g) := by
    induction ops generalizing g with
    | nil => exact Course.refl g
    | cons op ops ih => exact Course.trans (op.evolves g) (ih (op.effect g))
  obtain ⟨l, h⟩ := hevolves
  exact ⟨l, h, h.once, h.built.2⟩

end Operation

/-! ## What a preparation reports -/

/-- Suspended references whose descriptions give no names can be built in any order until none is
left.  Preparing an expression always comes to an end and only builds suspended references.  It
succeeds exactly if, once everything has been built, every chain of references that starts at the
expression, or at an operand of a node that can be reached, ends at a node.  Then the result is the
node of the expression for ever, and what can be reached holds nodes and forwards only.  If it
fails, it reports a rule without a body at which such a chain ends, or a circle in which such a
chain runs.  Whatever is done with the grammar, every suspended reference is built at most once, and
each time is counted. -/
theorem prepare_settles (hg : g.WellFormed) (hroot : g.Has root) (hpure : g.Pure) :
    (∃ a, Forcing g a ∧ Unsuspended a) ∧
    (∃ res g₁, (prepare root).run.run g = (res, g₁) ∧ Forcing g g₁ ∧
      (∀ a, Forcing g a → Unsuspended a → ((∃ r, res = .ok r) ↔ Grounded a.graph root)) ∧
      (∀ r, res = .ok r →
        (∀ a, Forcing g₁ a → ∃ n, a.graph.Leads root r ∧ a.graph.slot? r = some (.node n)) ∧
        ∀ h, g₁.graph.Reaches root h →
          (∃ n, g₁.graph.slot? h = some (.node n)) ∨ ∃ t, g₁.graph.slot? h = some (.forward t)) ∧
      (∀ e, res = .error e →
        ((∃ name, e = .grammar (.undefinedRule name)) ∨ e = .grammar .cyclicReference) ∧
        ∀ a, Forcing g a → Unsuspended a → Fails a.graph root e)) ∧
    ∀ ops, ∃ l, History g l (Operation.effects ops g) ∧ l.Nodup ∧
      (Operation.effects ops g).forced = g.forced + l.length := by
  refine ⟨hg.exists_unsuspended, ?_, fun ops => Operation.effects_history ops g⟩
  obtain ⟨res, g₁, hrun, hforcing, hok, herror⟩ := hg.prepare_ends hroot
  have hg₁ := hforcing.wellFormed hg
  have hpure₁ : g₁.Pure := (hforcing.develops hg hpure).elim fun _ hdev => hdev.bindsNothing
  -- What the preparation has left is built to its end, and compared with any other order.
  obtain ⟨b, hrest, hdone⟩ := hg₁.exists_unsuspended
  have hb : Forcing g b := hforcing.trans hrest
  have hgrounded (r : Handle) (hr : res = .ok r) {a : Grammar} (ha : Forcing g a)
      (hdoneA : Unsuspended a) : Grounded a.graph root := by
    have hready : b.graph.Ready root := (hrest.grows hg₁).ready (hok r hr).2
    exact grounded_of_forcing hg hpure hroot hb hdone ha hdoneA fun h hh => hready h hh.reaches
  have hfails (e : Failure) (he : res = .error e) {a : Grammar} (ha : Forcing g a)
      (hdoneA : Unsuspended a) : Fails a.graph root e :=
    fails_of_forcing hg hpure hroot hb hdone ha hdoneA (hrest.fails hg₁ hpure₁ (herror e he))
  refine ⟨res, g₁, hrun, hforcing, fun a ha hdoneA => ⟨?_, fun hall => ?_⟩, fun r hr => ⟨?_, ?_⟩,
    fun e he => ⟨?_, fun a => hfails e he⟩⟩
  · rintro ⟨r, hr⟩
    exact hgrounded r hr ha hdoneA
  · rcases res with e | r
    · exact absurd hall (hfails e rfl ha hdoneA).not_grounded
    · exact ⟨r, rfl⟩
  · intro a ha
    obtain ⟨hl, hready⟩ := hok r hr
    obtain ⟨q, n, hq, hs⟩ := hready root .refl
    obtain rfl := hl.unique hq
    have hgrows := ha.grows hg₁
    exact ⟨n, hgrows.leads hl hs, hgrows.node r n hs⟩
  · intro h hh
    obtain ⟨q, n, hl, hs⟩ := (hok r hr).2 h hh
    cases hl with
    | here => exact .inl ⟨n, hs⟩
    | step hf _ => exact .inr ⟨_, hf⟩
  · obtain ⟨h, -, hfault⟩ := herror e he
    unfold Faulty at hfault
    split at hfault
    · exact .inl ⟨_, rfl⟩
    · exact .inr rfl
    · exact hfault.elim

namespace Knotted

/-- The rule `s` is a suspended choice between `a` and a suspended `b s`. -/
def grammar : Grammar :=
  ⟨⟨#[.node .nil, .node .empty, .node .any, .forward ⟨4⟩,
      .suspended (.alternatives [.text "a", .suspended (.sequence [.text "b", .rule "s"])])]⟩,
    [("s", ⟨3⟩)], [], 0⟩

/-- The handle of the rule. -/
def start : Handle := ⟨3⟩

theorem wellFormed_grammar : grammar.WellFormed where
  graph := .of_fits rfl rfl rfl (by decide)
  rules := by decide
  names := by decide

theorem pure_grammar : grammar.Pure := by
  intro h body hs
  rcases h with ⟨_ | _ | _ | _ | _ | i⟩ <;> cases hs
  simp [Description.BindsNothing, Description.EachBindsNothing]

/-- Preparing the rule builds both suspended references, of which the second refers to the rule
again.  Every chain of references ends at a node, in whatever order they are built. -/
theorem prepare_settles_knotted :
    (grammar.WellFormed ∧ grammar.Has start ∧ grammar.Pure) ∧
      ((prepare start).run.run grammar).1 = .ok ⟨7⟩ ∧
      ((prepare start).run.run grammar).2.forced = 2 ∧
      ∀ a, Forcing grammar a → Unsuspended a → Grounded a.graph start := by
  have hstart : grammar.Has start := (by decide : 3 < 5)
  have hresult : ((prepare start).run.run grammar).1 = .ok ⟨7⟩ := by rfl
  obtain ⟨-, ⟨res, g₁, hrun, -, hiff, -⟩, -⟩ :=
    prepare_settles wellFormed_grammar hstart pure_grammar
  refine ⟨⟨wellFormed_grammar, hstart, pure_grammar⟩, hresult, by rfl, fun a ha hdone => ?_⟩
  rw [hrun] at hresult
  exact (hiff a ha hdone).1 ⟨⟨7⟩, hresult⟩

end Knotted

end DerivativeParsing.Grammar
