import DerivativeParsing.Proofs.DerivativeChains
import DerivativeParsing.Proofs.Lightening
import DerivativeParsing.Proofs.Operations
import DerivativeParsing.Proofs.RewriteRules

/-!
# The order of nodes

Nodes are made of operands that are there already, so that each of them is stored after its
operands.  Simplification relies on that when it opens nested alternatives.  The order holds of the
grammar without rules, and no operation breaks it (`Grammar.Attained.stacked`): references that lead
to later slots are forwards, which are no nodes.
-/

set_option autoImplicit false

namespace DerivativeParsing

open Fixpoint DerivativeParsing.Graph

/-! ## Slots -/

namespace Graph

variable {g g' : Graph} {h k p t : Handle} {n : Node} {s : Slot}

theorem BottomUp.make (hg : g.BottomUp) (hn : ∀ c ∈ n.children, c.index < g.size) :
    (g.make n).2.BottomUp :=
  hg.builds (P := fun _ => True) (.make (D := g.handles) hn trivial) fun _ hk => hk

theorem BottomUp.setForward (hg : g.BottomUp) : (g.setForward p t).BottomUp := by
  intro h n hs
  rcases eq_or_ne h p with rfl | hne
  · have hlt : h.index < g.size := size_setForward (p := h) (t := t) ▸ slot?_lt hs
    rw [slot?_setForward_self hlt] at hs
    cases hs
  · rw [slot?_setForward_of_ne hne] at hs
    exact hg h n hs

theorem BottomUp.redirect (hg : g.BottomUp) : (g.redirect p t).BottomUp := by
  unfold Graph.redirect
  split
  · exact hg
  · exact hg.setForward

theorem bottomUp_initial : initial.BottomUp := by
  intro h n hs c hc
  rcases h with ⟨_ | _ | _ | i⟩ <;> cases hs <;> cases hc

/-- A graph has grown, and has kept the order of its nodes. -/
def Piles (g g' : Graph) : Prop := g.size ≤ g'.size ∧ (g.BottomUp → g'.BottomUp)

instance : Adds Piles where
  refl _ := ⟨le_rfl, id⟩
  trans h h' := ⟨h.1.trans h'.1, h'.2 ∘ h.2⟩
  size_le h := h.1
  make _ hn := ⟨extends_make.1, fun hg => hg.make hn⟩
  alloc hs := by
    refine ⟨extends_alloc.1, fun hg => hg.alloc fun n hn c hc => ?_⟩
    rw [hn, Slot.references] at hs
    rw [hs] at hc
    cases hc

end Graph

/-! ## Transformations -/

section Transforming

variable {g₀ g₁ g g' : Graph} {S : Set Handle} {standIn : Handle → Handle}
  {rule : Handle → TransformM Handle} {Inv : Memory Handle Handle → Graph → Prop}
  {Tells : Memory Handle Handle → Handle → Handle → Memory Handle Handle → Graph → Prop}
  {m₁ : Memory Handle Handle} {key p v root : Handle} {c : Char} {fuel : Nat}

/-- A rule that runs in any graph makes its result of handles that are there. -/
theorem Carrying.hosts :
    Simplify.Hosts (sustaining g₀ S standIn Inv Tells) key (g₀.node key)
      (Carrying g₀ S True standIn Inv key p g₁ m₁) (fun g => grown g₀ S g) (HeldFor g₀) where
  wellFormed _ _ h := h.working.wellFormed
  closed _ _ h := h.working.closed
  inRange _ _ _ _ hk := hk.1
  fixed _ _ h := ⟨h.mem_grown h.stage.nil, h.mem_grown h.stage.empty, h.mem_grown h.stage.any⟩
  self _ _ h := h.mem_grown h.mem
  answer _ _ h _ _ _ ha := h.answer_mem ha
  frame _ _ _ _ hframe ha := ha.frame hframe
  ask m g h z hz r hl := by
    have hmem := h.operand_mem hz
    have hl := h.leads_of_leads hmem hl
    have hr := h.stage.ground.closed.of_reaches hmem hl.reaches
    refine ⟨⟨⟨hr, hl.self_end⟩, h.working, h.inv⟩, ?_⟩
    rintro a m' g' hframe hholds ⟨hsince, hw, hinv, -⟩
    exact ⟨h.answered hframe hsince hw hinv, r, hl, hholds⟩

/-- A rule that runs in a graph whose nodes are in order. -/
abbrev Stacking (g₀ : Graph) (standIn : Handle → Handle) :=
  Carrying g₀ g₀.handles True standIn fun _ g => g.BottomUp

theorem steady_bottomUp : Steady g₀ S standIn fun _ g => g.BottomUp :=
  fun _ _ _ _ _ hg hbuilds => hg.builds hbuilds fun _ hk => hk.1

/-- A transformation keeps the order of nodes if its rules make nodes of handles that are there. -/
theorem sustains_bottomUp
    (hrule : ∀ key p m g, Stacking g₀ standIn key p g m m g →
      (rule key g).Ensures (sustaining g₀ g₀.handles standIn (fun _ g => g.BottomUp)
        fun _ _ _ _ _ => True) True
        (fun v m' g' => Stacking g₀ standIn key p g m m' g' ∧ v ∈ grown g₀ g₀.handles g') m) :
    Sustains g₀ g₀.handles True standIn rule (fun _ g => g.BottomUp) (fun _ _ _ _ _ => True)
      fun _ _ _ _ _ => True where
  congr _ _ _ _ _ hg := hg
  known _ _ _ _ _ _ _ _ := trivial
  start _ _ _ _ _ hg _ := hg.alloc (by simp)
  rule key p m g h := (hrule key p m g h).mono fun _ _ _ _ hv => ⟨hv.1, hv.2, trivial⟩
  settle _ _ _ _ _ _ _ _ _ h _ _ := ⟨h.inv.redirect, trivial⟩

theorem apply_bottomUp
    (hU : Sustains g₀ g₀.handles True standIn rule (fun _ g => g.BottomUp) (fun _ _ _ _ _ => True)
      fun _ _ _ _ _ => True)
    (hg : g₀.WellFormed) (hbottom : g₀.BottomUp) (hstandIn : ∀ y ∈ g₀.handles, standIn y ∈ g₀.handles)
    (hroot : root.index < g₀.size)
    (h : Transform.apply (Transform.rules standIn rule) g₀ root = some (v, g')) :
    g'.WellFormed ∧ g'.BottomUp ∧ v.index < g'.size := by
  obtain ⟨r, m, -, hw, hbottom', hv, -⟩ := apply_sustains hU hg.stage hstandIn hbottom hroot h
  exact ⟨hw.wellFormed, hbottom', (hw.asked r v hv.holds).2.1⟩

/-- A derivative keeps the order of nodes. -/
theorem Graph.BottomUp.derivative (hbottom : g.BottomUp) (hg : g.WellFormed)
    (hroot : root.index < g.size) (hrun : g.derivative c root = some (v, g')) :
    g'.WellFormed ∧ g'.BottomUp ∧ v.index < g'.size := by
  refine apply_bottomUp (sustains_bottomUp fun key p m g' h => ?_) hg hbottom
    (fun _ _ => hg.nil_lt) hroot hrun
  refine ensures_look (fun _ => trivial) fun n hn => ?_
  obtain rfl : g.node key = n := h.node_eq.symm.trans (Option.some.inj hn)
  refine (h.ensures_derived steady_bottomUp rfl).mono fun v m' g' _ ⟨h', hv, _⟩ => ⟨h', hv⟩

/-- A simplification keeps the order of nodes. -/
theorem Graph.BottomUp.simplify (hbottom : g.BottomUp) (hg : g.WellFormed)
    (hroot : root.index < g.size) (hrun : g.simplify fuel root = some (v, g')) :
    g'.WellFormed ∧ g'.BottomUp ∧ v.index < g'.size := by
  refine apply_bottomUp (sustains_bottomUp fun key p m g' h => ?_) hg hbottom (fun _ => id) hroot hrun
  refine ensures_look (fun _ => trivial) fun n hn => ?_
  obtain rfl : g.node key = n := h.node_eq.symm.trans (Option.some.inj hn)
  refine (Carrying.hosts.ensures h).mono ?_
  rintro v m' g'' - ⟨g₂, o, h', ho, hr⟩
  have hbuilt := h'.build steady_bottomUp hr.builds ho.adds_token
  exact ⟨hbuilt, h'.working.mem_grown_of_built hr.builds.kept.1 hr.built⟩

end Transforming

/-! ## Operations -/

namespace Grammar

variable {g g' g₁ : Grammar} {h p : Handle}

/-- A well-formed grammar whose nodes are stored after their operands. -/
structure Stacked (g : Grammar) : Prop where
  wellFormed : g.WellFormed
  bottomUp : g.graph.BottomUp

theorem stacked_initial : initial.Stacked := ⟨wellFormed_initial, bottomUp_initial⟩

theorem Stacked.of_sound {α : Type} {x : GrammarM α} {Q : α → Grammar → Prop} (hg : g.Stacked)
    (hx : Sound Graph.Piles x Q g) : (x.run.run g).2.Stacked :=
  ⟨hx.wellFormed, hx.change.2 hg.bottomUp⟩

/-- What is stacked before is stacked afterwards. -/
def KeepsStacked (g g' : Grammar) : Prop := g.Stacked → g'.Stacked

instance : Course KeepsStacked := ⟨fun _ => id, fun h h' hg => h' (h hg)⟩

theorem Forced.keepsStacked (hforced : Forced p g g') : KeepsStacked g g' := fun hg => by
  refine ⟨hforced.wellFormed hg.wellFormed, ?_⟩
  obtain ⟨body, t, g₁, -, hrun, rfl⟩ := hforced
  obtain ⟨-, hpiles, -⟩ := hg.wellFormed.of_force (R := Graph.Piles) hrun
  exact (hpiles.2 hg.bottomUp).setForward

theorem keepsStacked_traceWithin (steps : Nat) (passed : List Handle) (h : Handle) :
    Moves KeepsStacked (traceWithin steps passed h) :=
  moves_traceWithin Forced.keepsStacked steps passed h

/-- The nodes that are there are stored after their operands if they were before. -/
def KeepsBottomUp (g g' : Grammar) : Prop := g.graph.BottomUp → g'.graph.BottomUp

instance : Course KeepsBottomUp := ⟨fun _ => id, fun h h' hg => h' (h hg)⟩

theorem keepsBottomUp_rule (name : String) : Moves KeepsBottomUp (rule name) := by
  intro g hg
  rcases hlookup : g.rules.lookup name with _ | h
  · rw [run_rule_of_new hlookup]
    exact hg.alloc (by simp)
  · rwa [run_rule_of_lookup hlookup]

/-- The body of a rule is a forward, which is no node. -/
theorem keepsBottomUp_define (name : String) (body : Operand) :
    Moves KeepsBottomUp (define name body) := by
  have hcoerce : Moves KeepsBottomUp (coerce body) := by
    cases body with
    | handle h => exact .pure h
    | text text =>
        intro g hg
        refine hg.make fun c hc => ?_
        rw [WellFormed.children_literalNode] at hc
        cases hc
  refine (keepsBottomUp_rule name).bind fun h => .get fun g => ?_
  refine .ite ((Moves.throw _).bind fun _ => ?_) ?_
  all_goals
    refine hcoerce.bind fun target => .get fun g => ?_
    refine .ite ((Moves.throw _).bind fun _ => ?_) ?_
    all_goals exact Moves.bind (fun _ hg => hg.setForward) fun _ => .pure h

/-- A transformation of a prepared expression keeps a grammar stacked if it does so from the node
that the expression leads to. -/
theorem Stacked.transform {f : Handle → Graph → Option (Handle × Graph)} (hg : g.Stacked)
    (hh : g.Has h)
    (hf : ∀ graph r v graph', graph.WellFormed → graph.BottomUp → r.index < graph.size →
      f r graph = some (v, graph') →
        graph'.Extends graph ∧ graph'.WellFormed ∧ graph'.BottomUp) :
    ((do
      let r ← prepare h
      onGraph? (f r) : GrammarM Handle).run.run g).2.Stacked := by
  have hprepared := moves_prepare keepsStacked_traceWithin h g hg
  rw [run_bind]
  rcases hrun : (prepare h).run.run g with ⟨e | r, g₁⟩ <;> rw [hrun] at hprepared
  · exact hprepared
  · have hg₁ : g₁.Stacked := hprepared
    obtain ⟨-, hgrows, hl, -⟩ := hg.wellFormed.of_prepare hh hrun
    have hr : r.index < g₁.graph.size :=
      hg₁.wellFormed.graph.lt_of_reaches (hh.change hgrows) hl.reaches
    dsimp only
    rcases hfr : f r g₁.graph with _ | ⟨v, graph⟩
    · rwa [run_onGraph?_none hfr]
    · rw [run_onGraph? hfr]
      obtain ⟨hext, hw, hbottom⟩ := hf _ _ _ _ hg₁.wellFormed.graph hg₁.bottomUp hr hfr
      exact ⟨hg₁.wellFormed.withGraph hw hext.1, hbottom⟩

namespace Operation

/-- The operands of an operation are texts and expressions of the grammar. -/
def Fits (g : Grammar) : Operation → Prop
  | .construct k => ∀ o ∈ k.operands, HasOperand o g
  | .build _ => True
  | .define _ body => HasOperand body g
  | .similar h k => g.Has h ∧ g.Has k
  | .bindName _ h | .prepare h | .nodeOf h | .nullable _ h | .height h | .emptyParses _ h
  | .render h | .display h | .diagram h | .derivative h _ | .simplify _ h | .matches _ h _
  | .parse _ h _ => g.Has h

/-- No operation breaks the order of nodes. -/
theorem stacked {op : Operation} (hg : g.Stacked) (hfits : op.Fits g) : (op.effect g).Stacked := by
  cases op with
  | construct k => exact hg.of_sound (hg.wellFormed.construct hfits)
  | build p => exact hg.of_sound (hg.wellFormed.build p)
  | define name body =>
      exact ⟨(hg.wellFormed.define name hfits).wellFormed, keepsBottomUp_define name body g hg.bottomUp⟩
  | bindName name h => exact hg.of_sound (hg.wellFormed.bindName name hfits)
  | derivative h c =>
      exact hg.transform hfits fun graph r v graph' hw hbottom hr hrun =>
        ⟨derivative_extends hrun, (hbottom.derivative hw hr hrun).1, (hbottom.derivative hw hr hrun).2.1⟩
  | simplify fuel h =>
      exact hg.transform hfits fun graph r v graph' hw hbottom hr hrun =>
        ⟨simplify_extends hrun, (hbottom.simplify hw hr hrun).1, (hbottom.simplify hw hr hrun).2.1⟩
  | _ => exact moves_asking (R := KeepsStacked) keepsStacked_traceWithin (by trivial) g hg

end Operation

/-- A grammar that has been built from nothing, by any operations. -/
inductive Attained : Grammar → Prop where
  | initial : Attained initial
  | step {g : Grammar} (op : Operation) (hg : Attained g) (hfits : op.Fits g) :
      Attained (op.effect g)

/-- Whatever has been done with a grammar, nodes are stored after their operands. -/
theorem Attained.stacked (hg : Attained g) : g.Stacked := by
  induction hg with
  | initial => exact stacked_initial
  | step op _ hfits ih => exact Operation.stacked ih hfits

end Grammar

end DerivativeParsing
