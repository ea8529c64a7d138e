import Mathlib.Data.List.Permutation
import DerivativeParsing.Proofs.Rewriting

/-!
# The language of a simplified expression

Simplification adds no word.  It loses none if no placeholder stands for less after it has been sent
on to its result (`language_simplify`), and its result can be prepared again if no chain of forwards
is closed (`Simplified.ready`).  Neither happens where no cycle can be reached.
-/

set_option autoImplicit false

namespace DerivativeParsing

open Fixpoint DerivativeParsing.Graph

section Simplifying

variable {g₀ g : Graph} {S : Set Handle} {m : Memory Handle Handle} {v z r : Handle}
  {E F : Prop} {fuel : Nat}

/-! ## The whole simplification -/

/-- The rule of simplification for a handle. -/
abbrev Simplify.rule (fuel : Nat) (h : Handle) : TransformM Handle := do
  let n ← Transform.look fun g => some (g.node h)
  Simplify.ofNode fuel h n

theorem upholds_simplify (hS : g₀.Part S) (htame : g₀.TameComplements S) :
    Upholds g₀ S id (Simplify.rule fuel) (SimplifyInv E F g₀ S)
      (fun _ g key v => SimplifyResult E g₀ g key v) True
      (fun e => (E → e.state.LosesNothing e.provisional e.computed) ∧
        (F → e.state.ClosesNoChain e.provisional e.computed)) where
  congr m m' g hfinished _ h :=
    ⟨fun y v hv => h.meets y v ((hfinished y v).1 hv), h.firm.congr hfinished, h.arrives⟩
  start key m g hasks hfresh := by
    obtain ⟨hkey, -, hw, hinv, -⟩ := hasks
    refine hinv.extend hw extends_alloc (fun y v => Memory.finished_start hfresh)
      (hinv.firm.start hw hS hkey hkey hfresh) fun k hle hlt => ?_
    rw [size_alloc] at hlt
    obtain rfl : k = ⟨g.size⟩ := Handle.ext_index (by simp only; omega)
    obtain ⟨r, n, hl, hs⟩ := (hS.leadsToNode hkey).congr hS.closed
      (fun k hk => (extends_alloc.trans hw.kept).2 k (hS.inRange k hk)) hkey
    exact ⟨r, n, .step slot?_alloc_new hl, hs⟩
  rule key p n m g h := h.ensures_node (Simplifying.ensures h htame)
  settle key p v m g hw hinv hp hv hresult hallowed :=
    hinv.settle hw hS hp hv hresult hallowed.1 hallowed.2

/-- While an expression is simplified, no placeholder comes to stand for less when it is sent on. -/
def Graph.SimplifiesLosslessly (fuel : Nat) (g : Graph) (r : Handle) : Prop :=
  ∀ e, Settles (Simplify.rules fuel) e (g.size + 1) r .empty g →
    e.state.LosesNothing e.provisional e.computed

/-- While an expression is simplified, no chain of forwards is closed. -/
def Graph.SimplifiesOpenly (fuel : Nat) (g : Graph) (r : Handle) : Prop :=
  ∀ e, Settles (Simplify.rules fuel) e (g.size + 1) r .empty g →
    e.state.ClosesNoChain e.provisional e.computed

/-- What is left when the expression at `r` has been simplified to `v`. -/
structure Simplified (fuel : Nat) (g₀ : Graph) (S : Set Handle) (r : Handle)
    (m : Memory Handle Handle) (g : Graph) (v : Handle) : Prop where
  working : Working g₀ S id m g
  inv : SimplifyInv (g₀.SimplifiesLosslessly fuel r) (g₀.SimplifiesOpenly fuel r) g₀ S m g
  finished : m.Finished r v

theorem Graph.Part.simplified (hS : g₀.Part S) (htame : g₀.TameComplements S) (hz : z ∈ S)
    (hl : g₀.Leads z r) (h : g₀.simplify fuel z = some (v, g)) :
    ∃ m, Simplified fuel g₀ S r m g v := by
  obtain ⟨m, hw, hinv, hv, -⟩ := apply_upholds
    (upholds_simplify (E := g₀.SimplifiesLosslessly fuel r) (F := g₀.SimplifiesOpenly fuel r)
      hS htame) hS (fun _ hy => hy) (.initial hS htame) hz hl
    (fun e he => ⟨fun hlossless => hlossless e he, fun hopen => hopen e he⟩) h
  exact ⟨m, hw, hinv, hv⟩

namespace Simplified

theorem mem_grown (hs : Simplified fuel g₀ S r m g v) : v ∈ grown g₀ S g :=
  (hs.working.asked r v hs.finished.holds).2

/-- The simplified form of an expression has no more words. -/
theorem language_le (hs : Simplified fuel g₀ S r m g v) : g.language v ≤ g₀.language r :=
  (hs.inv.meets r v hs.finished).le

/-- The simplified form has the same words if no placeholder comes to stand for less, or if no cycle
can be reached. -/
theorem language_eq (hs : Simplified fuel g₀ S r m g v)
    (h : g₀.SimplifiesLosslessly fuel r ∨ g₀.Tame r) : g.language v = g₀.language r :=
  (hs.inv.meets r v hs.finished).eq h

/-- The simplified form can be prepared if no chain is closed, or if no cycle can be reached. -/
theorem ready (hs : Simplified fuel g₀ S r m g v) (hS : g₀.Part S)
    (h : g₀.SimplifiesOpenly fuel r ∨ g₀.Tame r) : g.Ready v := by
  rcases h with hopen | htame
  · exact fun k hk => hs.inv.arrives hopen k (hs.working.closed.of_reaches hs.mem_grown hk)
  · exact hs.working.ready_of_firm hS hs.mem_grown (hs.inv.firm.results r v hs.finished htame)

end Simplified

end Simplifying

/-! ## The action on a grammar -/

namespace Grammar

variable {g g₁ g₂ : Grammar} {root r s : Handle} {fuel : Nat}

/-- What an answer of `simplify` comes from. -/
theorem of_run_simplify (hprepare : (prepare root).run.run g = (.ok r, g₁))
    (hsimplify : (Grammar.simplify fuel root).run.run g = (.ok s, g₂)) :
    ∃ graph, g₁.graph.simplify fuel r = some (s, graph) ∧ g₂ = { g₁ with graph } := by
  unfold Grammar.simplify at hsimplify
  rw [run_bind, hprepare] at hsimplify
  exact of_run_onGraph? hsimplify

theorem run_simplify {graph : Graph} (hprepare : (prepare root).run.run g = (.ok r, g₁))
    (hs : g₁.graph.simplify fuel r = some (s, graph)) :
    (Grammar.simplify fuel root).run.run g = (.ok s, { g₁ with graph }) := by
  unfold Grammar.simplify
  rw [run_bind, hprepare]
  exact run_onGraph? hs

theorem simplified_of_run (hl : g₁.graph.Leads root r)
    (hS : g₁.graph.Part (g₁.graph.scope root))
    (htame : g₁.graph.TameComplements (g₁.graph.scope root))
    (hprepare : (prepare root).run.run g = (.ok r, g₁))
    (hsimplify : (Grammar.simplify fuel root).run.run g = (.ok s, g₂)) :
    ∃ m, Simplified fuel g₁.graph (g₁.graph.scope root) r m g₂.graph s := by
  obtain ⟨graph, hgraph, rfl⟩ := of_run_simplify hprepare hsimplify
  exact hS.simplified htame (.inl hl.reaches) hl.self_end hgraph

/-- Simplification of an expression that can be prepared, and in which no cycle can be reached from
the operand of a complement, adds no word.  It loses none if no placeholder comes to stand for less
when it is sent on to a result, in particular if no cycle can be reached at all.  Nothing that was
there is changed. -/
theorem language_simplify (hg : g.WellFormed) (hroot : g.Has root)
    (hprepare : (prepare root).run.run g = (.ok r, g₁)) (htame : g₁.graph.ComplementsTame root)
    (hsimplify : (Grammar.simplify fuel root).run.run g = (.ok s, g₂)) :
    g₁.graph.Prefix g₂.graph ∧ g₂.graph.language s ≤ g₁.graph.language root ∧
      (g₁.graph.SimplifiesLosslessly fuel r ∨ g₁.graph.Tame root →
        g₂.graph.language s = g₁.graph.language root) := by
  obtain ⟨hl, hS, htame⟩ := part_of_prepare hg hroot hprepare htame
  obtain ⟨m, hs⟩ := simplified_of_run hl hS htame hprepare hsimplify
  have hlanguage : g₁.graph.language root = g₁.graph.language r :=
    (htame.layered hS.closed (.inl .refl)).language_leads hl
  rw [hlanguage]
  exact ⟨hs.working.kept, hs.language_le,
    fun h => hs.language_eq (h.imp_right fun htame => htame.reaches hl.reaches)⟩

/-! ## Repetitions and complements that are nested -/

namespace Nested

/-- The expression `('a'*)* ~~'b'`. -/
def grammar : Grammar :=
  ⟨⟨#[.node .nil, .node .empty, .node .any, .node (.char 'a'), .node (.star ⟨3⟩),
      .node (.star ⟨4⟩), .node (.char 'b'), .node (.not ⟨6⟩), .node (.not ⟨7⟩),
      .node (.seq ⟨5⟩ ⟨8⟩)]⟩, [], [], 0⟩

/-- The handle of the expression. -/
def start : Handle := ⟨9⟩

/-- The grammar with the simplified expression `'a'* 'b'`. -/
def simplified : Grammar := ((Grammar.simplify 1 start).run.run grammar).2

theorem wellFormed_grammar : grammar.WellFormed where
  graph := .of_fits rfl rfl rfl (by decide)
  rules := by decide
  names := by decide

theorem tame : grammar.graph.Tame start :=
  Graph.tame_of_list (l := [⟨3⟩, ⟨4⟩, ⟨5⟩, ⟨6⟩, ⟨7⟩, ⟨8⟩, ⟨9⟩]) (by decide) (by decide)

theorem complementsTame : grammar.graph.ComplementsTame start := fun k p hk hs =>
  (tame.reaches hk).of_mem_references (by simp [Graph.references_of_node hs, Node.children])

/-- Nothing is lost in the simplified form of `('a'*)* ~~'b'`. -/
theorem language_simplify_start :
    (grammar.WellFormed ∧ grammar.Has start ∧
        (prepare start).run.run grammar = (.ok start, grammar) ∧
        grammar.graph.ComplementsTame start ∧
        (Grammar.simplify 1 start).run.run grammar = (.ok ⟨17⟩, simplified)) ∧
      grammar.graph.Prefix simplified.graph ∧
      simplified.graph.language ⟨17⟩ ≤ grammar.graph.language start ∧
      simplified.graph.language ⟨17⟩ = grammar.graph.language start := by
  have hsimplify : (Grammar.simplify 1 start).run.run grammar = (.ok ⟨17⟩, simplified) := rfl
  obtain ⟨hgrown, hle, heq⟩ := language_simplify wellFormed_grammar (by decide : 9 < 10) rfl
    complementsTame hsimplify
  exact ⟨⟨wellFormed_grammar, (by decide : 9 < 10), rfl, complementsTame, hsimplify⟩, hgrown, hle,
    heq (.inr tame)⟩

end Nested

end Grammar

end DerivativeParsing
