import DerivativeParsing.Proofs.RewrittenTrees
import DerivativeParsing.Proofs.Simplification

/-!
# The trees of a simplified expression

A simplified expression has no other trees of the empty word than the expression, if nothing but `ε`
is simplified to `ε` and complements to complements.  It has all of them unless a placeholder comes
to leave less when it is sent on to its result (`emptyParses_simplify`).  Where no cycle and no
complement can be reached, it is enough that nothing but `ε` matches the empty word only
(`Workable.keepsKinds_of_tame`).

Without that, trees are lost: two repetitions of `ε` have a list for a tree, and are simplified to
`ε` (`Repeated.not_emptyParses_simplify`).
-/

set_option autoImplicit false

namespace DerivativeParsing

open Fixpoint DerivativeParsing.Graph Residue
open scoped Computability

section Residual

variable {g₀ g : Graph} {S : Set Handle} {m m' : Memory Handle Handle} {v z r : Handle} {E : Prop}
  {fuel : Nat}

/-! ## The whole simplification -/

theorem upholds_residues (hS : g₀.Part S) (htame : g₀.TameComplements S)
    (hnames : g₀.NamesReducers S) :
    Upholds g₀ S id (Simplify.rule fuel) (ResidueInv E g₀ S)
      (fun _ g key v => SimplifyResult False g₀ g key v ∧
        (KeepsKind g₀ g key v → Leaves E g₀ g key v)) True
      (fun e => KeepsKind g₀ e.state e.key e.computed ∧
        (E → e.state.LosesNoTree e.provisional e.computed)) := by
  have hwords : Upholds g₀ S id (Simplify.rule fuel) (SimplifyInv False False g₀ S)
      (fun _ g key v => SimplifyResult False g₀ g key v) True _ := upholds_simplify hS htame
  refine ⟨fun m m' g hfinished hunderway h => ?_, fun key m g hasks hfresh => ?_,
    fun key p n m g h => ?_, fun key p v m g hw hinv hp hv hresult hallowed => ?_⟩
  · exact ⟨hwords.congr m m' g hfinished hunderway h.words,
      fun y v hv => h.leaves y v ((hfinished y v).1 hv), h.reducers⟩
  · obtain ⟨hkey, hnode, hw, hinv, hothers⟩ := hasks
    refine hinv.extend hw extends_alloc (fun y v => Memory.finished_start hfresh)
      (hwords.start key m g ⟨hkey, hnode, hw, hinv.words, hothers⟩ hfresh) fun k hge q f hs => ?_
    rw [slot?_alloc] at hs
    split at hs
    · cases hs
    · exact absurd (slot?_lt hs) (Nat.not_lt.2 hge)
  · have hrule : Residual.Comes E g₀ S key (Simplify.rule fuel key g) m :=
      h.ensures_node (Residual.ensures h htame hnames)
    refine ((hwords.rule key p n m g (Residual.simplifying h)).and hrule ?_).mono ?_
    · rintro key m g v m' g' ⟨hsince, hw, hinv, hanswer⟩
      exact ⟨hsince, hw, hinv.words, hanswer⟩
    · rintro v m' g' - ⟨⟨hsince, hw, -, hv, hresult⟩, hinv, hleaves⟩
      exact ⟨hsince, hw, hinv, hv, hresult, hleaves⟩
  · exact hinv.settle hw hS hp hv hresult.1 (hresult.2 hallowed.1) hallowed.2

/-- While an expression is simplified, every result keeps the kind of its node. -/
def Graph.KeepsKinds (fuel : Nat) (g : Graph) (r : Handle) : Prop :=
  ∀ e, Settles (Simplify.rules fuel) e (g.size + 1) r .empty g →
    KeepsKind g e.state e.key e.computed

/-- While an expression is simplified, no placeholder comes to leave less when it is sent on. -/
def Graph.KeepsTrees (fuel : Nat) (g : Graph) (r : Handle) : Prop :=
  ∀ e, Settles (Simplify.rules fuel) e (g.size + 1) r .empty g →
    e.state.LosesNoTree e.provisional e.computed

/-- A simplified expression leaves what the expression does, if all results keep their kind. -/
theorem Graph.Part.leaves_simplify (hS : g₀.Part S) (htame : g₀.TameComplements S)
    (hnames : g₀.NamesReducers S) (hz : z ∈ S) (hl : g₀.Leads z r)
    (hkinds : g₀.KeepsKinds fuel r) (h : g₀.simplify fuel z = some (v, g)) :
    Leaves (g₀.KeepsTrees fuel r) g₀ g r v := by
  obtain ⟨m, hw, hinv, hv, -⟩ := apply_upholds
    (upholds_residues (E := g₀.KeepsTrees fuel r) hS htame hnames) hS (fun _ hy => hy)
    (.initial hS htame) hz hl (fun e he => ⟨hkinds e he, fun hkeeps => hkeeps e he⟩) h
  exact hinv.leaves r v hv

/-- Where no cycle and no complement can be reached, simplification keeps all kinds if nothing but
`ε` matches the empty word only. -/
theorem Graph.Workable.keepsKinds_of_tame (hr : g₀.Workable r) (hl : g₀.Leads r r)
    (htame : g₀.Tame r) (hnot : ∀ k q, g₀.Reaches r k → g₀.slot? k ≠ some (.node (.not q)))
    (hempty : ∀ k, g₀.Reaches r k → g₀.language k = 1 → g₀.isEmpty k = some true) :
    g₀.KeepsKinds fuel r := by
  have hg := hr.wellFormed
  have hS := hr.part
  have hlayered {k : Handle} (hk : k ∈ g₀.scope r) : g₀.Layered k :=
    hr.tameComplements.layered hS.closed hk
  have hnil : [] ∈ (1 : WordSet) := Language.nil_mem_one
  intro e he
  obtain ⟨m, hp, hw, hinv, hv, hresult⟩ :=
    (upholds_simplify (E := False) (F := False) hS hr.tameComplements).concluded hS
      (fun _ hy => hy) (.initial hS hr.tameComplements) (.inl .refl) hl
      (fun _ _ => ⟨False.elim, False.elim⟩) he
  have hkey := (hw.asked e.key e.provisional hp.holds).1
  obtain ⟨⟨htame, hnot⟩, hempty⟩ :
      (g₀.Tame e.key ∧ ∀ q, g₀.slot? e.key ≠ some (.node (.not q))) ∧
        (g₀.language e.key = 1 → g₀.isEmpty e.key = some true) := by
    have hatomic {k : Handle} {n : Node} (hs : g₀.slot? k = some (.node n)) (hn : n.children = []) :
        g₀.Tame k ∧ ∀ q, g₀.slot? k ≠ some (.node (.not q)) := by
      refine ⟨(Firm.of_atomic hs hn : g₀.Firm 0 k).tame, fun q hq => ?_⟩
      rw [hs] at hq
      cases hq
      cases hn
    -- Of the fixed expressions, `ε` is the only one that matches the empty word.
    generalize e.key = k at hkey
    rcases hkey with hkey | rfl | rfl | rfl
    · exact ⟨⟨htame.reaches hkey, fun q => hnot k q hkey⟩, hempty k hkey⟩
    · refine ⟨hatomic hg.nil rfl, fun hone => ?_⟩
      rw [← hone, (hlayered hS.nil).language_node hg.nil] at hnil
      exact hnil.elim
    · exact ⟨hatomic hg.empty rfl, fun _ => isEmpty_of_nodeAt (nodeAt_of_slot hg.empty)⟩
    · refine ⟨hatomic hg.any rfl, fun hone => ?_⟩
      rw [← hone, (hlayered hS.any).language_node hg.any] at hnil
      obtain ⟨c, hc⟩ := hnil
      cases hc
  refine ⟨fun hisEmpty => hempty ?_, fun q hs => absurd hs (hnot q)⟩
  rw [← hresult.meets.eq (.inr htame),
    (hinv.firm.layered hw hv).language_nodeAt (nodeAt_of_isEmpty hisEmpty)]
  rfl

end Residual

/-! ## The action on a grammar -/

namespace Grammar

variable {g g₁ g₂ g₃ : Grammar} {root r r' s : Handle} {fuel fuel' fuel'' : Nat} {F F' : Forest}

/-- What an answer of `emptyParses` comes from. -/
theorem of_run_emptyParses (h : (Grammar.emptyParses fuel root).run.run g = (.ok F, g₁)) :
    ∃ r, (prepare root).run.run g = (.ok r, g₁) ∧ g₁.graph.emptyParses fuel r = some F := by
  unfold Grammar.emptyParses at h
  rw [run_bind] at h
  rcases hprepare : (prepare root).run.run g with ⟨e | r, g'⟩ <;> rw [hprepare] at h
  · cases h
  · obtain ⟨hF, rfl⟩ := run_answer.1 h
    exact ⟨r, rfl, hF⟩

/-- The preparation of what a simplification has left does not change its trees. -/
theorem prepare_simplified {S : Set Handle} {m : Memory Handle Handle}
    (hs : Simplified fuel g₁.graph S r m g₂.graph s) (hS : g₁.graph.Part S) (hg₂ : g₂.WellFormed)
    (hprepare : (prepare s).run.run g₂ = (.ok r', g₃)) :
    g₃.graph.Workable r' ∧ g₃.graph.emptyTrees r' = g₂.graph.emptyTrees s := by
  have hclosed := hs.working.closed
  have hmem := hs.mem_grown
  have hsound := hg₂.prepare hmem.1
  obtain ⟨hl, hready⟩ := hsound.result r' g₃ hprepare
  have hw := hsound.wellFormed
  have hgrows := hsound.change
  rw [hprepare] at hw hgrows
  have hslot : ∀ k ∈ grown g₁.graph S g₂.graph, g₃.graph.slot? k = g₂.graph.slot? k := by
    intro k hk
    rcases hs.working.node_or_forward hS hk with ⟨n, hn⟩ | ⟨t, ht⟩
    · rw [hn, hgrows.node k n hn]
    · rw [ht, hgrows.forward k t ht]
  have htame : g₃.graph.ComplementsTame s := fun k q hk hq => by
    have hks := Reaches.congr hclosed hslot hmem hk
    have hkmem := hclosed.of_reaches hmem hks
    rw [hslot k hkmem] at hq
    have hqmem := hclosed k hkmem q (by simp [references_of_node hq, Node.children])
    exact (hs.inv.firm.complementsTame hs.working hmem k q hks hq).congr hclosed hslot hqmem
  have hworkable : g₃.graph.Workable s := ⟨hw.graph, Has.change hmem.1 hgrows, hready, htame⟩
  refine ⟨hworkable.reaches hl.reaches, ?_⟩
  rw [← emptyTrees_leads hl]
  exact congrArg trees (residues_congr hclosed hslot s hmem)

/-- A simplified expression has no trees of the empty word but those of the expression, if nothing
but `ε` is simplified to `ε`, complements to complements, and reducers of the same name do the same.
It has all of them if no placeholder comes to leave less when it is sent on to a result, in
particular if no cycle can be reached. -/
theorem emptyParses_simplify (hg : g.WellFormed) (hroot : g.Has root)
    (hprepare : (prepare root).run.run g = (.ok r, g₁)) (htame : g₁.graph.ComplementsTame root)
    (hnames : g₁.graph.NamesReducers {k | g₁.graph.Reaches root k})
    (hkinds : g₁.graph.KeepsKinds fuel' r)
    (hparse : (Grammar.emptyParses fuel root).run.run g = (.ok F, g₁))
    (hsimplify : (Grammar.simplify fuel' root).run.run g₁ = (.ok s, g₂))
    (hparse' : (Grammar.emptyParses fuel'' s).run.run g₂ = (.ok F', g₃)) :
    (∀ t ∈ F', t ∈ F) ∧ (g₁.graph.KeepsTrees fuel' r ∨ g₁.graph.Tame root → F' = F) := by
  obtain ⟨hl, hS, htameS⟩ := part_of_prepare hg hroot hprepare htame
  obtain ⟨-, hworkable, -⟩ := workable_of_prepare hg hroot hprepare htame
  have hsound := hg.prepare hroot
  have hw := hsound.wellFormed
  rw [hprepare] at hw
  have hF (t : Tree) : t ∈ F ↔ t ∈ g₁.graph.emptyTrees r := by
    obtain ⟨r', hprepare', hF⟩ := of_run_emptyParses hparse
    rw [hprepare] at hprepare'
    cases hprepare'
    exact hworkable.mem_emptyParses hF
  -- The expression is prepared already when it is simplified.
  obtain ⟨r₀, hl₀, hagain⟩ := prepare_of_ready hw.graph (hsound.result r g₁ hprepare).2
  obtain rfl := hl₀.unique hl
  obtain ⟨graph, hrun, rfl⟩ := of_run_simplify hagain hsimplify
  obtain ⟨m, hs⟩ := hS.simplified htameS (.inl hl.reaches) hl.self_end hrun
  have hF' (t : Tree) : t ∈ F' ↔ t ∈ graph.emptyTrees s := by
    obtain ⟨r', hprepare', hF'⟩ := of_run_emptyParses hparse'
    have hg₂ := hw.withGraph hs.working.wellFormed hs.working.kept.1
    obtain ⟨hworkable', htrees⟩ := prepare_simplified hs hS hg₂ hprepare'
    rw [hworkable'.mem_emptyParses hF', htrees]
  obtain ⟨hle, heq⟩ := hS.leaves_simplify htameS (hnames.scope hw.graph) (.inl hl.reaches)
    hl.self_end hkinds hrun
  constructor
  · intro t ht
    exact (hF t).2 (trees_mono hle ((hF' t).1 ht))
  · intro hE
    refine Forest.ext_mem fun t => ?_
    rw [hF, hF', emptyTrees, heq (hE.imp_right fun htame => htame.reaches hl.reaches), emptyTrees]

/-! ## What is repeated twice -/

namespace Repeated

/-- The expressions `ε{2}` and `('a'*)*{2}`. -/
def grammar : Grammar :=
  ⟨⟨#[.node .nil, .node .empty, .node .any, .node (.rep .empty (.exactly 2)), .node (.char 'a'),
      .node (.star ⟨4⟩), .node (.star ⟨5⟩), .node (.rep ⟨6⟩ (.exactly 2))]⟩, [], [], 0⟩

theorem wellFormed_grammar : grammar.WellFormed where
  graph := .of_fits rfl rfl rfl (by decide)
  rules := by decide
  names := by decide

theorem no_complement (k q : Handle) : grammar.graph.slot? k ≠ some (.node (.not q)) := by
  intro hs
  rcases k with ⟨_ | _ | _ | _ | _ | _ | _ | _ | k⟩ <;> cases hs

theorem namesReducers (D : Set Handle) : grammar.graph.NamesReducers D := by
  rintro f f' ⟨k, -, p, hs⟩
  rcases k with ⟨_ | _ | _ | _ | _ | _ | _ | _ | k⟩ <;> cases hs

/-! ### Repetitions of the empty word -/

/-- Two repetitions of `ε` have a list for a tree.  They are simplified to `ε`, which has not. -/
theorem not_emptyParses_simplify :
    grammar.WellFormed ∧ grammar.Has ⟨3⟩ ∧
      (prepare ⟨3⟩).run.run grammar = (.ok ⟨3⟩, grammar) ∧
      grammar.graph.NamesReducers {k | grammar.graph.Reaches ⟨3⟩ k} ∧
      (Grammar.emptyParses 2 ⟨3⟩).run.run grammar =
        (.ok (.singleton (.list [.unit, .unit])), grammar) ∧
      (∃ g, (Grammar.simplify 1 ⟨3⟩).run.run grammar = (.ok .empty, g) ∧
        (Grammar.emptyParses 2 .empty).run.run g = (.ok (.singleton .unit), g)) ∧
      Forest.singleton .unit ≠ .singleton (.list [.unit, .unit]) := by
  refine ⟨wellFormed_grammar, (by decide : 3 < 8), rfl, namesReducers _, rfl, ⟨_, rfl, rfl⟩, ?_⟩
  intro he
  have hmem : Tree.unit ∈ Forest.singleton (.list [.unit, .unit]) :=
    he ▸ Forest.mem_singleton.2 rfl
  cases Forest.mem_singleton.1 hmem

/-! ### Repetitions of other words -/

/-- The expression `('a'*)*{2}`. -/
def start : Handle := ⟨7⟩

/-- The handles that can be reached from it. -/
def handles : List Handle := [⟨4⟩, ⟨5⟩, ⟨6⟩, ⟨7⟩]

/-- The grammar with the simplified expression `'a'*{2}`. -/
def simplified : Grammar := ((Grammar.simplify 1 start).run.run grammar).2

theorem tame {k : Handle} (hk : k ∈ handles) : grammar.graph.Tame k :=
  Graph.tame_of_list (l := handles) (by decide) hk

theorem complementsTame : grammar.graph.ComplementsTame start := fun k p _ hs =>
  absurd hs (no_complement k p)

theorem layered (k : Handle) : grammar.graph.Layered k := ⟨0, fun k p _ => no_complement k p⟩

theorem mem_language {k : Handle} (hk : k ∈ handles) : ['a'] ∈ grammar.graph.language k := by
  have hchar : ['a'] ∈ grammar.graph.language ⟨4⟩ := by
    rw [(layered ⟨4⟩).language_node (n := .char 'a') rfl]
    rfl
  have hle (a : WordSet) : a ≤ a∗ := le_kstar
  have hstar : ['a'] ∈ grammar.graph.language ⟨5⟩ := by
    rw [(layered ⟨5⟩).language_node (n := .star ⟨4⟩) rfl]
    exact hle _ hchar
  have hnested : ['a'] ∈ grammar.graph.language ⟨6⟩ ∧ [] ∈ grammar.graph.language ⟨6⟩ := by
    rw [(layered ⟨6⟩).language_node (n := .star ⟨5⟩) rfl]
    exact ⟨hle _ hstar, Language.nil_mem_kstar _⟩
  have htwice : ['a'] ∈ grammar.graph.language ⟨7⟩ := by
    rw [(layered ⟨7⟩).language_node (n := .rep ⟨6⟩ (.exactly 2)) rfl]
    show ['a'] ∈ grammar.graph.language ⟨6⟩ ^ 2
    rw [pow_two]
    exact Language.mem_mul.2 ⟨['a'], hnested.1, [], hnested.2, rfl⟩
  simp only [handles, List.mem_cons, List.not_mem_nil, or_false] at hk
  rcases hk with rfl | rfl | rfl | rfl
  · exact hchar
  · exact hstar
  · exact hnested.1
  · exact htwice

/-- Nothing but `ε` is simplified to `ε`. -/
theorem keepsKinds_start : grammar.graph.KeepsKinds 1 start := by
  have hclosed : grammar.graph.Closed {h | h ∈ handles} := fun h hh k hk =>
    (by decide : ∀ h ∈ handles, ∀ k ∈ grammar.graph.references h, k ∈ handles) h hh k hk
  have hmem {k : Handle} (hk : grammar.graph.Reaches start k) : k ∈ handles :=
    hclosed.of_reaches (by decide : start ∈ handles) hk
  have hworkable : grammar.graph.Workable start :=
    { wellFormed := wellFormed_grammar.graph
      inRange := (by decide : 7 < 8)
      ready := ((wellFormed_grammar.prepare (by decide : 7 < 8)).result start grammar rfl).2
      tame := complementsTame }
  refine hworkable.keepsKinds_of_tame (.of_node rfl) (tame (by decide))
    (fun k q _ => no_complement k q) fun k hk hone => ?_
  have ha := mem_language (hmem hk)
  rw [hone] at ha
  cases ha

/-- The simplified form of `('a'*)*{2}` has the same tree of the empty word. -/
theorem emptyParses_simplify_start :
    (grammar.WellFormed ∧ grammar.Has start ∧
        (prepare start).run.run grammar = (.ok start, grammar) ∧
        grammar.graph.ComplementsTame start ∧
        grammar.graph.NamesReducers {k | grammar.graph.Reaches start k} ∧
        grammar.graph.KeepsKinds 1 start ∧
        (Grammar.emptyParses 2 start).run.run grammar =
          (.ok (.singleton (.list [.unit, .unit])), grammar) ∧
        (Grammar.simplify 1 start).run.run grammar = (.ok ⟨12⟩, simplified)) ∧
      ∃ F, (Grammar.emptyParses 2 ⟨12⟩).run.run simplified = (.ok F, simplified) ∧
        F = .singleton (.list [.unit, .unit]) := by
  have hstart : grammar.Has start := (by decide : 7 < 8)
  have hparse : (Grammar.emptyParses 2 start).run.run grammar =
      (.ok (.singleton (.list [.unit, .unit])), grammar) := rfl
  have hsimplify : (Grammar.simplify 1 start).run.run grammar = (.ok ⟨12⟩, simplified) := rfl
  obtain ⟨F, hparse'⟩ :
      ∃ F, (Grammar.emptyParses 2 ⟨12⟩).run.run simplified = (.ok F, simplified) := ⟨_, rfl⟩
  obtain ⟨-, heq⟩ := emptyParses_simplify wellFormed_grammar hstart rfl complementsTame
    (namesReducers _) keepsKinds_start hparse hsimplify hparse'
  exact ⟨⟨wellFormed_grammar, hstart, rfl, complementsTame, namesReducers _, keepsKinds_start,
    hparse, hsimplify⟩, F, hparse', heq (.inr (tame (by decide)))⟩

end Repeated

end Grammar

end DerivativeParsing
