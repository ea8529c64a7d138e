import DerivativeParsing.Rendering.Expression
import DerivativeParsing.Text.Identifier
import DerivativeParsing.Proofs.SinglePasses
import DerivativeParsing.Proofs.WrittenShapes

/-!
# The text of an expression

The written form of an expression that does not contain itself is the text of its shape
(`Graph.Unfolds.render`), and so it is never cut short by an ellipsis.  If the names of the reducers
are paths, the texts of two such expressions agree exactly if the expressions are equal
(`Grammar.renderExpression_eq_iff_similar`).
-/

set_option autoImplicit false

namespace DerivativeParsing

open Fixpoint DerivativeParsing.Graph

/-! ## The rules of the written form -/

namespace Rendering

variable {g : Graph} {h k r : Handle} {n : Node} {s : Shape} {f : Handle → Shape} {v : String}
  {K : Handle → Prop} {next : String → Reading String String}

/-- What a handle stands for has been written as the text of its shape. -/
def Written (g : Graph) (h : Handle) (text : String) : Prop :=
  ∀ s, g.Unfolds h s → text.toList = s.text

theorem isSelfContained_eq (f : Handle → Shape) (n : Node) :
    isSelfContained n = (n.shape f).isSelfContained := by
  cases n <;> rfl

/-- An operand is written with parentheses where it needs them: no text is the one that stands for
an expression inside itself. -/
theorem operand_yields (hu : g.Unfolds h s) (hv : (operand g h ()).Yields (Written g) v) :
    v.toList = s.operandText := by
  obtain ⟨r, w, hl, hw, hv⟩ := Reading.yields_bind_ask.1 hv
  obtain ⟨n, hn, hv⟩ := Reading.yields_bind_query.1 hv
  have hw := hw s ((Unfolds.ends hl).1 hu)
  have hellipsis : (w == ellipsis) = false := beq_eq_false_iff_ne.2 fun h =>
    s.text_ne_ellipsis (hw.symm.trans (congrArg String.toList h))
  have hself : isSelfContained n = s.isSelfContained := by
    obtain ⟨f, hl', hs, -, rfl⟩ := hu
    obtain ⟨r', hl, rfl⟩ := nodeAt_eq_some.1 hn
    obtain rfl := hl.unique hl'
    rw [node_eq hs, isSelfContained_eq f]
  rw [hself, hellipsis, Bool.or_false] at hv
  rw [Shape.operandText, Shape.enclose, ← hw]
  split at hv <;> rw [← show _ = v from hv]
  · rw [if_pos ‹_›]
  · rw [if_neg ‹_›]
    simp

theorem bind_operand_yields (hu : g.Unfolds h s)
    (hv : ((operand g h >>= next) ()).Yields (Written g) v) :
    ∃ w, w.toList = s.operandText ∧ (next w ()).Yields (Written g) v := by
  rw [Rule.bind_apply] at hv
  obtain ⟨w, hw, hv⟩ := Plan.yields_bind.1 hv
  exact ⟨w, operand_yields hu hw, hv⟩

/-- A node is written as the text of its shape. -/
theorem ofNode_yields (hc : ∀ c ∈ n.children, g.Unfolds c (f c))
    (hv : (ofNode g n ()).Yields (Written g) v) : v.toList = (n.shape f).text := by
  cases n with
  | nil | empty | any | char c | range first last | token text | emptyReduction trees =>
      rw [← show _ = v from hv]
      rfl
  | alt left right | seq left right =>
      obtain ⟨l, hl, hv⟩ := bind_operand_yields (hc left (by simp [Node.children])) hv
      obtain ⟨r, hr, hv⟩ := bind_operand_yields (hc right (by simp [Node.children])) hv
      rw [← show _ = v from hv]
      simp [Node.shape, Shape.text, hl, hr, Shape.operandText]
  | star p | not p | rep p count | reduction p reducer =>
      obtain ⟨w, hw, hv⟩ := bind_operand_yields (hc p (by simp [Node.children])) hv
      rw [← show _ = v from hv]
      simp [Node.shape, Shape.text, hw, Shape.operandText]
  | nullability p =>
      obtain ⟨r, w, hl, hw, hv⟩ := Reading.yields_bind_ask.1 hv
      have hw := hw _ ((Unfolds.ends hl).1 (hc p (by simp [Node.children])))
      rw [← show _ = v from hv]
      simp [Node.shape, Shape.text, hw]

theorem operand_asksOnly (hl : g.Leads h r) (hs : g.slot? r = some (.node n)) (hr : K r) :
    (operand g h ()).AsksOnly K := by
  refine Reading.asksOnly_bind_ask hl hr fun v => ?_
  refine Reading.asksOnly_bind_query (nodeAt_eq_some.2 ⟨r, hl, node_eq hs⟩) ?_
  split <;> trivial

/-- A node is written with questions for its operands only. -/
theorem ofNode_asksOnly
    (hc : ∀ c ∈ n.children, ∃ r m, g.Leads c r ∧ g.slot? r = some (.node m) ∧ K r) :
    (ofNode g n ()).AsksOnly K := by
  have hoperand (c : Handle) (hmem : c ∈ n.children) : (operand g c ()).AsksOnly K := by
    obtain ⟨r, m, hl, hs, hr⟩ := hc c hmem
    exact operand_asksOnly hl hs hr
  cases n with
  | nil | empty | any | char c | range first last | token text | emptyReduction trees => trivial
  | alt left right | seq left right =>
      exact (hoperand left (by simp [Node.children])).bind fun _ _ =>
        (hoperand right (by simp [Node.children])).bind fun _ _ => trivial
  | star p | not p | rep p count | reduction p reducer =>
      exact (hoperand p (by simp [Node.children])).bind fun _ _ => trivial
  | nullability p =>
      obtain ⟨r, m, hl, hs, hr⟩ := hc p (by simp [Node.children])
      exact Reading.asksOnly_bind_ask hl hr fun _ => trivial

end Rendering

namespace Graph

variable {g : Graph} {h : Handle} {s : Shape}

/-- The written form of an expression that does not contain itself is the text of its shape. -/
theorem Unfolds.render (hu : g.Unfolds h s) (hg : g.WellFormed) (hready : g.Ready h)
    (htame : g.Tame h) : ∃ text, g.render h = some text ∧ text.toList = s.text := by
  obtain ⟨r, n, hl, -⟩ := hready h .refl
  have hrule (k : Handle) (n : Node) (hs : g.slot? k = some (.node n)) :
      Rendering.table.rule g k = Rendering.ofNode g n := by
    show Rendering.ofNode g (g.node k) = _
    rw [node_eq hs]
  obtain ⟨text, htext, -, hwritten⟩ := htame.evaluates Rendering.table (P := Rendering.Written g) hg
    hready hl
    (fun k n hk hs => by
      rw [hrule k n hs]
      refine Rendering.ofNode_asksOnly fun c hc => ?_
      obtain ⟨r, m, hl, hr⟩ := hready c (hk.tail (by rwa [references_of_node hs]))
      exact ⟨r, m, hl, hr, c, hc, hl⟩)
    fun k n v _ hs hv s hu => by
      rw [hrule k n hs] at hv
      obtain ⟨f, rfl, hc⟩ := hu.of_leads (.of_node hs) hs
      exact Rendering.ofNode_yields hc hv
  exact ⟨text, htext, hwritten s ((Unfolds.ends hl).1 hu)⟩

/-- The names of reducers in a shape are those of the reductions that can be reached. -/
theorem Unfolds.exists_of_mem_names (hu : g.Unfolds h s) {name : String} (hname : name ∈ s.names) :
    ∃ k operand reducer, g.Reaches h k ∧ g.slot? k = some (.node (.reduction operand reducer)) ∧
      reducer.name = name := by
  induction hu with
  | @node h r n s f hl hs hc hshape ih =>
      have hchild : (∃ c ∈ n.children, name ∈ (f c).names) ∨
          ∃ operand reducer, n = .reduction operand reducer ∧ reducer.name = name := by
        subst hshape
        cases n <;> simp_all [Node.shape, Shape.names, Node.children]
        exact hname.symm.imp_right Eq.symm
      rcases hchild with ⟨c, hmem, hname⟩ | ⟨operand, reducer, rfl, hname⟩
      · obtain ⟨k, operand, reducer, hk, hs', hname⟩ := ih c hmem hname
        exact ⟨k, operand, reducer,
          (hl.reaches.tail (by rwa [references_of_node hs])).trans hk, hs', hname⟩
      · exact ⟨r, operand, reducer, hl.reaches, hs, hname⟩

end Graph

/-! ## Names that are paths -/

namespace Text

/-- A letter or an underscore, and what may follow it, perhaps marked as no keyword. -/
def IsIdentifier (name : List Char) : Prop :=
  ∃ c rest, (name = c :: rest ∨ name = 'r' :: '#' :: c :: rest) ∧ isIdentifierStart c = true ∧
    ∀ d ∈ rest, isIdentifierContinue d = true

/-- Identifiers with two colons between them. -/
def IsPath (name : String) : Prop :=
  ∃ parts : List (List Char), parts ≠ [] ∧ (∀ part ∈ parts, IsIdentifier part) ∧
    name.toList = "::".toList.intercalate parts

theorem IsIdentifier.not_mem {name : List Char} (h : IsIdentifier name) : ')' ∉ name := by
  obtain ⟨c, rest, hname, hc, hrest⟩ := h
  have hc' : c ≠ ')' := by
    rintro rfl
    exact absurd hc (by decide)
  have hrest' : ')' ∉ rest := fun hmem => absurd (hrest _ hmem) (by decide)
  rcases hname with rfl | rfl <;> simp [hc'.symm, hrest']

theorem IsPath.not_mem {name : String} (h : IsPath name) : ')' ∉ name.toList := by
  obtain ⟨_ | ⟨part, parts⟩, hne, hparts, hname⟩ := h
  · exact absurd rfl hne
  · rw [hname, intercalate_cons, List.mem_append, List.mem_flatMap]
    rintro (hmem | ⟨part', hpart', hmem⟩)
    · exact (hparts part List.mem_cons_self).not_mem hmem
    · rcases List.mem_append.1 hmem with hmem | hmem
      · exact absurd hmem (by decide)
      · exact (hparts part' (List.mem_cons_of_mem _ hpart')).not_mem hmem

end Text

/-- The reducers of an expression have paths for names. -/
def Graph.ReducersArePaths (g : Graph) (root : Handle) : Prop :=
  ∀ h operand reducer, g.Reaches root h → g.slot? h = some (.node (.reduction operand reducer)) →
    Text.IsPath reducer.name

theorem Graph.Unfolds.plain {g : Graph} {h : Handle} {s : Shape} (hu : g.Unfolds h s)
    (hpaths : g.ReducersArePaths h) : s.Plain := fun name hname => by
  obtain ⟨k, operand, reducer, hk, hs, rfl⟩ := hu.exists_of_mem_names hname
  exact (hpaths k operand reducer hk hs).not_mem

/-! ## Texts and equality -/

namespace Grammar

variable {g g₁ g₂ : Grammar} {a b root r ra rb : Handle}

/-- An expression that can be prepared and does not contain itself has a shape, whose text is the
written form. -/
theorem run_renderExpression (hg : g.WellFormed) (hroot : g.Has root)
    (hprepare : (prepare root).run.run g = (.ok r, g₁)) (htame : g₁.graph.Tame root) :
    ∃ s text, g₁.graph.Unfolds root s ∧ text.toList = s.text ∧
      (renderExpression root).run.run g = (.ok text, g₁) := by
  obtain ⟨hg₁, hgrows, hl, hready⟩ := hg.of_prepare hroot hprepare
  obtain ⟨s, hu⟩ := htame.unfolds hg₁.graph hready (Has.change hroot hgrows)
  have hur := (Unfolds.ends hl).1 hu
  obtain ⟨text, htext, hwritten⟩ := hur.render hg₁.graph (hready.reaches hl.reaches)
    (htame.reaches hl.reaches)
  refine ⟨s, text, hu, hwritten, ?_⟩
  unfold renderExpression
  rw [run_bind, hprepare]
  exact run_answer.2 ⟨htext, rfl⟩

/-- Two expressions that do not contain themselves, and whose reducers have paths for names, are
written in the same way exactly if they are equal. -/
theorem renderExpression_eq_iff_similar (hg : g.WellFormed) (ha : g.Has a) (hb : g.Has b)
    (hprepare₁ : (prepare a).run.run g = (.ok ra, g₁))
    (hprepare₂ : (prepare b).run.run g₁ = (.ok rb, g₂))
    (htame₁ : g₁.graph.Tame a) (htame₂ : g₂.graph.Tame b)
    (hpaths₁ : g₁.graph.ReducersArePaths a) (hpaths₂ : g₂.graph.ReducersArePaths b) :
    ∃ x y v, (renderExpression a).run.run g = (.ok x, g₁) ∧
      (renderExpression b).run.run g₁ = (.ok y, g₂) ∧
      (Grammar.similar a b).run.run g = (.ok v, g₂) ∧ (x = y ↔ v = true) := by
  obtain ⟨hg₁, hgrows₁, -, hready₁⟩ := hg.of_prepare ha hprepare₁
  obtain ⟨-, hgrows₂, -⟩ := hg₁.of_prepare (Has.change hb hgrows₁) hprepare₂
  obtain ⟨s, x, hs, hx, hrenderx⟩ := run_renderExpression hg ha hprepare₁ htame₁
  obtain ⟨t, y, ht, hy, hrendery⟩ :=
    run_renderExpression hg₁ (Has.change hb hgrows₁) hprepare₂ htame₂
  obtain ⟨v, hsimilar, hv⟩ := run_similar hg ha hb hprepare₁ hprepare₂
  refine ⟨x, y, v, hrenderx, hrendery, hsimilar, ?_⟩
  rw [hv, (hs.grows hgrows₂).bisimilar_iff ht, ← String.toList_inj, hx, hy]
  exact ⟨Shape.eq_of_text (hs.plain hpaths₁) (ht.plain hpaths₂), fun h => h ▸ rfl⟩

/-! ## One expression written twice

A rule for `'a' | 'b'` with a reducer, and the same expression with nodes of its own and with
another reducer of that name. -/

namespace Twice

/-- The grammar of the rule, and of the expression beside it. -/
def grammar : Grammar :=
  ⟨⟨#[.node .nil, .node .empty, .node .any, .node (.char 'a'), .node (.char 'b'),
      .node (.alt ⟨3⟩ ⟨4⟩), .node (.reduction ⟨5⟩ { name := "tree::pick", action := id }),
      .forward ⟨6⟩,
      .node (.char 'a'), .node (.char 'b'), .node (.alt ⟨8⟩ ⟨9⟩),
      .node (.reduction ⟨10⟩ { name := "tree::pick", action := Reducer.firstAction })]⟩,
    [("s", ⟨7⟩)], [], 0⟩

theorem wellFormed_grammar : grammar.WellFormed where
  graph := .of_fits rfl rfl rfl (by decide)
  rules := by decide
  names := by decide

theorem isPath_name : Text.IsPath "tree::pick" := by
  refine ⟨["tree".toList, "pick".toList], by decide, ?_, rfl⟩
  rw [List.forall_mem_cons, List.forall_mem_singleton]
  exact ⟨⟨'t', "ree".toList, .inl rfl, by decide, List.all_eq_true.1 (by decide)⟩,
    ⟨'p', "ick".toList, .inl rfl, by decide, List.all_eq_true.1 (by decide)⟩⟩

/-- All reducers of the grammar have one name. -/
theorem reducersArePaths (root : Handle) : grammar.graph.ReducersArePaths root := by
  intro h operand reducer _ hs
  have hmem : Slot.node (.reduction operand reducer) ∈ grammar.graph.slots.toList :=
    Array.mem_toList_iff.2 (Array.mem_of_getElem? hs)
  have hname : reducer.name = "tree::pick" := by
    simp only [grammar, List.mem_cons, Slot.node.injEq, Node.reduction.injEq, reduceCtorEq,
      false_or, List.not_mem_nil, or_false] at hmem
    rcases hmem with ⟨-, rfl⟩ | ⟨-, rfl⟩ <;> rfl
  exact hname ▸ isPath_name

/-- The rule and the expression beside it are written in the same way, and they are equal. -/
theorem renderExpression_eq_iff_similar_twice :
    (grammar.WellFormed ∧ grammar.Has ⟨7⟩ ∧ grammar.Has ⟨11⟩ ∧
        (prepare ⟨7⟩).run.run grammar = (.ok ⟨6⟩, grammar) ∧
        (prepare ⟨11⟩).run.run grammar = (.ok ⟨11⟩, grammar) ∧
        grammar.graph.Tame ⟨7⟩ ∧ grammar.graph.Tame ⟨11⟩ ∧
        grammar.graph.ReducersArePaths ⟨7⟩ ∧ grammar.graph.ReducersArePaths ⟨11⟩) ∧
      ∃ x y v, (renderExpression ⟨7⟩).run.run grammar = (.ok x, grammar) ∧
        (renderExpression ⟨11⟩).run.run grammar = (.ok y, grammar) ∧
        (Grammar.similar ⟨7⟩ ⟨11⟩).run.run grammar = (.ok v, grammar) ∧ (x = y ↔ v = true) := by
  have htame₁ : grammar.graph.Tame ⟨7⟩ :=
    tame_of_list (l := [⟨3⟩, ⟨4⟩, ⟨5⟩, ⟨6⟩, ⟨7⟩]) (by decide) (by decide)
  have htame₂ : grammar.graph.Tame ⟨11⟩ :=
    tame_of_list (l := [⟨8⟩, ⟨9⟩, ⟨10⟩, ⟨11⟩]) (by decide) (by decide)
  exact ⟨⟨wellFormed_grammar, (by decide : 7 < 12), (by decide : 11 < 12), rfl, rfl, htame₁, htame₂,
      reducersArePaths _, reducersArePaths _⟩,
    renderExpression_eq_iff_similar wellFormed_grammar (by decide : 7 < 12) (by decide : 11 < 12) rfl rfl
      htame₁ htame₂ (reducersArePaths _) (reducersArePaths _)⟩

end Twice

end Grammar

end DerivativeParsing
