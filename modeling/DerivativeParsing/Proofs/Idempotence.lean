import DerivativeParsing.Proofs.ComposedExpressions
import DerivativeParsing.Proofs.Progress
import DerivativeParsing.Proofs.SimplifiedForms

/-!
# Simplifying what has been simplified

Every rule of simplification gives its node back if the node rests and the operands stay what they
are (`Resting.ensures`).  So an expression whose nodes rest, and a neat one in particular, is its
own simplified form (`Graph.Workable.simplify_of_rests`), and simplification is idempotent on the
expressions whose simplified form is neat (`Grammar.simplify_idempotent`).  An expression without
references is even simplified to a handle that is its own simplified form
(`Grammar.simplify_composed`).

A reference to an alternative spoils this.  An alternative that is unchanged is given back with the
reference as an operand, and the alternative above it takes the reference for one branch.  The next
simplification opens the branch.
-/

set_option autoImplicit false

namespace DerivativeParsing

open Fixpoint DerivativeParsing.Graph

section Resting

variable {g₀ g₁ g g' : Graph} {S : Set Handle} {m m' : Memory Handle Handle}
  {key y p v a b z r : Handle} {n t : Node} {fuel : Nat}

/-! ## Rules that have nothing to do -/

/-- From no handle of a part of a graph a cycle can be reached, or a node that does not rest. -/
structure Graph.Settled (g : Graph) (S : Set Handle) : Prop where
  tame : ∀ k ∈ S, g.Tame k
  rests : ∀ k ∈ S, g.AllNodes (fun k n => n.Rests g k) k

/-- What has been simplified is what it was. -/
def SameInv (m : Memory Handle Handle) (_ : Graph) : Prop := ∀ y v, m.Finished y v → v = y

/-- A rule of simplification that has nothing to do. -/
abbrev Resting (g₀ : Graph) (S : Set Handle) := Running g₀ S id SameInv

namespace Resting

/-- What has to be shown of the result of a rule. -/
abbrev Post (g₀ : Graph) (S : Set Handle) (key : Handle) (g₁ : Graph) :
    Handle → Memory Handle Handle → Graph → Prop := fun v m' g' =>
  g₁.Retains g' ∧ Working g₀ S id m' g' ∧ SameInv m' g' ∧ v ∈ grown g₀ S g' ∧ v = key

/-- A rule gives its node back. -/
abbrev Comes (g₀ : Graph) (S : Set Handle) (key : Handle) (g₁ : Graph)
    (plan : Plan Graph Handle Handle Handle) (m : Memory Handle Handle) : Prop :=
  plan.Ensures (keeping g₀ S id SameInv) False (Post g₀ S key g₁) m

theorem post (h : Resting g₀ S key p n g₁ m g) : Post g₀ S key g₁ key m g :=
  ⟨h.since, h.working, h.inv, h.part.mem_grown h.working.kept h.mem, rfl⟩

variable {next : Handle → TransformM Handle}

section

variable (h : Resting g₀ S key p n g₁ m g) (hS : g₀.Settled S)

include h

theorem leads (hz : z ∈ n.children) (hl : g₀.Leads z a) : g.Leads z a :=
  (h.leads_iff (h.operand_mem hz)).2 hl

include hS

/-- The answer for an operand is what the operand leads to. -/
theorem ensures_ask (hz : z ∈ n.children)
    (hnext : ∀ a m' g', Resting g₀ S key p n g₁ m' g' → g₀.Leads z a →
      Comes g₀ S key g₁ (next a g') m') :
    Comes g₀ S key g₁ ((Transform.ask z >>= next) g) m := by
  refine Running.ensures_ask h hz fun r a m' g' hl _ _ h' ha => ?_
  rcases ha with ha | ⟨-, hcycle⟩
  · obtain rfl := h'.inv r a ha
    exact hnext a m' g' h' hl
  · -- A placeholder is given only where a node refers to itself.
    exact absurd hcycle ((hS.tame z (h.operand_mem hz)).reaches hl.reaches r .refl)

theorem workable (hz : z ∈ n.children) : g.Workable z :=
  h.workable_operand (h.part.tameComplements hS.tame) hz

theorem rests_self : g.slot? key = some (.node n) ∧ g.Tame key ∧
    g.AllNodes (fun k n => n.Rests g k) key := by
  refine ⟨h.slot?_key, (hS.tame key h.mem).congr h.part.closed h.slot?_eq h.mem, ?_⟩
  exact (hS.rests key h.mem).congr h.part.closed h.slot?_eq h.mem fun _ _ _ hc hn =>
    hn.congr h.part.closed h.slot?_eq hc

theorem polished_self (hn : ¬ Simplify.IsAlternative n) : n.Polished g := by
  obtain ⟨hs, -, hrests⟩ := h.rests_self hS
  exact (Node.rests_iff hn).1 (hrests key n .refl hs)

/-- The node is polished with the answers in the place of the operands. -/
theorem polished (hrefits : Simplify.Refits (fun z a => z ∈ n.children ∧ g₀.Leads z a) n t) :
    t.Polished g := by
  refine (Node.polished_iff_of_refits (hrefits.mono fun z a ⟨hz, hl⟩ => .inr (h.leads hz hl))
    fun z hz => ?_).1 (h.polished_self hS ?_)
  · exact (h.workable hS hz).layered
  · rintro ⟨left, right, rfl⟩
    cases hrefits

/-- An answer stands for a node. -/
theorem exists_nodeAt (hz : z ∈ n.children) (hl : g₀.Leads z a) : ∃ t, g.nodeAt a = some t := by
  obtain ⟨r, t, hr, hs⟩ := (h.workable hS hz).ready z .refl
  obtain rfl := (h.leads hz hl).unique hr
  exact ⟨t, nodeAt_of_slot hs⟩

omit hS in
/-- A node with one operand is given back. -/
theorem ensures_keepOrMake (hz : z ∈ n.children) (hl : g₀.Leads z a) :
    Comes g₀ S key g₁ (Simplify.keepOrMake key a z t g) m :=
  ensures_look_of_eq (Simplify.unchanged_of_leads (.inr (h.leads hz hl))) h.post

end

/-! ### The nodes -/

/-- A sequence is kept. -/
theorem ensures_seq {first second : Handle} (h : Resting g₀ S key p (.seq first second) g₁ m g)
    (hS : g₀.Settled S) : Comes g₀ S key g₁ (Simplify.ofNode fuel key (.seq first second) g) m := by
  have hfirst : first ∈ (Node.seq first second).children := by simp [Node.children]
  have hsecond : second ∈ (Node.seq first second).children := by simp [Node.children]
  refine h.ensures_ask hS hfirst fun a m₁ g₁ h₁ ha => ?_
  refine h₁.ensures_ask hS hsecond fun b m₂ g₂ h₂ hb => ?_
  -- No rule for `∅` or `ε` applies, and both operands are unchanged.
  obtain ⟨⟨hanil, haempty⟩, hbnil, hbempty⟩ :=
    h₂.polished hS (.seq ⟨hfirst, ha⟩ ⟨hsecond, hb⟩)
  obtain ⟨t, ht⟩ := h₂.exists_nodeAt hS hfirst ha
  obtain ⟨u, hu⟩ := h₂.exists_nodeAt hS hsecond hb
  rw [ht, ne_eq, Option.some.injEq] at hanil haempty
  rw [hu, ne_eq, Option.some.injEq] at hbnil hbempty
  refine ensures_look_of_eq (isNil_eq_false ht hanil) ?_
  refine ensures_look_of_eq (isNil_eq_false hu hbnil) ?_
  refine ensures_look_of_eq (isEmpty_eq_false ht haempty) ?_
  refine ensures_look_of_eq (isEmpty_eq_false hu hbempty) ?_
  have hsame : Simplify.bothUnchanged g₂ a first b second = some true :=
    Simplify.bothUnchanged_eq_true.2 ⟨Simplify.unchanged_of_leads (.inr (h₂.leads hfirst ha)),
      Simplify.unchanged_of_leads (.inr (h₂.leads hsecond hb))⟩
  exact ensures_look_of_eq hsame h₂.post

/-- A number of repetitions is kept. -/
theorem ensures_rep {operand : Handle} {count : Count}
    (h : Resting g₀ S key p (.rep operand count) g₁ m g) (hS : g₀.Settled S) :
    Comes g₀ S key g₁ (Simplify.ofNode fuel key (.rep operand count) g) m := by
  have hz : operand ∈ (Node.rep operand count).children := by simp [Node.children]
  obtain ⟨⟨k, rfl⟩, -⟩ := h.polished_self hS (by rintro ⟨_, _, he⟩; cases he)
  refine h.ensures_ask hS hz fun a m₁ g₁ h₁ ha => ?_
  obtain ⟨-, hnil, hempty⟩ := h₁.polished hS (.rep _ ⟨hz, ha⟩)
  obtain ⟨t, ht⟩ := h₁.exists_nodeAt hS hz ha
  have hkeep := h₁.ensures_keepOrMake (t := .rep a (.exactly (k + 2))) hz ha
  refine ensures_look_of_eq ht ?_
  cases t with
  | nil => exact absurd ht hnil
  | empty => exact absurd ht hempty
  | _ => exact hkeep

/-- A nullability is kept. -/
theorem ensures_nullability {operand : Handle}
    (h : Resting g₀ S key p (.nullability operand) g₁ m g) (hS : g₀.Settled S) (hfuel : 0 < fuel) :
    Comes g₀ S key g₁ (Simplify.ofNode fuel key (.nullability operand) g) m := by
  have hz : operand ∈ (Node.nullability operand).children := by simp [Node.children]
  obtain ⟨hs, htame, hrests⟩ := h.rests_self hS
  have hmem : [] ∈ g.language operand := (hrests key _ .refl hs).1
  have htame' : g.Tame operand := htame.of_mem_references (by rwa [references_of_node hs])
  obtain ⟨b, hb, hiff⟩ := (h.workable hS hz).nullable_of_tame htame' hfuel
  rw [hiff.2 hmem] at hb
  refine ensures_look_of_eq hb ?_
  refine h.ensures_ask hS hz fun a m₁ g₁ h₁ ha => ?_
  obtain ⟨-, hempty, htrees, hinner⟩ := h₁.polished hS (.nullability ⟨hz, ha⟩)
  obtain ⟨t, ht⟩ := h₁.exists_nodeAt hS hz ha
  have hkeep := h₁.ensures_keepOrMake (t := .nullability a) hz ha
  refine ensures_look_of_eq ht ?_
  cases t with
  | empty => exact absurd ht hempty
  | emptyReduction trees => exact absurd ht (htrees trees)
  | nullability inner => exact absurd ht (hinner inner)
  | _ => exact hkeep

/-- Every rule of simplification gives a node back that rests. -/
theorem ensures (h : Resting g₀ S key p n g₁ m g) (hS : g₀.Settled S) (hfuel : 0 < fuel) :
    Comes g₀ S key g₁ (Simplify.ofNode fuel key n g) m := by
  cases n with
  | nil => exact h.post
  | empty => exact h.post
  | any => exact h.post
  | char c => exact h.post
  | token text => exact h.post
  | emptyReduction trees => exact h.post
  | range first last =>
      have hne : first ≠ last := h.polished_self hS (by rintro ⟨_, _, he⟩; cases he)
      change ((if first = last then Transform.make (.char first) else pure key : TransformM Handle)
        g).Ensures _ _ _ _
      rw [if_neg hne]
      exact h.post
  | alt left right =>
      have hleft : left ∈ (Node.alt left right).children := by simp [Node.children]
      have hright : right ∈ (Node.alt left right).children := by simp [Node.children]
      refine h.ensures_ask hS hleft fun a m₁ g₁ h₁ ha => ?_
      refine h₁.ensures_ask hS hright fun b m₂ g₂ h₂ hb => ?_
      obtain ⟨hs, htame, hrests⟩ := h₂.rests_self hS
      have hready : g₂.Ready key :=
        (h₂.workable_of_mem (h₂.part.tameComplements hS.tame) h₂.mem).ready
      rw [Simplify.alternatives_of_rests h₂.working.wellFormed hs hready htame hrests
        (h₂.leads hleft ha) (h₂.leads hright hb)]
      exact h₂.post
  | seq first second => exact h.ensures_seq hS
  | star operand =>
      have hz : operand ∈ (Node.star operand).children := by simp [Node.children]
      refine h.ensures_ask hS hz fun a m₁ g₁ h₁ ha => ?_
      obtain ⟨t, ht⟩ := h₁.exists_nodeAt hS hz ha
      have hpolished := h₁.polished hS (.star ⟨hz, ha⟩)
      have hstarred : Simplify.starred? a t = none :=
        Simplify.starred?_eq_none.2 (by simpa [Node.Polished, ht] using hpolished)
      refine ensures_look_of_eq ht ?_
      rw [hstarred]
      exact h₁.ensures_keepOrMake hz ha
  | rep operand count => exact h.ensures_rep hS
  | not operand =>
      have hz : operand ∈ (Node.not operand).children := by simp [Node.children]
      refine h.ensures_ask hS hz fun a m₁ g₁ h₁ ha => ?_
      have hnot := h₁.polished hS (.not ⟨hz, ha⟩)
      obtain ⟨t, ht⟩ := h₁.exists_nodeAt hS hz ha
      have hkeep := h₁.ensures_keepOrMake (t := .not a) hz ha
      refine ensures_look_of_eq ht ?_
      cases t with
      | not inner => exact absurd ht (hnot inner)
      | _ => exact hkeep
  | nullability operand => exact h.ensures_nullability hS hfuel
  | reduction operand reducer =>
      have hz : operand ∈ (Node.reduction operand reducer).children := by simp [Node.children]
      refine h.ensures_ask hS hz fun a m₁ g₁ h₁ ha => ?_
      obtain ⟨hnil, htrees⟩ := h₁.polished hS (.reduction reducer ⟨hz, ha⟩)
      obtain ⟨t, ht⟩ := h₁.exists_nodeAt hS hz ha
      have hkeep := h₁.ensures_keepOrMake (t := .reduction a reducer) hz ha
      refine ensures_look_of_eq ht ?_
      cases t with
      | nil => exact absurd ht hnil
      | emptyReduction trees => exact absurd ht (htrees trees)
      | _ => exact hkeep

end Resting

/-! ## The whole simplification -/

theorem upholds_same (hS : g₀.Settled S) (hfuel : 0 < fuel) :
    Upholds g₀ S id (Simplify.rule fuel) SameInv (fun _ _ key v => v = key) False
      fun _ => True where
  congr m m' g hfinished _ h y v hv := h y v ((hfinished y v).1 hv)
  start key m g hasks hfresh y v hv := by
    obtain ⟨-, -, -, hinv, -⟩ := hasks
    exact hinv y v ((Memory.finished_start hfresh).1 hv)
  rule key p n m g h := h.ensures_node (Resting.ensures h hS hfuel)
  settle key p v m g _ hinv _ _ hresult _ y a hy := by
    rcases Memory.finished_finish_iff.1 hy with ⟨rfl, rfl⟩ | ⟨-, hy⟩
    · exact hresult
    · exact hinv y a hy

/-- What can be reached from an expression whose nodes rest is settled, together with the three
fixed expressions. -/
theorem Graph.Settled.scope {h : Handle} (hg : g.WellFormed) (htame : g.Tame h)
    (hrests : g.AllNodes (fun k n => n.Rests g k) h) : g.Settled (g.scope h) where
  tame := htame.scope hg
  rests := by
    rintro k (hk | rfl | rfl | rfl)
    · exact hrests.reaches hk
    · exact .of_node hg.nil trivial (by simp [Node.children])
    · exact .of_node hg.empty trivial (by simp [Node.children])
    · exact .of_node hg.any trivial (by simp [Node.children])

/-- An expression whose nodes rest is simplified to the node that it leads to. -/
theorem Graph.Workable.simplify_of_rests {h : Handle} (hh : g.Workable h) (htame : g.Tame h)
    (hrests : g.AllNodes (fun k n => n.Rests g k) h) (hl : g.Leads h r) (hfuel : 0 < fuel) :
    ∃ g', g.simplify fuel h = some (r, g') ∧ g'.WellFormed ∧ g'.Extends g := by
  have hU := upholds_same (Graph.Settled.scope hh.wellFormed htame hrests) hfuel
  have hinit : SameInv .empty g := fun y v hv => by simp [Memory.Finished, Memory.empty] at hv
  obtain ⟨v, g', hs⟩ := apply_answers hU hh.part (fun _ hy => hy) hinit (.inl .refl) hl
    fun _ _ => trivial
  obtain ⟨m, hw, hinv, hv, -⟩ := apply_upholds hU hh.part (fun _ hy => hy) hinit (.inl .refl) hl
    (fun _ _ => trivial) hs
  obtain rfl := hinv r v hv
  exact ⟨g', hs, hw.wellFormed, hw.kept⟩

end Resting

/-! ## The action on a grammar -/

namespace Grammar

variable {g g₁ : Grammar} {root r e : Handle} {fuel : Nat}

/-- An expression whose nodes rest is simplified to the node that it leads to, and both are found to
be equal. -/
theorem run_simplify_of_rests {s : Handle} (hg : g.WellFormed) (hs : g.graph.Workable s)
    (htame : g.graph.Tame s) (hrests : g.graph.AllNodes (fun k n => n.Rests g.graph k) s)
    (hfuel : 0 < fuel) :
    ∃ s' g', (Grammar.simplify fuel s).run.run g = (.ok s', g') ∧ g.graph.Leads s s' ∧
      (Grammar.similar s s').run.run g' = (.ok true, g') := by
  obtain ⟨s', hl, hprepare⟩ := prepare_of_ready hs.wellFormed hs.ready
  obtain ⟨graph, hsimplify, hw, hext⟩ := (hs.reaches hl.reaches).simplify_of_rests
    (htame.reaches hl.reaches) (hrests.reaches hl.reaches) hl.self_end hfuel
  have hready : graph.Ready s := Grows.ready (.of_extends hext) hs.ready
  have hl' : graph.Leads s s' := hl.congr hs.wellFormed.closed_lt hext.2 hs.inRange
  -- The simplification has followed the chain of `s` to its end, and done nothing else.
  have hsame : graph.Bisimilar s s' := by
    rw [← bisimilar_endOf, hl'.endOf, hl'.self_end.endOf]
    exact .refl (hready.reaches hl'.reaches)
  refine ⟨s', _, run_simplify hprepare hsimplify, hl, ?_⟩
  exact (run_similar_of_ready (hg.withGraph hw hext.1) hready (hready.reaches hl'.reaches)).2 hsame

/-- The expression that simplification has left neat is simplified to the node that it leads to, and
both are found to be equal. -/
theorem simplify_again {g₀ : Graph} {h s : Handle} (hg : g.WellFormed)
    (hs : LeavesNeat g₀ h g.graph s) (hfuel : 0 < fuel) :
    ∃ s' g', (Grammar.simplify fuel s).run.run g = (.ok s', g') ∧ g.graph.Leads s s' ∧
      (Grammar.similar s s').run.run g' = (.ok true, g') :=
  run_simplify_of_rests hg ⟨hs.wellFormed, hs.mem.1, hs.ready, hs.firm.tame.complementsTame⟩
    hs.firm.tame hs.neat.nodes.rests hfuel

/-- Simplification is idempotent on an expression from which no cycle can be reached, and in which
no reference hides an alternative from an alternative or from a complement: what it comes to is
simplified to the node that it leads to, which is found to be equal.  It comes to a result if there
can be room for all lists. -/
theorem simplify_idempotent (hg : g.WellFormed) (hroot : g.Has root)
    (hprepare : (prepare root).run.run g = (.ok r, g₁)) (htame : g₁.graph.Tame root)
    (hopens : g₁.graph.Opens root) (hfuel : 0 < fuel) :
    (g₁.graph.Fits {k | g₁.graph.Reaches root k} →
        ∃ s g₂, (Grammar.simplify fuel root).run.run g = (.ok s, g₂)) ∧
      ∀ s g₂, (Grammar.simplify fuel root).run.run g = (.ok s, g₂) →
        ∀ fuel', 0 < fuel' → ∃ s' g₃, (Grammar.simplify fuel' s).run.run g₂ = (.ok s', g₃) ∧
          g₂.graph.Leads s s' ∧ (Grammar.similar s s').run.run g₃ = (.ok true, g₃) := by
  obtain ⟨hl, hworkable, -⟩ := workable_of_prepare hg hroot hprepare htame.complementsTame
  replace htame := htame.reaches hl.reaches
  refine ⟨fun hfits => ?_, fun s g₂ hs fuel' hfuel' => ?_⟩
  · obtain ⟨s, graph, hs⟩ := hworkable.exists_simplify_of_tame htame
      (fun k hk => hfits k (hl.reaches.trans hk)) hfuel
    exact ⟨s, _, run_simplify hprepare hs⟩
  · obtain ⟨graph, hgraph, rfl⟩ := of_run_simplify hprepare hs
    have hneat := hworkable.neat_simplify htame (hopens.reaches hl.reaches) hfuel hgraph
    have hg₁ : g₁.WellFormed := by
      have hw := (hg.prepare hroot).wellFormed
      rwa [hprepare] at hw
    exact simplify_again (hg₁.withGraph hneat.wellFormed hneat.kept.1) hneat hfuel'

/-! ### A reference that is not in the way -/

namespace Referring

/-- The expression `r ('x' | 'x')`, where `r` is `'a'*`. -/
def grammar : Grammar :=
  ⟨⟨#[.node .nil, .node .empty, .node .any, .node (.char 'a'), .node (.star ⟨3⟩), .forward ⟨4⟩,
      .node (.char 'x'), .node (.alt ⟨6⟩ ⟨6⟩), .node (.seq ⟨5⟩ ⟨7⟩)]⟩, [("r", ⟨5⟩)], [], 0⟩

/-- The handle of the expression. -/
def start : Handle := ⟨8⟩

/-- The handles that can be reached from it. -/
def handles : List Handle := [⟨3⟩, ⟨4⟩, ⟨5⟩, ⟨6⟩, ⟨7⟩, ⟨8⟩]

theorem wellFormed_grammar : grammar.WellFormed where
  graph := .of_fits rfl rfl rfl (by decide)
  rules := by decide
  names := by decide

theorem tame : grammar.graph.Tame start := Graph.tame_of_list (l := handles) (by decide) (by decide)

/-- The reference stands for no alternative, and the operands of the alternative are stored. -/
theorem opens : grammar.graph.Opens start := by
  have hclosed : grammar.graph.Closed {h | h ∈ handles} := closed_of_list (by decide)
  intro k n hk hs
  have hmem : k ∈ handles := hclosed.of_reaches (by decide : start ∈ handles) hk
  simp only [handles, List.mem_cons, List.not_mem_nil, or_false] at hmem
  rcases hmem with rfl | rfl | rfl | rfl | rfl | rfl <;> cases hs
  · trivial
  · trivial
  · trivial
  · exact ⟨⟨by decide, by decide⟩, .of_node rfl, .of_node rfl⟩
  · trivial

/-- The simplified form of `r ('x' | 'x')` is equal to its own simplified form. -/
theorem simplify_idempotent_start :
    (grammar.WellFormed ∧ grammar.Has start ∧
        (prepare start).run.run grammar = (.ok start, grammar) ∧ grammar.graph.Tame start ∧
        grammar.graph.Opens start ∧ 0 < 1 ∧
        grammar.graph.Fits {k | grammar.graph.Reaches start k}) ∧
      ∃ s g₂, (Grammar.simplify 1 start).run.run grammar = (.ok s, g₂) ∧
        ∀ fuel', 0 < fuel' → ∃ s' g₃, (Grammar.simplify fuel' s).run.run g₂ = (.ok s', g₃) ∧
          g₂.graph.Leads s s' ∧ (Grammar.similar s s').run.run g₃ = (.ok true, g₃) := by
  have hroot : grammar.Has start := (by decide : 8 < 9)
  have hfits : grammar.graph.Fits {k | grammar.graph.Reaches start k} :=
    .of_slots (by simp [grammar, Node.Fits])
  obtain ⟨hexists, hagain⟩ :=
    simplify_idempotent wellFormed_grammar hroot rfl tame opens Nat.one_pos
  obtain ⟨s, g₂, hs⟩ := hexists hfits
  exact ⟨⟨wellFormed_grammar, hroot, rfl, tame, opens, Nat.one_pos, hfits⟩, s, g₂, hs,
    hagain s g₂ hs⟩

end Referring

/-! ### A reference that hides an alternative -/

namespace Hiding

/-- The expression `('x' | r) | 'w'*`, where `r` is `'y' | 'z'`. -/
def grammar : Grammar :=
  ⟨⟨#[.node .nil, .node .empty, .node .any, .node (.char 'y'), .node (.char 'z'),
      .node (.alt ⟨3⟩ ⟨4⟩), .forward ⟨5⟩, .node (.char 'x'), .node (.alt ⟨7⟩ ⟨6⟩),
      .node (.char 'w'), .node (.star ⟨9⟩), .node (.alt ⟨8⟩ ⟨10⟩)]⟩, [("r", ⟨6⟩)], [], 0⟩

/-- The handle of the expression. -/
def start : Handle := ⟨11⟩

/-- The grammar with the simplified form `'x' | (r | 'w'*)`. -/
def once : Grammar :=
  ⟨⟨grammar.graph.slots ++ #[.forward ⟨21⟩, .forward ⟨8⟩, .forward ⟨7⟩, .forward ⟨5⟩, .forward ⟨3⟩,
      .forward ⟨4⟩, .forward ⟨10⟩, .forward ⟨9⟩, .node (.alt ⟨6⟩ ⟨10⟩), .node (.alt ⟨7⟩ ⟨20⟩)]⟩,
    grammar.rules, [], 0⟩

/-- The grammar with the simplified form `'x' | ('y' | ('z' | 'w'*))` of that one. -/
def twice : Grammar :=
  ⟨⟨once.graph.slots ++ #[.forward ⟨34⟩, .forward ⟨7⟩, .forward ⟨31⟩, .forward ⟨5⟩, .forward ⟨3⟩,
      .forward ⟨4⟩, .forward ⟨10⟩, .forward ⟨9⟩, .node (.alt ⟨4⟩ ⟨10⟩), .node (.alt ⟨3⟩ ⟨30⟩),
      .node (.alt ⟨4⟩ ⟨10⟩), .node (.alt ⟨3⟩ ⟨32⟩), .node (.alt ⟨7⟩ ⟨33⟩)]⟩,
    grammar.rules, [], 0⟩

theorem wellFormed_grammar : grammar.WellFormed where
  graph := .of_fits rfl rfl rfl (by decide)
  rules := by decide
  names := by decide

theorem tame : grammar.graph.Tame start :=
  Graph.tame_of_list (l := [⟨3⟩, ⟨4⟩, ⟨5⟩, ⟨6⟩, ⟨7⟩, ⟨8⟩, ⟨9⟩, ⟨10⟩, ⟨11⟩]) (by decide) (by decide)

theorem simplify_graph : grammar.graph.simplify 1 start = some (⟨21⟩, once.graph) := by cbv

theorem simplify_once : once.graph.simplify 1 ⟨21⟩ = some (⟨34⟩, twice.graph) := by cbv

/-- The first time `r` is one branch, and is put in front of `'w'*`.  The second time it is opened,
because `'y' | 'z'` stands there itself. -/
theorem not_similar_simplify :
    grammar.WellFormed ∧ grammar.Has start ∧
      (prepare start).run.run grammar = (.ok start, grammar) ∧ grammar.graph.Tame start ∧
      (Grammar.simplify 1 start).run.run grammar = (.ok ⟨21⟩, once) ∧
      (Grammar.simplify 1 ⟨21⟩).run.run once = (.ok ⟨34⟩, twice) ∧
      (Grammar.similar ⟨21⟩ ⟨34⟩).run.run twice = (.ok false, twice) := by
  have hprepare : (prepare start).run.run grammar = (.ok start, grammar) := rfl
  have hprepare' : (prepare ⟨21⟩).run.run once = (.ok ⟨21⟩, once) := rfl
  have htwice := run_simplify hprepare' simplify_once
  exact ⟨wellFormed_grammar, (by decide : 11 < 12), hprepare, tame,
    run_simplify hprepare simplify_graph, htwice, rfl⟩

end Hiding

/-! ### Composed expressions -/

/-- The simplified form of an expression that is composed of nodes only is simplified to itself: not
to an equal expression, but to the same handle.  There is a simplified form if there can be room for
all lists. -/
theorem simplify_composed (hg : g.WellFormed) (he : g.graph.Composed e) (hfuel : 0 < fuel) :
    (g.graph.Fits {k | g.graph.Reaches e k} →
        ∃ s g₁, (Grammar.simplify fuel e).run.run g = (.ok s, g₁)) ∧
      ∀ s g₁, (Grammar.simplify fuel e).run.run g = (.ok s, g₁) →
        ∀ fuel', 0 < fuel' → ∃ g₂, (Grammar.simplify fuel' s).run.run g₁ = (.ok s, g₂) := by
  obtain ⟨r, hl, hprepare⟩ := prepare_of_ready hg.graph he.ready
  have hr : g.graph.Composed r := he.reaches hl.reaches
  have hworkable : g.graph.Workable r := ⟨hg.graph, hr.lt_size, hr.ready, hr.tame.complementsTame⟩
  refine ⟨fun hfits => ?_, fun s g₁ hrun fuel' hfuel' => ?_⟩
  · obtain ⟨s, graph, hs⟩ := hworkable.exists_simplify_of_tame hr.tame
      (fun k hk => hfits k (hl.reaches.trans hk)) hfuel
    exact ⟨s, _, run_simplify hprepare hs⟩
  obtain ⟨graph, hgraph, rfl⟩ := of_run_simplify hprepare hrun
  have hs := hworkable.neat_simplify hr.tame hr.opens hfuel hgraph
  obtain ⟨s', g₂, hagain, hl', -⟩ := simplify_again (hg.withGraph hs.wellFormed hs.kept.1) hs hfuel'
  -- The result is a node, since no reference can be reached.
  have hnode : ∃ n, graph.slot? s = some (.node n) := by
    refine (hs.firm.slots s .refl).elim (fun hlt => ?_) id
    have hcomposed : g.graph.Composed s := by
      rcases hs.mem.2 hlt with hreach | hfixed
      · exact hr.reaches hreach
      · obtain ⟨n, hs, hn⟩ := hg.graph.exists_atomic hfixed
        exact .atomic hs hn
    exact (hcomposed.extend hs.kept).exists_node
  obtain ⟨n, hn⟩ := hnode
  obtain rfl : s' = s := hl'.unique (.of_node hn)
  exact ⟨g₂, hagain⟩

namespace Composing

/-- The expression `('a'* ('b' | 'a'*)) | 'b'`, which shares `'b'` and `'a'*`. -/
def grammar : Grammar :=
  ⟨⟨#[.node .nil, .node .empty, .node .any, .node (.char 'a'), .node (.star ⟨3⟩),
      .node (.char 'b'), .node (.alt ⟨5⟩ ⟨4⟩), .node (.seq ⟨4⟩ ⟨6⟩), .node (.alt ⟨7⟩ ⟨5⟩)]⟩,
    [], [], 0⟩

/-- The handle of the expression. -/
def start : Handle := ⟨8⟩

theorem wellFormed_grammar : grammar.WellFormed where
  graph := .of_fits rfl rfl rfl (by decide)
  rules := by decide
  names := by decide

theorem composed : grammar.graph.Composed start := by
  have ha : grammar.graph.Composed ⟨3⟩ := .atomic rfl rfl
  have hb : grammar.graph.Composed ⟨5⟩ := .atomic rfl rfl
  have hstar : grammar.graph.Composed ⟨4⟩ := .node rfl (by decide) (by simpa [Node.children] using ha)
  have halt : grammar.graph.Composed ⟨6⟩ :=
    .node rfl (by decide) (by simpa [Node.children] using ⟨hb, hstar⟩)
  have hseq : grammar.graph.Composed ⟨7⟩ :=
    .node rfl (by decide) (by simpa [Node.children] using ⟨hstar, halt⟩)
  exact .node rfl (by decide) (by simpa [Node.children] using ⟨hseq, hb⟩)

/-- In the simplified form `'b'` stands in front.  It is simplified to itself. -/
theorem simplify_composed_start :
    (grammar.WellFormed ∧ grammar.graph.Composed start ∧ 0 < 1 ∧
        grammar.graph.Fits {k | grammar.graph.Reaches start k}) ∧
      ∃ s g₁, (Grammar.simplify 1 start).run.run grammar = (.ok s, g₁) ∧
        ∀ fuel', 0 < fuel' → ∃ g₂, (Grammar.simplify fuel' s).run.run g₁ = (.ok s, g₂) := by
  have hfits : grammar.graph.Fits {k | grammar.graph.Reaches start k} :=
    .of_slots (by simp [grammar, Node.Fits])
  obtain ⟨hexists, hagain⟩ := simplify_composed wellFormed_grammar composed Nat.one_pos
  obtain ⟨s, g₁, hs⟩ := hexists hfits
  exact ⟨⟨wellFormed_grammar, composed, Nat.one_pos, hfits⟩, s, g₁, hs, hagain s g₁ hs⟩

end Composing

end Grammar

end DerivativeParsing
