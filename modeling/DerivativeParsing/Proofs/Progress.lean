import DerivativeParsing.Proofs.Simplification
import DerivativeParsing.Proofs.SpreadAlternatives

/-!
# Simplification comes to a result

A rule of simplification is stuck if it follows a chain of forwards that has no end, if it cannot
find out whether an operand is nullable, or if there can be no room for the trees of a reduction.
`Hosts.Supports` says that none of that happens in the graphs that a rule meets; every rule then
comes to a result (`Hosts.advances`).

Placeholders are sent on in the course of a simplification.  All chains keep their ends as long as
no chain is closed in this way, and so the whole simplification comes to a result
(`Graph.Workable.exists_simplify`).  Where no cycle can be reached no chain is closed
(`Graph.Workable.simplifiesOpenly_of_tame`).
-/

set_option autoImplicit false

namespace DerivativeParsing

open Fixpoint DerivativeParsing.Graph

/-! ## Rules that are never stuck -/

namespace Simplify

/-- What a rule finds in every graph that it meets: the operands of its node belong to `D`, and from
`D` every chain of forwards ends at a node.  Whether the operand of a nullability is nullable can be
found out, and there can be room for the lists of the node. -/
structure Supports (fuel : Nat) (n : Node) (R : Memory Handle Handle → Graph → Prop)
    (D : Graph → Set Handle) : Prop where
  operand : ∀ m g, R m g → ∀ z ∈ n.children, z ∈ D g
  arrives : ∀ m g, R m g → ∀ k ∈ D g, g.LeadsToNode k
  nullable : ∀ m g, R m g → ∀ z, n = .nullability z → ∃ b, g.nullable fuel z = some b
  fits : n.Fits

namespace Hosts

variable {C : Contract Graph Handle Handle} {key : Handle} {n t : Node}
  {R : Memory Handle Handle → Graph → Prop} {D : Graph → Set Handle}
  {ans : Memory Handle Handle → Handle → Handle → Prop} {m : Memory Handle Handle} {g : Graph}
  {fuel : Nat} {z a : Handle} {next : Handle → TransformM Handle}

/-- A rule asks what it may, and is not stuck. -/
abbrev Advances (C : Contract Graph Handle Handle) (plan : Plan Graph Handle Handle Handle)
    (m : Memory Handle Handle) : Prop := plan.Ensures C False (fun _ _ _ => True) m

section

variable (H : Hosts C key n R D ans) (hS : Supports fuel n R D) (h : R m g)

include H hS h

theorem advances_ask (hz : z ∈ n.children)
    (hnext : ∀ a m' g', R m' g' → m.Frame m' → ans m' z a → Advances C (next a g') m') :
    Advances C ((Transform.ask z >>= next) g) m := by
  obtain ⟨r, -, hl, -⟩ := hS.arrives m g h z (hS.operand m g h z hz)
  obtain ⟨hasks, hanswers⟩ := H.ask m g h z hz r hl
  rw [Rule.bind_apply, Transform.ask, resolve_eq_some.2 hl]
  refine ⟨hasks, fun a m' g' hframe hholds ha => ?_⟩
  obtain ⟨h', ha⟩ := hanswers a m' g' hframe hholds ha
  exact hnext a m' g' h' hframe ha

/-- What belongs to `D` is ready. -/
theorem ready (ha : a ∈ D g) : g.Ready a := fun k hk =>
  hS.arrives m g h k ((H.closed m g h).of_reaches ha hk)

theorem nodeAt_ne_none (hz : z ∈ n.children) (ha : ans m z a) : g.nodeAt a ≠ none := by
  obtain ⟨t, ht⟩ := (H.ready hS h (H.answer m g h z hz a ha)).exists_nodeAt
  simp [ht]

theorem isNil_ne_none (hz : z ∈ n.children) (ha : ans m z a) : g.isNil a ≠ none := by
  simpa [isNil] using H.nodeAt_ne_none hS h hz ha

theorem isEmpty_ne_none (hz : z ∈ n.children) (ha : ans m z a) : g.isEmpty a ≠ none := by
  simpa [isEmpty] using H.nodeAt_ne_none hS h hz ha

omit H in
theorem unchanged_ne_none (hz : z ∈ n.children) : unchanged g a z ≠ none := by
  obtain ⟨r, -, hl, -⟩ := hS.arrives m g h z (hS.operand m g h z hz)
  exact Simplify.unchanged_ne_none hl

omit H in
theorem advances_keepOrMake (hz : z ∈ n.children) : Advances C (keepOrMake key a z t g) m := by
  unfold keepOrMake
  refine ensures_look (fun hnone => unchanged_ne_none hS h hz hnone) fun same _ => ?_
  cases same <;> trivial

/-! ### The nodes -/

theorem advances_seq {first second : Handle} (hn : n = .seq first second) :
    Advances C (ofNode fuel key (.seq first second) g) m := by
  subst hn
  have hfirst : first ∈ (Node.seq first second).children := by simp [Node.children]
  have hsecond : second ∈ (Node.seq first second).children := by simp [Node.children]
  refine H.advances_ask hS h hfirst fun a m₁ g₁ h₁ _ ha => ?_
  refine H.advances_ask hS h₁ hsecond fun b m₂ g₂ h₂ hframe hb => ?_
  replace ha := H.frame _ _ _ _ hframe ha
  refine ensures_look (fun hnone => H.isNil_ne_none hS h₂ hfirst ha hnone) fun firstNil _ => ?_
  cases firstNil with
  | true => trivial
  | false =>
  refine ensures_look (fun hnone => H.isNil_ne_none hS h₂ hsecond hb hnone) fun secondNil _ => ?_
  cases secondNil with
  | true => trivial
  | false =>
  refine ensures_look (fun hnone => H.isEmpty_ne_none hS h₂ hfirst ha hnone) fun firstEmpty _ => ?_
  cases firstEmpty with
  | true => trivial
  | false =>
  refine ensures_look (fun hnone => H.isEmpty_ne_none hS h₂ hsecond hb hnone)
    fun secondEmpty _ => ?_
  cases secondEmpty with
  | true => trivial
  | false =>
  refine ensures_look (fun hnone => ?_) fun same _ => ?_
  · exact (bothUnchanged_eq_none hnone).elim (unchanged_ne_none hS h₂ hfirst)
      (unchanged_ne_none hS h₂ hsecond)
  · cases same <;> trivial

theorem advances_alt {left right : Handle} (hn : n = .alt left right) :
    Advances C (ofNode fuel key (.alt left right) g) m := by
  subst hn
  have hleft : left ∈ (Node.alt left right).children := by simp [Node.children]
  have hright : right ∈ (Node.alt left right).children := by simp [Node.children]
  refine H.advances_ask hS h hleft fun a m₁ g₁ h₁ _ ha => ?_
  refine H.advances_ask hS h₁ hright fun b m₂ g₂ h₂ hframe hb => ?_
  have haD := H.answer m₂ g₂ h₂ left hleft a (H.frame _ _ _ _ hframe ha)
  have hbD := H.answer m₂ g₂ h₂ right hright b hb
  have hclosed := H.closed m₂ g₂ h₂
  refine (ensures_nested (H.wellFormed m₂ g₂ h₂) hclosed (H.inRange m₂ g₂ h₂)
    (fun k hk hnone => ?_) (fun hnone => ?_) (H.fixed m₂ g₂ h₂).1 (H.self m₂ g₂ h₂) haD hbD).mono
      fun _ _ _ _ _ => trivial
  · obtain ⟨r, -, hl, -⟩ := hS.arrives m₂ g₂ h₂ k hk
    rw [resolve_eq_some.2 hl] at hnone
    cases hnone
  · obtain ⟨items, hitems⟩ := exists_joined (H.wellFormed m₂ g₂ h₂) fun k hk =>
      H.ready hS h₂ ((List.mem_append.1 hk).elim (closed_branches hclosed haD k)
        (closed_branches hclosed hbD k))
    rw [hitems] at hnone
    cases hnone

theorem advances_rep {count : Count} (hn : n = .rep z count) :
    Advances C (ofNode fuel key (.rep z count) g) m := by
  subst hn
  have hz {count : Count} : z ∈ (Node.rep z count).children := by simp [Node.children]
  rcases count with (_ | _ | k) | _
  · trivial
  · change Advances C (Transform.ask z g) m
    rw [← Running.ask_bind_pure]
    exact H.advances_ask hS h hz fun _ _ _ _ _ _ => trivial
  · refine H.advances_ask hS h (z := z) hz fun a m₁ g₁ h₁ _ ha => ?_
    refine ensures_look (H.nodeAt_ne_none hS h₁ hz ha) fun t ht => ?_
    cases t with
    | nil => trivial
    | empty => trivial
    | _ => exact advances_keepOrMake hS h₁ hz
  · refine H.advances_ask hS h (z := z) hz fun a m₁ g₁ h₁ _ ha => ?_
    refine ensures_look (H.nodeAt_ne_none hS h₁ hz ha) fun t ht => ?_
    rcases starred? a t with _ | v <;> trivial

/-- A rule that finds what it takes comes to a result. -/
theorem advances : Advances C (ofNode fuel key n g) m := by
  have hz {z : Handle} {n : Node} (he : n.children = [z]) : z ∈ n.children := by simp [he]
  cases n with
  | nil => trivial
  | empty => trivial
  | any => trivial
  | char c => trivial
  | token text => trivial
  | emptyReduction trees => trivial
  | range first last =>
      change Advances C ((if first = last then Transform.make (.char first) else pure key :
        TransformM Handle) g) m
      split <;> trivial
  | alt left right => exact H.advances_alt hS h rfl
  | seq first second => exact H.advances_seq hS h rfl
  | star z =>
      refine H.advances_ask hS h (hz rfl) fun a m₁ g₁ h₁ _ ha => ?_
      refine ensures_look (H.nodeAt_ne_none hS h₁ (hz rfl) ha) fun t ht => ?_
      rcases starred? a t with _ | v
      · exact advances_keepOrMake hS h₁ (hz rfl)
      · trivial
  | rep z count => exact H.advances_rep hS h rfl
  | not z =>
      refine H.advances_ask hS h (hz rfl) fun a m₁ g₁ h₁ _ ha => ?_
      refine ensures_look (H.nodeAt_ne_none hS h₁ (hz rfl) ha) fun t ht => ?_
      cases t with
      | not inner => trivial
      | _ => exact advances_keepOrMake hS h₁ (hz rfl)
  | nullability z =>
      -- The operand is asked for only if it is nullable.
      obtain ⟨b, hb⟩ := hS.nullable m g h z rfl
      refine ensures_look_of_eq hb ?_
      cases b with
      | false => trivial
      | true =>
          refine H.advances_ask hS h (hz rfl) fun a m₁ g₁ h₁ _ ha => ?_
          refine ensures_look (H.nodeAt_ne_none hS h₁ (hz rfl) ha) fun t ht => ?_
          cases t with
          | empty => trivial
          | emptyReduction trees => trivial
          | nullability inner => trivial
          | _ => exact advances_keepOrMake hS h₁ (hz rfl)
  | reduction z f =>
      refine H.advances_ask hS h (hz rfl) fun a m₁ g₁ h₁ _ ha => ?_
      refine ensures_look (H.nodeAt_ne_none hS h₁ (hz rfl) ha) fun t ht => ?_
      cases t with
      | nil => trivial
      | emptyReduction trees =>
          exact ensures_look_of_eq (Reducer.reduce?_eq_some.2 ⟨fun _ => hS.fits, rfl⟩) trivial
      | _ => exact advances_keepOrMake hS h₁ (hz rfl)

end

end Hosts

end Simplify

/-! ## The whole simplification -/

section Progressing

variable {g₀ g₁ g : Graph} {S : Set Handle} {m : Memory Handle Handle} {key p h r z : Handle}
  {n : Node} {fuel : Nat}

/-- So many passes are enough to find out what is nullable in a part of a graph: one for each slot
and one more, or a single one if no cycle can be reached. -/
def Graph.Decides (g : Graph) (fuel : Nat) (S : Set Handle) : Prop :=
  g.size < fuel ∨ 0 < fuel ∧ ∀ k ∈ S, g.Tame k

/-- Whether an expression is nullable is found out in more passes than there are slots that can be
reached from it. -/
theorem Graph.Workable.exists_nullable (hh : g.Workable h) (hfuel : (g.region h).card < fuel) :
    ∃ b, g.nullable fuel h = some b := by
  obtain ⟨r, n, hl, -⟩ := hh.ready h .refl
  have hr := hh.reaches hl.reaches
  have hregion : g.region r ⊆ g.region h := fun k hk =>
    (hh.wellFormed.mem_region hh.inRange).2
      (hl.reaches.trans ((hh.wellFormed.mem_region hr.inRange).1 hk))
  obtain ⟨b, hb⟩ := hr.stratifies.answers_of_final
    (hr.stratifies.complementsFinal_of_tame hl.self_end hr.tame fuel) hl.self_end
    ((Finset.card_le_card hregion).trans_lt hfuel)
  refine ⟨b, ?_⟩
  rwa [nullable, Table.evaluate_eq hl, ← Table.evaluate_eq hl.self_end]

namespace Simplifying

variable {E F : Prop}

/-- Nothing but slots of the part can be reached from a handle of the part. -/
theorem exists_nullable (h : Simplifying E F g₀ S key p n g₁ m g) (htame : g₀.TameComplements S)
    (hfuel : g₀.Decides fuel S) (hz : z ∈ S) : ∃ b, g.nullable fuel z = some b := by
  have hworkable := h.workable_of_mem htame hz
  have hclosed : g.Closed S := h.part.closed.congr h.slot?_eq
  rcases hfuel with hfuel | ⟨hfuel, hall⟩
  · refine hworkable.exists_nullable (lt_of_le_of_lt ?_ hfuel)
    have hsubset : g.region z ⊆ (Finset.range g₀.size).image Handle.mk := fun k hk => by
      have hreach := (h.working.wellFormed.mem_region hworkable.inRange).1 hk
      exact Finset.mem_image.2 ⟨k.index, Finset.mem_range.2
        (h.part.inRange k (hclosed.of_reaches hz hreach)), rfl⟩
    exact (Finset.card_le_card hsubset).trans (Finset.card_image_le.trans (Finset.card_range _).le)
  · obtain ⟨b, hb, -⟩ := hworkable.nullable_of_tame
      ((hall z hz).congr h.part.closed h.slot?_eq hz) hfuel
    exact ⟨b, hb⟩

theorem hosts : Simplify.Hosts (keeping g₀ S id (SimplifyInv E F g₀ S)) key n
    (Simplifying E F g₀ S key p n g₁) (fun g => {k | Usable g₀ S key g k}) (AnswerFor g₀) :=
  Running.hosts fun _ _ h => h.firm

/-- As long as no chain is closed, rules find what it takes. -/
theorem supports (h : Simplifying E True g₀ S key p n g₁ m g) (htame : g₀.TameComplements S)
    (hfits : g₀.Fits S) (hfuel : g₀.Decides fuel S) :
    Simplify.Supports fuel n (Simplifying E True g₀ S key p n g₁)
      fun g => {k | Usable g₀ S key g k} where
  operand _ _ h' _ hz := h'.usable_operand hz
  arrives _ _ h' k hk := h'.inv.arrives trivial k hk.mem
  nullable _ _ h' z hn :=
    h'.exists_nullable htame hfuel (h'.operand_mem (by simp [hn, Node.children]))
  fits := h.fits_self hfits

end Simplifying

open Simplifying in
/-- No rule is stuck as long as no chain is closed. -/
theorem upholds_progress (hS : g₀.Part S) (htame : g₀.TameComplements S) (hfits : g₀.Fits S)
    (hfuel : g₀.Decides fuel S) :
    Upholds g₀ S id (Simplify.rule fuel) (SimplifyInv False True g₀ S)
      (fun _ g key v => SimplifyResult False g₀ g key v) False
      fun e => e.state.ClosesNoChain e.provisional e.computed :=
  have hkept : Upholds g₀ S id (Simplify.rule fuel) (SimplifyInv False True g₀ S)
      (fun _ g key v => SimplifyResult False g₀ g key v) True _ := upholds_simplify hS htame
  { hkept with
    rule key p n m g h := by
      refine ((hkept.rule key p n m g h).and (h.ensures_node
        (hosts.advances (supports h htame hfits hfuel) h)) fun _ _ _ _ _ _ => id).mono ?_
      exact fun _ _ _ _ h => h.1
    settle key p v m g hw hinv hp hv hresult hopen :=
      hkept.settle key p v m g hw hinv hp hv hresult ⟨False.elim, fun _ => hopen⟩ }

namespace Graph.Workable

/-- No chain is closed in the simplification of an expression from which no cycle can be reached:
the chain of a result passes through no placeholder. -/
theorem simplifiesOpenly_of_tame (hr : g₀.Workable r) (hl : g₀.Leads r r) (htame : g₀.Tame r) :
    g₀.SimplifiesOpenly fuel r := by
  intro e he
  obtain ⟨m, hp, hw, hinv, hv, hresult⟩ :=
    (upholds_simplify (E := False) (F := False) hr.part hr.tameComplements).concluded hr.part
      (fun _ hy => hy) (.initial hr.part hr.tameComplements) (.inl .refl) hl
      (fun _ _ => ⟨False.elim, False.elim⟩) he
  have hw' := hw.settle hp hv
  have hfirm := hresult.firm (htame.scope hr.wellFormed _ (hw.asked _ _ hp.holds).1)
  have hfirm' : (e.state.redirect e.provisional e.computed).Firm g₀.size e.computed :=
    hfirm.retained (fun k hlt => by rw [hw'.kept.2 k hlt, hw.kept.2 k hlt])
      (.of_redirect (hw.placeholder _ _ hp).2)
  obtain ⟨q, -, hq, -⟩ :=
    hw'.ready_of_firm hr.part (Working.grown_mono size_redirect.ge hv) hfirm' _ .refl
  rcases eq_or_ne e.provisional e.computed with heq | hne
  · exact ⟨q, heq ▸ hq⟩
  · refine ⟨q, .step ?_ hq⟩
    rw [redirect, if_neg hne, slot?_setForward_self (slot?_lt (hw.placeholder _ _ hp).2)]

/-- An expression has a simplified form if no chain is closed on the way, or if no cycle can be
reached, and there can be room for all its lists. -/
theorem exists_simplify (hh : g.Workable h) (hl : g.Leads h r)
    (hfits : g.Fits {k | g.Reaches h k}) (hfuel : g.Decides fuel (g.scope h))
    (hopen : g.SimplifiesOpenly fuel r ∨ g.Tame h) : ∃ s g', g.simplify fuel h = some (s, g') := by
  refine apply_answers (upholds_progress hh.part hh.tameComplements (hfits.scope hh.wellFormed) hfuel)
    hh.part (fun _ hy => hy) (.initial hh.part hh.tameComplements) (.inl .refl) hl fun e he => ?_
  rcases hopen with hopen | htame
  · exact hopen e he
  · exact (hh.reaches hl.reaches).simplifiesOpenly_of_tame hl.self_end (htame.reaches hl.reaches) e he

/-- An expression from which no cycle can be reached has a simplified form. -/
theorem exists_simplify_of_tame (hh : g.Workable h) (htame : g.Tame h)
    (hfits : g.Fits {k | g.Reaches h k}) (hfuel : 0 < fuel) :
    ∃ s g', g.simplify fuel h = some (s, g') := by
  obtain ⟨r, -, hl, -⟩ := hh.ready h .refl
  exact hh.exists_simplify hl hfits (.inr ⟨hfuel, htame.scope hh.wellFormed⟩) (.inr htame)

end Graph.Workable

end Progressing

/-! ## The action on a grammar -/

namespace Grammar

variable {g g₁ : Grammar} {root r : Handle} {fuel : Nat}

/-- An expression that can be prepared, and in which no cycle can be reached from the operand of a
complement, has a simplified form that can be prepared again.  No chain of forwards must be closed
on the way, which none is if no cycle can be reached at all, there can be room for all lists, and
there are more passes to find out what is nullable than there are slots. -/
theorem prepare_simplify (hg : g.WellFormed) (hroot : g.Has root)
    (hprepare : (prepare root).run.run g = (.ok r, g₁)) (htame : g₁.graph.ComplementsTame root)
    (hfits : g₁.graph.Fits {k | g₁.graph.Reaches root k}) (hfuel : g₁.graph.size < fuel)
    (hopen : g₁.graph.SimplifiesOpenly fuel r ∨ g₁.graph.Tame root) :
    ∃ s g₂ r', (Grammar.simplify fuel root).run.run g = (.ok s, g₂) ∧ g₂.graph.Leads s r' ∧
      (prepare s).run.run g₂ = (.ok r', g₂) := by
  obtain ⟨hl, hr, -⟩ := workable_of_prepare hg hroot hprepare htame
  replace hopen := hopen.imp_right fun htame => htame.reaches hl.reaches
  obtain ⟨s, graph, hs⟩ := hr.exists_simplify hl.self_end
    (fun k hk => hfits k (hl.reaches.trans hk)) (.inl hfuel) hopen
  have hsimplify := run_simplify hprepare hs
  -- The chains of all results end at nodes, so that nothing is left to prepare.
  obtain ⟨m, hsimplified⟩ := hr.part.simplified hr.tameComplements (.inl .refl) hl.self_end hs
  obtain ⟨r', hl', hprepare'⟩ := prepare_of_ready (g := { g₁ with graph })
    hsimplified.working.wellFormed (hsimplified.ready hr.part hopen)
  exact ⟨s, _, r', hsimplify, hl', hprepare'⟩

namespace Nested

theorem fits : grammar.graph.Fits {k | grammar.graph.Reaches start k} :=
  .of_slots (by simp [grammar, Node.Fits])

/-- The simplified form of `('a'*)* ~~'b'` can be prepared. -/
theorem prepare_simplify_start :
    (grammar.WellFormed ∧ grammar.Has start ∧
        (prepare start).run.run grammar = (.ok start, grammar) ∧
        grammar.graph.ComplementsTame start ∧
        grammar.graph.Fits {k | grammar.graph.Reaches start k} ∧ grammar.graph.size < 11 ∧
        (grammar.graph.SimplifiesOpenly 11 start ∨ grammar.graph.Tame start)) ∧
      ∃ s g₂ r', (Grammar.simplify 11 start).run.run grammar = (.ok s, g₂) ∧
        g₂.graph.Leads s r' ∧ (prepare s).run.run g₂ = (.ok r', g₂) := by
  have hroot : grammar.Has start := (by decide : 9 < 10)
  have hfuel : grammar.graph.size < 11 := by decide
  exact ⟨⟨wellFormed_grammar, hroot, rfl, complementsTame, fits, hfuel, .inr tame⟩,
    prepare_simplify wellFormed_grammar hroot rfl complementsTame fits hfuel (.inr tame)⟩

end Nested

/-! ## A chain of forwards that is closed

In `x = y ∅ | z`, `y = z ∅ | x`, `z = y | ∅`, all rules come to what another one comes to.  While
`x` is simplified, the result of `y` is the placeholder of `x`, and the result of `z`, which is also
the result of `x`, is the placeholder of `y`. -/

namespace Circle

/-- The grammar `x = y ∅ | z`, `y = z ∅ | x`, `z = y | ∅`. -/
def grammar : Grammar :=
  ⟨⟨#[.node .nil, .node .empty, .node .any, .forward ⟨7⟩, .forward ⟨9⟩, .forward ⟨10⟩,
      .node (.seq ⟨4⟩ .nil), .node (.alt ⟨6⟩ ⟨5⟩), .node (.seq ⟨5⟩ .nil), .node (.alt ⟨8⟩ ⟨3⟩),
      .node (.alt ⟨4⟩ .nil)]⟩,
    [("x", ⟨3⟩), ("y", ⟨4⟩), ("z", ⟨5⟩)], [], 0⟩

/-- The handle of `x`. -/
def start : Handle := ⟨3⟩

/-- The grammar with what the simplification of `x` leaves. -/
def simplified : Grammar :=
  ⟨⟨grammar.graph.slots ++ #[.forward ⟨13⟩, .forward .nil, .forward ⟨11⟩, .forward .nil,
      .forward ⟨13⟩, .forward .nil]⟩,
    grammar.rules, [], 0⟩

theorem wellFormed_grammar : grammar.WellFormed where
  graph := .of_fits rfl rfl rfl (by decide)
  rules := by decide
  names := by decide

theorem simplify_graph : grammar.graph.simplify 5 ⟨7⟩ = some (⟨13⟩, simplified.graph) := by cbv

/-- The simplified form of `x` refers to itself through forwards only, and cannot be prepared. -/
theorem not_prepare_simplify :
    grammar.WellFormed ∧ grammar.Has start ∧
      (prepare start).run.run grammar = (.ok ⟨7⟩, grammar) ∧
      (∀ k p, grammar.graph.Reaches start k → grammar.graph.slot? k ≠ some (.node (.not p))) ∧
      (Grammar.simplify 5 start).run.run grammar = (.ok ⟨13⟩, simplified) ∧
      ∀ r g, (prepare ⟨13⟩).run.run simplified ≠ (.ok r, g) := by
  have hprepare : (prepare start).run.run grammar = (.ok ⟨7⟩, grammar) := rfl
  have hsimplify : (Grammar.simplify 5 start).run.run grammar = (.ok ⟨13⟩, simplified) := by
    unfold Grammar.simplify
    rw [run_bind, hprepare]
    exact run_onGraph? (f := (·.simplify 5 ⟨7⟩)) simplify_graph
  refine ⟨wellFormed_grammar, (by decide : 3 < 11), hprepare, fun k p _ hs => ?_, hsimplify,
    fun r g h => ?_⟩
  · rcases k with ⟨_ | _ | _ | _ | _ | _ | _ | _ | _ | _ | _ | k⟩ <;> cases hs
  · have herror : (prepare ⟨13⟩).run.run simplified =
        (.error (.grammar .cyclicReference), simplified) := rfl
    rw [herror] at h
    cases h

end Circle

end Grammar

end DerivativeParsing
