import DerivativeParsing.Proofs.Derivatives

/-!
# Transformations of any graph

Proofs/Transforms follows a transformation through a part of a graph in which every reference leads
to a node.  Here rules may be stuck: an operand may be asked for whose chain has no end, and an
operand may turn out to be a rule without a body.  What can be said of such a transformation is what
it keeps while it runs.  `Stage` covers both cases.

`Sustains` lists what has to be shown of an invariant, and of what an answer tells about the keys
that were finished on the way to it; `apply_sustains` says what holds in the end, and
`apply_sustains_answers` that there is an end if rules are not stuck.  The rule of a derivative
makes a derivative in any graph (`Carrying.ensures_derived`).
-/

set_option autoImplicit false
set_option linter.unusedSectionVars false

namespace DerivativeParsing

open Fixpoint DerivativeParsing.Graph

/-- The handles of a graph. -/
def Graph.handles (g : Graph) : Set Handle := {h | h.index < g.size}

/-- A closed set of handles that contains the three fixed ones.  Every handle of it leads to a node,
unless rules may be stuck. -/
structure Graph.Stage (g : Graph) (S : Set Handle) (mayStop : Prop) : Prop where
  ground : g.Ground S
  nil : .nil ∈ S
  empty : .empty ∈ S
  any : .any ∈ S
  leads : mayStop ∨ ∀ h ∈ S, g.LeadsToNode h

theorem Graph.WellFormed.stage {g : Graph} (hg : g.WellFormed) : g.Stage g.handles True :=
  ⟨hg.ground, hg.nil_lt, hg.empty_lt, hg.any_lt, .inl trivial⟩

theorem Graph.Part.stage {g : Graph} {S : Set Handle} (hS : g.Part S) : g.Stage S False :=
  ⟨hS.ground, hS.nil, hS.empty, hS.any, .inr hS.ready⟩

section Sustaining

variable {g₀ g₁ g g' : Graph} {S : Set Handle} {mayStop : Prop} {standIn : Handle → Handle}
  {rule : Handle → TransformM Handle} {Inv : Memory Handle Handle → Graph → Prop}
  {Tells Result : Memory Handle Handle → Handle → Handle → Memory Handle Handle → Graph → Prop}
  {m m' m₁ : Memory Handle Handle} {key p r v a c z root : Handle} {n t : Node}

theorem mem_grown_handles : v ∈ grown g₀ g₀.handles g ↔ v.index < g.size :=
  ⟨And.left, fun h => ⟨h, id⟩⟩

/-- A transformation that keeps an invariant, whatever the graph looks like.  The last argument of
the contract says what an answer tells. -/
def sustaining (g₀ : Graph) (S : Set Handle) (standIn : Handle → Handle)
    (Inv : Memory Handle Handle → Graph → Prop)
    (Tells : Memory Handle Handle → Handle → Handle → Memory Handle Handle → Graph → Prop) :
    Contract Graph Handle Handle where
  asks key m g := (key ∈ S ∧ g₀.Leads key key) ∧ Working g₀ S standIn m g ∧ Inv m g
  answers key m g v m' g' :=
    g.Retains g' ∧ Working g₀ S standIn m' g' ∧ Inv m' g' ∧ Tells m key v m' g'

/-- What is known while the rule of a key runs, where `g₁` and `m₁` are the graph and the memory
with which it started. -/
structure Carrying (g₀ : Graph) (S : Set Handle) (mayStop : Prop) (standIn : Handle → Handle)
    (Inv : Memory Handle Handle → Graph → Prop) (key p : Handle) (g₁ : Graph)
    (m₁ m : Memory Handle Handle) (g : Graph) : Prop where
  stage : g₀.Stage S mayStop
  since : g₁.Retains g
  frame : m₁.Frame m
  working : Working g₀ S standIn m g
  inv : Inv m g
  mem : key ∈ S
  /-- Rules are carried out at the ends of chains. -/
  isEnd : g₀.Leads key key
  underway : m.Underway key p

/-- What has to be shown of an invariant, and of what answers tell. -/
structure Sustains (g₀ : Graph) (S : Set Handle) (mayStop : Prop) (standIn : Handle → Handle)
    (rule : Handle → TransformM Handle) (Inv : Memory Handle Handle → Graph → Prop)
    (Tells Result : Memory Handle Handle → Handle → Handle → Memory Handle Handle → Graph → Prop) :
    Prop where
  /-- The invariant depends on what is finished and what is underway only. -/
  congr : ∀ m m' g, (∀ y v, m'.Finished y v ↔ m.Finished y v) →
    (∀ y p, m'.Underway y p ↔ m.Underway y p) → Inv m g → Inv m' g
  known : ∀ key v m g progress, Inv m g → m.progress[key]? = some progress →
    m.values[key]? = some v → Tells m key v (m.giveAway key progress) g
  start : ∀ key m g, key ∈ S → Working g₀ S standIn m g → Inv m g → m.progress[key]? = none →
    Inv (m.start key ⟨g.size⟩) (g.alloc (.forward (standIn key))).2
  rule : ∀ key p m g, Carrying g₀ S mayStop standIn Inv key p g m m g →
    (rule key g).Ensures (sustaining g₀ S standIn Inv Tells) mayStop
      (fun v m' g' => Carrying g₀ S mayStop standIn Inv key p g m m' g' ∧ v ∈ grown g₀ S g' ∧
        Result m key v m' g') m
  /-- A rule comes to its end, where `m` is the memory before it started. -/
  settle : ∀ key p v m m' g₁ g, m.progress[key]? = none → (∀ y w, m.Finished y w → w ≠ p) →
    Carrying g₀ S mayStop standIn Inv key p g₁ (m.start key p) m' g → v ∈ grown g₀ S g →
    Result (m.start key p) key v m' g →
      Inv (m'.finish key p v) (g.redirect p v) ∧
        Tells m key v (m'.finish key p v) (g.redirect p v)

theorem Sustains.kept (hU : Sustains g₀ S mayStop standIn rule Inv Tells Result)
    (hS : g₀.Stage S mayStop) (hstandIn : ∀ y ∈ S, standIn y ∈ S) :
    (sustaining g₀ S standIn Inv Tells).Kept (Transform.rules standIn rule) mayStop (fun _ => True)
      (fun _ => True) where
  remembered key m g v progress hasks hp hv := by
    obtain ⟨hkey, hw, hinv⟩ := hasks
    refine ⟨.refl g, hw.giveAway hp, ?_, hU.known key v m g progress hinv hp hv⟩
    exact hU.congr m _ g (fun y v => Memory.finished_giveAway hp)
      (fun y p => Memory.underway_giveAway hp) hinv
  carried key m g p g₁ hasks hfresh hstart := by
    obtain ⟨⟨hkey, hend⟩, hw, hinv⟩ := hasks
    have hprovisional : (Transform.rules standIn rule).provisional m key g =
        g.alloc (.forward (standIn key)) := by
      unfold Rules.provisional
      rw [hw.unasked key hfresh]
      rfl
    rw [hprovisional] at hstart
    cases hstart
    have hcarrying : Carrying g₀ S mayStop standIn Inv key ⟨g.size⟩
        (g.alloc (.forward (standIn key))).2 (m.start key ⟨g.size⟩) (m.start key ⟨g.size⟩)
        (g.alloc (.forward (standIn key))).2 :=
      { stage := hS
        since := .refl _
        frame := .refl _
        working := hw.start hS.ground (hstandIn key hkey) hkey hfresh
        inv := hU.start key m g hkey hw hinv hfresh
        mem := hkey
        isEnd := hend
        underway := Memory.underway_start }
    refine (hU.rule key _ _ _ hcarrying).mono ?_
    rintro v m₁ g₁ - ⟨h, hv, hresult⟩ - -
    -- The placeholder is new, so that it is nobody's value yet.
    have hnew : ∀ y w, m.Finished y w → w ≠ ⟨g.size⟩ := by
      rintro y w hy rfl
      have hlt := (hw.asked y _ hy.holds).2.1
      exact absurd hlt (Nat.lt_irrefl _)
    have hredirect : g₁.Retains (g₁.redirect ⟨g.size⟩ v) :=
      .of_redirect (h.working.placeholder key _ h.underway).2
    obtain ⟨hinv', htells⟩ := hU.settle key _ v m m₁ _ g₁ hfresh hnew h hv hresult
    have hworking := h.working.settle h.underway hv
    exact ⟨trivial, (Retains.of_extends extends_alloc).trans (h.since.trans hredirect), hworking,
      hinv', htells⟩

/-- A transformation starts with the end of a chain. -/
theorem Graph.Stage.asks_initial (hS : g₀.Stage S mayStop) (hinit : Inv .empty g₀) (hroot : root ∈ S)
    (hl : g₀.Leads root r) : (sustaining g₀ S standIn Inv Tells).asks r .empty g₀ :=
  ⟨⟨hS.ground.closed.of_reaches hroot hl.reaches, hl.self_end⟩, .initial hS.ground, hinit⟩

/-- What holds after a transformation: the invariant, with nothing underway. -/
theorem apply_sustains (hU : Sustains g₀ S mayStop standIn rule Inv Tells Result)
    (hS : g₀.Stage S mayStop) (hstandIn : ∀ y ∈ S, standIn y ∈ S) (hinit : Inv .empty g₀)
    (hroot : root ∈ S)
    (h : Transform.apply (Transform.rules standIn rule) g₀ root = some (v, g')) :
    ∃ r m, g₀.Leads root r ∧ Working g₀ S standIn m g' ∧ Inv m g' ∧ m.Finished r v ∧
      ∀ y p, ¬ m.Underway y p := by
  rw [Transform.apply] at h
  obtain ⟨r, hr, h⟩ := Option.bind_eq_some_iff.1 h
  have hl := resolve_eq_some.1 hr
  rw [runOnce] at h
  split at h
  · next w m g₁ hvisit =>
      cases h
      obtain ⟨-, hw, hinv, -⟩ := (visit_ensures (hU.kept hS hstandIn)
        (hS.asks_initial hinit hroot hl) fun _ _ => trivial).2 v m g' hvisit
      obtain ⟨hframe, hholds⟩ := visit_frame hvisit
      have hnone : ∀ y p, ¬ m.Underway y p := fun y p hp => by
        have hempty := hframe.underway_iff.1 hp
        simp [Memory.Underway, Memory.empty] at hempty
      have hfinished : m.Finished r v :=
        (Memory.holds_iff.1 hholds).resolve_right fun hp => hnone r v hp
      exact ⟨r, m, hl, hw, hinv, hfinished, hnone⟩
  · cases h

/-- A transformation whose rules are never stuck has a result: questions nest no deeper than there
are slots. -/
theorem apply_sustains_answers (hU : Sustains g₀ S False standIn rule Inv Tells Result)
    (hS : g₀.Stage S False) (hstandIn : ∀ y ∈ S, standIn y ∈ S) (hinit : Inv .empty g₀)
    (hroot : root ∈ S) :
    ∃ v g', Transform.apply (Transform.rules standIn rule) g₀ root = some (v, g') := by
  obtain ⟨r, -, hl, -⟩ := (hS.leads.resolve_left id) root hroot
  let keys : Finset Handle := (Finset.range g₀.size).image Handle.mk
  have hkeys : ∀ key m g, (sustaining g₀ S standIn Inv Tells).asks key m g → key ∈ keys :=
    fun key m g hasks => Finset.mem_image.2
      ⟨key.index, Finset.mem_range.2 (hS.ground.inRange key hasks.1.1), rfl⟩
  have hdepth : ((Memory.empty : Memory Handle Handle).unvisited keys).card < g₀.size + 1 := by
    have hcard : keys.card ≤ g₀.size := Finset.card_image_le.trans (Finset.card_range _).le
    exact Nat.lt_succ_of_le ((Finset.card_filter_le _ _).trans hcard)
  obtain ⟨v, m, g', hvisit⟩ := visit_answers (hU.kept hS hstandIn) hkeys
    (hS.asks_initial hinit hroot hl) (fun _ _ => trivial) (fun k hk => by simp [Memory.empty] at hk)
    hdepth
  refine ⟨v, g', ?_⟩
  rw [Transform.apply, Graph.resolve_eq_some.2 hl]
  simp only [Option.bind_eq_bind, Option.bind_some, runOnce, hvisit]

/-! ## What a rule does -/

/-- An invariant that adding nodes does not break. -/
def Steady (g₀ : Graph) (S : Set Handle) (standIn : Handle → Handle)
    (Inv : Memory Handle Handle → Graph → Prop) : Prop :=
  ∀ m g g' P, Working g₀ S standIn m g → Inv m g → Builds (grown g₀ S g) P g g' → Inv m g'

/-- A handle was given for the result of an operand. -/
def HeldFor (g₀ : Graph) (m : Memory Handle Handle) (z a : Handle) : Prop :=
  ∃ r, g₀.Leads z r ∧ m.Holds r a

theorem HeldFor.frame (h : HeldFor g₀ m z a) (hframe : m.Frame m') : HeldFor g₀ m' z a :=
  h.imp fun _ => And.imp_right hframe.holds_of

namespace Carrying

variable {α : Type} {Q : α → Memory Handle Handle → Graph → Prop} {next : Handle → TransformM α}

theorem answered (h : Carrying g₀ S mayStop standIn Inv key p g₁ m₁ m g) (hframe : m.Frame m')
    (hsince : g.Retains g') (hw : Working g₀ S standIn m' g') (hinv : Inv m' g') :
    Carrying g₀ S mayStop standIn Inv key p g₁ m₁ m' g' where
  stage := h.stage
  since := h.since.trans hsince
  frame := h.frame.trans hframe
  working := hw
  inv := hinv
  mem := h.mem
  isEnd := h.isEnd
  underway := hframe.underway_of h.underway

/-- A rule adds nodes. -/
theorem build {P : Node → Prop} (h : Carrying g₀ S mayStop standIn Inv key p g₁ m₁ m g)
    (hsteady : Steady g₀ S standIn Inv) (hbuilds : Builds (grown g₀ S g) P g g')
    (hP : ¬ P (.token [])) : Carrying g₀ S mayStop standIn Inv key p g₁ m₁ m g' :=
  h.answered (.refl m) (.of_extends hbuilds.kept) (h.working.build hbuilds hP)
    (hsteady m g g' P h.working h.inv hbuilds)

theorem operand_mem (h : Carrying g₀ S mayStop standIn Inv key p g₁ m₁ m g)
    (hc : c ∈ (g₀.node key).children) : c ∈ S := by
  have hnil : g₀.node key ≠ .nil := fun he => by
    rw [he] at hc
    cases hc
  refine h.stage.ground.closed key h.mem c ?_
  rw [references_of_node (slot?_of_node_eq rfl hnil)]
  exact hc

theorem wellFormed (h : Carrying g₀ S mayStop standIn Inv key p g₁ m₁ m g) : g₀.WellFormed :=
  h.stage.ground.wellFormed

theorem mem_grown (h : Carrying g₀ S mayStop standIn Inv key p g₁ m₁ m g) (hv : v ∈ S) :
    v ∈ grown g₀ S g := h.stage.ground.mem_grown h.working.kept hv

/-- Nothing in the stage has been changed. -/
theorem slot?_eq (h : Carrying g₀ S mayStop standIn Inv key p g₁ m₁ m g) :
    ∀ k ∈ S, g.slot? k = g₀.slot? k := fun k hk =>
  h.working.kept.2 k (h.stage.ground.inRange k hk)

/-- The node of a key is read as it was at the start. -/
theorem node_eq (h : Carrying g₀ S mayStop standIn Inv key p g₁ m₁ m g) :
    g.node key = g₀.node key := by
  unfold Graph.node stored?
  rw [h.slot?_eq key h.mem]

/-- A chain of forwards leads where it led at the start. -/
theorem leads_of_leads (h : Carrying g₀ S mayStop standIn Inv key p g₁ m₁ m g) (hc : c ∈ S)
    (hl : g.Leads c r) : g₀.Leads c r := by
  have hclosed : g.Closed S := h.stage.ground.closed.congr h.slot?_eq
  exact hl.congr hclosed (fun k hk => (h.slot?_eq k hk).symm) hc

/-- A rule asks for an operand. -/
theorem ensures_ask (h : Carrying g₀ S mayStop standIn Inv key p g₁ m₁ m g)
    (hc : c ∈ (g₀.node key).children)
    (hnext : ∀ r a m' g', Carrying g₀ S mayStop standIn Inv key p g₁ m₁ m' g' → m.Frame m' →
      g.Retains g' → g₀.Leads c r → m'.Holds r a → Tells m r a m' g' →
        (next a g').Ensures (sustaining g₀ S standIn Inv Tells) mayStop Q m') :
    ((Transform.ask c >>= next) g).Ensures (sustaining g₀ S standIn Inv Tells) mayStop Q m := by
  have hmem := h.operand_mem hc
  rw [Rule.bind_apply, Transform.ask]
  rcases hr : g.resolve c with _ | r
  · refine h.stage.leads.resolve_right fun hleads => ?_
    obtain ⟨r, -, hl, -⟩ := hleads c hmem
    have hl := hl.congr h.stage.ground.closed h.slot?_eq hmem
    rw [resolve_eq_some.2 hl] at hr
    cases hr
  · have hl := h.leads_of_leads hmem (resolve_eq_some.1 hr)
    refine ⟨⟨⟨h.stage.ground.closed.of_reaches hmem hl.reaches, hl.self_end⟩, h.working, h.inv⟩, ?_⟩
    rintro a m' g' hframe hholds ⟨hsince, hw, hinv, htells⟩
    exact hnext r a m' g' (h.answered hframe hsince hw hinv) hframe hsince hl hholds htells

/-- A rule makes a node and goes on with it. -/
theorem ensures_make (h : Carrying g₀ S mayStop standIn Inv key p g₁ m₁ m g)
    (hsteady : Steady g₀ S standIn Inv) (ht : ∀ k ∈ t.children, k ∈ grown g₀ S g)
    (htoken : t ≠ .token [])
    (hnext : ∀ x g', Carrying g₀ S mayStop standIn Inv key p g₁ m₁ m g' → g.Retains g' →
      x ∈ grown g₀ S g' → g'.slot? x = some (.node t) →
        (next x g').Ensures (sustaining g₀ S standIn Inv Tells) mayStop Q m) :
    ((Transform.make t >>= next) g).Ensures (sustaining g₀ S standIn Inv Tells) mayStop Q m := by
  have hbuilds : Builds (grown g₀ S g) (· = t) g (g.make t).2 := .make ht rfl
  have hbuilt : Built (grown g₀ S g) g (g.make t).2 (g.make t).1 :=
    .make (h.mem_grown h.stage.nil) (h.mem_grown h.stage.empty) (h.mem_grown h.stage.any)
  exact hnext _ _ (h.build hsteady hbuilds fun he => htoken he.symm) (.of_extends hbuilds.kept)
    (h.working.mem_grown_of_built hbuilds.kept.1 hbuilt) h.working.wellFormed.slot?_make

/-! ## The rule of a derivative -/

variable {char : Char}

/-- What a rule of a derivative comes to. -/
abbrev Derives (g₀ : Graph) (S : Set Handle) (mayStop : Prop) (standIn : Handle → Handle)
    (Inv : Memory Handle Handle → Graph → Prop) (char : Char) (key p : Handle) (g₁ : Graph)
    (m₁ : Memory Handle Handle) (n : Node) :
    Handle → Memory Handle Handle → Graph → Prop := fun v m g =>
  Carrying g₀ S mayStop standIn Inv key p g₁ m₁ m g ∧ v ∈ grown g₀ S g ∧
    Derived char g (HeldFor g₀ m) key n v

theorem answer_mem (h : Carrying g₀ S mayStop standIn Inv key p g₁ m₁ m g) (ha : HeldFor g₀ m z a) :
    a ∈ grown g₀ S g := by
  obtain ⟨r, -, ha⟩ := ha
  exact (h.working.asked r a ha).2

/-- A rule makes a node, which is the result. -/
theorem ensures_made (h : Carrying g₀ S mayStop standIn Inv key p g₁ m₁ m g)
    (hsteady : Steady g₀ S standIn Inv) (ht : ∀ k ∈ t.children, k ∈ grown g₀ S g)
    (htoken : t ≠ .token [])
    (hd : ∀ v g', g.Retains g' → g'.slot? v = some (.node t) →
      Derived char g' (HeldFor g₀ m) key n v) :
    (Transform.make t g).Ensures (sustaining g₀ S standIn Inv Tells) mayStop
      (Derives g₀ S mayStop standIn Inv char key p g₁ m₁ n) m := by
  show ((Transform.make t >>= pure) g).Ensures _ _ _ _
  refine h.ensures_make hsteady ht htoken fun x g' h' hretains hx hslot => ?_
  exact ⟨h', hx, hd x g' hretains hslot⟩

theorem ensures_another (h : Carrying g₀ S mayStop standIn Inv key p g₁ m₁ m g)
    (hsteady : Steady g₀ S standIn Inv) {first rest : Handle} (hfirst : first ∈ grown g₀ S g)
    (hrest : rest ∈ grown g₀ S g)
    (hd : ∀ x v g', g.Retains g' → g'.slot? x = some (.node (.seq first rest)) →
      g'.slot? v = some (.node (.reduction x .prepend)) → Derived char g' (HeldFor g₀ m) key n v) :
    (Derivative.another first rest g).Ensures (sustaining g₀ S standIn Inv Tells) mayStop
      (Derives g₀ S mayStop standIn Inv char key p g₁ m₁ n) m := by
  refine h.ensures_make hsteady (t := .seq first rest) (by simpa [Node.children] using ⟨hfirst, hrest⟩)
    (by simp) fun x g' h' hretains hx hxs => ?_
  refine h'.ensures_made hsteady (by simpa [Node.children] using hx) (by simp)
    fun v g'' hretains' hvs => ?_
  exact hd x v g'' (hretains.trans hretains') (hretains'.node x _ hxs) hvs

theorem derives_dead (h : Carrying g₀ S mayStop standIn Inv key p g₁ m₁ m g) (hn : n.Dead char) :
    Derives g₀ S mayStop standIn Inv char key p g₁ m₁ n .nil m g :=
  ⟨h, h.mem_grown h.stage.nil, .dead hn⟩

theorem ensures_consumed (h : Carrying g₀ S mayStop standIn Inv key p g₁ m₁ m g)
    (hsteady : Steady g₀ S standIn Inv)
    (hd : ∀ v g', g'.slot? v = some (.node (consumed char)) →
      Derived char g' (HeldFor g₀ m) key n v) :
    (Derivative.matched char g).Ensures (sustaining g₀ S standIn Inv Tells) mayStop
      (Derives g₀ S mayStop standIn Inv char key p g₁ m₁ n) m :=
  h.ensures_made hsteady (t := consumed char) (by simp [consumed, Node.children])
    (by simp [consumed]) fun v g' _ hvs => hd v g' hvs

/-- The rule of each kind of node makes a derivative of the node.  Where an operand leads nowhere,
the rule is stuck. -/
theorem ensures_derived (h : Carrying g₀ S mayStop standIn Inv key p g₁ m₁ m g)
    (hsteady : Steady g₀ S standIn Inv) (hn : g₀.node key = n) :
    (Derivative.ofNode char key n g).Ensures (sustaining g₀ S standIn Inv Tells) mayStop
      (Derives g₀ S mayStop standIn Inv char key p g₁ m₁ n) m := by
  have hchild {c : Handle} (hc : c ∈ n.children) : c ∈ (g₀.node key).children := hn ▸ hc
  have hoperand {m : Memory Handle Handle} {g : Graph} {c : Handle} (hc : c ∈ n.children)
      (h : Carrying g₀ S mayStop standIn Inv key p g₁ m₁ m g) : c ∈ grown g₀ S g :=
    h.mem_grown (h.operand_mem (hchild hc))
  cases n with
  | nil => exact h.derives_dead trivial
  | empty => exact h.derives_dead trivial
  | any => exact ⟨h, h.mem_grown h.stage.empty, .any⟩
  | char v =>
      show ((if v = char then Derivative.matched char else pure .nil :
        TransformM Handle) g).Ensures _ _ _ _
      by_cases hv : v = char
      · subst hv
        rw [if_pos rfl]
        exact h.ensures_consumed hsteady fun v g' hvs => .char hvs
      · rw [if_neg hv]
        exact h.derives_dead hv
  | range first last =>
      show ((if first ≤ char && char ≤ last then Derivative.matched char else pure .nil :
        TransformM Handle) g).Ensures _ _ _ _
      by_cases hrange : first ≤ char ∧ char ≤ last
      · rw [if_pos (by simpa using hrange)]
        exact h.ensures_consumed hsteady fun v g' hvs => .range hrange.1 hrange.2 hvs
      · rw [if_neg (by simpa using hrange)]
        exact h.derives_dead hrange
  | token text =>
      cases text with
      | nil => exact h.derives_dead trivial
      | cons first rest =>
          show ((if first = char then _ else pure .nil : TransformM Handle) g).Ensures _ _ _ _
          by_cases hfirst : first = char
          · subst hfirst
            rw [if_pos rfl]
            have hchildren := Grammar.WellFormed.children_literalNode rest
            refine h.ensures_make hsteady (by simp [hchildren])
              (Grammar.WellFormed.literalNode_ne rest) fun y g' h' _ hy hys => ?_
            refine h'.ensures_make hsteady (t := consumed first) (by simp [consumed, Node.children])
              (by simp [consumed]) fun x g'' h'' hretains hx hxs => ?_
            have hy'' : y ∈ grown g₀ S g'' := Working.grown_mono hretains.size_le hy
            refine h''.ensures_made hsteady (by simpa [Node.children] using ⟨hx, hy''⟩) (by simp)
              fun v g₃ hretains' hvs => ?_
            exact .token (hretains'.node _ _ hxs) (hretains'.node _ _ (hretains.node _ _ hys)) hvs
          · rw [if_neg hfirst]
            exact h.derives_dead hfirst
  | alt left right =>
      refine h.ensures_ask (hchild (by simp [Node.children])) fun r a m' g' h' _ _ hl ha _ => ?_
      refine h'.ensures_ask (hchild (by simp [Node.children]))
        fun r' b m'' g'' h'' hframe hretains hl' hb _ => ?_
      have ha' : HeldFor g₀ m'' left a := HeldFor.frame ⟨r, hl, ha⟩ hframe
      have hb' : HeldFor g₀ m'' right b := ⟨r', hl', hb⟩
      exact h''.ensures_made hsteady
        (by simpa [Node.children] using ⟨h''.answer_mem ha', h''.answer_mem hb'⟩) (by simp)
        fun v g₃ _ hvs => .alt ha' hb' hvs
  | seq first second =>
      refine h.ensures_ask (hchild (by simp [Node.children])) fun r a m' g' h' _ _ hl ha _ => ?_
      have ha' : HeldFor g₀ m' first a := ⟨r, hl, ha⟩
      refine h'.ensures_make hsteady (t := .seq a second)
        (by simpa [Node.children] using ⟨h'.answer_mem ha', hoperand (by simp [Node.children]) h'⟩)
        (by simp) fun x g₂ h₂ _ hx hxs => ?_
      refine h₂.ensures_ask (hchild (by simp [Node.children]))
        fun r' b m₃ g₃ h₃ hframe hret₃ hl' hb _ => ?_
      have hb' : HeldFor g₀ m₃ second b := ⟨r', hl', hb⟩
      refine h₃.ensures_make hsteady (t := .nullability first)
        (by simpa [Node.children] using hoperand (c := first) (by simp [Node.children]) h₃) (by simp)
        fun y g₄ h₄ hret₄ hy hys => ?_
      refine h₄.ensures_make hsteady (t := .seq y b)
        (by simpa [Node.children] using ⟨hy, h₄.answer_mem hb'⟩) (by simp)
        fun z g₅ h₅ hret₅ hz hzs => ?_
      have hx₅ : x ∈ grown g₀ S g₅ :=
        Working.grown_mono (hret₃.trans (hret₄.trans hret₅)).size_le hx
      refine h₅.ensures_made hsteady (by simpa [Node.children] using ⟨hx₅, hz⟩) (by simp)
        fun v g₆ hret₆ hvs => ?_
      have hret : g₂.Retains g₆ := hret₃.trans (hret₄.trans (hret₅.trans hret₆))
      exact .seq (ha'.frame hframe) hb' (hret.node _ _ hxs) ((hret₅.trans hret₆).node _ _ hys)
        (hret₆.node _ _ hzs) hvs
  | not operand =>
      refine h.ensures_ask (hchild (by simp [Node.children])) fun r a m' g' h' _ _ hl ha _ => ?_
      have ha' : HeldFor g₀ m' operand a := ⟨r, hl, ha⟩
      exact h'.ensures_made hsteady (by simpa [Node.children] using h'.answer_mem ha') (by simp)
        fun v g'' _ hvs => .not ha' hvs
  | star operand =>
      refine h.ensures_ask (hchild (by simp [Node.children])) fun r a m' g' h' _ _ hl ha _ => ?_
      have ha' : HeldFor g₀ m' operand a := ⟨r, hl, ha⟩
      exact h'.ensures_another hsteady (h'.answer_mem ha') (h'.mem_grown h'.mem)
        fun x v g'' _ hxs hvs => .star ha' hxs hvs
  | rep operand count =>
      rcases count with (_ | _ | _ | k) | _
      · exact h.derives_dead trivial
      · show (Transform.ask operand g).Ensures _ _ _ _
        rw [← Running.ask_bind_pure]
        refine h.ensures_ask (hchild (by simp [Node.children])) fun r a m' g' h' _ _ hl ha _ => ?_
        have ha' : HeldFor g₀ m' operand a := ⟨r, hl, ha⟩
        exact ⟨h', h'.answer_mem ha', .once ha'⟩
      · refine h.ensures_ask (c := operand) (hchild (by simp [Node.children]))
          fun r a m' g' h' _ _ hl ha _ => ?_
        have ha' : HeldFor g₀ m' operand a := ⟨r, hl, ha⟩
        exact h'.ensures_made hsteady
          (by simpa [Node.children] using ⟨h'.answer_mem ha', hoperand (by simp [Node.children]) h'⟩)
          (by simp) fun v g'' _ hvs => .twice ha' hvs
      · refine h.ensures_ask (c := operand) (hchild (by simp [Node.children]))
          fun r a m' g' h' _ _ hl ha _ => ?_
        have ha' : HeldFor g₀ m' operand a := ⟨r, hl, ha⟩
        refine h'.ensures_make hsteady (t := .rep operand (.exactly (k + 2)))
          (by simpa [Node.children] using hoperand (c := operand) (by simp [Node.children]) h')
          (by simp) fun x g₂ h₂ hret₂ hx hxs => ?_
        exact h₂.ensures_another hsteady (h₂.answer_mem ha') hx fun y v g₃ hret₃ hys hvs =>
          .more ha' (hret₃.node _ _ hxs) hys hvs
      · refine h.ensures_ask (c := operand) (hchild (by simp [Node.children]))
          fun r a m' g' h' _ _ hl ha _ => ?_
        have ha' : HeldFor g₀ m' operand a := ⟨r, hl, ha⟩
        exact h'.ensures_another hsteady (h'.answer_mem ha') (h'.mem_grown h'.mem)
          fun x v g'' _ hxs hvs => .unbounded ha' hxs hvs
  | nullability operand => exact h.derives_dead trivial
  | emptyReduction trees => exact h.derives_dead trivial
  | reduction operand reducer =>
      refine h.ensures_ask (hchild (by simp [Node.children])) fun r a m' g' h' _ _ hl ha _ => ?_
      have ha' : HeldFor g₀ m' operand a := ⟨r, hl, ha⟩
      exact h'.ensures_made hsteady (by simpa [Node.children] using h'.answer_mem ha') (by simp)
        fun v g'' _ hvs => .reduction ha' hvs

end Carrying

end Sustaining

end DerivativeParsing
