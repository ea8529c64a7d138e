import DerivativeParsing.Proofs.Bisimilarity
import DerivativeParsing.Proofs.DerivativeChains

/-!
# Derivatives in one run and in two

The derivative of two alternatives is computed in one run: what is found on the way to the
derivative of the first is used again for the second, and a cycle through both is entered where the
run comes to it first.  Two runs for the two alternatives share nothing and enter cycles elsewhere.
The results are bisimilar all the same (`derivativesAgree_of_prepared`), for any expressions that
can be prepared.

A run gives handles for the derivatives of the handles that it comes to (`Graph.Gives`).  Each of
them leads to a node that is the derivative of a node and refers to handles given for the operands,
so that the handles that two runs give for one expression are a bisimulation, together with the
nodes made on the way (`Alike`).  Single repetitions have no node of their own: the handle given for
one leads where the handle given for its operand leads.  Where they only refer to each other in a
circle, every handle leads to `∅`, because the placeholder with which the circle was closed became
its own result.
-/

set_option autoImplicit false

namespace DerivativeParsing

open Fixpoint DerivativeParsing.Graph

section Runs

variable {k : Handle} {c : Char} {g₀ g₁ g g' G : Graph} {S : Set Handle} {m m₁ : Memory Handle Handle}
  {key p y z r v a b e root : Handle} {n : Node}

/-! ## What one run leaves -/

theorem OriginInv.steady : Steady g₀ S (fun _ => .nil) (OriginInv c g₀) :=
  fun _ _ _ _ _ h hbuilds =>
    h.extend hbuilds.kept (fun _ _ => .rfl) (fun _ _ => id) fun _ _ => .inl

theorem Carrying.exists_node {standIn : Handle → Handle}
    {Inv : Memory Handle Handle → Graph → Prop}
    (h : Carrying g₀ S False standIn Inv key p g₁ m₁ m g) : ∃ n, g₀.slot? key = some (.node n) := by
  obtain ⟨r, n, hl, hs⟩ := (h.stage.leads.resolve_left id) key h.mem
  obtain rfl := h.isEnd.unique hl
  exact ⟨n, hs⟩

/-- Where the derivative that a rule comes to is from. -/
theorem Carrying.origin
    (h : Carrying g₀ S False (fun _ => .nil) (OriginInv c g₀) key p g₁ m₁ m g)
    (hd : Derived c g (HeldFor g₀ m) key (g₀.node key) v) : Origin c g₀ m g key v := by
  obtain ⟨n, hs⟩ := h.exists_node
  rw [Graph.node_eq hs] at hd
  have hderived : Derived c g (StandsFor g₀ m g) key n v :=
    hd.mono (.refl g) fun z a ⟨r, hl, ha⟩ => ⟨r, hl, .inl ha⟩
  refine ⟨⟨n, hs, hderived⟩, ?_⟩
  by_cases honce : ∃ z, n = .rep z (.exactly 1)
  · obtain ⟨z, rfl⟩ := honce
    cases hd with
    | dead hn => exact hn.elim
    | once ha =>
        obtain ⟨r, hl, ha⟩ := ha
        rcases Memory.holds_iff.1 ha with ha | ha
        · exact .once hs hl (h.inv r v ha).source
        · exact .once hs hl (.held ha)
  · exact .made hs (fun z hz => honce ⟨z, hz⟩) hderived

theorem sustains_origins : Sustains g₀ S False (fun _ => .nil) (Derivative.rule c) (OriginInv c g₀)
    (fun _ _ _ _ _ => True) (fun _ key v m g => Origin c g₀ m g key v) where
  congr m m' g hfinished hunderway h :=
    h.extend (.refl g) hfinished (fun y p => (hunderway y p).2) fun y p hp =>
      .inl ((hunderway y p).1 hp)
  known _ _ _ _ _ _ _ _ := trivial
  start key m g _ _ h hfresh :=
    h.extend extends_alloc (fun y v => Memory.finished_start hfresh)
      (fun y p hp => (Memory.underway_start_iff hfresh).2 (.inr hp)) fun y p hp => by
        rcases (Memory.underway_start_iff hfresh).1 hp with ⟨-, rfl⟩ | hp
        · exact .inr le_rfl
        · exact .inl hp
  rule key p m g h := by
    refine ensures_look (fun hnone => by cases hnone) fun n hn => ?_
    obtain rfl : g₀.node key = n := h.node_eq.symm.trans (Option.some.inj hn)
    refine (h.ensures_derived OriginInv.steady rfl).mono fun v m' g' _ ⟨h', hv, hd⟩ => ?_
    exact ⟨h', hv, h'.origin hd⟩
  settle key p v m m' g₁ g _ _ h _ hresult :=
    ⟨h.inv.settle h.working h.underway hresult, trivial⟩

/-- What a derivative leaves when nothing is left running. -/
structure Graph.Run (c : Char) (g₀ : Graph) (S : Set Handle) (m : Memory Handle Handle) (g : Graph) :
    Prop where
  before : g₀.Part S
  after : g.Part (grown g₀ S g)
  kept : g.Extends g₀
  origins : OriginInv c g₀ m g
  asked : ∀ y v, m.Finished y v → y ∈ S ∧ v ∈ grown g₀ S g
  idle : ∀ y p, ¬ m.Underway y p

theorem Graph.Part.ready_of_mem (hS : g.Part S) (hh : root ∈ S) : g.Ready root :=
  fun _ hk => hS.leadsToNode (hS.closed.of_reaches hh hk)

/-- The derivative of a handle of a part has a result. -/
theorem Graph.Part.run_derivative (hS : g₀.Part S) (c : Char) (hroot : root ∈ S)
    (hl : g₀.Leads root r) :
    ∃ v g m, g₀.derivative c root = some (v, g) ∧ Run c g₀ S m g ∧ m.Finished r v ∧
      v ∈ grown g₀ S g := by
  obtain ⟨v, g, hrun⟩ := apply_sustains_answers (sustains_origins (c := c)) hS.stage
    (fun _ _ => hS.nil) .initial hroot
  obtain ⟨r', m, hl', hw, hinv, hv, hidle⟩ := apply_sustains (sustains_origins (c := c)) hS.stage
    (fun _ _ => hS.nil) .initial hroot hrun
  obtain rfl := hl.unique hl'
  obtain ⟨-, -, hchains, -⟩ := hS.stage.derivative_chainsEnd
    (fun h hh => (hS.leadsToNode hh).imp fun r h => h.choose_spec.1) hroot hrun
  refine ⟨v, g, m, hrun, ⟨hS, ?_, hw.kept, hinv, fun y v hy => hw.asked y v hy.holds, hidle⟩, hv,
    (hw.asked r v hv.holds).2⟩
  refine ⟨hw.wellFormed, hw.closed, fun h hh => hh.1, fun h hh => ?_, hS.mem_grown hw.kept hS.nil,
    hS.mem_grown hw.kept hS.empty, hS.mem_grown hw.kept hS.any⟩
  obtain ⟨e, hl⟩ := hchains h hh
  rcases hw.node_or_forward hS (hw.closed.of_reaches hh hl.reaches) with ⟨n, hs⟩ | ⟨t, hs⟩
  · exact ⟨e, n, hl, hs⟩
  · exact absurd hs (hl.end_ne_forward t)

/-- The derivative of an expression that is ready has a result, which is ready. -/
theorem Graph.Ready.run_derivative (hready : g₀.Ready r) (hg : g₀.WellFormed) (c : Char)
    (hend : g₀.Leads r r) :
    ∃ v g m, g₀.derivative c r = some (v, g) ∧ Run c g₀ (g₀.scope r) m g ∧ m.Finished r v ∧
      g.Ready v := by
  obtain ⟨_, n, hl, hs⟩ := hready r .refl
  obtain rfl := hend.unique hl
  obtain ⟨v, g, m, hrun, h, hv, hmem⟩ :=
    (hg.part (slot?_lt hs) hready).run_derivative c (.inl .refl) hend
  exact ⟨v, g, m, hrun, h, hv, h.after.ready_of_mem hmem⟩

/-! ## Single repetitions -/

/-- Single repetitions lead from one handle to another. -/
inductive Graph.Unwinds (g : Graph) : Handle → Handle → Prop where
  | here {y : Handle} {n : Node} (hs : g.slot? y = some (.node n))
      (hn : ∀ z, n ≠ .rep z (.exactly 1)) : Unwinds g y y
  | once {y z r k : Handle} (hs : g.slot? y = some (.node (.rep z (.exactly 1))))
      (hl : g.Leads z r) (hrest : Unwinds g r k) : Unwinds g y k

theorem Graph.Unwinds.congr (h : g.Unwinds y k) (hS : g.Closed S)
    (hslot : ∀ h ∈ S, g'.slot? h = g.slot? h) (hy : y ∈ S) : g'.Unwinds y k := by
  induction h with
  | here hs hn => exact .here ((hslot _ hy).trans hs) hn
  | once hs hl _ ih =>
      have hz := hS _ hy _ (by rw [references_of_node hs]; exact List.mem_singleton.2 rfl)
      exact .once ((hslot _ hy).trans hs) (hl.congr hS hslot hz) (ih (hS.of_reaches hz hl.reaches))

/-- Single repetitions only refer to each other in a circle. -/
def Graph.Circular (g : Graph) (y : Handle) : Prop := ∀ k, ¬ g.Unwinds y k

/-- The handle that was found for a circle of single repetitions is a forward, to `∅` or to the
handle that was found for a repetition of the circle. -/
theorem Source.of_circular (h : Source c g₀ m g y v) (hidle : ∀ y p, ¬ m.Underway y p)
    (hy : g₀.Circular y) : g.slot? v = some (.forward .nil) ∨
      ∃ z w, g₀.Circular z ∧ m.Finished z w ∧ g.slot? v = some (.forward w) := by
  induction h with
  | made hs hn _ => exact absurd (.here hs hn) (hy _)
  | once hs hl _ ih => exact ih fun _ hk => hy _ (.once hs hl hk)
  | held h => exact absurd h (hidle _ _)
  | sent h hs _ => exact .inr ⟨_, _, hy, h, hs⟩
  | stuck hs _ => exact .inl hs

theorem OriginInv.leads_nil (h : OriginInv c g₀ m g) (hg : g.WellFormed)
    (hidle : ∀ y p, ¬ m.Underway y p) (hl : g.Leads v e) (hv : m.Finished y v)
    (hy : g₀.Circular y) : g.Leads v .nil := by
  induction hl generalizing y with
  | here hend =>
      rcases (h y _ hv).source.of_circular hidle hy with hs | ⟨z, w, -, -, hs⟩
      · exact absurd hs (hend _)
      · exact absurd hs (hend _)
  | @step v t e hs _ ih =>
      rcases (h y v hv).source.of_circular hidle hy with hs' | ⟨z, w, hz, hw, hs'⟩
      · exact .step hs' (.of_node hg.nil)
      · obtain rfl : t = w := by simpa [hs] using hs'
        exact .step hs (ih hw hz)

/-! ## Given handles -/

/-- Handles were given for derivatives: each leads to a derivative whose operands were given too,
and those that were given for circles of single repetitions lead to `∅`. -/
structure Graph.Gives (c : Char) (g : Graph) (given : Handle → Handle → Prop) : Prop where
  derived : ∀ y a, given y a → ∃ n v, g.slot? y = some (.node n) ∧ g.Ready y ∧
    (∀ e, g.Leads v e → g.Leads a e) ∧
      Derived c g (fun z b => ∃ r, g.Leads z r ∧ given r b) y n v
  circular : ∀ y a, given y a → g.Circular y → g.Leads a .nil

theorem Stands.finished (h : Stands m g y a) (hidle : ∀ y p, ¬ m.Underway y p) :
    ∃ v, m.Finished y v ∧ (a = v ∨ g.slot? a = some (.forward v)) := by
  rcases h with ha | ⟨v, hv, hs, -⟩
  · exact ⟨a, (Memory.holds_iff.1 ha).resolve_right (hidle y a), .inl rfl⟩
  · exact ⟨v, hv, .inr hs⟩

/-- What a run has left is given in every graph that extends it. -/
theorem Graph.Run.gives (h : Run c g₀ S m g) (hG : G.Extends g) : G.Gives c (Stands m g) := by
  have hold : ∀ k ∈ S, G.slot? k = g₀.slot? k := fun k hk =>
    (hG.trans h.kept).2 k (h.before.inRange k hk)
  have hgrows : g₀.Grows G := .of_extends (hG.trans h.kept)
  have hforward {a v e : Handle} (ha : a = v ∨ g.slot? a = some (.forward v)) (hl : G.Leads v e) :
      G.Leads a e := by
    rcases ha with rfl | hs
    · exact hl
    · exact .step ((hG.2 a (slot?_lt hs)).trans hs) hl
  constructor
  · intro y a ha
    obtain ⟨v, hv, hav⟩ := ha.finished h.idle
    obtain ⟨n, hs, hd⟩ := (h.origins y v hv).derived
    have hy := (h.asked y v hv).1
    refine ⟨n, v, (hold y hy).trans hs, hgrows.ready (h.before.ready_of_mem hy), fun e => hforward hav,
      hd.mono (.of_extends hG) ?_⟩
    rintro z b ⟨r, hl, hb⟩
    obtain ⟨w, hw, -⟩ := hb.finished h.idle
    obtain ⟨n', hr, -⟩ := (h.origins r w hw).derived
    exact ⟨r, hgrows.leads hl hr, hb⟩
  · intro y a ha hy
    obtain ⟨v, hv, hav⟩ := ha.finished h.idle
    obtain ⟨hyS, hvS⟩ := h.asked y v hv
    have hcircular : g₀.Circular y := fun k hk => hy k (hk.congr h.before.closed hold hyS)
    obtain ⟨e, -, hl, -⟩ := h.after.leadsToNode hvS
    have hnil := h.origins.leads_nil h.after.wellFormed h.idle hl hv hcircular
    exact hforward hav ((Grows.of_extends hG).leads hnil h.after.wellFormed.nil)

/-- The handle given for an expression leads to the derivative of the node to which single
repetitions lead from it. -/
theorem Graph.Gives.of_unwinds {given : Handle → Handle → Prop} (h : g.Gives c given)
    (hg : g.WellFormed) (hk : g.Unwinds y k) (ha : given y a) :
    ∃ n v t, g.slot? k = some (.node n) ∧ g.Ready k ∧ g.Leads a v ∧ g.slot? v = some (.node t) ∧
      (∀ z, n ≠ .rep z (.exactly 1)) ∧ Derived c g (fun z b => ∃ r, g.Leads z r ∧ given r b) k n v := by
  induction hk generalizing a with
  | @here y n hs hn =>
      obtain ⟨n', v, hs', hready, hlead, hd⟩ := h.derived y a ha
      obtain rfl : n = n' := by simpa [hs] using hs'
      obtain ⟨t, hv⟩ := hd.isNode hg hn
      exact ⟨n, v, t, hs, hready, hlead v (.of_node hv), hv, hn, hd⟩
  | @once y z r k hs hl _ ih =>
      obtain ⟨n', v, hs', -, hlead, hd⟩ := h.derived y a ha
      obtain rfl : .rep z (.exactly 1) = n' := by simpa [hs] using hs'
      cases hd with
      | dead hn => exact hn.elim
      | once hv =>
          obtain ⟨r', hl', hv⟩ := hv
          obtain rfl := hl.unique hl'
          obtain ⟨n, w, t, hk, hready, hw, ht, hn, hd⟩ := ih hv
          exact ⟨n, w, t, hk, hready, hlead w hw, ht, hn, hd⟩

/-! ## The bisimulation -/

/-- Two handles are the same, or were given for the same derivative, or are those of nodes that are
alike. -/
inductive Alike (g : Graph) (given given' : Handle → Handle → Prop) : Handle → Handle → Prop where
  | same {a : Handle} (ha : g.Ready a) : Alike g given given' a a
  | given {y a b : Handle} (ha : given y a) (hb : given' y b) : Alike g given given' a b
  | made {a b : Handle} {n n' : Node} (ha : g.slot? a = some (.node n))
      (hb : g.slot? b = some (.node n')) (h : n.Relates (Alike g given given') n') :
      Alike g given given' a b

/-- Two derivatives of one node are alike. -/
theorem Derived.alike {given given' : Handle → Handle → Prop} {w : Handle}
    (hd : Derived c g (fun z b => ∃ r, g.Leads z r ∧ given r b) k n v)
    (hd' : Derived c g (fun z b => ∃ r, g.Leads z r ∧ given' r b) k n w)
    (hg : g.WellFormed) (hk : g.Ready k) (hs : g.slot? k = some (.node n))
    (hn : ∀ z, n ≠ .rep z (.exactly 1)) :
    ∃ t t', g.slot? v = some (.node t) ∧ g.slot? w = some (.node t') ∧
      t.Relates (Alike g given given') t' := by
  have hanswers {z a b : Handle} (ha : ∃ r, g.Leads z r ∧ given r a)
      (hb : ∃ r, g.Leads z r ∧ given' r b) : Alike g given given' a b := by
    obtain ⟨r, hl, ha⟩ := ha
    obtain ⟨r', hl', hb⟩ := hb
    obtain rfl := hl.unique hl'
    exact .given ha hb
  have hself : Alike g given given' k k := .same hk
  have hoperand {z : Handle} (hz : z ∈ n.children) : Alike g given given' z z :=
    .same (hk.reaches (.single (by rwa [references_of_node hs])))
  cases hd with
  | dead hdead =>
      cases hd' with
      | dead => exact ⟨.nil, .nil, hg.nil, hg.nil, .nil⟩
      | char => exact absurd rfl hdead
      | range hfirst hlast => exact absurd ⟨hfirst, hlast⟩ hdead
      | token => exact absurd rfl hdead
      | _ => exact hdead.elim
  | any =>
      cases hd' with
      | dead hdead => exact hdead.elim
      | any => exact ⟨.empty, .empty, hg.empty, hg.empty, .empty⟩
  | char hv =>
      cases hd' with
      | dead hdead => exact absurd rfl hdead
      | char hw => exact ⟨_, _, hv, hw, .emptyReduction _⟩
  | range hfirst hlast hv =>
      cases hd' with
      | dead hdead => exact absurd ⟨hfirst, hlast⟩ hdead
      | range _ _ hw => exact ⟨_, _, hv, hw, .emptyReduction _⟩
  | @token rest _ _ _ hx hy hv =>
      cases hd' with
      | dead hdead => exact absurd rfl hdead
      | token hx' hy' hw =>
          have hrest : (Grammar.literalNode rest).Relates (Alike g given given')
              (Grammar.literalNode rest) := .refl fun q hq => by
            simp [Grammar.WellFormed.children_literalNode] at hq
          exact ⟨_, _, hv, hw, .seq (.made hx hx' (.emptyReduction _)) (.made hy hy' hrest)⟩
  | alt ha hb hv =>
      cases hd' with
      | dead hdead => exact hdead.elim
      | alt ha' hb' hw => exact ⟨_, _, hv, hw, .alt (hanswers ha ha') (hanswers hb hb')⟩
  | seq ha hb hx hy hz hv =>
      cases hd' with
      | dead hdead => exact hdead.elim
      | seq ha' hb' hx' hy' hz' hw =>
          have hfirst : Alike g given given' _ _ :=
            .made hx hx' (.seq (hanswers ha ha') (hoperand (by simp [Node.children])))
          have hskipped : Alike g given given' _ _ :=
            .made hy hy' (.nullability (hoperand (by simp [Node.children])))
          have hsecond : Alike g given given' _ _ :=
            .made hz hz' (.seq hskipped (hanswers hb hb'))
          exact ⟨_, _, hv, hw, .alt hfirst hsecond⟩
  | not ha hv =>
      cases hd' with
      | dead hdead => exact hdead.elim
      | not ha' hw => exact ⟨_, _, hv, hw, .not (hanswers ha ha')⟩
  | star ha hx hv =>
      cases hd' with
      | dead hdead => exact hdead.elim
      | star ha' hx' hw =>
          exact ⟨_, _, hv, hw, .reduction rfl (.made hx hx' (.seq (hanswers ha ha') hself))⟩
  | unbounded ha hx hv =>
      cases hd' with
      | dead hdead => exact hdead.elim
      | unbounded ha' hx' hw =>
          exact ⟨_, _, hv, hw, .reduction rfl (.made hx hx' (.seq (hanswers ha ha') hself))⟩
  | once => exact absurd rfl (hn _)
  | twice ha hv =>
      cases hd' with
      | dead hdead => exact hdead.elim
      | twice ha' hw =>
          exact ⟨_, _, hv, hw, .seq (hanswers ha ha') (hoperand (by simp [Node.children]))⟩
  | more ha hx hy hv =>
      cases hd' with
      | dead hdead => exact hdead.elim
      | more ha' hx' hy' hw =>
          have hrest : Alike g given given' _ _ :=
            .made hx hx' (.rep _ (hoperand (by simp [Node.children])))
          exact ⟨_, _, hv, hw, .reduction rfl (.made hy hy' (.seq (hanswers ha ha') hrest))⟩
  | reduction ha hv =>
      cases hd' with
      | dead hdead => exact hdead.elim
      | reduction ha' hw => exact ⟨_, _, hv, hw, .reduction rfl (hanswers ha ha')⟩

/-- The handles that are given for the same expressions are bisimilar. -/
theorem Graph.Gives.bisimulation {given given' : Handle → Handle → Prop} (h : g.Gives c given)
    (h' : g.Gives c given') (hg : g.WellFormed) : g.Bisimulation (Alike g given given') := by
  intro a b hab
  cases hab with
  | same ha =>
      obtain ⟨r, n, hl, hs⟩ := ha a .refl
      refine ⟨r, r, n, n, hl, hs, hl, hs, .refl fun k hk => .same (ha.reaches (hl.reaches.tail ?_))⟩
      rwa [references_of_node hs]
  | made ha hb hrelates => exact ⟨a, b, _, _, .of_node ha, ha, .of_node hb, hb, hrelates⟩
  | @given y _ _ ha hb =>
      by_cases hy : ∃ k, g.Unwinds y k
      · obtain ⟨k, hk⟩ := hy
        obtain ⟨n, v, t, hs, hready, hv, ht, hn, hd⟩ := h.of_unwinds hg hk ha
        obtain ⟨n', w, t', hs', -, hw, ht', -, hd'⟩ := h'.of_unwinds hg hk hb
        obtain rfl : n = n' := by simpa [hs] using hs'
        obtain ⟨u, u', hu, hu', hrelates⟩ := hd.alike hd' hg hready hs hn
        exact ⟨v, w, u, u', hv, hu, hw, hu', hrelates⟩
      · have hcircular : g.Circular y := fun k hk => hy ⟨k, hk⟩
        exact ⟨.nil, .nil, .nil, .nil, h.circular y a ha hcircular, hg.nil,
          h'.circular y b hb hcircular, hg.nil, .nil⟩

/-- Handles that are given by one of two runs. -/
theorem Graph.Gives.or {given given' : Handle → Handle → Prop} (h : g.Gives c given)
    (h' : g.Gives c given') : g.Gives c fun y a => given y a ∨ given' y a where
  derived y a ha := by
    rcases ha with ha | ha
    · obtain ⟨n, v, hs, hy, hlead, hd⟩ := h.derived y a ha
      exact ⟨n, v, hs, hy, hlead, hd.mono (.refl g) fun z b ⟨r, hl, hb⟩ => ⟨r, hl, .inl hb⟩⟩
    · obtain ⟨n, v, hs, hy, hlead, hd⟩ := h'.derived y a ha
      exact ⟨n, v, hs, hy, hlead, hd.mono (.refl g) fun z b ⟨r, hl, hb⟩ => ⟨r, hl, .inr hb⟩⟩
  circular y a ha hy := ha.elim (fun ha => h.circular y a ha hy) fun ha => h'.circular y a ha hy

/-! ## The derivative of alternatives -/

/-- The derivative of the alternatives of two expressions, computed in one run, is bisimilar to the
alternatives of their derivatives, each computed in a run of its own. -/
theorem Graph.Run.bisimilar_alternatives {m₂ m₃ : Memory Handle Handle} {g₂ g₃ : Graph}
    {S₂ S₃ : Set Handle} {both p q rp rq whole first second parts : Handle}
    (h₁ : Run c g S m g₁) (h₂ : Run c g₁ S₂ m₂ g₂) (h₃ : Run c g₂ S₃ m₃ g₃)
    (hboth : g.slot? both = some (.node (.alt p q))) (hp : g.Leads p rp) (hq : g.Leads q rq)
    (hwhole : m.Finished both whole) (hfirst : m₂.Finished rp first) (hsecond : m₃.Finished rq second)
    (hG : G.Extends g₃) (hg : G.WellFormed) (hparts : G.slot? parts = some (.node (.alt first second))) :
    G.Bisimilar whole parts := by
  have hG₁ : G.Extends g₁ := (hG.trans h₃.kept).trans h₂.kept
  have hgives := h₁.gives hG₁
  have hgives' := (h₂.gives (hG.trans h₃.kept)).or (h₃.gives hG)
  refine ⟨_, hgives.bisimulation hgives' hg, ?_⟩
  obtain ⟨n, hs, hd⟩ := (h₁.origins both whole hwhole).derived
  obtain rfl : .alt p q = n := by simpa [hboth] using hs
  cases hd with
  | dead hdead => exact hdead.elim
  | alt ha hb hslot =>
      obtain ⟨r, hl, ha⟩ := ha
      obtain ⟨r', hl', hb⟩ := hb
      obtain rfl := hp.unique hl
      obtain rfl := hq.unique hl'
      refine .made ((hG₁.2 whole (slot?_lt hslot)).trans hslot) hparts (.alt ?_ ?_)
      · exact .given ha (.inl (.inl hfirst.holds))
      · exact .given hb (.inr (.inl hsecond.holds))

end Runs

namespace Grammar

variable {g g₁ g₂ : Grammar} {p q r rp rq v : Handle} {c : Char}

/-- Whether the derivative of two alternatives is the alternatives of their derivatives. -/
def derivativesAgree (p q : Handle) (c : Char) : GrammarM Bool := do
  let both ← alternatives [.handle p, .handle q]
  let whole ← derivative both c
  let first ← derivative p c
  let second ← derivative q c
  let parts ← alternatives [.handle first, .handle second]
  similar whole parts

theorem run_alternatives (p q : Handle) (g : Grammar) :
    (alternatives [.handle p, .handle q]).run.run g =
      (.ok (g.graph.make (.alt p q)).1, { g with graph := (g.graph.make (.alt p q)).2 }) := rfl

theorem run_derivative {graph : Graph} (hg : g.graph.WellFormed) (hp : g.graph.Ready p)
    (hl : g.graph.Leads p r) (hrun : g.graph.derivative c r = some (v, graph)) :
    (derivative p c).run.run g = (.ok v, { g with graph }) := by
  obtain ⟨r, hl', hprepare⟩ := prepare_of_ready hg hp
  obtain rfl := hl.unique hl'
  rw [derivative, run_bind, hprepare]
  exact run_onGraph? hrun

/-- Alternatives of expressions that are ready are ready. -/
theorem ready_alternatives {g : Graph} (hg : g.WellFormed) (hp : g.Ready p) (hq : g.Ready q) :
    (g.make (.alt p q)).2.WellFormed ∧ (g.make (.alt p q)).2.Ready (g.make (.alt p q)).1 :=
  ⟨hg.make (by simpa [Node.children] using ⟨hp.lt, hq.lt⟩) (by simp),
    .make hg (by simpa [Node.children] using ⟨hp, hq⟩)⟩

/-- The derivative of the alternatives of two expressions is the alternatives of their derivatives.
-/
theorem derivativesAgree_of_prepared (hg : g.WellFormed) (hp : g.Has p) (hq : g.Has q)
    (hprepare₁ : (prepare p).run.run g = (.ok rp, g₁))
    (hprepare₂ : (prepare q).run.run g₁ = (.ok rq, g₂)) (c : Char) :
    ∃ g₃, (derivativesAgree p q c).run.run g₂ = (.ok true, g₃) := by
  obtain ⟨hg₁, hgrows₁, -, hp⟩ := hg.of_prepare hp hprepare₁
  obtain ⟨hg₂, hgrows₂, -, hq⟩ := hg₁.of_prepare (Has.change hq hgrows₁) hprepare₂
  replace hp := hgrows₂.ready hp
  obtain ⟨rp, np, hlp, hsp⟩ := hp p .refl
  obtain ⟨rq, nq, hlq, hsq⟩ := hq q .refl
  -- The alternatives are made, and their derivative is computed.
  have hboth := hg₂.graph.slot?_make (n := .alt p q)
  have hkept := extends_make (g := g₂.graph) (n := .alt p q)
  obtain ⟨hgboth, hreadyboth⟩ := ready_alternatives hg₂.graph hp hq
  obtain ⟨whole, graph₁, m₁, hrun₁, h₁, hwhole, hreadywhole⟩ :=
    hreadyboth.run_derivative hgboth c (.of_node hboth)
  -- The two expressions are still there.
  have hgrows : g₂.graph.Grows graph₁ := .of_extends (h₁.kept.trans hkept)
  have hlp' := hgrows.leads hlp hsp
  obtain ⟨first, graph₂, m₂, hrun₂, h₂, hfirst, hreadyfirst⟩ :=
    ((hgrows.ready hp).reaches hlp'.reaches).run_derivative h₁.after.wellFormed c hlp'.self_end
  have hgrows' : g₂.graph.Grows graph₂ := .of_extends (h₂.kept.trans (h₁.kept.trans hkept))
  have hlq' := hgrows'.leads hlq hsq
  obtain ⟨second, graph₃, m₃, hrun₃, h₃, hsecond, hreadysecond⟩ :=
    ((hgrows'.ready hq).reaches hlq'.reaches).run_derivative h₂.after.wellFormed c hlq'.self_end
  -- The derivatives become alternatives, with which the first derivative is compared.
  have hfirst₃ : graph₃.Ready first := (Grows.of_extends h₃.kept).ready hreadyfirst
  have hparts := h₃.after.wellFormed.slot?_make (n := .alt first second)
  have hkept₃ := extends_make (g := graph₃) (n := .alt first second)
  obtain ⟨hgparts, hreadyparts⟩ := ready_alternatives h₃.after.wellFormed hfirst₃ hreadysecond
  have hwhole₃ : (graph₃.make (.alt first second)).2.Ready whole :=
    (Grows.of_extends (hkept₃.trans (h₃.kept.trans h₂.kept))).ready hreadywhole
  have hbisimilar := h₁.bisimilar_alternatives h₂ h₃ hboth
    ((Grows.of_extends hkept).leads hlp hsp) ((Grows.of_extends hkept).leads hlq hsq)
    hwhole hfirst hsecond hkept₃ hgparts hparts
  have hkeptall := hkept₃.trans (h₃.kept.trans (h₂.kept.trans (h₁.kept.trans hkept)))
  refine ⟨{ g₂ with graph := (graph₃.make (.alt first second)).2 }, ?_⟩
  unfold derivativesAgree
  rw [run_bind, run_alternatives]
  dsimp only
  rw [run_bind, run_derivative hgboth hreadyboth (.of_node hboth) hrun₁]
  dsimp only
  rw [run_bind, run_derivative h₁.after.wellFormed (hgrows.ready hp) hlp' hrun₂]
  dsimp only
  rw [run_bind, run_derivative h₂.after.wellFormed (hgrows'.ready hq) hlq' hrun₃]
  dsimp only
  rw [run_bind, run_alternatives]
  exact (run_similar_of_ready (hg₂.withGraph hgparts hkeptall.1) hwhole₃ hreadyparts).2 hbisimilar

/-! ## A repetition that repeats itself

The rule `s = s{1}` and `'a' | s`: both derivatives come back to the rule itself, the first run in
the rule and the second one in the alternatives. -/

namespace Relapsing

/-- The grammar of the rule and the alternatives. -/
def grammar : Grammar :=
  ⟨⟨#[.node .nil, .node .empty, .node .any, .forward ⟨4⟩, .node (.rep ⟨3⟩ (.exactly 1)),
      .node (.char 'a'), .node (.alt ⟨5⟩ ⟨3⟩)]⟩, [("s", ⟨3⟩)], [], 0⟩

theorem wellFormed_grammar : grammar.WellFormed where
  graph := .of_fits rfl rfl rfl (by decide)
  rules := by decide
  names := by decide

/-- The derivative of the rule and the alternatives by `'a'`. -/
theorem derivativesAgree_of_prepared_rule :
    (grammar.WellFormed ∧ grammar.Has ⟨3⟩ ∧ grammar.Has ⟨6⟩ ∧
        (prepare ⟨3⟩).run.run grammar = (.ok ⟨4⟩, grammar) ∧
        (prepare ⟨6⟩).run.run grammar = (.ok ⟨6⟩, grammar)) ∧
      ∃ g, (derivativesAgree ⟨3⟩ ⟨6⟩ 'a').run.run grammar = (.ok true, g) :=
  ⟨⟨wellFormed_grammar, (by decide : 3 < 7), (by decide : 6 < 7), rfl, rfl⟩,
    derivativesAgree_of_prepared wellFormed_grammar (by decide : 3 < 7) (by decide : 6 < 7) rfl rfl 'a'⟩

end Relapsing

end Grammar

end DerivativeParsing
