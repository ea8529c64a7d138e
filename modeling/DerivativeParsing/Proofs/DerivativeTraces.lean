import DerivativeParsing.Proofs.DerivativeWords
import DerivativeParsing.Proofs.Traces

/-!
# The traces of a derivative

The traces of the derivative of an expression by `c` are what is left of the traces of the
expression whose words start with `c`, after that character: a derivative neither loses a tree nor
makes up one (`Differentiated.traces_eq_after`).

As for words, each inclusion is a bound on a least solution.  `after_traces_subset` follows from the
equations of the graph that was found, `traces_subset_after` from those of the graph that was made.
Complements depend on languages, for which the derivative is known to be exact.
-/

set_option autoImplicit false

namespace DerivativeParsing

open Fixpoint DerivativeParsing.Graph Residue Trace

/-- Nothing is left of a node if the rule of the derivative knows that. -/
theorem Node.Dead.after_traces {node : Node} {c : Char} {outer : Handle → WordSet}
    {V : Handle → Set Trace} (hn : node.Dead c) : after c (node.traces outer V) = ∅ := by
  refine Set.eq_empty_of_forall_notMem ?_
  rintro ⟨w, x⟩ ha
  unfold Dead at hn
  split at hn
  · exact ha
  · cases ha
  · obtain ⟨e, he, heq⟩ := ha
    cases he.2.symm.trans (Prod.mk.inj heq).1
  · obtain ⟨t, -, he⟩ := ha
    cases he
  · exact ha.1 rfl
  · cases ha
  · cases ha
    exact hn rfl
  · obtain ⟨d, hfirst, hlast, he⟩ := ha
    cases he
    exact hn ⟨hfirst, hlast⟩
  · obtain ⟨-, he⟩ := ha
    exact hn (List.cons.inj (Prod.mk.inj he).1).1
  · exact hn

/-- A literal text is matched by itself only. -/
theorem Grammar.traces_literalNode {outer : Handle → WordSet} {V : Handle → Set Trace}
    (text : List Char) : (literalNode text).traces outer V = {(text, spelled text)} := by
  unfold literalNode
  split
  · rfl
  · rfl
  · next hnil _ =>
      ext a
      constructor
      · rintro ⟨-, rfl⟩
        rfl
      · rintro rfl
        exact ⟨hnil, rfl⟩

/-- Two matches in sequence have a tree already. -/
theorem Trace.map_id_append {A B : Set Trace} :
    map id '' Set.image2 append A B = Set.image2 append A B := by
  rw [Set.image_image2]
  rfl

section Differentiated

variable {c : Char} {g₀ g : Graph} {S : Set Handle} {m : Memory Handle Handle}
  {h y z r v a : Handle} {n : Node} {w : List Char} {A V : Handle → Set Trace}

namespace Differentiated

/-- The traces of what was there are what they were. -/
theorem traces_eq (hd : Differentiated c g₀ S m g) (hh : h ∈ S) : g.traces h = g₀.traces h :=
  traces_congr hd.part.closed (fun _ hk => hd.slot?_eq hk) h hh

/-- What was given for a derivative has the traces of the derivative. -/
theorem traces_of_stands (ha : Stands m g y a) (hd : Differentiated c g₀ S m g) :
    ∃ v, m.Finished y v ∧ g.traces a = g.traces v := by
  rcases ha with ha | ⟨v, hv, hs, -⟩
  · exact ⟨a, (Memory.holds_iff.1 ha).resolve_right (hd.idle y a), rfl⟩
  · exact ⟨v, hv, traces_forward hs⟩

/-- What was given for an operand has the words that are left of those of the operand. -/
theorem mem_language_of_standsFor (hd : Differentiated c g₀ S m g) (hz : z ∈ S)
    (ha : StandsFor g₀ m g z a) : w ∈ g.language a ↔ c :: w ∈ g₀.language z := by
  obtain ⟨r, hl, hstands⟩ := ha
  obtain ⟨v, hv, he⟩ := hd.language_of_stands hstands
  rw [he, (hd.layered₀ hz).language_leads hl]
  exact hd.mem_language_iff hv w

/-! ## What is left of a trace is in the derivative -/

/-- From the traces that the operands of a node have at a stage, the node has no trace that starts
with `c` without its derivative having what is left of it. -/
theorem after_subset_of_derived (hd : Differentiated c g₀ S m g) (hy : y ∈ S)
    (hs : g₀.slot? y = some (.node n)) (hderived : Derived c g (StandsFor g₀ m g) y n v)
    (hA : ∀ z ∈ n.children, A z ⊆ g₀.traces z)
    (hans : ∀ z ∈ n.children, ∀ a, StandsFor g₀ m g z a → after c (A z) ⊆ g.traces a) :
    after c (n.traces g₀.language A) ⊆ g.traces v := by
  have hmem {z : Handle} (hz : z ∈ n.children) : z ∈ S :=
    hd.part.closed y hy z (by rwa [references_of_node hs])
  have hold {z : Handle} (hz : z ∈ n.children) : A z ⊆ g.traces z := by
    rw [hd.traces_eq (hmem hz)]
    exact hA z hz
  have hself : n.traces g₀.language A ⊆ g.traces y := by
    rw [hd.traces_eq hy, traces_node hs]
    exact n.traces_mono _ _ _ hA
  have hconsumed {x : Handle} (hx : g.slot? x = some (.node (consumed c))) :
      (([], some (.char c)) : Trace) ∈ g.traces x := by
    rw [traces_node hx]
    exact ⟨.char c, Forest.mem_singleton.2 rfl, rfl⟩
  -- Both repetitions without a bound take `c` in their first round, and go on as they are.
  have hrepeated {operand a x v : Handle} (hself : {b | Repeated (A operand) b} ⊆ g.traces y)
      (hoperand : after c (A operand) ⊆ g.traces a) (hx : g.slot? x = some (.node (.seq a y)))
      (hvs : g.slot? v = some (.node (.reduction x .prepend))) :
      after c {b | Repeated (A operand) b} ⊆ g.traces v := by
    rw [after_repeated, traces_node hvs]
    refine Set.image_mono ?_
    rw [traces_node hx]
    exact Set.image2_subset hoperand hself
  cases hderived with
  | dead hn =>
      rw [hn.after_traces]
      exact Set.empty_subset _
  | any =>
      rw [traces_node hd.working.wellFormed.empty]
      rintro ⟨w, x⟩ ⟨d, he⟩
      cases he
      rfl
  | char hvs =>
      rintro ⟨w, x⟩ he
      cases he
      exact hconsumed hvs
  | range hfirst hlast hvs =>
      rintro ⟨w, x⟩ ⟨d, -, -, he⟩
      cases he
      exact hconsumed hvs
  | @token rest x x' v hx hx' hvs =>
      rintro ⟨w, y⟩ ⟨-, he⟩
      obtain ⟨hw, rfl⟩ := Prod.mk.inj he
      obtain rfl : rest = w := (List.cons.inj hw).2
      rw [traces_node hvs]
      refine ⟨_, hconsumed hx, (rest, spelled rest), ?_, ?_⟩
      · rw [traces_node hx', Grammar.traces_literalNode]
        rfl
      · simp [append, spelled]
  | alt ha hb hvs =>
      show after c (map id '' _) ⊆ _
      rw [after_map, after_union, traces_node hvs]
      exact Set.image_mono (Set.union_subset_union (hans _ (by simp [Node.children]) _ ha)
        (hans _ (by simp [Node.children]) _ hb))
  | @seq first second a b x x' x'' v ha hb hx hx' hx'' hvs =>
      -- The first operand takes `c`, or matches the empty word so that the second takes it.
      have hleft : Set.image2 append (after c (A first)) (A second) ⊆ g.traces x := by
        rw [traces_node hx]
        exact Set.image2_subset (hans first (by simp [Node.children]) a ha)
          (hold (by simp [Node.children]))
      have hskip : map id '' blank (A first) ⊆ g.traces x' := by
        rw [traces_node hx']
        exact Set.image_mono (blank_mono (hold (by simp [Node.children])))
      have hright : Set.image2 append (map id '' blank (A first)) (after c (A second)) ⊆
          g.traces x'' := by
        rw [traces_node hx'']
        exact Set.image2_subset hskip (hans second (by simp [Node.children]) b hb)
      show after c (Set.image2 append _ _) ⊆ _
      rw [after_append, ← map_id_append, ← map_id_append (A := map id '' _), ← Set.image_union,
        traces_node hvs]
      exact Set.image_mono (Set.union_subset_union hleft hright)
  | not ha hvs =>
      rw [traces_node hvs]
      rintro ⟨w, x⟩ ⟨hw, hx⟩
      have hoperand := hd.mem_language_of_standsFor (w := w) (hmem (by simp [Node.children])) ha
      exact ⟨fun hwa => hw (hoperand.1 hwa), hx⟩
  | star ha hx hvs => exact hrepeated hself (hans _ (by simp [Node.children]) _ ha) hx hvs
  | unbounded ha hx hvs => exact hrepeated hself (hans _ (by simp [Node.children]) _ ha) hx hvs
  | @once operand a ha =>
      show after c (counted (A operand) 1) ⊆ _
      rw [after_once]
      exact hans operand (by simp [Node.children]) _ ha
  | @twice operand a v ha hvs =>
      show after c (counted (A operand) 2) ⊆ _
      rw [after_twice, traces_node hvs]
      exact Set.image2_subset (hans operand (by simp [Node.children]) a ha)
        (hold (by simp [Node.children]))
  | @more operand a x x' v k ha hx hx' hvs =>
      show after c (counted (A operand) (k + 3)) ⊆ _
      rw [after_more, traces_node hvs]
      refine Set.image_mono ?_
      rw [traces_node hx']
      refine Set.image2_subset (hans operand (by simp [Node.children]) a ha) ?_
      rw [traces_node hx]
      exact counted_mono (hold (by simp [Node.children])) (k + 2)
  | reduction ha hvs =>
      show after c (map _ '' _) ⊆ _
      rw [after_map, traces_node hvs]
      exact Set.image_mono (hans _ (by simp [Node.children]) _ ha)

/-- If the word of a trace of an expression starts with `c`, what is left is in the derivative. -/
theorem after_traces_subset (hd : Differentiated c g₀ S m g) (hv : m.Finished y v) :
    after c (g₀.traces y) ⊆ g.traces v := by
  -- A stage is within the traces, and leaves in the derivatives what it should.
  let A : Handle → Set Trace := fun h =>
    {a | a ∈ g₀.traces h ∧ ∀ r v u, g₀.Leads h r → m.Finished r v → a.1 = c :: u →
      (u, a.2) ∈ g.traces v}
  have hA : ∀ h ∈ S, (traceMeaning g₀.language).value g₀ h ≤ A h := by
    refine Meaning.value_le _ hd.part.closed fun h hh b hb => ⟨?_, ?_⟩
    · have hle : (traceMeaning g₀.language).slot A (g₀.slot? h) ≤
          (traceMeaning g₀.language).slot g₀.traces (g₀.slot? h) :=
        Meaning.slot_mono _ fun k _ _ hk => hk.1
      rw [traces, Meaning.value_eq]
      exact hle hb
    · intro r v u hl hrv hu
      obtain ⟨n, hs, hderived⟩ := hd.inv.derived hrv
      cases hl with
      | step hf hrest =>
          rw [hf] at hb
          exact hb.2 r v u hrest hrv hu
      | here =>
          rw [hs] at hb
          have hb : (c :: u, b.2) ∈ n.traces g₀.language A := by
            rw [← hu]
            exact hb
          refine hd.after_subset_of_derived hh hs hderived (A := A) (fun z _ a ha => ha.1)
            (fun z _ a ha e he => ?_) hb
          obtain ⟨r', hl', hstands⟩ := ha
          obtain ⟨v', hv', hsame⟩ := hd.traces_of_stands hstands
          rw [hsame]
          exact he.2 r' v' e.1 hl' hv' rfl
  intro a ha
  obtain ⟨n, hs, -⟩ := hd.inv.derived hv
  exact (hA y (hd.finished_mem hv).1 ha).2 y v a.1 (.of_node hs) hv rfl

/-! ## A trace of the derivative is what is left of a trace -/

/-- From the traces that the handles of the derivative have at a stage, the derivative of a node has
no more than what is left of the traces of the node. -/
theorem subset_after_of_derived (hd : Differentiated c g₀ S m g) (hy : y ∈ S)
    (hs : g₀.slot? y = some (.node n)) (honce : ∀ z, n ≠ .rep z (.exactly 1))
    (hv : v ∈ grown g₀ S g) (hderived : Derived c g (StandsFor g₀ m g) y n v)
    (hstep : ∀ h ∈ grown g₀ S g, V h ≤ (traceMeaning g.language).slot V (g.slot? h))
    (hold : ∀ h ∈ S, V h ⊆ g₀.traces h)
    (hans : ∀ z ∈ n.children, ∀ a ∈ grown g₀ S g, StandsFor g₀ m g z a →
      V a ⊆ after c (g₀.traces z)) :
    (traceMeaning g.language).slot V (g.slot? v) ⊆ after c (g₀.traces y) := by
  rw [traces_node hs]
  have hnode {k : Handle} {n' : Node} (hk : k ∈ grown g₀ S g) (hks : g.slot? k = some (.node n')) :
      V k ⊆ n'.traces g.language V := by
    have hle := hstep k hk
    rwa [hks] at hle
  have hoperandS {z : Handle} (hz : z ∈ n.children) : z ∈ S :=
    hd.part.closed y hy z (by rwa [references_of_node hs])
  have hoperand {z : Handle} (hz : z ∈ n.children) : V z ⊆ g₀.traces z := hold z (hoperandS hz)
  have hself : V y ⊆ n.traces g₀.language g₀.traces := by
    rw [← traces_node hs]
    exact hold y hy
  have hmem {k k' : Handle} {n' : Node} (hk : k ∈ grown g₀ S g)
      (hks : g.slot? k = some (.node n')) (hk' : k' ∈ n'.children) : k' ∈ grown g₀ S g :=
    hd.working.closed k hk k' (by rwa [references_of_node hks])
  have hconsumed {x : Handle} (hx : x ∈ grown g₀ S g) (hxs : g.slot? x = some (.node (consumed c))) :
      V x ⊆ {([], some (.char c))} := by
    intro e he
    obtain ⟨t, ht, rfl⟩ := hnode hx hxs he
    rw [Forest.mem_singleton.1 ht]
    rfl
  have hrepeated {operand a x v : Handle} (hself : V y ⊆ {e | Repeated (g₀.traces operand) e})
      (hz : operand ∈ n.children) (ha : StandsFor g₀ m g operand a) (hv : v ∈ grown g₀ S g)
      (hx : g.slot? x = some (.node (.seq a y)))
      (hvs : g.slot? v = some (.node (.reduction x .prepend))) :
      (traceMeaning g.language).slot V (g.slot? v) ⊆
        after c {e | Repeated (g₀.traces operand) e} := by
    have hxv : x ∈ grown g₀ S g := hmem hv hvs (by simp [Node.children])
    have hav : a ∈ grown g₀ S g := hmem hxv hx (by simp [Node.children])
    rw [hvs]
    show map _ '' V x ⊆ _
    rw [after_repeated]
    exact Set.image_mono ((hnode hxv hx).trans
      (Set.image2_subset (hans operand hz a hav ha) hself))
  cases hderived with
  | dead hn =>
      rw [hd.working.wellFormed.nil]
      exact Set.empty_subset _
  | any =>
      rw [hd.working.wellFormed.empty]
      rintro e rfl
      exact ⟨c, rfl⟩
  | char hvs =>
      rw [hvs]
      rintro e ⟨t, ht, rfl⟩
      rw [Forest.mem_singleton.1 ht]
      rfl
  | range hfirst hlast hvs =>
      rw [hvs]
      rintro e ⟨t, ht, rfl⟩
      rw [Forest.mem_singleton.1 ht]
      exact ⟨c, hfirst, hlast, rfl⟩
  | @token rest x x' v hx hx' hvs =>
      rw [hvs]
      rintro _ ⟨e, he, d, hd', rfl⟩
      obtain rfl := hconsumed (hmem hv hvs (by simp [Node.children])) hx he
      have hd' := hnode (hmem hv hvs (by simp [Node.children])) hx' hd'
      rw [Grammar.traces_literalNode] at hd'
      obtain rfl := hd'
      exact ⟨List.cons_ne_nil _ _, by simp [append, spelled]⟩
  | alt ha hb hvs =>
      have hav := hmem hv hvs (List.mem_cons_self ..)
      have hbv := hmem hv hvs (List.mem_cons_of_mem _ (List.mem_cons_self ..))
      rw [hvs]
      show map id '' _ ⊆ after c (map id '' _)
      rw [after_map, after_union]
      exact Set.image_mono (Set.union_subset_union (hans _ (by simp [Node.children]) _ hav ha)
        (hans _ (by simp [Node.children]) _ hbv hb))
  | @seq first second a b x x' x'' v ha hb hx hx' hx'' hvs =>
      have hxv : x ∈ grown g₀ S g := hmem hv hvs (by simp [Node.children])
      have hxv'' : x'' ∈ grown g₀ S g := hmem hv hvs (by simp [Node.children])
      have hxv' : x' ∈ grown g₀ S g := hmem hxv'' hx'' (by simp [Node.children])
      have hav : a ∈ grown g₀ S g := hmem hxv hx (by simp [Node.children])
      have hbv : b ∈ grown g₀ S g := hmem hxv'' hx'' (by simp [Node.children])
      have hleft : V x ⊆ Set.image2 append (after c (g₀.traces first)) (g₀.traces second) :=
        (hnode hxv hx).trans (Set.image2_subset (hans first (by simp [Node.children]) a hav ha)
          (hoperand (by simp [Node.children])))
      have hskip : V x' ⊆ map id '' blank (g₀.traces first) :=
        (hnode hxv' hx').trans
          (Set.image_mono (blank_mono (hoperand (by simp [Node.children]))))
      have hright : V x'' ⊆
          Set.image2 append (map id '' blank (g₀.traces first)) (after c (g₀.traces second)) :=
        (hnode hxv'' hx'').trans
          (Set.image2_subset hskip (hans second (by simp [Node.children]) b hbv hb))
      rw [hvs]
      show map id '' (V x ∪ V x'') ⊆ after c (Set.image2 append _ _)
      rw [after_append, ← map_id_append, ← map_id_append (A := map id '' _), ← Set.image_union]
      exact Set.image_mono (Set.union_subset_union hleft hright)
  | not ha hvs =>
      rw [hvs]
      rintro e ⟨he, hx⟩
      exact ⟨fun hw => he ((hd.mem_language_of_standsFor (hoperandS (by simp [Node.children])) ha).2
        hw), hx⟩
  | star ha hx hvs => exact hrepeated hself (by simp [Node.children]) ha hv hx hvs
  | unbounded ha hx hvs => exact hrepeated hself (by simp [Node.children]) ha hv hx hvs
  | once ha => exact absurd rfl (honce _)
  | @twice operand a v ha hvs =>
      have hav : a ∈ grown g₀ S g := hmem hv hvs (by simp [Node.children])
      rw [hvs]
      show _ ⊆ after c (counted _ 2)
      rw [after_twice]
      exact Set.image2_subset (hans operand (by simp [Node.children]) a hav ha)
        (hoperand (by simp [Node.children]))
  | @more operand a x x' v k ha hx hx' hvs =>
      have hxv' : x' ∈ grown g₀ S g := hmem hv hvs (by simp [Node.children])
      have hxv : x ∈ grown g₀ S g := hmem hxv' hx' (by simp [Node.children])
      have hav : a ∈ grown g₀ S g := hmem hxv' hx' (by simp [Node.children])
      have hrest : V x ⊆ counted (g₀.traces operand) (k + 2) :=
        (hnode hxv hx).trans (counted_mono (hoperand (by simp [Node.children])) (k + 2))
      rw [hvs]
      show map _ '' V x' ⊆ after c (counted _ (k + 3))
      rw [after_more]
      exact Set.image_mono ((hnode hxv' hx').trans
        (Set.image2_subset (hans operand (by simp [Node.children]) a hav ha) hrest))
  | reduction ha hvs =>
      have hav := hmem hv hvs (List.mem_cons_self ..)
      rw [hvs]
      show map _ '' _ ⊆ after c (map _ '' _)
      rw [after_map]
      exact Set.image_mono (hans _ (by simp [Node.children]) _ hav ha)

/-- A trace of the derivative is left of a trace whose word starts with `c`. -/
theorem traces_subset_after (hd : Differentiated c g₀ S m g) (hv : m.Finished y v) :
    g.traces v ⊆ after c (g₀.traces y) := by
  let A : Handle → Set Trace := fun h =>
    {a | (h ∈ S → a ∈ g₀.traces h) ∧ ∀ y, Stands m g y h → a ∈ after c (g₀.traces y)}
  have hA : ∀ h ∈ grown g₀ S g, (traceMeaning g.language).value g h ≤ A h := by
    refine Meaning.value_le_of_unfolding _ hd.working.closed fun V hVA _ hstep h hh b hb => ⟨?_, ?_⟩
    · -- What was there has the traces that it had.
      intro hhS
      rw [← hd.traces_eq hhS]
      have hle : (traceMeaning g.language).slot V (g.slot? h) ≤
          (traceMeaning g.language).slot g.traces (g.slot? h) :=
        Meaning.slot_mono _ fun k hk => by
          have hkS : k ∈ S := by
            rw [references_congr (hd.slot?_eq hhS)] at hk
            exact hd.part.closed h hhS k hk
          rw [hd.traces_eq hkS]
          exact fun e he => (hVA k (hd.mem_grown hkS) he).1 hkS
      rw [traces, Meaning.value_eq]
      exact hle hb
    · intro y hstands
      -- What has been sent on is what it has been sent on to.
      have hsent {y v : Handle} (hv : m.Finished y v) (hs : g.slot? h = some (.forward v)) :
          b ∈ after c (g₀.traces y) := by
        rw [hs] at hb
        exact (hVA v (hd.finished_mem hv).2 hb).2 y (.inl hv.holds)
      rcases hstands with hholds | ⟨v, hv, hs, -⟩
      · have hfinished : m.Finished y h := (Memory.holds_iff.1 hholds).resolve_right (hd.idle y h)
        -- Single repetitions are followed to the node that was made.
        have hsource := hd.inv.source hfinished
        have hyS : y ∈ S := (hd.finished_mem hfinished).1
        clear hholds hfinished
        induction hsource with
        | @made y _ n hs honce hderived =>
            refine hd.subset_after_of_derived hyS hs honce hh hderived hstep
              (fun k hkS e he => (hVA k (hd.mem_grown hkS) he).1 hkS)
              (fun z hz a ha hstands e he => ?_) hb
            obtain ⟨r, hl, hstands⟩ := hstands
            rw [traces_leads hl]
            exact (hVA a ha he).2 r hstands
        | @once y z r _ hs hl _ ih =>
            have hyz : g₀.Reaches y z :=
              .single (by rw [references_of_node hs, Node.children, List.mem_singleton])
            have htraces : after c (g₀.traces y) = after c (g₀.traces r) := by
              rw [traces_node hs, ← traces_leads hl]
              exact after_once
            rw [htraces]
            exact ih hh hb hsent (hd.part.closed.of_reaches hyS (hyz.trans hl.reaches))
        | held hp => exact absurd hp (hd.idle _ _)
        | sent hv hs _ => exact hsent hv hs
        | stuck hs _ =>
            rw [hs] at hb
            have hnil := hstep .nil (hd.mem_grown hd.part.nil) hb
            rw [hd.working.wellFormed.nil] at hnil
            exact hnil.elim
      · exact hsent hv hs
  exact fun a ha => (hA v (hd.finished_mem hv).2 ha).2 y (.inl hv.holds)

/-- The traces of a derivative are what is left of those of the expression. -/
theorem traces_eq_after (hd : Differentiated c g₀ S m g) (hv : m.Finished y v) :
    g.traces v = after c (g₀.traces y) :=
  Set.Subset.antisymm (hd.traces_subset_after hv) (hd.after_traces_subset hv)

end Differentiated

end Differentiated

namespace Graph

variable {c : Char} {g g' : Graph} {h d : Handle} {word : List Char}

/-- The trees of the derivative of an expression are those of the words that start with the
character. -/
theorem Workable.treesOf_derivative (hh : g.Workable h) (hd : g.derivative c h = some (d, g')) :
    g'.treesOf d word = g.treesOf h (c :: word) := by
  obtain ⟨r, n, hl, -⟩ := hh.ready h .refl
  obtain ⟨v, graph, m, hrun, hdiff, hv⟩ := derivative_differentiates (c := c) hh.part
    hh.tameComplements (.inl .refl) hl
  rw [hd] at hrun
  cases hrun
  unfold treesOf
  rw [hdiff.traces_eq_after hv, ← traces_leads hl]
  rfl

end Graph

end DerivativeParsing
