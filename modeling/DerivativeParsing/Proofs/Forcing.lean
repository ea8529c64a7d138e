import DerivativeParsing.Proofs.RuleTable
import DerivativeParsing.Proofs.SlotBounds

/-!
# Building what is suspended

To follow references is to build suspended references, one after the other (`Forcing`): nothing else
happens to a grammar.  Every step lowers the bound on the slots, so that it comes to an end
(`exists_unsuspended`), and a chain of references, which passes no slot twice, is followed to its
end (`trace_ends`).

Preparing an expression therefore always has an answer.  A fault that it reports is that of a chain
of references which starts at the expression or at an operand of a node that can be reached
(`WellFormed.prepare_ends`).
-/

set_option autoImplicit false

namespace DerivativeParsing

/-! ## Chains of references -/

namespace Graph

variable {g g' : Graph} {root h k r t : Handle} {n : Node}

/-- A slot is a reference to another place. -/
def Forwards (g : Graph) (h k : Handle) : Prop := g.slot? h = some (.forward k)

/-- A chain of references comes to a slot that it has passed before. -/
def Circles (g : Graph) (h : Handle) : Prop :=
  ∃ k, Relation.ReflTransGen g.Forwards h k ∧ Relation.TransGen g.Forwards k k

/-- Chains of references start at an expression, and at the operands of the nodes that can be
reached from it. -/
inductive Starts (g : Graph) (root : Handle) : Handle → Prop where
  | root : Starts g root root
  | operand {k c : Handle} {n : Node} (hk : g.Reaches root k) (hs : g.slot? k = some (.node n))
      (hc : c ∈ n.children) : Starts g root c

theorem Starts.reaches (h' : g.Starts root h) : g.Reaches root h := by
  cases h' with
  | root => exact .refl
  | operand hk hs hc => exact hk.tail (by rwa [references_of_node hs])

/-- What can be reached is on a chain of references. -/
theorem exists_starts (hk : g.Reaches root k) :
    ∃ s, g.Starts root s ∧ Relation.ReflTransGen g.Forwards s k := by
  induction hk with
  | refl => exact ⟨root, .root, .refl⟩
  | @tail h k hh hk ih =>
      obtain ⟨s, hs⟩ := slot?_of_mem_references hk
      rw [references_eq hs] at hk
      cases s with
      | node n => exact ⟨k, .operand hh hs hk, .refl⟩
      | forward t =>
          obtain ⟨s, hstart, hchain⟩ := ih
          obtain rfl : k = t := by simpa [Slot.references] using hk
          exact ⟨s, hstart, hchain.tail hs⟩
      | suspended body => cases hk
      | undefined name => cases hk

theorem Leads.of_forwards (hchain : Relation.ReflTransGen g.Forwards h k) (hl : g.Leads k r) :
    g.Leads h r := by
  induction hchain using Relation.ReflTransGen.head_induction_on with
  | refl => exact hl
  | head hs _ ih => exact .step hs ih

theorem Circles.of_forwards (hchain : Relation.ReflTransGen g.Forwards h k) (hk : g.Circles k) :
    g.Circles h := by
  obtain ⟨q, hkq, hq⟩ := hk
  exact ⟨q, hchain.trans hkq, hq⟩

/-- A chain that comes to a slot twice has no end. -/
theorem Circles.not_leads (hh : g.Circles h) : ¬ g.Leads h r := by
  intro hl
  induction hl with
  | here hend =>
      obtain ⟨k, hk, hcircle⟩ := hh
      rcases Relation.ReflTransGen.cases_head hk with rfl | ⟨t, ht, -⟩
      · obtain ⟨t, ht, -⟩ := Relation.TransGen.head'_iff.1 hcircle
        exact hend t ht
      · exact hend t ht
  | @step h t r hs _ ih =>
      refine ih ?_
      have hnext {q : Handle} (hq : g.Forwards h q) : q = t := by
        have := hq.symm.trans hs
        simpa using this
      obtain ⟨k, hk, hcircle⟩ := hh
      rcases Relation.ReflTransGen.cases_head hk with rfl | ⟨q, hq, hqk⟩
      · obtain ⟨q, hq, hqh⟩ := Relation.TransGen.head'_iff.1 hcircle
        rw [hnext hq] at hqh
        exact ⟨h, hqh, hcircle⟩
      · rw [hnext hq] at hqk
        exact ⟨k, hqk, hcircle⟩

theorem Grows.forwards (hg : g.Grows g') (h' : g.Forwards h k) : g'.Forwards h k :=
  hg.forward h k h'

/-- A chain that still has its end still ends there. -/
theorem Grows.leads_of_end (hg : g.Grows g') (hl : g.Leads h r)
    (hend : ∀ t, g'.slot? r ≠ some (.forward t)) : g'.Leads h r := by
  induction hl with
  | here => exact .here hend
  | step hs _ ih => exact .step (hg.forwards hs) (ih hend)

theorem Grows.circles (hg : g.Grows g') (hh : g.Circles h) : g'.Circles h := by
  obtain ⟨k, hk, hcircle⟩ := hh
  exact ⟨k, Relation.ReflTransGen.mono (fun _ _ => hg.forwards) _ _ hk,
    Relation.TransGen.mono (fun _ _ => hg.forwards) _ _ hcircle⟩

end Graph

namespace Grammar

variable {g g' g₁ g₂ : Grammar} {root h k p r : Handle} {body : Description}

/-! ## One suspended reference -/

/-- A suspended reference has been built: its slot is a forward to what was built. -/
def Forced (p : Handle) (g g' : Grammar) : Prop :=
  ∃ body t g₁, g.graph.slot? p = some (.suspended body) ∧
    (force body).run.run g = (.ok t, g₁) ∧
      g' = { g₁ with graph := g₁.graph.setForward p t }

/-- Building what is suspended never fails: what cannot be built stands for `∅`. -/
theorem run_force (body : Description) (g : Grammar) :
    ∃ t g', (force body).run.run g = (.ok t, g') := by
  unfold force
  rw [run_bind, run_modify]
  dsimp only
  rw [run_tryCatch]
  rcases (express body).run.run { g with forced := g.forced + 1 } with ⟨e | t, g'⟩
  · exact ⟨_, _, rfl⟩
  · exact ⟨_, _, rfl⟩

theorem exists_forced (hs : g.graph.slot? p = some (.suspended body)) : ∃ g', Forced p g g' := by
  obtain ⟨t, g₁, hrun⟩ := run_force body g
  exact ⟨_, body, t, g₁, hs, hrun, rfl⟩

/-- What building adds, before the slot of the reference is changed. -/
theorem WellFormed.of_force {R : Graph → Graph → Prop} [Graph.Adds R] {t : Handle}
    (hg : g.WellFormed) (hrun : (Grammar.force body).run.run g = (.ok t, g₁)) :
    g₁.WellFormed ∧ R g.graph g₁.graph ∧ g₁.Has t := by
  have hsound : Sound R (Grammar.force body) Has g := hg.force body
  have hw := hsound.wellFormed
  have hchange := hsound.change
  rw [hrun] at hw hchange
  exact ⟨hw, hchange, hsound.result t g₁ hrun⟩

namespace Forced

variable (hforced : Forced p g g')

include hforced

theorem wellFormed (hg : g.WellFormed) : g'.WellFormed := by
  obtain ⟨body, t, g₁, hs, hrun, rfl⟩ := hforced
  obtain ⟨hw, hkept, ht⟩ := hg.of_force (R := Graph.Prefix) hrun
  have hs₁ := (hkept.2 p (Graph.slot?_lt hs)).trans hs
  exact hw.withGraph (hw.graph.setForward ht fun n => by simp [hs₁]) Graph.size_setForward.ge

theorem grows (hg : g.WellFormed) : g.graph.Grows g'.graph := by
  obtain ⟨body, t, g₁, hs, hrun, rfl⟩ := hforced
  obtain ⟨-, hkept, -⟩ := hg.of_force (R := Graph.Prefix) hrun
  have hs₁ := (hkept.2 p (Graph.slot?_lt hs)).trans hs
  exact (Graph.Grows.of_extends hkept).trans
    (.of_setForward (fun n => by simp [hs₁]) fun t => by simp [hs₁])

/-- The bound on the slots goes down. -/
theorem slotBound_lt (hg : g.WellFormed) : g'.graph.slotBound < g.graph.slotBound := by
  obtain ⟨body, t, g₁, hs, hrun, rfl⟩ := hforced
  obtain ⟨-, hkept, -⟩ := hg.of_force (R := Graph.Prefix) hrun
  have hcosts := costs_force body g
  rw [hrun, leftOf_ok] at hcosts
  have hbound := Graph.slotBound_setForward (t := t) ((hkept.2 p (Graph.slot?_lt hs)).trans hs)
  rw [Slot.bound] at hbound
  dsimp only at hcosts ⊢
  omega

end Forced

/-! ## Any number of them -/

/-- Suspended references have been built, one after the other. -/
def Forcing : Grammar → Grammar → Prop := Relation.ReflTransGen fun g g' => ∃ p, Forced p g g'

/-- Nothing is suspended in a grammar. -/
def Unsuspended (g : Grammar) : Prop := ∀ h body, g.graph.slot? h ≠ some (.suspended body)

instance : Course Forcing := ⟨fun _ => .refl, .trans⟩

theorem Forced.forcing (h : Forced p g g') : Forcing g g' := .single ⟨p, h⟩

namespace Forcing

/-- What is kept when one reference is built is kept when several are. -/
theorem keeps {P : Grammar → Prop} (h : Forcing g g') (hg : P g)
    (hstep : ∀ p g g', P g → Forced p g g' → P g') : P g' := by
  induction h with
  | refl => exact hg
  | tail _ hlast ih =>
      obtain ⟨p, hlast⟩ := hlast
      exact hstep p _ _ ih hlast

theorem wellFormed (h : Forcing g g') (hg : g.WellFormed) : g'.WellFormed :=
  h.keeps hg fun _ _ _ hg h => h.wellFormed hg

theorem grows (h : Forcing g g') (hg : g.WellFormed) : g.graph.Grows g'.graph :=
  (h.keeps (P := fun g' => g'.WellFormed ∧ g.graph.Grows g'.graph) ⟨hg, .refl _⟩
    fun _ _ _ hg h => ⟨h.wellFormed hg.1, hg.2.trans (h.grows hg.1)⟩).2

theorem slotBound_le (h : Forcing g g') (hg : g.WellFormed) :
    g'.graph.slotBound ≤ g.graph.slotBound :=
  (h.keeps (P := fun g' => g'.WellFormed ∧ g'.graph.slotBound ≤ g.graph.slotBound) ⟨hg, le_rfl⟩
    fun _ _ _ hg h => ⟨h.wellFormed hg.1, (h.slotBound_lt hg.1).le.trans hg.2⟩).2

end Forcing

/-- Suspended references can be built until nothing is suspended any more. -/
theorem WellFormed.exists_unsuspended (hg : g.WellFormed) : ∃ g', Forcing g g' ∧ Unsuspended g' := by
  induction hbound : g.graph.slotBound using Nat.strong_induction_on generalizing g with
  | h bound ih =>
      by_cases hs : ∃ h body, g.graph.slot? h = some (.suspended body)
      · obtain ⟨p, body, hs⟩ := hs
        obtain ⟨g₁, hforced⟩ := exists_forced hs
        obtain ⟨g', hrest, hnone⟩ :=
          ih _ (hbound ▸ hforced.slotBound_lt hg) (hforced.wellFormed hg) rfl
        exact ⟨g', .head ⟨p, hforced⟩ hrest, hnone⟩
      · exact ⟨g, .refl, fun h body hh => hs ⟨h, body, hh⟩⟩

/-! ## Following a chain of references -/

/-- What building one suspended reference does, following references does. -/
theorem moves_traceWithin {R : Grammar → Grammar → Prop} [Course R]
    (hR : ∀ {p g g'}, Forced p g g' → R g g') (steps : Nat) (passed : List Handle) (h : Handle) :
    Moves R (Grammar.traceWithin steps passed h) := by
  induction steps generalizing passed h with
  | zero => exact .throw _
  | succ steps ih =>
      unfold Grammar.traceWithin
      refine .ite (.pure _) (.get_bind fun g => ?_)
      split
      · exact ih _ _ g
      · next body hs =>
          obtain ⟨t, g₁, hrun⟩ := run_force body g
          rw [run_bind, hrun]
          dsimp only
          rw [run_bind, run_onGraph]
          exact Course.trans (hR ⟨body, t, g₁, hs, hrun, rfl⟩) (ih _ _ _)
      · exact Course.refl g
      · exact Course.refl g

/-- Where a chain of references leads to. -/
def Meets (g : Graph) (h : Handle) : Destination → Prop
  | .node r => ∃ n, g.Leads h r ∧ g.slot? r = some (.node n)
  | .undefined r name => g.Leads h r ∧ g.slot? r = some (.undefined name)
  | .circular => g.Circles h

theorem Meets.of_forwards {g : Graph} {t : Handle} {d : Destination} (hs : g.Forwards h t)
    (hd : Meets g t d) : Meets g h d := by
  cases d with
  | node r =>
      obtain ⟨n, hl, hn⟩ := hd
      exact ⟨n, .step hs hl, hn⟩
  | undefined r name => exact ⟨.step hs hd.1, hd.2⟩
  | circular => exact Graph.Circles.of_forwards (.single hs) hd

/-- The slots that a chain has come through, of which none is passed twice. -/
structure Passed (g : Graph) (passed : List Handle) (h : Handle) : Prop where
  nodup : passed.Nodup
  chain : ∀ q ∈ passed, Relation.TransGen g.Forwards q h

namespace Passed

variable {g g' : Graph} {passed : List Handle} {t : Handle}

theorem nil (g : Graph) (h : Handle) : Passed g [] h := ⟨List.nodup_nil, by simp⟩

theorem grows (hpassed : Passed g passed h) (hgrows : g.Grows g') : Passed g' passed h :=
  ⟨hpassed.nodup, fun q hq =>
    Relation.TransGen.mono (fun _ _ => hgrows.forwards) _ _ (hpassed.chain q hq)⟩

theorem cons (hpassed : Passed g passed h) (hnew : h ∉ passed) (hs : g.Forwards h t) :
    Passed g (h :: passed) t where
  nodup := List.nodup_cons.2 ⟨hnew, hpassed.nodup⟩
  chain := List.forall_mem_cons.2 ⟨.single hs, fun q hq => (hpassed.chain q hq).tail hs⟩

/-- A chain has come through no more slots than there are. -/
theorem length_le (hpassed : Passed g passed h) : passed.length ≤ g.slotBound := by
  refine (Graph.length_le_size hpassed.nodup fun q hq => ?_).trans (size_le_slotBound g)
  obtain ⟨t, ht, -⟩ := Relation.TransGen.head'_iff.1 (hpassed.chain q hq)
  exact Graph.slot?_lt ht

end Passed

/-- With enough steps, a chain of references is followed to its destination. -/
theorem WellFormed.trace_ends (hg : g.WellFormed) (hh : g.Has h) {steps : Nat} {passed : List Handle}
    (hpassed : Passed g.graph passed h) (hsteps : g.graph.slotBound < steps + passed.length) :
    ∃ d g', (Grammar.traceWithin steps passed h).run.run g = (.ok d, g') ∧ Forcing g g' ∧
      Meets g'.graph h d := by
  induction steps generalizing g h passed with
  | zero =>
      have hle := hpassed.length_le
      omega
  | succ steps ih =>
      unfold Grammar.traceWithin
      by_cases hmem : h ∈ passed
      · rw [if_pos (by simpa using hmem)]
        exact ⟨.circular, g, rfl, .refl, h, .refl, hpassed.chain h hmem⟩
      rw [if_neg (by simpa using hmem), run_bind, run_get]
      dsimp only
      rcases hs : g.graph.slot? h with _ | (n | body | name | t) <;> dsimp only
      · exact absurd (Graph.slot?_eq_none.1 hs) (Nat.not_le.2 hh)
      · exact ⟨.node h, g, rfl, .refl, n, .of_node hs, hs⟩
      · obtain ⟨t, g₁, hrun⟩ := run_force body g
        let g₂ : Grammar := { g₁ with graph := g₁.graph.setForward h t }
        have hforced : Forced h g g₂ := ⟨body, t, g₁, hs, hrun, rfl⟩
        obtain ⟨hg₁, hkept, ht⟩ := hg.of_force (R := Graph.Prefix) hrun
        have hs₂ : g₂.graph.Forwards h t := Graph.slot?_setForward_self (hh.trans_le hkept.1)
        have ht₂ : g₂.Has t := by simpa [Has, g₂] using ht
        rw [run_bind, hrun]
        dsimp only
        rw [run_bind, run_onGraph]
        obtain ⟨d, g', hrun', hforcing, hd⟩ := ih (hforced.wellFormed hg) ht₂
          ((hpassed.grows (hforced.grows hg)).cons hmem hs₂) (by
            have hlt := hforced.slotBound_lt hg
            rw [List.length_cons]
            omega)
        refine ⟨d, g', hrun', hforced.forcing.trans hforcing, hd.of_forwards ?_⟩
        exact (hforcing.grows (hforced.wellFormed hg)).forwards hs₂
      · exact ⟨.undefined h name, g, rfl, .refl, .here fun t => by simp [hs], hs⟩
      · have ht : g.Has t := hg.graph.inRange h t (by simp [Graph.references_of_forward hs])
        obtain ⟨d, g', hrun', hforcing, hd⟩ := ih hg ht (hpassed.cons hmem hs) (by
          rw [List.length_cons]
          omega)
        exact ⟨d, g', hrun', hforcing, hd.of_forwards ((hforcing.grows hg).forwards hs)⟩

/-- The fault of a chain of references that does not end at a node. -/
def Faulty (g : Graph) (h : Handle) : Failure → Prop
  | .grammar (.undefinedRule name) => ∃ r, g.Leads h r ∧ g.slot? r = some (.undefined name)
  | .grammar .cyclicReference => g.Circles h
  | _ => False

theorem Faulty.of_forwards {g : Graph} {t : Handle} {e : Failure}
    (hchain : Relation.ReflTransGen g.Forwards h t) (he : Faulty g t e) : Faulty g h e := by
  unfold Faulty at he ⊢
  split at he
  · obtain ⟨r, hl, hs⟩ := he
    exact ⟨r, .of_forwards hchain hl, hs⟩
  · exact Graph.Circles.of_forwards hchain he
  · exact he.elim

/-- A chain of references that is followed ends at a node, or its fault is reported. -/
theorem WellFormed.settle_ends (hg : g.WellFormed) (hh : g.Has h) {steps : Nat}
    (hsteps : g.graph.slotBound < steps) :
    ∃ res g', (Grammar.settleWithin steps h).run.run g = (res, g') ∧ Forcing g g' ∧
      (∀ r, res = .ok r → ∃ n, g'.graph.Leads h r ∧ g'.graph.slot? r = some (.node n)) ∧
        ∀ e, res = .error e → Faulty g'.graph h e := by
  obtain ⟨d, g', hrun, hforcing, hd⟩ := hg.trace_ends hh (.nil g.graph h) (by simpa using hsteps)
  unfold Grammar.settleWithin
  rw [run_bind, hrun]
  cases d with
  | node r =>
      refine ⟨.ok r, g', rfl, hforcing, fun r' he => ?_, fun e he => by cases he⟩
      cases he
      exact hd
  | undefined r name =>
      refine ⟨_, g', rfl, hforcing, fun r' he => (by cases he), fun e he => ?_⟩
      cases he
      exact ⟨r, hd⟩
  | circular =>
      refine ⟨_, g', rfl, hforcing, fun r' he => (by cases he), fun e he => ?_⟩
      cases he
      exact hd

/-! ## Exploring -/

section Exploring

variable {reach steps bound bound' : Nat} {seen : Std.TreeSet Handle} {todo : List Handle}

open Classical in
/-- The slots that have not been seen yet. -/
noncomputable def unseen (bound : Nat) (seen : Std.TreeSet Handle) : Finset Nat :=
  (Finset.range bound).filter fun i => (⟨i⟩ : Handle) ∉ seen

theorem card_unseen_le (seen : Std.TreeSet Handle) (hle : bound ≤ bound') :
    (unseen bound seen).card ≤ (unseen bound' seen).card :=
  Finset.card_le_card (Finset.filter_subset_filter _ (Finset.range_mono hle))

/-- One slot less is unseen when a new one is seen. -/
theorem card_unseen_insert_lt (hr : r.index < bound) (hnew : r ∉ seen) :
    (unseen bound (seen.insert r)).card < (unseen bound seen).card := by
  refine Finset.card_lt_card (Finset.ssubset_iff_of_subset (fun i hi => ?_) |>.2 ⟨r.index, ?_, ?_⟩)
  · obtain ⟨hlt, hi⟩ := Finset.mem_filter.1 hi
    refine Finset.mem_filter.2 ⟨hlt, fun hmem => hi ?_⟩
    exact Std.TreeSet.mem_insert.2 (.inr hmem)
  · exact Finset.mem_filter.2 ⟨Finset.mem_range.2 hr, hnew⟩
  · intro hmem
    refine (Finset.mem_filter.1 hmem).2 (Std.TreeSet.mem_insert.2 (.inl ?_))
    exact Std.ReflOrd.compare_self

/-- Exploring comes to an end, and reports the fault of something that can be reached. -/
theorem WellFormed.explore_ends (hg : g.WellFormed) (hreach : g.graph.slotBound < reach)
    (htodo : ∀ h ∈ todo, g.Has h ∧ g.graph.Reaches root h)
    (hsteps : todo.length + 2 * (unseen g.graph.slotBound seen).card ≤ steps) :
    ∃ res g', (Grammar.exploreWithin reach steps seen todo).run.run g = (res, g') ∧ Forcing g g' ∧
      ∀ e, res = .error e → ∃ k, g'.graph.Reaches root k ∧ Faulty g'.graph k e := by
  induction steps generalizing g seen todo with
  | zero =>
      cases todo with
      | nil =>
          rw [Grammar.exploreWithin]
          exact ⟨_, g, rfl, .refl, fun e he => by cases he⟩
      | cons h todo => simp at hsteps
  | succ steps ih =>
      cases todo with
      | nil =>
          rw [Grammar.exploreWithin]
          exact ⟨_, g, rfl, .refl, fun e he => by cases he⟩
      | cons h todo =>
          obtain ⟨hh, hreached⟩ := htodo h (by simp)
          obtain ⟨res, g₁, hrun, hforcing, hok, herror⟩ := hg.settle_ends hh hreach
          have hgrows := hforcing.grows hg
          have hg₁ := hforcing.wellFormed hg
          have hbound := hforcing.slotBound_le hg
          have hcard := card_unseen_le seen hbound
          have htodo₁ : ∀ h ∈ todo, g₁.Has h ∧ g₁.graph.Reaches root h := fun k hk => by
            obtain ⟨hlt, hk⟩ := htodo k (by simp [hk])
            exact ⟨hlt.change hgrows, hgrows.reached hk⟩
          rw [List.length_cons] at hsteps
          rw [Grammar.exploreWithin, run_bind, hrun]
          rcases res with e | r <;> dsimp only
          · refine ⟨_, g₁, rfl, hforcing, fun e' he => ?_⟩
            cases he
            exact ⟨h, hgrows.reached hreached, herror e rfl⟩
          obtain ⟨n, hl, hs⟩ := hok r rfl
          split
          · have hsteps₁ : todo.length + 2 * (unseen g₁.graph.slotBound seen).card ≤ steps := by
              omega
            obtain ⟨res, g', hrun', hforcing', herror⟩ :=
              ih hg₁ (hbound.trans_lt hreach) htodo₁ hsteps₁
            exact ⟨res, g', hrun', hforcing.trans hforcing', herror⟩
          · next hnew =>
              rw [run_bind, run_get]
              dsimp only
              rw [Graph.node_eq hs]
              have hr : r.index < g₁.graph.slotBound :=
                (Graph.slot?_lt hs).trans_le (size_le_slotBound _)
              have hlt := card_unseen_insert_lt hr hnew
              have hchildren := length_children_le n
              have htodo₂ : ∀ k ∈ n.children.reverse ++ todo,
                  g₁.Has k ∧ g₁.graph.Reaches root k := fun k hk => by
                rcases List.mem_append.1 hk with hk | hk
                · have hmem : k ∈ g₁.graph.references r := by
                    rw [Graph.references_of_node hs]
                    exact List.mem_reverse.1 hk
                  exact ⟨hg₁.graph.inRange r k hmem,
                    ((hgrows.reached hreached).trans hl.reaches).tail hmem⟩
                · exact htodo₁ k hk
              have hsteps₂ : (n.children.reverse ++ todo).length +
                  2 * (unseen g₁.graph.slotBound (seen.insert r)).card ≤ steps := by
                rw [List.length_append, List.length_reverse]
                omega
              obtain ⟨res, g', hrun', hforcing', herror⟩ :=
                ih hg₁ (hbound.trans_lt hreach) htodo₂ hsteps₂
              exact ⟨res, g', hrun', hforcing.trans hforcing', herror⟩

end Exploring

/-- Preparing an expression always comes to an end.  All that it does is to build suspended
references.  If it succeeds, the graph is ready at the expression, and otherwise it reports the
fault of a chain of references. -/
theorem WellFormed.prepare_ends (hg : g.WellFormed) (hroot : g.Has root) :
    ∃ res g', (Grammar.prepare root).run.run g = (res, g') ∧ Forcing g g' ∧
      (∀ r, res = .ok r → g'.graph.Leads root r ∧ g'.graph.Ready root) ∧
        ∀ e, res = .error e → ∃ k, g'.graph.Starts root k ∧ Faulty g'.graph k e := by
  have hbound : g.graph.slotBound < reachBound g := Nat.lt_succ_self _
  have hready := (hg.prepare hroot).result
  have hstart {g' : Grammar} {k : Handle} {e : Failure} (hk : g'.graph.Reaches root k)
      (he : Faulty g'.graph k e) : ∃ k, g'.graph.Starts root k ∧ Faulty g'.graph k e := by
    obtain ⟨s, hs, hchain⟩ := Graph.exists_starts hk
    exact ⟨s, hs, he.of_forwards hchain⟩
  obtain ⟨res, g₁, hrun, hforcing, hok, herror⟩ := hg.settle_ends hroot hbound
  rw [Grammar.prepare, run_bind, run_get] at hready ⊢
  dsimp only at hready ⊢
  rw [run_bind, hrun] at hready ⊢
  rcases res with e | r <;> dsimp only at hready ⊢
  · refine ⟨_, g₁, rfl, hforcing, fun r he => (by cases he), fun e' he => ?_⟩
    cases he
    exact hstart .refl (herror e rfl)
  obtain ⟨n, hl, hs⟩ := hok r rfl
  have hbound₁ := hforcing.slotBound_le hg
  have hcard : (unseen g₁.graph.slotBound ∅).card ≤ g₁.graph.slotBound :=
    (Finset.card_filter_le _ _).trans (Finset.card_range _).le
  have htodo : ∀ k ∈ [r], g₁.Has k ∧ g₁.graph.Reaches root k := by
    simpa using ⟨Graph.slot?_lt hs, hl.reaches⟩
  have hsteps : [r].length + 2 * (unseen g₁.graph.slotBound ∅).card ≤ 2 * reachBound g := by
    rw [List.length_singleton]
    unfold reachBound
    omega
  obtain ⟨res, g', hrun', hforcing', herror'⟩ :=
    (hforcing.wellFormed hg).explore_ends (hbound₁.trans_lt hbound) htodo hsteps
  rw [run_bind, hrun'] at hready ⊢
  rcases res with e | u <;> dsimp only at hready ⊢
  · refine ⟨_, g', rfl, hforcing.trans hforcing', fun r he => (by cases he), fun e' he => ?_⟩
    cases he
    obtain ⟨k, hk, hfault⟩ := herror' e rfl
    exact hstart hk hfault
  · refine ⟨.ok r, g', rfl, hforcing.trans hforcing', fun r' he => ?_, fun e he => by cases he⟩
    exact hready r' g' (he ▸ rfl)

end Grammar

end DerivativeParsing
