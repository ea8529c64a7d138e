import Mathlib.Data.Finset.Image
import DerivativeParsing.Analysis.Reading
import DerivativeParsing.Proofs.Chains
import DerivativeParsing.Proofs.Passes

/-!
# Reading a graph that is ready

A graph is *ready* at a handle if every reference that can be reached from the handle leads to a
node.  The keys of an analysis are then the nodes of a finite region (`Graph.region`), and a
question about an operand is a question about the node at the end of the operand's chain.
-/

set_option autoImplicit false

namespace DerivativeParsing

open Fixpoint

namespace Graph

variable {g g' : Graph} {root h k r : Handle}

/-- Every handle that can be reached leads to a node. -/
def Ready (g : Graph) (root : Handle) : Prop :=
  ∀ h, g.Reaches root h → ∃ r n, g.Leads h r ∧ g.slot? r = some (.node n)

/-- The chain of forwards from a handle ends at a node. -/
def LeadsToNode (g : Graph) (h : Handle) : Prop := ∃ r n, g.Leads h r ∧ g.slot? r = some (.node n)

theorem LeadsToNode.congr {D : Set Handle} (h : g.LeadsToNode k) (hD : g.Closed D)
    (hslot : ∀ h ∈ D, g'.slot? h = g.slot? h) (hk : k ∈ D) : g'.LeadsToNode k := by
  obtain ⟨r, n, hl, hs⟩ := h
  exact ⟨r, n, hl.congr hD hslot hk, (hslot r (hD.of_reaches hk hl.reaches)).trans hs⟩

theorem Ready.lt (hr : g.Ready root) : root.index < g.size := by
  obtain ⟨r, n, hl, hs⟩ := hr root .refl
  cases hl with
  | here => exact slot?_lt hs
  | step hs _ => exact slot?_lt hs

theorem Ready.reaches (hr : g.Ready root) (hh : g.Reaches root h) : g.Ready h :=
  fun k hk => hr k (hh.trans hk)

/-- The end of a chain of forwards, or the handle itself if its chain has no end. -/
def endOf (g : Graph) (h : Handle) : Handle := (g.resolve h).getD h

theorem Leads.endOf (hl : g.Leads h r) : g.endOf h = r := by
  simp [Graph.endOf, resolve_eq_some.2 hl]

theorem Ready.leads_endOf (hr : g.Ready root) (hh : g.Reaches root h) :
    ∃ n, g.Leads h (g.endOf h) ∧ g.slot? (g.endOf h) = some (.node n) := by
  obtain ⟨r, n, hl, hs⟩ := hr h hh
  exact ⟨n, by rwa [hl.endOf], by rwa [hl.endOf]⟩

open Classical in
/-- The handles that can be reached from a handle. -/
noncomputable def region (g : Graph) (root : Handle) : Finset Handle :=
  ((Finset.range g.size).image Handle.mk).filter (g.Reaches root)

open Classical in
theorem card_region_le (g : Graph) (root : Handle) : (g.region root).card ≤ g.size :=
  (Finset.card_filter_le _ _).trans (Finset.card_image_le.trans (Finset.card_range _).le)

open Classical in
theorem WellFormed.mem_region (hg : g.WellFormed) (hroot : root.index < g.size) :
    k ∈ g.region root ↔ g.Reaches root k := by
  rw [region, Finset.mem_filter, and_iff_right_iff_imp]
  exact fun hk => Finset.mem_image.2
    ⟨k.index, Finset.mem_range.2 (hg.lt_of_reaches hroot hk), rfl⟩

end Graph

/-! ## Evaluations -/

namespace Table

variable {ν : Type} [BEq ν] {table : Table ν} {fuel : Nat} {g : Graph} {h r : Handle} {v : ν}

/-- An expression has the value of the node that it leads to. -/
theorem evaluate_eq (hl : g.Leads h r) :
    table.evaluate fuel g h = (run (table.rules g) (g.size + 1) fuel r ()).map (·.1) := by
  unfold evaluate
  rw [Graph.resolve_eq_some.2 hl]
  rcases hrun : run (table.rules g) (g.size + 1) fuel r () with _ | ⟨v, s⟩ <;> simp [hrun]

theorem evaluate_eq_some (hl : g.Leads h r) :
    table.evaluate fuel g h = some v ↔ run (table.rules g) (g.size + 1) fuel r () = some (v, ()) := by
  rw [evaluate_eq hl, Option.map_eq_some_iff]
  constructor
  · rintro ⟨⟨w, s⟩, hrun, rfl⟩
    exact hrun
  · exact fun hrun => ⟨_, hrun, rfl⟩

end Table

/-! ## Questions about operands -/

namespace Reading

variable {ν α : Type} {g : Graph} {h r : Handle} {next : ν → Reading ν α} {K : Handle → Prop}
  {answers : Handle → ν → Prop}

theorem yields_ask {b : ν} :
    (Reading.ask g h ()).Yields answers b ↔ ∃ r, g.Leads h r ∧ answers r b := by
  unfold Reading.ask
  rcases hr : g.resolve h with _ | r
  · refine iff_of_false id ?_
    rintro ⟨r, hl, -⟩
    rw [Graph.resolve_eq_some.2 hl] at hr
    cases hr
  · have hl := Graph.resolve_eq_some.1 hr
    constructor
    · rintro ⟨v, hv, rfl⟩
      exact ⟨r, hl, hv⟩
    · rintro ⟨r', hl', hb⟩
      obtain rfl := hl.unique hl'
      exact ⟨b, hb, rfl⟩

theorem yields_bind_ask {b : α} :
    ((Reading.ask g h >>= next) ()).Yields answers b ↔
      ∃ r v, g.Leads h r ∧ answers r v ∧ (next v ()).Yields answers b := by
  rw [Rule.bind_apply]
  unfold Reading.ask
  rcases hr : g.resolve h with _ | r
  · refine iff_of_false id ?_
    rintro ⟨r, v, hl, -⟩
    rw [Graph.resolve_eq_some.2 hl] at hr
    cases hr
  · have hl := Graph.resolve_eq_some.1 hr
    constructor
    · rintro ⟨v, hv, hnext⟩
      exact ⟨r, v, hl, hv, hnext⟩
    · rintro ⟨r', v, hl', hv, hnext⟩
      obtain rfl := hl.unique hl'
      exact ⟨v, hv, hnext⟩

theorem asksOnly_ask (hl : g.Leads h r) (hr : K r) :
    ((Reading.ask g h : Reading ν ν) ()).AsksOnly K := by
  unfold Reading.ask
  rw [Graph.resolve_eq_some.2 hl]
  exact ⟨hr, fun _ _ => trivial⟩

theorem asksOnly_bind_ask (hl : g.Leads h r) (hr : K r) (hnext : ∀ v, (next v ()).AsksOnly K) :
    ((Reading.ask g h >>= next) ()).AsksOnly K := by
  rw [Rule.bind_apply]
  unfold Reading.ask
  rw [Graph.resolve_eq_some.2 hl]
  exact ⟨hr, fun v _ => hnext v⟩

/-! ## Queries -/

variable {α : Type} {f : Unit → Option α} {β : Type} {next : α → Reading ν β}

theorem yields_bind_query {b : β} :
    ((Rule.query f >>= next) ()).Yields answers b ↔
      ∃ a, f () = some a ∧ (next a ()).Yields answers b := by
  rw [Rule.bind_apply, Rule.query]
  rcases hf : f () with _ | a
  · refine iff_of_false id ?_
    rintro ⟨a, ha, -⟩
    cases ha
  · refine ⟨fun h => ⟨a, rfl, h⟩, ?_⟩
    rintro ⟨a', ha, h⟩
    cases ha
    exact h

theorem yields_query {b : α} : (Rule.query f ()).Yields answers b ↔ f () = some b := by
  rw [Rule.query]
  rcases f () with _ | a
  · exact iff_of_false id nofun
  · exact ⟨fun h => congrArg some h, Option.some.inj⟩

theorem asksOnly_query {a : α} (ha : f () = some a) :
    ((Rule.query f : Reading ν α) ()).AsksOnly K := by
  rw [Rule.query, ha]
  trivial

theorem asksOnly_bind_query {a : α} (ha : f () = some a) (hnext : (next a ()).AsksOnly K) :
    ((Rule.query f >>= next) ()).AsksOnly K := by
  rw [Rule.bind_apply, Rule.query, ha]
  exact hnext

end Reading

end DerivativeParsing
