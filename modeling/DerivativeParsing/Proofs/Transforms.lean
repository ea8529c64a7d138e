import DerivativeParsing.Transform.Basic
import DerivativeParsing.Proofs.Readings

/-!
# Reasoning about transformations

A transformation works on a *part* of a graph: a closed set of handles, all of which lead to nodes.
While it runs, the slots of the part stay what they are and new slots are added after all others:
nodes, and one placeholder for each rule that has started.  `Working` says what holds of the memory
and of the graph throughout.

What a particular transformation keeps besides is an invariant of its own.  `Upholds` lists what has
to be shown of the invariant, once for each thing that can happen: a rule starts, it comes to a
result, and its placeholder is sent on to the result.  `apply_upholds` says what holds in the end,
and `apply_answers` that there is an end.
-/

set_option autoImplicit false
set_option linter.unusedSectionVars false

namespace DerivativeParsing

open Fixpoint

/-! ## What happens to keys -/

namespace Fixpoint.Memory

variable {κ ν : Type} [Ord κ] [Std.TransOrd κ] [Std.LawfulEqOrd κ] {m : Memory κ ν} {k key : κ}
  {p v w : ν}

theorem finished_start (hfresh : m.progress[key]? = none) :
    (m.start key p).Finished k w ↔ m.Finished k w := by
  refine ⟨.of_start, fun h => ?_⟩
  have hne : k ≠ key := fun he => by
    subst he
    simp [Finished, hfresh] at h
  exact ⟨(progress_start_of_ne hne).trans h.1, (values_start_of_ne hne).trans h.2⟩

theorem underway_start_iff (hfresh : m.progress[key]? = none) :
    (m.start key p).Underway k w ↔ k = key ∧ w = p ∨ m.Underway k w := by
  refine ⟨Underway.of_start, ?_⟩
  rintro (⟨rfl, rfl⟩ | ⟨⟨b, hb⟩, hw⟩)
  · exact underway_start
  · have hne : k ≠ key := fun he => by
      subst he
      simp [hfresh] at hb
    exact ⟨⟨b, (progress_start_of_ne hne).trans hb⟩, (values_start_of_ne hne).trans hw⟩

theorem finished_giveAway {progress : Progress} (hp : m.progress[key]? = some progress) :
    (m.giveAway key progress).Finished k w ↔ m.Finished k w :=
  ⟨.of_giveAway, (frame_giveAway hp).finished_of⟩

theorem underway_giveAway {progress : Progress} (hp : m.progress[key]? = some progress) :
    (m.giveAway key progress).Underway k w ↔ m.Underway k w :=
  (frame_giveAway hp).underway_iff

variable [BEq ν]

theorem finished_finish_iff :
    (m.finish key p v).Finished k w ↔ k = key ∧ w = v ∨ k ≠ key ∧ m.Finished k w := by
  refine ⟨Finished.of_finish, ?_⟩
  rintro (⟨rfl, rfl⟩ | ⟨hne, h⟩)
  · exact finished_finish
  · exact ⟨(progress_finish_of_ne hne).trans h.1, (values_finish_of_ne hne).trans h.2⟩

theorem underway_finish_iff :
    (m.finish key p v).Underway k w ↔ k ≠ key ∧ m.Underway k w := by
  constructor
  · rintro ⟨⟨b, hb⟩, hw⟩
    have hne : k ≠ key := fun he => by
      subst he
      rw [finished_finish.1] at hb
      cases hb
    exact ⟨hne, ⟨b, (progress_finish_of_ne hne).symm.trans hb⟩,
      (values_finish_of_ne hne).symm.trans hw⟩
  · rintro ⟨hne, ⟨b, hb⟩, hw⟩
    exact ⟨⟨b, (progress_finish_of_ne hne).trans hb⟩, (values_finish_of_ne hne).trans hw⟩

theorem Underway.unique (h : m.Underway k v) (h' : m.Underway k w) : v = w :=
  Option.some.inj (h.2.symm.trans h'.2)

theorem Underway.not_finished (h : m.Underway k v) : ¬ m.Finished k w := fun h' => by
  obtain ⟨⟨b, hb⟩, -⟩ := h
  simp [Finished, hb] at h'

theorem Underway.holds (h : m.Underway k v) : m.Holds k v := holds_iff.2 (.inr h)

theorem Finished.holds (h : m.Finished k v) : m.Holds k v := holds_iff.2 (.inl h)

end Fixpoint.Memory

/-! ## Parts of a graph -/

namespace Graph

variable {g g' g'' : Graph} {S D : Set Handle} {h k p r t v root : Handle} {n : Node}

/-- A closed set of handles of a well-formed graph. -/
structure Ground (g : Graph) (S : Set Handle) : Prop where
  wellFormed : g.WellFormed
  closed : g.Closed S
  inRange : ∀ h ∈ S, h.index < g.size

/-- All handles of a graph. -/
theorem WellFormed.ground (hg : g.WellFormed) : g.Ground {h | h.index < g.size} :=
  ⟨hg, hg.closed_lt, fun _ => id⟩

/-- A closed set of handles that contains the three fixed ones, and in which every handle leads to a
node. -/
structure Part (g : Graph) (S : Set Handle) : Prop where
  wellFormed : g.WellFormed
  closed : g.Closed S
  inRange : ∀ h ∈ S, h.index < g.size
  ready : ∀ h ∈ S, ∃ r n, g.Leads h r ∧ g.slot? r = some (.node n)
  nil : .nil ∈ S
  empty : .empty ∈ S
  any : .any ∈ S

theorem Part.ground (hS : g.Part S) : g.Ground S := ⟨hS.wellFormed, hS.closed, hS.inRange⟩

theorem Part.leadsToNode (hS : g.Part S) (hh : h ∈ S) : g.LeadsToNode h := hS.ready h hh

/-- What can be reached from a handle, and the three fixed handles. -/
def scope (g : Graph) (root : Handle) : Set Handle :=
  {h | g.Reaches root h ∨ h = .nil ∨ h = .empty ∨ h = .any}

/-- The fixed handles are those of nodes without operands. -/
theorem WellFormed.exists_atomic (hg : g.WellFormed) (hh : h = .nil ∨ h = .empty ∨ h = .any) :
    ∃ n, g.slot? h = some (.node n) ∧ n.children = [] := by
  rcases hh with rfl | rfl | rfl
  · exact ⟨.nil, hg.nil, rfl⟩
  · exact ⟨.empty, hg.empty, rfl⟩
  · exact ⟨.any, hg.any, rfl⟩

theorem WellFormed.part (hg : g.WellFormed) (hroot : root.index < g.size) (hready : g.Ready root) :
    g.Part (g.scope root) where
  wellFormed := hg
  closed := by
    rintro h (hh | hh) k hk
    · exact .inl (hh.tail hk)
    · obtain ⟨n, hs, hn⟩ := hg.exists_atomic hh
      simp [references_of_node hs, hn] at hk
  inRange := by
    rintro h (hh | hh)
    · exact hg.lt_of_reaches hroot hh
    · obtain ⟨n, hs, -⟩ := hg.exists_atomic hh
      exact slot?_lt hs
  ready := by
    rintro h (hh | hh)
    · exact hready h hh
    · obtain ⟨n, hs, -⟩ := hg.exists_atomic hh
      exact ⟨h, n, .of_node hs, hs⟩
  nil := .inr (.inl rfl)
  empty := .inr (.inr (.inl rfl))
  any := .inr (.inr (.inr rfl))

/-- The handles of a part of a graph, and all that were added to the graph since. -/
def grown (g₀ : Graph) (S : Set Handle) (g : Graph) : Set Handle :=
  {h | h.index < g.size ∧ (h.index < g₀.size → h ∈ S)}

/-- The nodes of a graph are still there in another one. -/
structure Retains (g g' : Graph) : Prop where
  size_le : g.size ≤ g'.size
  node : ∀ h n, g.slot? h = some (.node n) → g'.slot? h = some (.node n)

namespace Retains

theorem refl (g : Graph) : g.Retains g := ⟨le_rfl, fun _ _ => id⟩

theorem trans (h : g.Retains g') (h' : g'.Retains g'') : g.Retains g'' :=
  ⟨h.size_le.trans h'.size_le, fun k n hs => h'.node k n (h.node k n hs)⟩

theorem of_extends (h : g'.Extends g) : g.Retains g' :=
  ⟨h.1, fun k _ hs => (h.2 k (slot?_lt hs)).trans hs⟩

theorem of_redirect (hp : g.slot? p = some (.forward t)) : g.Retains (g.redirect p v) where
  size_le := size_redirect.ge
  node k n hs := by
    have hne : k ≠ p := fun he => by
      rw [he, hp] at hs
      cases hs
    rwa [slot?_redirect_of_ne hne]

end Retains

/-! ## Adding nodes -/

/-- A graph has grown by nodes of a certain kind only, each of which refers to given handles and to
nodes that were added before it. -/
structure Builds (D : Set Handle) (P : Node → Prop) (g g' : Graph) : Prop where
  kept : g'.Extends g
  new : ∀ h : Handle, g.size ≤ h.index → h.index < g'.size →
    ∃ n, g'.slot? h = some (.node n) ∧ P n ∧
      ∀ c ∈ n.children, c ∈ D ∨ g.size ≤ c.index ∧ c.index < h.index

/-- A handle is one of the given ones, or that of an added node. -/
def Built (D : Set Handle) (g g' : Graph) (v : Handle) : Prop :=
  v ∈ D ∨ g.size ≤ v.index ∧ v.index < g'.size

namespace Builds

variable {P Q : Node → Prop}

theorem refl (D : Set Handle) (P : Node → Prop) (g : Graph) : Builds D P g g :=
  ⟨.refl g, fun _ hle hlt => absurd hle (Nat.not_le.2 hlt)⟩

theorem mono {E : Set Handle} (h : Builds D P g g') (hDE : D ⊆ E) (hPQ : ∀ n, P n → Q n) :
    Builds E Q g g' where
  kept := h.kept
  new k hle hlt := by
    obtain ⟨n, hs, hn, hc⟩ := h.new k hle hlt
    exact ⟨n, hs, hPQ n hn, fun c hc' => (hc c hc').imp_left (@hDE c)⟩

/-- Growing twice is growing. -/
theorem trans {E : Set Handle} (h : Builds D P g g') (h' : Builds E P g' g'')
    (hE : ∀ c ∈ E, Built D g g' c) : Builds D P g g'' where
  kept := h'.kept.trans h.kept
  new k hle hlt := by
    rcases Nat.lt_or_ge k.index g'.size with hk | hk
    · obtain ⟨n, hs, hn, hc⟩ := h.new k hle hk
      exact ⟨n, (h'.kept.2 k hk).trans hs, hn, hc⟩
    · obtain ⟨n, hs, hn, hc⟩ := h'.new k hk hlt
      refine ⟨n, hs, hn, fun c hc' => ?_⟩
      rcases hc c hc' with hcE | ⟨hcle, hclt⟩
      · exact (hE c hcE).imp id fun ⟨hcle, hclt⟩ => ⟨hcle, hclt.trans_le hk⟩
      · exact .inr ⟨h.kept.1.trans hcle, hclt⟩

theorem make (hn : ∀ c ∈ n.children, c ∈ D) (hP : P n) : Builds D P g (g.make n).2 := by
  rcases g.make_cases n with ⟨h, he, -⟩ | he <;> rw [he]
  · exact .refl D P g
  · refine ⟨extends_alloc, fun k hle hlt => ?_⟩
    rw [size_alloc] at hlt
    obtain rfl : k = ⟨g.size⟩ := Handle.ext_index (by simp only; omega)
    exact ⟨n, slot?_alloc_new, hP, fun c hc => .inl (hn c hc)⟩

/-- The slots that can be reached now are those that could be reached, and the added ones. -/
theorem closed (h : Builds D P g g') (hD : g.Closed D) (hlt : ∀ c ∈ D, c.index < g.size) :
    g'.Closed {c | Built D g g' c} := by
  intro c hc k hk
  rcases hc with hc | ⟨hle, hlt'⟩
  · unfold references at hk
    rw [h.kept.2 c (hlt c hc)] at hk
    exact .inl (hD c hc k hk)
  · obtain ⟨n, hs, -, hn⟩ := h.new c hle hlt'
    rw [references_of_node hs] at hk
    exact (hn k hk).imp id fun ⟨hkle, hklt⟩ => ⟨hkle, hklt.trans hlt'⟩

theorem wellFormed (h : Builds D P g g') (hP : ¬ P (.token [])) (hg : g.WellFormed)
    (hD : ∀ c ∈ D, c.index < g.size) : g'.WellFormed where
  nil := (h.kept.2 _ hg.nil_lt).trans hg.nil
  empty := (h.kept.2 _ hg.empty_lt).trans hg.empty
  any := (h.kept.2 _ hg.any_lt).trans hg.any
  inRange k c hc := by
    obtain ⟨s, hs⟩ := slot?_of_mem_references hc
    rcases Nat.lt_or_ge k.index g.size with hk | hk
    · unfold references at hc
      rw [h.kept.2 k hk] at hc
      exact (hg.inRange k c hc).trans_le h.kept.1
    · obtain ⟨n, hs, -, hn⟩ := h.new k hk (slot?_lt hs)
      rw [references_of_node hs] at hc
      rcases hn c hc with hc | ⟨-, hc⟩
      · exact (hD c hc).trans_le h.kept.1
      · exact hc.trans (slot?_lt hs)
  tokens k hs := by
    rcases Nat.lt_or_ge k.index g.size with hk | hk
    · rw [h.kept.2 k hk] at hs
      exact hg.tokens k hs
    · obtain ⟨n, hs', hn, -⟩ := h.new k hk (slot?_lt hs)
      rw [hs] at hs'
      cases hs'
      exact hP hn

end Builds

theorem Built.make (hnil : .nil ∈ D) (hempty : .empty ∈ D) (hany : .any ∈ D) :
    Built D g (g.make n).2 (g.make n).1 := by
  rcases g.make_cases n with ⟨h, he, ⟨rfl, -⟩ | ⟨rfl, -⟩ | ⟨rfl, -⟩⟩ | he <;> rw [he]
  · exact .inl hnil
  · exact .inl hempty
  · exact .inl hany
  · exact .inr ⟨le_rfl, by simp⟩

end Graph

/-! ## What holds while a transformation runs -/

open DerivativeParsing.Graph

section Working

variable {g₀ g g' : Graph} {S : Set Handle} {standIn : Handle → Handle}
  {m m' : Memory Handle Handle} {key y y' p r v a : Handle} {n : Node}

/-- What holds of the memory and of the graph throughout a transformation. -/
structure Working (g₀ : Graph) (S : Set Handle) (standIn : Handle → Handle)
    (m : Memory Handle Handle) (g : Graph) : Prop where
  wellFormed : g.WellFormed
  kept : g.Extends g₀
  closed : g.Closed (grown g₀ S g)
  /-- New slots hold nodes and forwards. -/
  new : ∀ h : Handle, g₀.size ≤ h.index → h.index < g.size →
    (∃ n, g.slot? h = some (.node n)) ∨ ∃ t, g.slot? h = some (.forward t)
  /-- Only handles of the part are asked for, and they are answered by what belongs to the part or
  was added to it. -/
  asked : ∀ y v, m.Holds y v → y ∈ S ∧ v ∈ grown g₀ S g
  unasked : ∀ y : Handle, m.progress[y]? = none → m.values[y]? = none
  /-- The placeholder of a rule that is running stands in for the rule's key. -/
  placeholder : ∀ y p, m.Underway y p → g₀.size ≤ p.index ∧ g.slot? p = some (.forward (standIn y))
  distinct : ∀ y y' p, m.Underway y p → m.Underway y' p → y = y'

theorem Graph.Ground.mem_grown (hS : g₀.Ground S) (hkept : g.Extends g₀) (h : v ∈ S) :
    v ∈ grown g₀ S g :=
  ⟨(hS.inRange v h).trans_le hkept.1, fun _ => h⟩

theorem Graph.Part.mem_grown (hS : g₀.Part S) (hkept : g.Extends g₀) (h : v ∈ S) :
    v ∈ grown g₀ S g := hS.ground.mem_grown hkept h

namespace Working

theorem initial (hS : g₀.Ground S) : Working g₀ S standIn .empty g₀ where
  wellFormed := hS.wellFormed
  kept := .refl g₀
  closed h hh k hk :=
    have hkS := hS.closed h (hh.2 hh.1) k hk
    ⟨hS.inRange k hkS, fun _ => hkS⟩
  new h hle hlt := absurd hle (Nat.not_le.2 hlt)
  asked y v h := absurd Std.TreeMap.getElem?_emptyc h.1
  unasked y _ := Std.TreeMap.getElem?_emptyc
  placeholder y p h := by simp [Memory.Underway, Memory.empty] at h
  distinct y y' p h := by simp [Memory.Underway, Memory.empty] at h

/-- A handle of the grown part stays in it when slots are added. -/
theorem grown_mono (hsize : g.size ≤ g'.size) (h : v ∈ grown g₀ S g) : v ∈ grown g₀ S g' :=
  ⟨h.1.trans_le hsize, h.2⟩

theorem holds_start (hfresh : m.progress[key]? = none) :
    (m.start key p).Holds y v ↔ y = key ∧ v = p ∨ m.Holds y v := by
  rw [Memory.holds_iff, Memory.holds_iff, Memory.finished_start hfresh,
    Memory.underway_start_iff hfresh]
  exact or_left_comm

/-- A rule starts, and its placeholder is added. -/
theorem start (hw : Working g₀ S standIn m g) (hS : g₀.Ground S) (hstandIn : standIn key ∈ S)
    (hkey : key ∈ S) (hfresh : m.progress[key]? = none) :
    Working g₀ S standIn (m.start key ⟨g.size⟩) (g.alloc (.forward (standIn key))).2 where
  wellFormed := hw.wellFormed.alloc
    (fun k hk => by
      rw [Slot.references, List.mem_singleton] at hk
      subst hk
      exact ((hS.inRange _ hstandIn).trans_le hw.kept.1).le)
    (by simp)
  kept := extends_alloc.trans hw.kept
  closed h hh k hk := by
    have hle : g.size ≤ (g.alloc (.forward (standIn key))).2.size := by simp
    rcases Nat.lt_or_ge h.index g.size with hlt | hge
    · unfold references at hk
      rw [slot?_alloc_old hlt] at hk
      exact grown_mono hle (hw.closed h ⟨hlt, hh.2⟩ k hk)
    · have hsize := hh.1
      rw [size_alloc] at hsize
      obtain rfl : h = ⟨g.size⟩ := Handle.ext_index (by simp only; omega)
      rw [references_of_forward slot?_alloc_new, List.mem_singleton] at hk
      subst hk
      exact hS.mem_grown (extends_alloc.trans hw.kept) hstandIn
  new h hle hlt := by
    rw [slot?_alloc]
    split
    · exact .inr ⟨_, rfl⟩
    · next hne => exact hw.new h hle (by rw [size_alloc] at hlt; omega)
  asked y v h := by
    rcases (holds_start hfresh).1 h with ⟨rfl, rfl⟩ | h
    · refine ⟨hkey, by simp, fun hlt => ?_⟩
      have := hw.kept.1
      simp only at hlt
      omega
    · obtain ⟨hy, hv⟩ := hw.asked y v h
      exact ⟨hy, grown_mono (by simp) hv⟩
  unasked y hy := by
    have hne : y ≠ key := fun he => by
      subst he
      have hself : (m.start y ⟨g.size⟩).Underway y ⟨g.size⟩ := Memory.underway_start
      obtain ⟨b, hb⟩ := hself.1
      simp [hy] at hb
    rw [Memory.values_start_of_ne hne]
    exact hw.unasked y ((Memory.progress_start_of_ne hne).symm.trans hy)
  placeholder y p h := by
    rcases (Memory.underway_start_iff hfresh).1 h with ⟨rfl, rfl⟩ | h
    · exact ⟨hw.kept.1, slot?_alloc_new⟩
    · obtain ⟨hle, hs⟩ := hw.placeholder y p h
      exact ⟨hle, (slot?_alloc_old (slot?_lt hs)).trans hs⟩
  distinct y y' p h h' := by
    have hnew {z : Handle} (hz : m.Underway z ⟨g.size⟩) : False := by
      have hlt := slot?_lt (hw.placeholder z _ hz).2
      simp only at hlt
      omega
    rcases (Memory.underway_start_iff hfresh).1 h with ⟨rfl, rfl⟩ | hold
    · rcases (Memory.underway_start_iff hfresh).1 h' with ⟨rfl, -⟩ | hold'
      · rfl
      · exact (hnew hold').elim
    · rcases (Memory.underway_start_iff hfresh).1 h' with ⟨rfl, rfl⟩ | hold'
      · exact (hnew hold).elim
      · exact hw.distinct y y' p hold hold'

theorem giveAway (hw : Working g₀ S standIn m g) {progress : Progress}
    (hp : m.progress[key]? = some progress) :
    Working g₀ S standIn (m.giveAway key progress) g := by
  have hholds (y v) : (m.giveAway key progress).Holds y v ↔ m.Holds y v := by
    rw [Memory.holds_iff, Memory.holds_iff, Memory.finished_giveAway hp,
      Memory.underway_giveAway hp]
  refine ⟨hw.wellFormed, hw.kept, hw.closed, hw.new, fun y v h => ?_, fun y hy => ?_,
    fun y p h => ?_, fun y y' p h h' => ?_⟩
  · exact hw.asked y v ((hholds y v).1 h)
  · have hfresh : m.progress[y]? = none := by
      by_contra hne
      exact (Memory.frame_giveAway hp).progress_ne_none hne hy
    cases progress <;> exact hw.unasked y hfresh
  · exact hw.placeholder y p ((Memory.underway_giveAway hp).1 h)
  · exact hw.distinct y y' p ((Memory.underway_giveAway hp).1 h) ((Memory.underway_giveAway hp).1 h')

/-- Nodes are added. -/
theorem build {P : Node → Prop} (hw : Working g₀ S standIn m g)
    (h : Builds (grown g₀ S g) P g g') (hP : ¬ P (.token [])) : Working g₀ S standIn m g' where
  wellFormed := h.wellFormed hP hw.wellFormed fun c hc => hc.1
  kept := h.kept.trans hw.kept
  closed k hk c hc := by
    have hbuilt : Built (grown g₀ S g) g g' k := by
      rcases Nat.lt_or_ge k.index g.size with hlt | hge
      · exact .inl ⟨hlt, hk.2⟩
      · exact .inr ⟨hge, hk.1⟩
    rcases h.closed hw.closed (fun c hc => hc.1) k hbuilt c hc with hc | ⟨hle, hlt⟩
    · exact grown_mono h.kept.1 hc
    · exact ⟨hlt, fun hlt' => absurd (hw.kept.1.trans hle) (Nat.not_le.2 hlt')⟩
  new k hle hlt := by
    rcases Nat.lt_or_ge k.index g.size with hk | hk
    · rw [h.kept.2 k hk]
      exact hw.new k hle hk
    · obtain ⟨n, hs, -⟩ := h.new k hk hlt
      exact .inl ⟨n, hs⟩
  asked y v hy := (hw.asked y v hy).imp_right (grown_mono h.kept.1)
  unasked := hw.unasked
  placeholder y p hp := by
    obtain ⟨hle, hs⟩ := hw.placeholder y p hp
    exact ⟨hle, (h.kept.2 p (slot?_lt hs)).trans hs⟩
  distinct := hw.distinct

/-- The slots of the grown part hold nodes and forwards. -/
theorem node_or_forward (hw : Working g₀ S standIn m g) (hS : g₀.Part S) (hv : v ∈ grown g₀ S g) :
    (∃ n, g.slot? v = some (.node n)) ∨ ∃ t, g.slot? v = some (.forward t) := by
  rcases Nat.lt_or_ge v.index g₀.size with hlt | hge
  · rw [hw.kept.2 v hlt]
    obtain ⟨r, n, hl, hs⟩ := hS.ready v (hv.2 hlt)
    cases hl with
    | here => exact .inl ⟨n, hs⟩
    | step hforward => exact .inr ⟨_, hforward⟩
  · exact hw.new v hge hv.1

/-- What is added to the grown part belongs to it. -/
theorem mem_grown_of_built (hw : Working g₀ S standIn m g) (hsize : g.size ≤ g'.size)
    (h : Built (grown g₀ S g) g g' v) : v ∈ grown g₀ S g' := by
  rcases h with h | ⟨hle, hlt⟩
  · exact grown_mono hsize h
  · exact ⟨hlt, fun hlt' => absurd (hw.kept.1.trans hle) (Nat.not_le.2 hlt')⟩

/-- The slot of a placeholder after it has been sent on to a result: a placeholder that is its own
result stays what it is. -/
theorem slot?_placeholder (hw : Working g₀ S standIn m g) (hp : m.Underway key p) :
    (g.redirect p v).slot? p = if p = v then some (.forward (standIn key)) else some (.forward v) := by
  obtain ⟨-, hs⟩ := hw.placeholder key p hp
  unfold redirect
  split
  · exact hs
  · exact slot?_setForward_self (slot?_lt hs)

/-- A placeholder that is sent on to a result is no node. -/
theorem node_of_redirect (hw : Working g₀ S standIn m g) (hp : m.Underway key p) {k : Handle}
    (hk : (g.redirect p v).slot? k = some (.node n)) : g.slot? k = some (.node n) := by
  rcases eq_or_ne k p with rfl | hne
  · have hforward := hw.slot?_placeholder (v := v) hp
    rw [hk] at hforward
    split at hforward <;> cases hforward
  · rwa [slot?_redirect_of_ne hne] at hk

/-- A rule ends, and its placeholder is sent on to the result. -/
theorem settle (hw : Working g₀ S standIn m g) (hp : m.Underway key p) (hv : v ∈ grown g₀ S g) :
    Working g₀ S standIn (m.finish key p v) (g.redirect p v) := by
  obtain ⟨hple, hps⟩ := hw.placeholder key p hp
  have hnode : ∀ n, g.slot? p ≠ some (.node n) := fun n => by simp [hps]
  have hgrown {k : Handle} (hk : k ∈ grown g₀ S g) : k ∈ grown g₀ S (g.redirect p v) :=
    grown_mono (by simp) hk
  have hreferences : ∀ h k, k ∈ (g.redirect p v).references h →
      k ∈ g.references h ∨ h = p ∧ k = v := fun h k hk => by
    rcases eq_or_ne h p with rfl | hne
    · have hs := hw.slot?_placeholder (v := v) hp
      split at hs
      · rw [references_of_forward hs, ← references_of_forward hps] at hk
        exact .inl hk
      · rw [references_of_forward hs, List.mem_singleton] at hk
        exact .inr ⟨rfl, hk⟩
    · unfold references at hk ⊢
      rw [slot?_redirect_of_ne hne] at hk
      exact .inl hk
  refine ⟨hw.wellFormed.redirect hv.1 hnode, ⟨by simpa using hw.kept.1, fun h hlt => ?_⟩,
    fun h hh k hk => ?_, fun h hle hlt => ?_, fun y w h => ?_, fun y hy => ?_, fun y q h => ?_,
    fun y y' q h h' => ?_⟩
  · have hne : h ≠ p := fun he => by
      subst he
      omega
    rw [slot?_redirect_of_ne hne]
    exact hw.kept.2 h hlt
  · rcases hreferences h k hk with hk | ⟨-, rfl⟩
    · exact hgrown (hw.closed h ⟨by simpa using hh.1, hh.2⟩ k hk)
    · exact hgrown hv
  · rcases eq_or_ne h p with rfl | hne
    · rw [hw.slot?_placeholder hp]
      split <;> exact .inr ⟨_, rfl⟩
    · rw [slot?_redirect_of_ne hne]
      exact hw.new h hle (by simpa using hlt)
  · rcases Memory.holds_iff.1 h with h | h
    · rcases Memory.finished_finish_iff.1 h with ⟨rfl, rfl⟩ | ⟨-, h⟩
      · exact ⟨(hw.asked _ _ hp.holds).1, hgrown hv⟩
      · exact (hw.asked y w h.holds).imp_right hgrown
    · exact (hw.asked y w (Memory.underway_finish_iff.1 h).2.holds).imp_right hgrown
  · have hne : y ≠ key := fun he => by
      subst he
      rw [Memory.finished_finish.1] at hy
      cases hy
    rw [Memory.values_finish_of_ne hne]
    exact hw.unasked y ((Memory.progress_finish_of_ne hne).symm.trans hy)
  · obtain ⟨hne, h⟩ := Memory.underway_finish_iff.1 h
    obtain ⟨hqle, hqs⟩ := hw.placeholder y q h
    have hqp : q ≠ p := fun he => hne (hw.distinct y key p (he ▸ h) hp)
    exact ⟨hqle, (slot?_redirect_of_ne hqp).trans hqs⟩
  · exact hw.distinct y y' q (Memory.underway_finish_iff.1 h).2 (Memory.underway_finish_iff.1 h').2

end Working

end Working

/-! ## What a transformation upholds -/

section Upholds

variable {g₀ g₁ g g' : Graph} {S : Set Handle} {standIn : Handle → Handle}
  {rule : Handle → TransformM Handle} {Inv : Memory Handle Handle → Graph → Prop}
  {Result : Memory Handle Handle → Graph → Handle → Handle → Prop} {mayStop : Prop}
  {Allowed : Settlement Graph Handle Handle → Prop} {m m' : Memory Handle Handle}
  {key p r v a c root : Handle} {n : Node}

/-- One handle can be reached from another in at least one step. -/
def Graph.LeadsTo (g : Graph) : Handle → Handle → Prop :=
  Relation.TransGen fun h k => k ∈ g.references h

/-- A key has been answered: by its value, or by its placeholder, if the key contains itself. -/
def Answered (g₀ : Graph) (m : Memory Handle Handle) (y a : Handle) : Prop :=
  m.Finished y a ∨ m.Underway y a ∧ g₀.LeadsTo y y

theorem Answered.frame (h : Answered g₀ m r a) (hframe : m.Frame m') : Answered g₀ m' r a :=
  h.imp hframe.finished_of (And.imp_left hframe.underway_of)

theorem Answered.holds (h : Answered g₀ m r a) : m.Holds r a :=
  h.elim Memory.Finished.holds fun h => h.1.holds

/-- An operand has been answered. -/
def AnswerFor (g₀ : Graph) (m : Memory Handle Handle) (c a : Handle) : Prop :=
  ∃ r, g₀.Leads c r ∧ Answered g₀ m r a

theorem AnswerFor.frame (h : AnswerFor g₀ m c a) (hframe : m.Frame m') : AnswerFor g₀ m' c a :=
  h.imp fun _ => And.imp_right fun ha => ha.frame hframe

/-- A transformation that keeps an invariant, and the nodes that there are. -/
def keeping (g₀ : Graph) (S : Set Handle) (standIn : Handle → Handle)
    (Inv : Memory Handle Handle → Graph → Prop) : Contract Graph Handle Handle where
  asks key m g := key ∈ S ∧ (∃ n, g₀.slot? key = some (.node n)) ∧ Working g₀ S standIn m g ∧
    Inv m g ∧ ∀ y p, m.Underway y p → g₀.LeadsTo y key
  answers key _ g v m' g' :=
    g.Retains g' ∧ Working g₀ S standIn m' g' ∧ Inv m' g' ∧ Answered g₀ m' key v

/-- What is known while the rule of a key runs, where `g₁` is the graph in which it started. -/
structure Running (g₀ : Graph) (S : Set Handle) (standIn : Handle → Handle)
    (Inv : Memory Handle Handle → Graph → Prop) (key p : Handle) (n : Node) (g₁ : Graph)
    (m : Memory Handle Handle) (g : Graph) : Prop where
  part : g₀.Part S
  since : g₁.Retains g
  working : Working g₀ S standIn m g
  inv : Inv m g
  mem : key ∈ S
  node : g₀.slot? key = some (.node n)
  underway : m.Underway key p
  others : ∀ y q, m.Underway y q → y = key ∨ g₀.LeadsTo y key

/-- What has to be shown of an invariant. -/
structure Upholds (g₀ : Graph) (S : Set Handle) (standIn : Handle → Handle)
    (rule : Handle → TransformM Handle) (Inv : Memory Handle Handle → Graph → Prop)
    (Result : Memory Handle Handle → Graph → Handle → Handle → Prop) (mayStop : Prop)
    (Allowed : Settlement Graph Handle Handle → Prop) : Prop where
  /-- The invariant depends on what is finished and what is underway only. -/
  congr : ∀ m m' g, (∀ y v, m'.Finished y v ↔ m.Finished y v) →
    (∀ y p, m'.Underway y p ↔ m.Underway y p) → Inv m g → Inv m' g
  start : ∀ key m g, (keeping g₀ S standIn Inv).asks key m g → m.progress[key]? = none →
    Inv (m.start key ⟨g.size⟩) (g.alloc (.forward (standIn key))).2
  rule : ∀ key p n m g, Running g₀ S standIn Inv key p n g m g →
    (rule key g).Ensures (keeping g₀ S standIn Inv) mayStop
      (fun v m' g' => g.Retains g' ∧ Working g₀ S standIn m' g' ∧ Inv m' g' ∧
        v ∈ grown g₀ S g' ∧ Result m' g' key v) m
  settle : ∀ key p v m g, Working g₀ S standIn m g → Inv m g → m.Underway key p →
    v ∈ grown g₀ S g → Result m g key v → Allowed ⟨key, p, v, g⟩ →
    Inv (m.finish key p v) (g.redirect p v)

/-- What is known when a rule has come to its end. -/
def Concluded (g₀ : Graph) (S : Set Handle) (standIn : Handle → Handle)
    (Inv : Memory Handle Handle → Graph → Prop)
    (Result : Memory Handle Handle → Graph → Handle → Handle → Prop)
    (e : Settlement Graph Handle Handle) : Prop :=
  ∃ m, m.Underway e.key e.provisional ∧ Working g₀ S standIn m e.state ∧ Inv m e.state ∧
    e.computed ∈ grown g₀ S e.state ∧ Result m e.state e.key e.computed

theorem Upholds.kept (hU : Upholds g₀ S standIn rule Inv Result mayStop Allowed)
    (hS : g₀.Part S) (hstandIn : ∀ y ∈ S, standIn y ∈ S) :
    (keeping g₀ S standIn Inv).Kept (Transform.rules standIn rule) mayStop Allowed
      (Concluded g₀ S standIn Inv Result) where
  remembered key m g v progress hasks hp hv := by
    obtain ⟨hkey, hnode, hw, hinv, hothers⟩ := hasks
    refine ⟨.refl g, hw.giveAway hp, ?_, ?_⟩
    · exact hU.congr m _ g (fun y v => Memory.finished_giveAway hp)
        (fun y p => Memory.underway_giveAway hp) hinv
    · rcases Memory.holds_iff.1 (Memory.holds_giveAway hp hv) with h | h
      · exact .inl h
      · exact .inr ⟨h, hothers key v ((Memory.underway_giveAway hp).1 h)⟩
  carried key m g p g₁ hasks hfresh hstart := by
    obtain ⟨hkey, ⟨n, hnode⟩, hw, hinv, hothers⟩ := hasks
    have hprovisional : (Transform.rules standIn rule).provisional m key g =
        g.alloc (.forward (standIn key)) := by
      unfold Rules.provisional
      rw [hw.unasked key hfresh]
      rfl
    rw [hprovisional] at hstart
    cases hstart
    have hrunning : Running g₀ S standIn Inv key ⟨g.size⟩ n
        (g.alloc (.forward (standIn key))).2 (m.start key ⟨g.size⟩)
        (g.alloc (.forward (standIn key))).2 :=
      { part := hS
        since := .refl _
        working := hw.start hS.ground (hstandIn key hkey) hkey hfresh
        inv := hU.start key m g ⟨hkey, ⟨n, hnode⟩, hw, hinv, hothers⟩ hfresh
        mem := hkey
        node := hnode
        underway := Memory.underway_start
        others := fun y q h => ((Memory.underway_start_iff hfresh).1 h).imp And.left (hothers y q) }
    refine (hU.rule key _ n _ _ hrunning).mono ?_
    rintro v m₁ g₁ - ⟨hretains, hw₁, hinv₁, hv, hresult⟩ hframe hallowed
    have hunderway := hframe.underway_of hrunning.underway
    have hredirect : g₁.Retains (g₁.redirect ⟨g.size⟩ v) :=
      .of_redirect (hw₁.placeholder key _ hunderway).2
    refine ⟨⟨m₁, hunderway, hw₁, hinv₁, hv, hresult⟩,
      (Retains.of_extends extends_alloc).trans (hretains.trans hredirect),
      hw₁.settle hunderway hv, ?_, .inl Memory.finished_finish⟩
    exact hU.settle key _ v m₁ g₁ hw₁ hinv₁ hunderway hv hresult hallowed

/-- A transformation starts with the end of a chain. -/
theorem Graph.Part.asks_initial (hS : g₀.Part S) (hinit : Inv .empty g₀) (hroot : root ∈ S)
    (hl : g₀.Leads root r) : (keeping g₀ S standIn Inv).asks r .empty g₀ := by
  obtain ⟨r', n, hl', hs⟩ := hS.ready root hroot
  refine ⟨hS.closed.of_reaches hroot hl.reaches, ⟨n, by rwa [hl.unique hl']⟩, .initial hS.ground,
    hinit, fun y p hp => ?_⟩
  simp [Memory.Underway, Memory.empty] at hp

/-- What holds whenever a rule comes to its end. -/
theorem Upholds.concluded (hU : Upholds g₀ S standIn rule Inv Result mayStop Allowed)
    (hS : g₀.Part S) (hstandIn : ∀ y ∈ S, standIn y ∈ S) (hinit : Inv .empty g₀) (hroot : root ∈ S)
    (hl : g₀.Leads root r)
    (hallowed : ∀ e, Settles (Transform.rules standIn rule) e (g₀.size + 1) r .empty g₀ → Allowed e)
    {e : Settlement Graph Handle Handle}
    (he : Settles (Transform.rules standIn rule) e (g₀.size + 1) r .empty g₀) :
    Concluded g₀ S standIn Inv Result e :=
  (visit_ensures (hU.kept hS hstandIn) (hS.asks_initial hinit hroot hl) hallowed).1 e he

/-- What holds after a transformation: the invariant, with nothing underway. -/
theorem apply_upholds (hU : Upholds g₀ S standIn rule Inv Result mayStop Allowed)
    (hS : g₀.Part S) (hstandIn : ∀ y ∈ S, standIn y ∈ S) (hinit : Inv .empty g₀)
    (hroot : root ∈ S) (hl : g₀.Leads root r)
    (hallowed : ∀ e, Settles (Transform.rules standIn rule) e (g₀.size + 1) r .empty g₀ → Allowed e)
    (h : Transform.apply (Transform.rules standIn rule) g₀ root = some (v, g')) :
    ∃ m, Working g₀ S standIn m g' ∧ Inv m g' ∧ m.Finished r v ∧ ∀ y p, ¬ m.Underway y p := by
  rw [Transform.apply, Graph.resolve_eq_some.2 hl] at h
  simp only [Option.bind_eq_bind, Option.bind_some, runOnce] at h
  split at h
  · next w m g₁ hvisit =>
      cases h
      obtain ⟨-, hw, hinv, hanswer⟩ := (visit_ensures (hU.kept hS hstandIn)
        (hS.asks_initial hinit hroot hl) hallowed).2 v m g' hvisit
      have hnone : ∀ y p, ¬ m.Underway y p := fun y p hp => by
        have hempty := (visit_frame hvisit).1.underway_iff.1 hp
        simp [Memory.Underway, Memory.empty] at hempty
      exact ⟨m, hw, hinv, hanswer.resolve_right fun h => hnone r v h.1, hnone⟩
  · cases h

/-- A transformation whose rules are never stuck has a result: questions nest no deeper than there
are slots. -/
theorem apply_answers (hU : Upholds g₀ S standIn rule Inv Result False Allowed)
    (hS : g₀.Part S) (hstandIn : ∀ y ∈ S, standIn y ∈ S) (hinit : Inv .empty g₀)
    (hroot : root ∈ S) (hl : g₀.Leads root r)
    (hallowed : ∀ e, Settles (Transform.rules standIn rule) e (g₀.size + 1) r .empty g₀ → Allowed e) :
    ∃ v g', Transform.apply (Transform.rules standIn rule) g₀ root = some (v, g') := by
  let keys : Finset Handle := (Finset.range g₀.size).image Handle.mk
  have hkeys : ∀ key m g, (keeping g₀ S standIn Inv).asks key m g → key ∈ keys :=
    fun key m g hasks => Finset.mem_image.2
      ⟨key.index, Finset.mem_range.2 (hS.inRange key hasks.1), rfl⟩
  have hasks : (keeping g₀ S standIn Inv).asks r .empty g₀ := hS.asks_initial hinit hroot hl
  have hdepth : ((Memory.empty : Memory Handle Handle).unvisited keys).card < g₀.size + 1 := by
    have hcard : keys.card ≤ g₀.size := Finset.card_image_le.trans (Finset.card_range _).le
    exact Nat.lt_succ_of_le ((Finset.card_filter_le _ _).trans hcard)
  obtain ⟨v, m, g', hvisit⟩ := visit_answers (hU.kept hS hstandIn) hkeys hasks hallowed
    (fun k hk => by simp [Memory.empty] at hk) hdepth
  refine ⟨v, g', ?_⟩
  rw [Transform.apply, Graph.resolve_eq_some.2 hl]
  simp only [Option.bind_eq_bind, Option.bind_some, runOnce, hvisit]

/-! ## What a rule does -/

namespace Running

variable {α : Type} {Q : α → Memory Handle Handle → Graph → Prop}
  {next : Handle → TransformM α}

theorem frame (h : Running g₀ S standIn Inv key p n g₁ m g) (hframe : m.Frame m')
    (hsince : g.Retains g') (hw : Working g₀ S standIn m' g') (hinv : Inv m' g') :
    Running g₀ S standIn Inv key p n g₁ m' g' where
  part := h.part
  since := h.since.trans hsince
  working := hw
  inv := hinv
  mem := h.mem
  node := h.node
  underway := hframe.underway_of h.underway
  others y q hy := h.others y q (hframe.underway_iff.1 hy)

/-- A rule adds nodes. -/
theorem build {P : Node → Prop} (h : Running g₀ S standIn Inv key p n g₁ m g)
    (hbuilds : Builds (grown g₀ S g) P g g') (hP : ¬ P (.token [])) (hinv : Inv m g') :
    Running g₀ S standIn Inv key p n g₁ m g' :=
  h.frame (.refl m) (.of_extends hbuilds.kept) (h.working.build hbuilds hP) hinv

/-- Nothing in the part has been changed. -/
theorem slot?_eq (h : Running g₀ S standIn Inv key p n g₁ m g) : ∀ k ∈ S, g.slot? k = g₀.slot? k :=
  fun k hk => h.working.kept.2 k (h.part.inRange k hk)

theorem slot?_key (h : Running g₀ S standIn Inv key p n g₁ m g) : g.slot? key = some (.node n) :=
  (h.slot?_eq key h.mem).trans h.node

theorem operand_mem (h : Running g₀ S standIn Inv key p n g₁ m g) (hc : c ∈ n.children) : c ∈ S :=
  h.part.closed key h.mem c (by rwa [references_of_node h.node])

/-- A chain of forwards in the part leads where it led at the start. -/
theorem leads_iff (h : Running g₀ S standIn Inv key p n g₁ m g) (hc : c ∈ S) :
    g.Leads c r ↔ g₀.Leads c r := by
  have hl {r : Handle} (hl : g₀.Leads c r) : g.Leads c r :=
    hl.congr h.part.closed h.slot?_eq hc
  refine ⟨fun hlr => ?_, hl⟩
  obtain ⟨r', n', hl', -⟩ := h.part.ready c hc
  rwa [hlr.unique (hl hl')]

theorem ask_bind_pure (c : Handle) : Transform.ask c >>= pure = Transform.ask c := by
  funext g
  rw [Rule.bind_apply, Transform.ask]
  rcases g.resolve c with _ | r <;> rfl

/-- An operand of a rule that runs may be asked for. -/
theorem asks_operand (h : Running g₀ S standIn Inv key p n g₁ m g) (hc : c ∈ n.children)
    (hl : g₀.Leads c r) : (keeping g₀ S standIn Inv).asks r m g := by
  have hcS := h.operand_mem hc
  obtain ⟨r', n', hl', hs⟩ := h.part.ready c hcS
  obtain rfl := hl.unique hl'
  have hkr : g₀.LeadsTo key r := .head' (by rwa [references_of_node h.node]) hl.reaches
  refine ⟨h.part.closed.of_reaches hcS hl.reaches, ⟨n', hs⟩, h.working, h.inv, fun y q hy => ?_⟩
  rcases h.others y q hy with rfl | hy
  · exact hkr
  · exact hy.trans hkr

/-- A rule asks for an operand. -/
theorem ensures_ask (h : Running g₀ S standIn Inv key p n g₁ m g) (hc : c ∈ n.children)
    (hnext : ∀ r a m' g', g₀.Leads c r → m.Frame m' → g.Retains g' →
      Running g₀ S standIn Inv key p n g₁ m' g' → Answered g₀ m' r a →
      (next a g').Ensures (keeping g₀ S standIn Inv) mayStop Q m') :
    ((Transform.ask c >>= next) g).Ensures (keeping g₀ S standIn Inv) mayStop Q m := by
  have hcS := h.operand_mem hc
  obtain ⟨r, -, hl, -⟩ := h.part.ready c hcS
  rw [Rule.bind_apply, Transform.ask, Graph.resolve_eq_some.2 ((h.leads_iff hcS).2 hl)]
  refine ⟨h.asks_operand hc hl, fun a m' g' hframe _ ⟨hsince, hw, hinv, hanswer⟩ => ?_⟩
  exact hnext r a m' g' hl hframe hsince (h.frame hframe hsince hw hinv) hanswer

end Running

section Quiet

variable {α β : Type} {C : Contract Graph Handle Handle}
  {Q : β → Memory Handle Handle → Graph → Prop}

/-- A look that has a result. -/
theorem look_bind {f : Graph → Option α} {x : α} {next : α → TransformM β} (h : f g = some x) :
    (Transform.look f >>= next) g = next x g := by
  rw [Rule.bind_apply, Transform.look, Rule.query, h]
  rfl

theorem ensures_look_of_eq {f : Graph → Option α} {x : α} {next : α → TransformM β}
    (h : f g = some x) (hnext : (next x g).Ensures C mayStop Q m) :
    ((Transform.look f >>= next) g).Ensures C mayStop Q m := by
  rwa [look_bind h]

/-- A rule looks at the node of its own handle. -/
theorem Running.ensures_node (h : Running g₀ S standIn Inv key p n g₁ m g)
    {next : Node → TransformM β} (hnext : (next n g).Ensures C mayStop Q m) :
    ((Transform.look (fun g => some (g.node key)) >>= next) g).Ensures C mayStop Q m :=
  ensures_look_of_eq (by rw [node_eq h.slot?_key]) hnext

/-- A rule looks at the graph. -/
theorem ensures_look {f : Graph → Option α} {next : α → TransformM β}
    (hstop : f g = none → mayStop) (hnext : ∀ a, f g = some a → (next a g).Ensures C mayStop Q m) :
    ((Transform.look f >>= next) g).Ensures C mayStop Q m := by
  rw [Rule.bind_apply, Transform.look, Rule.query]
  rcases hf : f g with _ | a
  · exact hstop hf
  · exact hnext a hf

/-- A rule adds a node. -/
theorem ensures_make {next : Handle → TransformM β}
    (hnext : (next (g.make n).1 (g.make n).2).Ensures C mayStop Q m) :
    ((Transform.make n >>= next) g).Ensures C mayStop Q m := hnext

end Quiet

end Upholds

end DerivativeParsing
