import DerivativeParsing.Proofs.Sustaining

/-!
# Chains of forwards in a derivative

The derivative of a single repetition is the derivative of its operand, and that may be a
placeholder: the placeholder of a rule that is still running.  When the rule of the repetition ends,
its own placeholder is sent on to that one, and for a while there are chains of placeholders.  They
never become circular.

The reason is that a rule that comes to a placeholder has asked one question only, and so has every
rule that was carried out to answer it: all of them come to the same placeholder (`Single`).  So no
key that is finished has the value of a rule that comes to another placeholder, and a rule that
comes to anything else comes to a handle whose chain has an end (`ChainInv`).
-/

set_option autoImplicit false

namespace DerivativeParsing

open Fixpoint DerivativeParsing.Graph

/-- Every chain of forwards has an end. -/
def Graph.ChainsEnd (g : Graph) : Prop := ∀ h : Handle, h.index < g.size → ∃ r, g.Leads h r

section Chains

variable {g₀ g₁ g g' : Graph} {S : Set Handle} {mayStop : Prop}
  {m m' m₀ : Memory Handle Handle} {key y p r v h e root : Handle} {c : Char} {n : Node}

/-- The chain of forwards from a handle, followed no further than to the placeholder of a rule that
is running, stops at another handle. -/
inductive Stops (m : Memory Handle Handle) (g : Graph) : Handle → Handle → Prop where
  | held {y h : Handle} (hp : m.Underway y h) : Stops m g h h
  | here {h : Handle} (hend : ∀ t, g.slot? h ≠ some (.forward t)) : Stops m g h h
  | step {h t e : Handle} (hs : g.slot? h = some (.forward t)) (hfree : ∀ y, ¬ m.Underway y h)
      (hrest : Stops m g t e) : Stops m g h e

/-- The chain of forwards from a handle has an end, and comes to no placeholder of a rule that is
running. -/
def Anchored (m : Memory Handle Handle) (g : Graph) (h : Handle) : Prop :=
  ∃ e, Stops m g h e ∧ ∀ y, ¬ m.Underway y e

namespace Stops

theorem leads (hs : Stops m g h e) (hidle : ∀ y p, ¬ m.Underway y p) : g.Leads h e := by
  induction hs with
  | held hp => exact absurd hp (hidle _ _)
  | here hend => exact .here hend
  | step hs _ _ ih => exact .step hs ih

theorem of_leads (hl : g.Leads h r) (hidle : ∀ y p, ¬ m.Underway y p) : Stops m g h r := by
  induction hl with
  | here hend => exact .here hend
  | step hs _ ih => exact .step hs (fun y => hidle y _) ih

theorem congr (hs : Stops m g h e) (hunderway : ∀ y p, m'.Underway y p ↔ m.Underway y p) :
    Stops m' g h e := by
  induction hs with
  | held hp => exact .held ((hunderway _ _).2 hp)
  | here hend => exact .here hend
  | step hs hfree _ ih => exact .step hs (fun y hy => hfree y ((hunderway y _).1 hy)) ih

/-- Slots that are added, and rules that start with new placeholders, leave a chain what it is. -/
theorem extend (hs : Stops m g h e) (hg : g.WellFormed) (hlt : h.index < g.size)
    (hkept : g'.Extends g)
    (hunderway : ∀ y k : Handle, k.index < g.size → (m'.Underway y k ↔ m.Underway y k)) :
    Stops m' g' h e ∧ e.index < g.size := by
  induction hs with
  | held hp => exact ⟨.held ((hunderway _ _ hlt).2 hp), hlt⟩
  | here hend =>
      refine ⟨.here fun t ht => ?_, hlt⟩
      rw [hkept.2 _ hlt] at ht
      exact hend t ht
  | step hs hfree _ ih =>
      have ht := hg.inRange _ _ (references_of_forward hs ▸ List.mem_singleton.2 rfl)
      obtain ⟨hrest, he⟩ := ih ht
      refine ⟨.step ((hkept.2 _ hlt).trans hs) (fun y hy => ?_) hrest, he⟩
      exact hfree y ((hunderway y _ hlt).1 hy)

end Stops

namespace Anchored

theorem congr (ha : Anchored m g h) (hunderway : ∀ y p, m'.Underway y p ↔ m.Underway y p) :
    Anchored m' g h := by
  obtain ⟨e, hs, hfree⟩ := ha
  exact ⟨e, hs.congr hunderway, fun y hy => hfree y ((hunderway y e).1 hy)⟩

theorem extend (ha : Anchored m g h) (hg : g.WellFormed) (hlt : h.index < g.size)
    (hkept : g'.Extends g)
    (hunderway : ∀ y k : Handle, k.index < g.size → (m'.Underway y k ↔ m.Underway y k)) :
    Anchored m' g' h := by
  obtain ⟨e, hs, hfree⟩ := ha
  obtain ⟨hs', he⟩ := hs.extend hg hlt hkept hunderway
  exact ⟨e, hs', fun y hy => hfree y ((hunderway y e he).1 hy)⟩

/-- A node is the end of a chain, and no placeholder. -/
theorem of_node {standIn : Handle → Handle} {S : Set Handle} (hw : Working g₀ S standIn m g)
    (hs : g.slot? h = some (.node n)) : Anchored m g h := by
  refine ⟨h, .here fun t => by simp [hs], fun y hy => ?_⟩
  have hp := (hw.placeholder y h hy).2
  rw [hs] at hp
  cases hp

end Anchored

/-! ## The invariant -/

/-- Every chain stops somewhere, and the value of a finished key is anchored unless it is a
placeholder itself. -/
structure ChainInv (g₀ : Graph) (S : Set Handle) (m : Memory Handle Handle) (g : Graph) : Prop where
  stops : ∀ h ∈ grown g₀ S g, ∃ e, Stops m g h e
  values : ∀ y v, m.Finished y v → (∃ u, m.Underway u v) ∨ Anchored m g v

/-- An answer is anchored, or it is a placeholder and all keys that were finished on the way to it
have the same value. -/
def Single (m : Memory Handle Handle) (_key v : Handle) (m' : Memory Handle Handle) (g' : Graph) :
    Prop :=
  Anchored m' g' v ∨
    (∃ u, m'.Underway u v) ∧ ∀ y w, m'.Finished y w → m.Finished y w ∨ w = v

theorem ChainInv.extend (h : ChainInv g₀ S m g) (hw : Working g₀ S (fun _ => .nil) m g)
    (hkept : g'.Extends g) (hfinished : ∀ y v, m'.Finished y v ↔ m.Finished y v)
    (hunderway : ∀ y k : Handle, k.index < g.size → (m'.Underway y k ↔ m.Underway y k))
    (hnew : ∀ k : Handle, g.size ≤ k.index → k.index < g'.size → ∃ e, Stops m' g' k e) :
    ChainInv g₀ S m' g' where
  stops k hk := by
    by_cases hlt : k.index < g.size
    · obtain ⟨e, hs⟩ := h.stops k ⟨hlt, hk.2⟩
      exact ⟨e, (hs.extend hw.wellFormed hlt hkept hunderway).1⟩
    · exact hnew k (Nat.not_lt.1 hlt) hk.1
  values y v hv := by
    have hy := (hfinished y v).1 hv
    have hlt : v.index < g.size := (hw.asked y v hy.holds).2.1
    rcases h.values y v hy with ⟨u, hu⟩ | ha
    · exact .inl ⟨u, (hunderway u v hlt).2 hu⟩
    · exact .inr (ha.extend hw.wellFormed hlt hkept hunderway)

theorem ChainInv.steady : Steady g₀ S (fun _ => .nil) (ChainInv g₀ S) := by
  intro m g g' P hw h hbuilds
  refine h.extend hw hbuilds.kept (fun _ _ => .rfl) (fun _ _ _ => .rfl) fun k hle hlt => ?_
  obtain ⟨n, hs, -⟩ := hbuilds.new k hle hlt
  exact ⟨k, .here fun t => by simp [hs]⟩

theorem Single.congr (h : Single m key v m' g) {m₁ : Memory Handle Handle}
    (hfinished : ∀ y w, m₁.Finished y w ↔ m'.Finished y w)
    (hunderway : ∀ y p, m₁.Underway y p ↔ m'.Underway y p) : Single m key v m₁ g := by
  rcases h with ha | ⟨⟨u, hu⟩, hsame⟩
  · exact .inl (ha.congr hunderway)
  · exact .inr ⟨⟨u, (hunderway u v).2 hu⟩, fun y w hy => hsame y w ((hfinished y w).1 hy)⟩

/-- An answer from the memory finishes no key. -/
theorem ChainInv.single_of_holds (h : ChainInv g₀ S m g) (hv : m.Holds y v) : Single m y v m g := by
  have hnone : ∀ z w, m.Finished z w → m.Finished z w ∨ w = v := fun z w hz => .inl hz
  rcases Memory.holds_iff.1 hv with hv | hv
  · exact (h.values y v hv).elim (fun hu => .inr ⟨hu, hnone⟩) .inl
  · exact .inr ⟨⟨y, hv⟩, hnone⟩

/-! ## When a rule ends -/

/-- When a placeholder is sent on, a chain that does not stop at it remains what it is, and a chain
that stops at it goes on as the placeholder does. -/
theorem Stops.settle (hs : Stops m g h e) (hp : m.Underway key p)
    (hdistinct : ∀ y, m.Underway y p → y = key) :
    (e ≠ p ∧ Stops (m.finish key p v) (g.redirect p v) h e) ∨
      (e = p ∧ ∀ e', Stops (m.finish key p v) (g.redirect p v) p e' →
        Stops (m.finish key p v) (g.redirect p v) h e') := by
  induction hs with
  | @held y h hy =>
      by_cases hne : h = p
      · subst hne
        exact .inr ⟨rfl, fun _ => id⟩
      · have hkey : y ≠ key := fun he => by
          subst he
          exact hne (hy.unique hp)
        exact .inl ⟨hne, .held (Memory.underway_finish_iff.2 ⟨hkey, hy⟩)⟩
  | @here h hend =>
      by_cases hne : h = p
      · subst hne
        exact .inr ⟨rfl, fun _ => id⟩
      · refine .inl ⟨hne, .here fun t ht => hend t ?_⟩
        rwa [slot?_redirect_of_ne hne] at ht
  | @step h t e hs hfree _ ih =>
      have hne : h ≠ p := fun he => hfree key (he ▸ hp)
      have hs' : (g.redirect p v).slot? h = some (.forward t) := by
        rwa [slot?_redirect_of_ne hne]
      have hfree' : ∀ y, ¬ (m.finish key p v).Underway y h := fun y hy =>
        hfree y (Memory.underway_finish_iff.1 hy).2
      rcases ih with ⟨he, hrest⟩ | ⟨he, hrest⟩
      · exact .inl ⟨he, .step hs' hfree' hrest⟩
      · exact .inr ⟨he, fun e' he' => .step hs' hfree' (hrest e' he')⟩

theorem Anchored.settle (ha : Anchored m g h) (hp : m.Underway key p)
    (hdistinct : ∀ y, m.Underway y p → y = key) :
    Anchored (m.finish key p v) (g.redirect p v) h := by
  obtain ⟨e, hs, hfree⟩ := ha
  rcases hs.settle (v := v) hp hdistinct with ⟨-, hs'⟩ | ⟨he, -⟩
  · exact ⟨e, hs', fun y hy => hfree y (Memory.underway_finish_iff.1 hy).2⟩
  · exact absurd hp (he ▸ hfree key)

/-- What has become of the placeholder and of the value when a rule ends: their chains have an end,
or the value is the placeholder of another rule, and every key finished on the way has it. -/
theorem Single.settle (hw : Working g₀ S (fun _ => .nil) m g) (hp : m.Underway key p)
    (h : Single m₀ key v m g) :
    (Anchored (m.finish key p v) (g.redirect p v) p ∧
        Anchored (m.finish key p v) (g.redirect p v) v) ∨
      p ≠ v ∧ (∃ u, (m.finish key p v).Underway u v) ∧
        ∀ y w, m.Finished y w → m₀.Finished y w ∨ w = v := by
  have hdistinct : ∀ y, m.Underway y p → y = key := fun y hy => hw.distinct y key p hy hp
  have hgone : ∀ y, ¬ (m.finish key p v).Underway y p := fun y hy => by
    obtain ⟨hne, hy⟩ := Memory.underway_finish_iff.1 hy
    exact hne (hdistinct y hy)
  have hslot := hw.slot?_placeholder (v := v) hp
  by_cases hpv : p = v
  · -- A placeholder that is its own value goes on standing for `∅`.
    rw [if_pos hpv] at hslot
    have hnil : Anchored (m.finish key p v) (g.redirect p v) .nil :=
      (Anchored.of_node hw hw.wellFormed.nil).settle hp hdistinct
    obtain ⟨e, hs, hfree⟩ := hnil
    have hself : Anchored (m.finish key p v) (g.redirect p v) p := ⟨e, .step hslot hgone hs, hfree⟩
    exact .inl ⟨hself, hpv ▸ hself⟩
  · rw [if_neg hpv] at hslot
    rcases h with ha | ⟨⟨u, hu⟩, hsame⟩
    · have hvalue : Anchored (m.finish key p v) (g.redirect p v) v := ha.settle hp hdistinct
      obtain ⟨e, hs, hfree⟩ := hvalue
      exact .inl ⟨⟨e, .step hslot hgone hs, hfree⟩, e, hs, hfree⟩
    · have hne : u ≠ key := fun he => by
        subst he
        exact hpv (hp.unique hu)
      exact .inr ⟨hpv, ⟨u, Memory.underway_finish_iff.2 ⟨hne, hu⟩⟩, hsame⟩

/-- When a rule ends, every chain still stops somewhere. -/
theorem ChainInv.settle (hfresh : m₀.progress[key]? = none)
    (hnew : ∀ y w, m₀.Finished y w → w ≠ p)
    (h : Carrying g₀ S mayStop (fun _ => .nil) (ChainInv g₀ S) key p g₁ (m₀.start key p) m g)
    (hsingle : Single (m₀.start key p) key v m g) :
    ChainInv g₀ S (m.finish key p v) (g.redirect p v) ∧
      Single m₀ key v (m.finish key p v) (g.redirect p v) := by
  have hp := h.underway
  have hw := h.working
  have hdistinct : ∀ y, m.Underway y p → y = key := fun y hy => hw.distinct y key p hy hp
  have hafter := hsingle.settle hw hp
  have hvalue : (∃ u, (m.finish key p v).Underway u v) ∨
      Anchored (m.finish key p v) (g.redirect p v) v :=
    hafter.elim (fun h => .inr h.2) fun h => .inl h.2.1
  refine ⟨⟨fun k hk => ?_, fun y w hy => ?_⟩, ?_⟩
  · obtain ⟨e, hs⟩ := h.inv.stops k ⟨by simpa using hk.1, hk.2⟩
    rcases hs.settle (v := v) hp hdistinct with ⟨-, hs'⟩ | ⟨-, hrest⟩
    · exact ⟨e, hs'⟩
    · rcases hafter with ⟨⟨e', he', -⟩, -⟩ | ⟨hpv, ⟨u, hu⟩, -⟩
      · exact ⟨e', hrest e' he'⟩
      · have hslot := hw.slot?_placeholder (v := v) hp
        rw [if_neg hpv] at hslot
        refine ⟨v, hrest v (.step hslot (fun y hy => ?_) (.held hu))⟩
        obtain ⟨hne, hy⟩ := Memory.underway_finish_iff.1 hy
        exact hne (hdistinct y hy)
  · rcases Memory.finished_finish_iff.1 hy with ⟨-, rfl⟩ | ⟨-, hfinished⟩
    · exact hvalue
    · rcases h.inv.values y w hfinished with ⟨u, hu⟩ | ha
      · by_cases hwp : w = p
        · subst hwp
          rcases hafter with ⟨ha, -⟩ | ⟨hwv, -, hsame⟩
          · exact .inr ha
          · -- The value of this key would have to be older than the placeholder, or `v`.
            rcases hsame y w hfinished with hold | hv
            · exact absurd rfl (hnew y w ((Memory.finished_start hfresh).1 hold))
            · exact absurd hv hwv
        · have hne : u ≠ key := fun he => by
            subst he
            exact hwp (hu.unique hp)
          exact .inl ⟨u, Memory.underway_finish_iff.2 ⟨hne, hu⟩⟩
      · exact .inr (ha.settle hp hdistinct)
  · rcases hafter with ⟨-, ha⟩ | ⟨-, hu, hsame⟩
    · exact .inl ha
    · refine .inr ⟨hu, fun y w hy => ?_⟩
      rcases Memory.finished_finish_iff.1 hy with ⟨-, rfl⟩ | ⟨-, hfinished⟩
      · exact .inr rfl
      · exact (hsame y w hfinished).imp_left (Memory.finished_start hfresh).1

/-! ## The whole derivative -/

/-- A derivative that is not that of a single repetition is a node. -/
theorem Derived.isNode {ans : Handle → Handle → Prop} (h : Derived c g ans key n v)
    (hg : g.WellFormed) (hn : ∀ z, n ≠ .rep z (.exactly 1)) : ∃ t, g.slot? v = some (.node t) := by
  cases h with
  | dead => exact ⟨_, hg.nil⟩
  | any => exact ⟨_, hg.empty⟩
  | once => exact absurd rfl (hn _)
  | char hv => exact ⟨_, hv⟩
  | range _ _ hv => exact ⟨_, hv⟩
  | token _ _ hv => exact ⟨_, hv⟩
  | alt _ _ hv => exact ⟨_, hv⟩
  | seq _ _ _ _ _ hv => exact ⟨_, hv⟩
  | not _ hv => exact ⟨_, hv⟩
  | star _ _ hv => exact ⟨_, hv⟩
  | unbounded _ _ hv => exact ⟨_, hv⟩
  | twice _ hv => exact ⟨_, hv⟩
  | more _ _ _ hv => exact ⟨_, hv⟩
  | reduction _ hv => exact ⟨_, hv⟩

theorem sustains_chains :
    Sustains g₀ S mayStop (fun _ => .nil) (Derivative.rule c) (ChainInv g₀ S) Single Single where
  congr m m' g hfinished hunderway h :=
    { stops := fun k hk => (h.stops k hk).imp fun _ hs => hs.congr hunderway
      values := fun y v hv => (h.values y v ((hfinished y v).1 hv)).imp
        (fun ⟨u, hu⟩ => ⟨u, (hunderway u v).2 hu⟩) fun ha => ha.congr hunderway }
  known key v m g progress h hp hv := by
    have hholds : m.Holds key v := ⟨by simp [hp], hv⟩
    exact (h.single_of_holds hholds).congr (fun y w => Memory.finished_giveAway hp)
      fun y q => Memory.underway_giveAway hp
  start key m g hkey hw h hfresh := by
    refine h.extend hw extends_alloc (fun y v => Memory.finished_start hfresh) (fun y k hk => ?_)
      fun k hle hlt => ?_
    · rw [Memory.underway_start_iff hfresh]
      refine ⟨?_, .inr⟩
      rintro (⟨-, rfl⟩ | hy)
      · exact absurd hk (Nat.lt_irrefl _)
      · exact hy
    · rw [size_alloc] at hlt
      obtain rfl : k = ⟨g.size⟩ := Handle.ext_index (by simp only; omega)
      exact ⟨_, .held Memory.underway_start⟩
  rule key p m g h := by
    refine ensures_look (fun hnone => by cases hnone) fun n hn => ?_
    obtain rfl : g₀.node key = n := h.node_eq.symm.trans (Option.some.inj hn)
    by_cases honce : ∃ z, g₀.node key = .rep z (.exactly 1)
    · obtain ⟨z, hz⟩ := honce
      rw [hz]
      show (Transform.ask z g).Ensures _ _ _ _
      rw [← Running.ask_bind_pure]
      refine h.ensures_ask (by simp [hz, Node.children]) fun r a m' g' h' _ _ hl ha hsingle => ?_
      exact ⟨h', h'.answer_mem ⟨r, hl, ha⟩, hsingle⟩
    · refine (h.ensures_derived ChainInv.steady rfl).mono fun v m' g' _ ⟨h', hv, hd⟩ => ?_
      obtain ⟨t, hs⟩ := hd.isNode h'.working.wellFormed fun z hz => honce ⟨z, hz⟩
      exact ⟨h', hv, .inl (.of_node h'.working hs)⟩
  settle key p v m m' g₁ g hfresh hnew h _ hsingle := ChainInv.settle hfresh hnew h hsingle

/-- The derivative of an expression adds nodes and forwards, and leaves no circular chain if there
was none to start with. -/
theorem Graph.Stage.derivative_chainsEnd (hS : g.Stage S mayStop)
    (hchains : ∀ h ∈ S, ∃ r, g.Leads h r) (hroot : root ∈ S)
    (hrun : g.derivative c root = some (v, g')) :
    g'.WellFormed ∧ g'.Extends g ∧ (∀ h ∈ grown g S g', ∃ r, g'.Leads h r) ∧ v ∈ grown g S g' ∧
      ∀ h : Handle, g.size ≤ h.index → h.index < g'.size →
        (∃ n, g'.slot? h = some (.node n)) ∨ ∃ t, g'.slot? h = some (.forward t) := by
  have hidle : ∀ y p, ¬ (Memory.empty : Memory Handle Handle).Underway y p := fun y p hp => by
    simp [Memory.Underway, Memory.empty] at hp
  have hinit : ChainInv g S .empty g :=
    { stops := fun h hh => (hchains h (hh.2 hh.1)).imp fun r hl => .of_leads hl hidle
      values := fun y w hy => by simp [Memory.Finished, Memory.empty] at hy }
  obtain ⟨r, m, -, hw, hinv, hv, hnone⟩ := apply_sustains (sustains_chains (c := c)) hS
    (fun _ _ => hS.nil) hinit hroot hrun
  refine ⟨hw.wellFormed, hw.kept, fun h hh => ?_, (hw.asked r v hv.holds).2, hw.new⟩
  obtain ⟨e, hs⟩ := hinv.stops h hh
  exact ⟨e, hs.leads hnone⟩

/-- The same of a graph in which every chain ends. -/
theorem Graph.derivative_chainsEnd (hg : g.WellFormed) (hchains : g.ChainsEnd)
    (hroot : root.index < g.size) (hrun : g.derivative c root = some (v, g')) :
    g'.WellFormed ∧ g'.Extends g ∧ g'.ChainsEnd ∧ v.index < g'.size ∧
      ∀ h : Handle, g.size ≤ h.index → h.index < g'.size →
        (∃ n, g'.slot? h = some (.node n)) ∨ ∃ t, g'.slot? h = some (.forward t) := by
  obtain ⟨hwell, hkept, hends, hv, hnew⟩ := hg.stage.derivative_chainsEnd hchains hroot hrun
  exact ⟨hwell, hkept, fun h hh => hends h (mem_grown_handles.2 hh), hv.1, hnew⟩

end Chains

end DerivativeParsing
