import Mathlib.Data.ENat.Lattice
import DerivativeParsing.Analysis.Height
import DerivativeParsing.Proofs.Tameness

/-!
# Evaluations that take one pass

If a rule only asks for keys below its own, no key is ever asked for while its rule is running.  No
provisional value is given away then, so that the first pass is the last one, and a property that
the rules pass on from answers to values holds of all values (`Descends.visit_answers`).

The nodes of an expression from which no cycle can be reached are such keys
(`Graph.Tame.evaluates`).  Hence nullability is decided in one pass
(`Graph.Workable.nullable_of_tame`), and heights are what one expects them to be
(`Graph.Tame.height_eq`).
-/

set_option autoImplicit false

namespace DerivativeParsing

/-! ## Rules that ask for keys below their own -/

namespace Fixpoint

variable {κ ν α : Type} [Ord κ]

/-- No provisional value has been given away. -/
structure Memory.Quiet (m : Memory κ ν) : Prop where
  fresh : m.stale = false
  kept : ∀ k, m.wasGivenAway k = false

/-- The rules that are running are above the key that is asked for, nothing has been given away, and
the finished keys have a property. -/
def descending (K : κ → Prop) (E : κ → κ → Prop) (P : κ → ν → Prop) : Contract Unit κ ν where
  asks key m _ := K key ∧ (∀ k v, m.Underway k v → E k key) ∧ m.Quiet ∧
    ∀ k v, m.Finished k v → P k v
  answers key _ _ v m' _ := m'.Finished key v ∧ m'.Quiet ∧ ∀ k v, m'.Finished k v → P k v

/-- Every rule asks for keys below its own, and passes a property on from its answers to its value.
-/
structure Descends (rules : Rules Unit κ ν) (K : κ → Prop) (E : κ → κ → Prop) (P : κ → ν → Prop) :
    Prop where
  irrefl : ∀ k, K k → ¬ E k k
  trans : ∀ k k' k'', E k k' → E k' k'' → E k k''
  asks : ∀ k, K k → (rules.rule k ()).AsksOnly fun k' => K k' ∧ E k k'
  rule : ∀ k v, K k → (rules.rule k ()).Yields P v → P k v

variable [Std.TransOrd κ] [Std.LawfulEqOrd κ] {rules : Rules Unit κ ν} {K : κ → Prop}
  {E : κ → κ → Prop} {P : κ → ν → Prop} {m : Memory κ ν} {key : κ} {p v : ν}

omit [Std.LawfulEqOrd κ] in
theorem Memory.quiet_empty : (Memory.empty : Memory κ ν).Quiet where
  fresh := rfl
  kept k := by simp [Memory.wasGivenAway, Memory.empty]

theorem Memory.Quiet.start (hm : m.Quiet) : (m.start key p).Quiet where
  fresh := hm.fresh
  kept k := by
    rcases eq_or_ne k key with rfl | hne
    · simp [wasGivenAway, Memory.start]
    · rw [wasGivenAway, progress_start_of_ne hne]
      exact hm.kept k

theorem Memory.Quiet.finish [BEq ν] (hm : m.Quiet) : (m.finish key p v).Quiet where
  fresh := by simp [Memory.finish, hm.fresh, hm.kept key]
  kept k := by
    rcases eq_or_ne k key with rfl | hne
    · simp [wasGivenAway, finished_finish.1]
    · rw [wasGivenAway, progress_finish_of_ne hne]
      exact hm.kept k

/-- Questions are about the keys of a finite set. -/
def confined (keys : Finset κ) : Contract Unit κ ν where
  asks key _ _ := key ∈ keys
  answers _ _ _ _ _ _ := True

omit [Std.TransOrd κ] [Std.LawfulEqOrd κ] in
theorem Plan.ensures_confined {keys : Finset κ} {plan : Plan Unit κ ν α}
    (hasks : plan.AsksOnly (· ∈ keys)) :
    plan.Ensures (confined keys) False (fun _ _ _ => True) m := by
  induction plan generalizing m with
  | done a s => trivial
  | ask key s resume ih => exact ⟨hasks.1, fun v _ s₁ _ _ _ => ih v s₁ (hasks.2 v s₁)⟩
  | stuck => exact hasks

/-- One pass has a result if the rules of finitely many keys ask for these keys only. -/
theorem visit_total [BEq ν] {keys : Finset κ}
    (htotal : ∀ k ∈ keys, (rules.rule k ()).AsksOnly (· ∈ keys)) (hkey : key ∈ keys) {depth : Nat}
    (hdepth : keys.card < depth) : ∃ v m, visit rules depth key .empty () = some (v, m, ()) := by
  have hkept : (confined keys).Kept rules False (fun _ => True) fun _ => True :=
    { remembered := fun _ _ _ _ _ _ _ _ => trivial
      carried := fun key m s p s₀ hasks _ _ =>
        (Plan.ensures_confined (htotal key hasks)).mono fun _ _ _ _ _ _ _ => ⟨trivial, trivial⟩ }
  obtain ⟨v, m, ⟨⟩, hvisit⟩ := visit_answers (m := .empty) hkept (fun _ _ _ => id) hkey
    (fun _ _ => trivial) (fun k hk => by simp [Memory.empty] at hk)
    (lt_of_le_of_lt (Finset.card_filter_le _ _) hdepth)
  exact ⟨v, m, hvisit⟩

theorem Plan.ensures_descending {plan : Plan Unit κ ν α} (hm : m.Quiet)
    (hasks : plan.AsksOnly fun k' => K k' ∧ ∀ k v, m.Underway k v → E k k')
    (hP : ∀ k v, m.Finished k v → P k v) :
    plan.Ensures (descending K E P) False
      (fun a m' _ => m'.Quiet ∧ (∀ k v, m'.Finished k v → P k v) ∧ plan.Yields P a) m := by
  induction plan generalizing m with
  | done a s => exact ⟨hm, hP, rfl⟩
  | ask key s resume ih =>
      refine ⟨⟨hasks.1.1, hasks.1.2, hm, hP⟩, fun v m₁ s₁ hframe _ ⟨hv, hm₁, hP₁⟩ => ?_⟩
      refine (ih v s₁ hm₁ ?_ hP₁).mono fun a m₂ _ _ ⟨hm₂, hP₂, hyields⟩ =>
        ⟨hm₂, hP₂, v, hP₁ key v hv, hyields⟩
      simp only [hframe.underway_iff]
      exact hasks.2 v s₁
  | stuck => exact hasks

namespace Descends

variable [BEq ν]

theorem kept (hrules : Descends rules K E P) :
    (descending K E P).Kept rules False (fun _ => True) fun _ => True where
  remembered key m s v progress hasks hp hv := by
    obtain ⟨hkey, hunderway, hm, hP⟩ := hasks
    cases progress with
    | finished => exact ⟨⟨hp, hv⟩, hm, hP⟩
    | underway b =>
        -- What is running is above the key that is asked for, and so it is another one.
        exact absurd (hunderway key v ⟨⟨b, hp⟩, hv⟩) (hrules.irrefl key hkey)
  carried key m s p s₀ hasks hfresh _ := by
    obtain ⟨hkey, hunderway, hm, hP⟩ := hasks
    refine (Plan.ensures_descending (m := m.start key p) hm.start ?_ fun k v hk =>
      hP k v hk.of_start).mono ?_
    · refine (hrules.asks key hkey).mono fun k' hk' => ⟨hk'.1, fun k v hk => ?_⟩
      rcases hk.of_start with ⟨rfl, -⟩ | hk
      · exact hk'.2
      · exact hrules.trans k key k' (hunderway k v hk) hk'.2
    · rintro v m₁ _ - ⟨hm₁, hP₁, hyields⟩ - -
      refine ⟨trivial, Memory.finished_finish, hm₁.finish, fun k w hk => ?_⟩
      rcases hk.of_finish with ⟨rfl, rfl⟩ | ⟨-, hk⟩
      · exact hrules.rule k w hkey hyields
      · exact hP₁ k w hk

/-- One pass has a result, gives nothing away, and the result has the property. -/
theorem visit_answers (hrules : Descends rules K E P) (keys : Finset κ) (hkeys : ∀ k, K k → k ∈ keys)
    (hkey : K key) {depth : Nat} (hdepth : keys.card < depth) :
    ∃ v m, visit rules depth key .empty () = some (v, m, ()) ∧ m.stale = false ∧ P key v := by
  have hasks : (descending K E P).asks key .empty () :=
    ⟨hkey, fun k v hk => by simp [Memory.Underway, Memory.empty] at hk, Memory.quiet_empty,
      fun k v hk => by simp [Memory.Finished, Memory.empty] at hk⟩
  obtain ⟨v, m, s, hvisit⟩ := Fixpoint.visit_answers hrules.kept
    (fun k m s hasks => hkeys k hasks.1) hasks (fun _ _ => trivial)
    (fun k hk => by simp [Memory.empty] at hk)
    (lt_of_le_of_lt (Finset.card_filter_le _ _) hdepth)
  obtain ⟨hfinished, hm, hP⟩ := (visit_ensures hrules.kept hasks fun _ _ => trivial).2 v m s hvisit
  exact ⟨v, m, hvisit, hm.fresh, hP key v hfinished⟩

end Descends

end Fixpoint

open Fixpoint

/-! ## Analyses of expressions from which no cycle can be reached -/

namespace Graph

variable {ν : Type} [BEq ν] {P : Handle → ν → Prop} {g : Graph} {h r : Handle}

/-- An analysis whose rules ask for the operands of nodes has a result after one pass. -/
theorem Tame.evaluates (table : Table ν) (htame : g.Tame h) (hg : g.WellFormed)
    (hready : g.Ready h) (hl : g.Leads h r)
    (hasks : ∀ k n, g.Reaches h k → g.slot? k = some (.node n) →
      (table.rule g k ()).AsksOnly fun k' => ∃ c ∈ n.children, g.Leads c k')
    (hrule : ∀ k n v, g.Reaches h k → g.slot? k = some (.node n) →
      (table.rule g k ()).Yields P v → P k v) :
    ∃ v, table.evaluateOnce g h = some v ∧ (∀ fuel, 0 < fuel → table.evaluate fuel g h = some v) ∧
      P r v := by
  have hend {k r : Handle} (hk : g.Reaches h k) (hl : g.Leads k r) :
      g.Reaches h r ∧ ∃ n, g.slot? r = some (.node n) := by
    obtain ⟨r', n, hl', hs⟩ := hready k hk
    obtain rfl := hl.unique hl'
    exact ⟨hk.trans hl.reaches, n, hs⟩
  -- A node is below another one if it can be reached from there in at least one step.
  have hdescends : Descends (table.rules g)
      (fun k => g.Reaches h k ∧ ∃ n, g.slot? k = some (.node n)) g.LeadsTo P :=
    { irrefl := fun k hk => htame k hk.1
      trans := fun _ _ _ => .trans
      asks := fun k ⟨hk, n, hs⟩ => (hasks k n hk hs).mono fun k' ⟨c, hc, hl⟩ => by
        have hkc : c ∈ g.references k := by rwa [references_of_node hs]
        exact ⟨hend (hk.tail hkc) hl, .head' hkc hl.reaches⟩
      rule := fun k v ⟨hk, n, hs⟩ => hrule k n v hk hs }
  obtain ⟨hreach, n, hs⟩ := hend .refl hl
  have hhlt : h.index < g.size := by
    cases hl with
    | here => exact slot?_lt hs
    | step hforward => exact slot?_lt hforward
  obtain ⟨v, m, hvisit, hfresh, hv⟩ := hdescends.visit_answers (g.region h)
    (fun k hk => (hg.mem_region hhlt).2 hk.1) ⟨hreach, n, hs⟩
    (Nat.lt_succ_of_le (g.card_region_le h))
  refine ⟨v, ?_, fun fuel hfuel => ?_, hv⟩
  · simp [Table.evaluateOnce, resolve_eq_some.2 hl, runOnce, hvisit]
  · obtain ⟨fuel, rfl⟩ := Nat.exists_eq_succ_of_ne_zero hfuel.ne'
    rw [Table.evaluate_eq_some hl, run, iterate]
    rw [show (Memory.empty : Memory Handle ν).nextPass = .empty from rfl, hvisit]
    simp [hfresh]

end Graph

/-! ## Nullability and heights -/

/-- The operands of the nodes that can be reached are ready. -/
theorem Graph.Ready.operand_leads {g : Graph} {h k c : Handle} {n : Node} (hready : g.Ready h)
    (hk : g.Reaches h k) (hs : g.slot? k = some (.node n)) (hc : c ∈ n.children) :
    g.Leads c (g.endOf c) := by
  obtain ⟨m, hl, -⟩ := (hready.reaches hk).leads_endOf (.single (by rwa [references_of_node hs]))
  exact hl

/-- Whether an expression is nullable is found in one pass, if no cycle can be reached from it. -/
theorem Graph.Workable.nullable_of_tame {g : Graph} {h : Handle} (hh : g.Workable h)
    (htame : g.Tame h) {fuel : Nat} (hfuel : 0 < fuel) :
    ∃ b, g.nullable fuel h = some b ∧ (b = true ↔ [] ∈ g.language h) := by
  obtain ⟨r, n, hl, -⟩ := hh.ready h .refl
  have hasks : ∀ k n, g.Reaches h k → g.slot? k = some (.node n) →
      (Nullable.table.rule g k ()).AsksOnly fun k' => ∃ c ∈ n.children, g.Leads c k' := by
    intro k n hk hs
    show (Nullable.ofNode g (g.node k) ()).AsksOnly _
    rw [node_eq hs]
    refine Nullable.ofNode_asksOnly fun c hc => ?_
    have hl := hh.ready.operand_leads hk hs hc
    exact ⟨hl, c, hc, hl⟩
  obtain ⟨b, -, hb, -⟩ := htame.evaluates Nullable.table (P := fun _ _ => True) hh.wellFormed
    hh.ready hl hasks fun _ _ _ _ _ _ => trivial
  exact ⟨b, hb fuel hfuel, hh.nullable_iff (hb fuel hfuel)⟩

/-- The height of a node is one more than that of its highest operand. -/
noncomputable def heightMeaning : Meaning ℕ∞ where
  node n V := ⨆ c ∈ n.children, V c + 1
  mono _ _ _ hVW := iSup₂_mono fun c hc => by gcongr; exact hVW c hc

/-- The height of an expression, which is infinite for expressions that contain themselves. -/
noncomputable def Graph.tallness (g : Graph) : Handle → ℕ∞ := heightMeaning.value g

namespace Height

variable {g : Graph} {cs : List Handle} {acc v : Nat}

theorem rule_of_slot {k : Handle} {n : Node} (hs : g.slot? k = some (.node n)) :
    table.rule g k = above g 0 n.children := by
  show above g 0 (g.node k).children = _
  rw [Graph.node_eq hs]

theorem above_asksOnly (hcs : ∀ c ∈ cs, g.Leads c (g.endOf c)) :
    (above g acc cs ()).AsksOnly fun k => ∃ c ∈ cs, g.Leads c k := by
  induction cs generalizing acc with
  | nil => trivial
  | cons c cs ih =>
      have hc : g.Leads c (g.endOf c) := hcs c (by simp)
      refine Reading.asksOnly_bind_ask hc ⟨c, by simp, hc⟩ fun v => ?_
      refine (ih fun c hc => hcs c (by simp [hc])).mono ?_
      rintro k ⟨c', hc', hl⟩
      exact ⟨c', by simp [hc'], hl⟩

/-- From the heights of operands, the rule computes the height above them. -/
theorem of_above_yields
    (h : (above g acc cs ()).Yields (fun k (w : Nat) => (w : ℕ∞) = g.tallness k) v) :
    (v : ℕ∞) = ↑acc ⊔ ⨆ c ∈ cs, (g.tallness c + 1 : ℕ∞) := by
  induction cs generalizing acc with
  | nil =>
      obtain rfl : acc = v := h
      simp
  | cons c cs ih =>
      obtain ⟨r, w, hl, hw, hrest⟩ := Reading.yields_bind_ask.1 h
      have hc : g.tallness c = ↑w := (heightMeaning.value_leads hl).trans hw.symm
      rw [ih hrest]
      simp only [List.mem_cons, iSup_or, iSup_sup_eq, iSup_iSup_eq_left, hc, ← sup_assoc]
      norm_cast

end Height

/-- The height of an expression is found, also if the expression contains itself. -/
theorem Graph.Ready.exists_height {g : Graph} {h : Handle} (hready : g.Ready h) (hg : g.WellFormed) :
    ∃ n, g.height h = some n := by
  obtain ⟨r, n, hl, -⟩ := hready h .refl
  have hmem (k : Handle) : k ∈ g.region h ↔ g.Reaches h k := hg.mem_region hready.lt
  have htotal : ∀ k ∈ g.region h,
      ((Height.table.rules g).rule k ()).AsksOnly (· ∈ g.region h) := fun k hk => by
    have hk := (hmem k).1 hk
    have hleads : ∀ c ∈ (g.node k).children, g.Reaches k c ∧ g.Leads c (g.endOf c) := fun c hc => by
      have hs : g.slot? k = some (.node (g.node k)) :=
        slot?_of_node_eq rfl fun he => by rw [he] at hc; cases hc
      exact ⟨.single (by rwa [references_of_node hs]), hready.operand_leads hk hs hc⟩
    show (Height.above g 0 (g.node k).children ()).AsksOnly _
    refine (Height.above_asksOnly fun c hc => (hleads c hc).2).mono ?_
    rintro k' ⟨c, hc, hl⟩
    exact (hmem k').2 (hk.trans ((hleads c hc).1.trans hl.reaches))
  obtain ⟨v, m, hvisit⟩ := visit_total htotal ((hmem r).2 hl.reaches)
    (Nat.lt_succ_of_le (g.card_region_le h))
  exact ⟨v, by simp [height, Table.evaluateOnce, resolve_eq_some.2 hl, runOnce, hvisit]⟩

/-- The height of an expression from which no cycle can be reached. -/
theorem Graph.Tame.height_eq {g : Graph} {h : Handle} (htame : g.Tame h) (hg : g.WellFormed)
    (hready : g.Ready h) : ∃ n, g.height h = some n ∧ (n : ℕ∞) = g.tallness h := by
  obtain ⟨r, n, hl, -⟩ := hready h .refl
  obtain ⟨v, hv, -, htall⟩ := htame.evaluates Height.table
    (P := fun k (w : Nat) => (w : ℕ∞) = g.tallness k) hg hready hl
    (fun k n hk hs => by
      rw [Height.rule_of_slot hs]
      exact Height.above_asksOnly fun c hc => hready.operand_leads hk hs hc)
    fun k n v _ hs hv => by
      rw [Height.rule_of_slot hs] at hv
      rw [Height.of_above_yields hv, tallness, heightMeaning.value_node hs]
      simp [heightMeaning]
  exact ⟨v, hv, htall.trans (heightMeaning.value_leads hl).symm⟩

end DerivativeParsing
