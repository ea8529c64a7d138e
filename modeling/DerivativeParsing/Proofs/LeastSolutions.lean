import Mathlib.Data.DFinsupp.WellFounded
import Mathlib.Data.Finset.Pi
import Mathlib.Data.Fintype.Order
import Mathlib.Order.CompletePartialOrder
import DerivativeParsing.Proofs.Nullability

/-!
# Least solutions of monotone rules

The rules of an analysis state one equation for each key: the value of the key is what its rule
makes of the values of all keys (`Rules.Solves`).  Rules are *monotone* on a finite set of keys if
larger values make them compute no less, whatever they ask for and in whichever order
(`Rules.MonotoneOn`).  If values can rise only finitely often, such equations have a least solution
(`MonotoneOn.exists_least`), and the evaluator finds it (`run_least`):

* the remembered values never exceed a solution, and every rule makes at least as much of them as
  is remembered (`Rules.Supports`);
* a pass that is stale has raised a value, so there are finitely many of them;
* after a pass that is not stale the values solve the equations of all keys that were asked for.
-/

set_option autoImplicit false
set_option linter.unusedSectionVars false

namespace DerivativeParsing

open Fixpoint

namespace Fixpoint

variable {κ ν α : Type}

/-! ## What a plan makes of a function -/

/-- What a plan comes to when its questions are answered by a function of the keys. -/
def Plan.Makes (f : κ → ν) (plan : Plan Unit κ ν α) (a : α) : Prop :=
  plan.Yields (fun k v => f k = v) a

theorem Plan.Makes.unique {f : κ → ν} {plan : Plan Unit κ ν α} {a a' : α} (h : plan.Makes f a)
    (h' : plan.Makes f a') : a = a' := by
  induction plan with
  | done b s => exact h.symm.trans h'
  | ask key s resume ih =>
      obtain ⟨v, rfl, h⟩ := h
      obtain ⟨v', rfl, h'⟩ := h'
      exact ih (f key) () h h'
  | stuck => exact h.elim

theorem Plan.AsksWithin.exists_makes {K : κ → Prop} {f : κ → ν} {plan : Plan Unit κ ν α}
    (h : plan.AsksWithin K f) : ∃ a, plan.Makes f a := by
  induction plan with
  | done a s => exact ⟨a, rfl⟩
  | ask key s resume ih =>
      obtain ⟨a, ha⟩ := ih (f key) () h.2
      exact ⟨a, f key, rfl, ha⟩
  | stuck => exact h.elim

/-! ## Monotone rules and their equations -/

section Equations

variable [PartialOrder ν]

/-- The rules start from the least value.  With any answers that depend on the keys alone they are
never stuck, ask for keys of a finite set only, and from larger answers they compute no less. -/
structure Rules.MonotoneOn [OrderBot ν] (rules : Rules Unit κ ν) (keys : Finset κ) : Prop where
  bottom : ∀ k ∈ keys, rules.bottom k () = (⊥, ())
  asks : ∀ k ∈ keys, ∀ f, (rules.rule k ()).AsksWithin (· ∈ keys) f
  mono : ∀ k ∈ keys, ∀ f f' : κ → ν, (∀ k, f k ≤ f' k) → ∀ v v',
    (rules.rule k ()).Makes f v → (rules.rule k ()).Makes f' v' → v ≤ v'

/-- Every value is what the rule of its key makes of the values. -/
def Rules.Solves (rules : Rules Unit κ ν) (keys : Finset κ) (f : κ → ν) : Prop :=
  ∀ k ∈ keys, (rules.rule k ()).Makes f (f k)

/-- Every value is at least what the rule of its key makes of the values. -/
def Rules.Bounds (rules : Rules Unit κ ν) (keys : Finset κ) (f : κ → ν) : Prop :=
  ∀ k ∈ keys, ∀ v, (rules.rule k ()).Makes f v → v ≤ f k

/-- The value `v` is at most what the rule of `k` makes of the values `f`, and no bound is below
it. -/
def Rules.Supports (rules : Rules Unit κ ν) (keys : Finset κ) (f : κ → ν) (k : κ) (v : ν) : Prop :=
  (k ∈ keys → ∀ w, (rules.rule k ()).Makes f w → v ≤ w) ∧ ∀ g, rules.Bounds keys g → v ≤ g k

theorem Rules.Solves.bounds {rules : Rules Unit κ ν} {keys : Finset κ} {f : κ → ν}
    (h : rules.Solves keys f) : rules.Bounds keys f :=
  fun k hk _ hv => (hv.unique (h k hk)).le

/-- One of finitely many values is raised, and no other one gets less. -/
def Raises (keys : Finset κ) (f f' : κ → ν) : Prop := keys.restrict f < keys.restrict f'

theorem Raises.of_le {keys : Finset κ} {f f' : κ → ν} (hle : ∀ k, f k ≤ f' k) {k : κ}
    (hk : k ∈ keys) (hne : f k ≠ f' k) : Raises keys f f' :=
  lt_of_le_of_ne (fun i => hle i) fun he => hne (congrFun he ⟨k, hk⟩)

/-- If single values can rise only finitely often, so can finitely many together. -/
theorem wellFounded_raises [WellFoundedGT ν] (keys : Finset κ) :
    WellFounded fun f f' : κ → ν => Raises keys f' f := by
  have hwf : WellFounded fun f f' : keys → νᵒᵈ => f < f' := wellFounded_lt
  exact InvImage.wf (fun (f : κ → ν) (i : keys) => OrderDual.toDual (f i)) hwf

namespace Rules.MonotoneOn

variable [OrderBot ν] {rules : Rules Unit κ ν} {keys : Finset κ} {f f' : κ → ν} {k : κ} {v : ν}

theorem supports_bot (rules : Rules Unit κ ν) (keys : Finset κ) (f : κ → ν) (k : κ) :
    rules.Supports keys f k ⊥ :=
  ⟨fun _ _ _ => bot_le, fun _ _ => bot_le⟩

/-- A value that is supported stays so when values rise. -/
theorem supports_mono (h : rules.MonotoneOn keys) (hf : ∀ k, f k ≤ f' k)
    (hv : rules.Supports keys f k v) : rules.Supports keys f' k v := by
  refine ⟨fun hk w' hw' => ?_, hv.2⟩
  obtain ⟨w, hw⟩ := (h.asks k hk f).exists_makes
  calc v ≤ w := hv.1 hk w hw
    _ ≤ w' := h.mono k hk f f' hf w w' hw hw'

/-- What a rule makes of supported values is supported. -/
theorem supports_made (h : rules.MonotoneOn keys) (hk : k ∈ keys)
    (hf : ∀ k, rules.Supports keys f k (f k)) (hv : (rules.rule k ()).Makes f v) :
    rules.Supports keys f k v := by
  refine ⟨fun _ w hw => (hv.unique hw).le, fun g hg => ?_⟩
  obtain ⟨w, hw⟩ := (h.asks k hk g).exists_makes
  calc v ≤ w := h.mono k hk f g (fun k => (hf k).2 g hg) v w hv hw
    _ ≤ g k := hg k hk w hw

/-- Monotone equations have a least solution, which is the least bound as well. -/
theorem exists_least [WellFoundedGT ν] (h : rules.MonotoneOn keys) :
    ∃ μ, rules.Solves keys μ ∧ ∀ g, rules.Bounds keys g → ∀ k, μ k ≤ g k := by
  classical
  obtain ⟨μ, hμ, hmax⟩ := (wellFounded_raises keys).has_min {f | ∀ k, rules.Supports keys f k (f k)}
    ⟨fun _ => ⊥, fun k => supports_bot rules keys _ k⟩
  refine ⟨μ, fun k hk => ?_, fun g hg k => (hμ k).2 g hg⟩
  obtain ⟨v, hv⟩ := (h.asks k hk μ).exists_makes
  -- If the rule of `k` made more of the values, raising this one would keep them supported.
  by_contra hne
  have hlt : μ k < v := lt_of_le_of_ne ((hμ k).1 hk v hv) fun he => hne (he ▸ hv)
  have hle : ∀ k', μ k' ≤ Function.update μ k v k' := fun k' => by
    rcases eq_or_ne k' k with rfl | hk'
    · simpa using hlt.le
    · simp [hk']
  refine hmax (Function.update μ k v) (fun k' => ?_)
    (.of_le hle hk (by simpa using hlt.ne))
  rcases eq_or_ne k' k with rfl | hk'
  · rw [Function.update_self]
    exact h.supports_mono hle (h.supports_made hk hμ hv)
  · rw [Function.update_of_ne hk']
    exact h.supports_mono hle (hμ k')

end Rules.MonotoneOn

end Equations

/-! ## Evaluating monotone rules -/

section Evaluation

variable [PartialOrder ν] [OrderBot ν] [Ord κ] [Std.TransOrd κ] [Std.LawfulEqOrd κ] [BEq ν]
  [LawfulBEq ν] {rules : Rules Unit κ ν} {keys : Finset κ} {depth : Nat} {key : κ}
  {m m' : Memory κ ν} {v : ν} {μ : κ → ν}

theorem ordered_le : Ordered (fun v w : ν => v ≤ w) ⊥ :=
  ⟨le_refl, fun _ _ _ => le_trans, fun _ _ => le_antisymm, fun _ => bot_le⟩

namespace Rules.MonotoneOn

/-- Every question raises values and keeps them supported. -/
theorem kept (h : rules.MonotoneOn keys) :
    (ascending (fun v w => v ≤ w) ⊥ (rules.Supports keys) keys).Kept rules False (fun _ => True)
      (fun _ => True) where
  remembered _ _ _ _ progress hasks _ _ := ascending_giveAway ordered_le hasks progress
  carried key m s p s₀ hasks hfresh hstart := by
    obtain ⟨hkey, hm⟩ := hasks
    obtain rfl : m.value ⊥ key = p :=
      congrArg Prod.fst ((provisional_eq (h.bottom key hkey)).symm.trans hstart)
    have hplan := Plan.ensures_ascending ordered_le (fun f _ _ => h.asks key hkey f) (hm.start key)
    refine hplan.yields.mono ?_
    rintro v m₁ _ _ ⟨⟨hm₁, hraised⟩, hyields⟩ hframe -
    -- A key that is asked for twice gets one answer, so all answers are in the memory.
    have hmade : (rules.rule key ()).Makes (m₁.value ⊥) v :=
      hyields.mono fun _ _ => Memory.value_of_holds
    have hle : ∀ k, m.value ⊥ k ≤ m₁.value ⊥ k := by
      simpa only [Memory.value_start] using hraised.atLeast
    have hpv : m.value ⊥ key ≤ v := (h.supports_mono hle (hm key)).1 hkey v hmade
    exact ⟨trivial, ascending_finish ordered_le (fun _ _ _ _ => h.supports_mono) hkey hframe hm₁
      hraised hpv (h.supports_made hkey hm₁ hmade)⟩

/-- After a pass that is not stale the value of the key is the one in the least solution. -/
theorem eq_of_visit (h : rules.MonotoneOn keys) (hμ : rules.Solves keys μ)
    (hleast : ∀ g, rules.Bounds keys g → ∀ k, μ k ≤ g k)
    (hvisit : visit rules depth key m.nextPass () = some (v, m', ())) (hstale : m'.stale = false)
    (hm' : m'.Supported ⊥ (rules.Supports keys)) : v = μ key := by
  classical
  obtain ⟨hv, htraced⟩ := visit_traced hvisit hstale
  have hbelow : ∀ k, m'.value ⊥ k ≤ μ k := fun k => (hm' k).2 μ hμ.bounds
  have hvalue {k : κ} {w : ν} (hw : m'.Finished k w) : m'.value ⊥ k = w :=
    Memory.value_of_holds (Memory.holds_iff.2 (.inl hw))
  -- Beside the values of the pass, the other keys get those of the least solution.
  let g : κ → ν := fun k => if ∃ w, m'.Finished k w then m'.value ⊥ k else μ k
  have hg {k : κ} {w : ν} (hw : m'.Finished k w) : g k = w := by
    have hfinished : ∃ w, m'.Finished k w := ⟨w, hw⟩
    simp only [g, if_pos hfinished, hvalue hw]
  have hgμ : ∀ k, g k ≤ μ k := fun k => by
    by_cases hk : ∃ w, m'.Finished k w
    · simpa only [g, if_pos hk] using hbelow k
    · simp only [g, if_neg hk, le_refl]
  have hbounds : rules.Bounds keys g := by
    intro k hk u hu
    by_cases hfinished : ∃ w, m'.Finished k w
    · obtain ⟨w, hw⟩ := hfinished
      have hmade : (rules.rule k ()).Makes g w := (htraced k w hw).mono fun _ _ => hg
      rw [hu.unique hmade, hg hw]
    · have hk' : g k = μ k := by simp only [g, if_neg hfinished]
      rw [hk']
      exact h.mono k hk g μ hgμ u (μ k) hu (hμ k hk)
  refine le_antisymm ?_ ?_
  · rw [← hvalue hv]
    exact hbelow key
  · calc μ key ≤ g key := hleast g hbounds key
      _ = v := hg hv

/-- Passes from supported values come to an end, with the value in the least solution. -/
theorem iterate_eq [WellFoundedGT ν] (h : rules.MonotoneOn keys) (hμ : rules.Solves keys μ)
    (hleast : ∀ g, rules.Bounds keys g → ∀ k, μ k ≤ g k) (hkey : key ∈ keys)
    (hdepth : keys.card < depth) (hm : m.Supported ⊥ (rules.Supports keys)) :
    ∃ n, ∀ passes ≥ n, iterate rules depth key passes m () = some (μ key, ()) := by
  induction m using (InvImage.wf (Memory.value ⊥) (wellFounded_raises (ν := ν) keys)).induction with
  | h m ih =>
    obtain ⟨v, m', hvisit, hm', hraised, hrises⟩ :=
      ascending_pass h.kept hkey hdepth hm fun _ _ => trivial
    rcases hstale : m'.stale with _ | _
    · refine ⟨1, fun passes hpasses => ?_⟩
      obtain ⟨passes, rfl⟩ := Nat.exists_eq_add_of_le' hpasses
      rw [iterate, hvisit]
      simp only [hstale, Bool.false_eq_true, if_false]
      rw [h.eq_of_visit hμ hleast hvisit hstale hm']
    · obtain ⟨k, hk, hne⟩ := hrises hstale
      obtain ⟨n, hn⟩ := ih m' (.of_le hraised hk hne) hm'
      refine ⟨n + 1, fun passes hpasses => ?_⟩
      obtain ⟨passes, rfl⟩ := Nat.exists_eq_add_of_le' (Nat.le_of_add_left_le hpasses)
      rw [iterate, hvisit]
      simp only [hstale, if_true]
      exact hn passes (by omega)

end Rules.MonotoneOn

/-- Monotone rules on finitely many keys have a least solution, if values can rise only finitely
often, and a run that is given enough depth and enough passes returns its value of the key. -/
theorem run_least [WellFoundedGT ν] (h : rules.MonotoneOn keys) (hkey : key ∈ keys) :
    ∃ μ, IsLeast {f | rules.Solves keys f} μ ∧
      ∀ depth > keys.card, ∃ n, ∀ passes ≥ n,
        run rules depth passes key () = some (μ key, ()) := by
  obtain ⟨μ, hμ, hleast⟩ := h.exists_least
  refine ⟨μ, ⟨hμ, fun f hf k => hleast f (Rules.Solves.bounds hf) k⟩, fun depth hdepth => ?_⟩
  refine h.iterate_eq hμ hleast hkey hdepth fun k => ?_
  simpa [Memory.value, Memory.empty] using Rules.MonotoneOn.supports_bot rules keys _ k

end Evaluation

end Fixpoint

/-! ## Nullability without complements -/

namespace Nullable

variable {g : Graph} {keys : Finset Handle}

/-- Nullability is monotone on a set of nodes that has their operands and no complement. -/
theorem monotoneOn (hnot : ∀ k ∈ keys, ∀ p, g.node k ≠ .not p)
    (hclosed : ∀ k ∈ keys, ∀ c ∈ (g.node k).children, ∃ r ∈ keys, g.resolve c = some r) :
    (table.rules g).MonotoneOn keys where
  bottom _ _ := rfl
  asks k hk f := by
    have hasks : (ofNode g (g.node k) ()).AsksOnly (· ∈ keys) := by
      refine ofNode_asksOnly fun c hc => ?_
      obtain ⟨r, hr, hresolve⟩ := hclosed k hk c hc
      have hl := Graph.resolve_eq_some.1 hresolve
      rw [hl.endOf]
      exact ⟨hl, hr⟩
    exact hasks.within f
  mono k hk f f' hf v v' hv hv' := by
    have hle : ∀ k, AtMost false (f k) (f' k) := fun k =>
      atMost_false.2 (Bool.le_iff_imp.1 (hf k))
    have hfrom : AtMost false v ((g.node k).nullable fun c => f' (g.endOf c)) :=
      ge_of_yields (hnot k hk) (hv.mono fun k w hw => hw ▸ hle k)
    have hto : AtMost false ((g.node k).nullable fun c => f' (g.endOf c)) v' :=
      le_of_yields (hnot k hk) (hv'.mono fun k w hw => hw ▸ .refl false (f' k))
    exact Bool.le_iff_imp.2 (atMost_false.1 (hfrom.trans hto))

end Nullable

namespace Entwined

/-- The rules `x = x x | y` and `y = x | ε`. -/
def graph : Graph :=
  ⟨#[.node .nil, .node .empty, .node .any, .forward ⟨6⟩, .forward ⟨7⟩, .node (.seq ⟨3⟩ ⟨3⟩),
    .node (.alt ⟨5⟩ ⟨4⟩), .node (.alt ⟨3⟩ ⟨1⟩)]⟩

/-- The nodes of the two rules. -/
def keys : Finset Handle := {⟨1⟩, ⟨5⟩, ⟨6⟩, ⟨7⟩}

theorem monotoneOn_keys : (Nullable.table.rules graph).MonotoneOn keys := by
  refine Nullable.monotoneOn (fun k hk p => ?_) (by decide)
  simp only [keys, Finset.mem_insert, Finset.mem_singleton] at hk
  rcases hk with rfl | rfl | rfl | rfl <;> exact Node.noConfusion

/-- The first pass gives away that `x` is not nullable, and the second one finds the least
solution. -/
theorem run_least_entwined :
    (Nullable.table.rules graph).MonotoneOn keys ∧ (⟨6⟩ : Handle) ∈ keys ∧
      (∃ μ, IsLeast {f | (Nullable.table.rules graph).Solves keys f} μ ∧
        ∀ depth > keys.card, ∃ n, ∀ passes ≥ n,
          run (Nullable.table.rules graph) depth passes ⟨6⟩ () = some (μ ⟨6⟩, ())) ∧
      run (Nullable.table.rules graph) 5 1 ⟨6⟩ () = none ∧
      run (Nullable.table.rules graph) 5 2 ⟨6⟩ () = some (true, ()) :=
  ⟨monotoneOn_keys, by decide, run_least monotoneOn_keys (by decide), rfl, rfl⟩

end Entwined

end DerivativeParsing
