import DerivativeParsing.Analysis.Reading

/-!
# Plans that give up later

An evaluation is given limits: how deep questions may nest, how many passes there may be, and how
many passes its rules may spend on questions of their own.  These are limits and nothing else.
Where there is a result, it stays the same if plans give up later (`carryOut_below`, `visit_below`)
and if there may be more passes (`iterate_below`, `Table.evaluate_mono`).
-/

set_option autoImplicit false

namespace DerivativeParsing

open Fixpoint

/-! ## Plans that give up later -/

namespace Fixpoint

variable {σ κ ν α β : Type}

/-- A plan does what another one does, unless that one gives up. -/
inductive Plan.Below : Plan σ κ ν α → Plan σ κ ν α → Prop where
  | stuck (plan : Plan σ κ ν α) : Below .stuck plan
  | done (result : α) (state : σ) : Below (.done result state) (.done result state)
  | ask {key : κ} {state : σ} {resume resume' : ν → σ → Plan σ κ ν α}
      (hresume : ∀ v s, Below (resume v s) (resume' v s)) :
      Below (.ask key state resume) (.ask key state resume')

namespace Plan.Below

theorem refl (plan : Plan σ κ ν α) : plan.Below plan := by
  induction plan with
  | done a s => exact .done a s
  | ask key s resume ih => exact .ask ih
  | stuck => exact .stuck _

theorem bind {plan plan' : Plan σ κ ν α} {next next' : α → σ → Plan σ κ ν β}
    (h : plan.Below plan') (hnext : ∀ a s, (next a s).Below (next' a s)) :
    (plan.bind next).Below (plan'.bind next') := by
  induction h with
  | stuck => exact .stuck _
  | done a s => exact hnext a s
  | ask _ ih => exact .ask ih

end Plan.Below

/-- A query that is answered more often gives up later. -/
theorem Rule.query_below {f f' : σ → Option α} {s : σ} (h : ∀ a, f s = some a → f' s = some a) :
    (Rule.query f s : Plan σ κ ν α).Below (Rule.query f' s) := by
  unfold Rule.query
  rcases hf : f s with _ | a
  · exact .stuck _
  · rw [h a hf]
    exact .refl _

variable [Ord κ]

/-- A plan that gives up later has the same result, if its questions are answered in the same way.
-/
theorem carryOut_below {visit visit' : κ → Memory κ ν → σ → Option (ν × Memory κ ν × σ)}
    (hvisit : ∀ key m s x, visit key m s = some x → visit' key m s = some x)
    {plan plan' : Plan σ κ ν α} (h : plan.Below plan') {m : Memory κ ν} {x : α × Memory κ ν × σ}
    (hx : carryOut visit plan m = some x) : carryOut visit' plan' m = some x := by
  induction h generalizing m with
  | stuck => cases hx
  | done a s => exact hx
  | ask _ ih =>
      rw [carryOut] at hx ⊢
      split at hx
      · next v m₁ s₁ hv =>
          rw [hvisit _ _ _ _ hv]
          exact ih v s₁ hx
      · cases hx

/-- An evaluation by rules that give up later has the same result. -/
theorem visit_below [BEq ν] {rules rules' : Rules σ κ ν} (hbottom : rules'.bottom = rules.bottom)
    (hsettle : rules'.settle = rules.settle)
    (hrule : ∀ key s, (rules.rule key s).Below (rules'.rule key s)) {depth : Nat} (key : κ)
    (m : Memory κ ν) (s : σ) (x : ν × Memory κ ν × σ) (hx : visit rules depth key m s = some x) :
    visit rules' depth key m s = some x := by
  induction depth generalizing key m s x with
  | zero => cases hx
  | succ depth ih =>
      unfold visit at hx ⊢
      rw [hbottom, hsettle]
      split
      · next progress hp =>
          rw [hp] at hx
          exact hx
      · next hp =>
          rw [hp] at hx
          dsimp only at hx ⊢
          split at hx
          · next v m₁ s₁ hcarry =>
              rw [carryOut_below ih (hrule _ _) hcarry]
              exact hx
          · cases hx

/-- Passes by rules that give up later, of which there may be more, have the same result. -/
theorem iterate_below [BEq ν] {rules rules' : Rules σ κ ν} (hbottom : rules'.bottom = rules.bottom)
    (hsettle : rules'.settle = rules.settle)
    (hrule : ∀ key s, (rules.rule key s).Below (rules'.rule key s)) {depth passes passes' : Nat}
    {key : κ} {m : Memory κ ν} {s : σ} {x : ν × σ} (hle : passes ≤ passes')
    (hx : iterate rules depth key passes m s = some x) :
    iterate rules' depth key passes' m s = some x := by
  induction passes generalizing m s passes' with
  | zero => cases hx
  | succ passes ih =>
      obtain ⟨passes', rfl⟩ := Nat.exists_eq_add_of_le' (Nat.le_of_add_left_le hle)
      rw [iterate] at hx ⊢
      split at hx
      · next v m₁ s₁ hv =>
          rw [visit_below hbottom hsettle hrule _ _ _ _ hv]
          dsimp only
          split
          · next hstale =>
              rw [if_pos hstale] at hx
              exact ih (by omega) hx
          · next hstale => rwa [if_neg hstale] at hx
      · cases hx

end Fixpoint

/-! ## Tables -/

/-- A value is found again by rules that give up later, and with more passes. -/
theorem Table.evaluate_mono {ν : Type} [BEq ν] {table table' : Table ν} {g : Graph} {root : Handle}
    {fuel fuel' : Nat} {v : ν} (hv : table.evaluate fuel g root = some v) (hle : fuel ≤ fuel')
    (hrule : ∀ key, (table.rule g key ()).Below (table'.rule g key ()))
    (hbottom : table'.bottom = table.bottom) : table'.evaluate fuel' g root = some v := by
  unfold Table.evaluate at hv ⊢
  obtain ⟨r, hr, hv⟩ := Option.bind_eq_some_iff.1 hv
  obtain ⟨x, hx, hv⟩ := Option.bind_eq_some_iff.1 hv
  refine Option.bind_eq_some_iff.2 ⟨r, hr, Option.bind_eq_some_iff.2 ⟨x, ?_, hv⟩⟩
  have hbottom' : (table'.rules g).bottom = (table.rules g).bottom := by
    unfold Table.rules
    rw [hbottom]
  exact iterate_below hbottom' rfl (fun key _ => hrule key) hle hx

end DerivativeParsing

