import Mathlib.Algebra.Order.BigOperators.Group.Finset
import DerivativeParsing.Proofs.Evaluator

/-!
# Repeated passes

The rules of an analysis have no state, so all that a pass hands to the next one is the values it
remembers.  This file follows them from pass to pass:

* `run_last_pass` — a run that has a result ends with a pass that is not stale;
* `visit_traced` — after such a pass every value is what its rule makes of the other values, so the
  values solve the equations that the rules stand for;
* `run_within` — a bound that every rule keeps holds of all values;
* `ascending_pass` — a pass over values that are only raised has a result, and if it is stale it has
  raised one of them;
* `Rising.run_answers` — a run has a result if the rules are monotone and the values can rise only so
  far, since each stale pass raises a value for good.
-/

set_option autoImplicit false
set_option linter.unusedSectionVars false

namespace DerivativeParsing.Fixpoint

variable {κ ν α : Type}

/-! ## What a plan makes of answers -/

/-- A plan comes to a result when every question gets one of the allowed answers. -/
def Plan.Yields (answers : κ → ν → Prop) : Plan Unit κ ν α → α → Prop
  | .done a _, b => a = b
  | .ask key _ resume, b => ∃ v, answers key v ∧ (resume v ()).Yields answers b
  | .stuck, _ => False

theorem Plan.Yields.mono {answers answers' : κ → ν → Prop} {plan : Plan Unit κ ν α} {a : α}
    (h : plan.Yields answers a) (hle : ∀ k v, answers k v → answers' k v) :
    plan.Yields answers' a := by
  induction plan with
  | done b s => exact h
  | ask key s resume ih =>
      obtain ⟨v, hv, hrest⟩ := h
      exact ⟨v, hle key v hv, ih v () hrest⟩
  | stuck => exact h

/-- A plan is never stuck and asks for some keys only. -/
def Plan.AsksOnly (K : κ → Prop) : Plan Unit κ ν α → Prop
  | .done _ _ => True
  | .ask key _ resume => K key ∧ ∀ v s, (resume v s).AsksOnly K
  | .stuck => False

theorem Plan.AsksOnly.mono {K K' : κ → Prop} {plan : Plan Unit κ ν α} (h : plan.AsksOnly K)
    (hK : ∀ k, K k → K' k) : plan.AsksOnly K' := by
  induction plan with
  | done a s => trivial
  | ask key s resume ih => exact ⟨hK key h.1, fun v s => ih v s (h.2 v s)⟩
  | stuck => exact h

/-- With the answers that `f` gives, a plan is never stuck and asks for some keys only. -/
def Plan.AsksWithin (K : κ → Prop) (f : κ → ν) : Plan Unit κ ν α → Prop
  | .done _ _ => True
  | .ask key _ resume => K key ∧ (resume (f key) ()).AsksWithin K f
  | .stuck => False

theorem Plan.AsksOnly.within {K : κ → Prop} {plan : Plan Unit κ ν α} (h : plan.AsksOnly K)
    (f : κ → ν) : plan.AsksWithin K f := by
  induction plan with
  | done a s => trivial
  | ask key s resume ih => exact ⟨h.1, ih (f key) () (h.2 (f key) ())⟩
  | stuck => exact h

theorem Plan.AsksOnly.yields {K : κ → Prop} {answers : κ → ν → Prop} {plan : Plan Unit κ ν α}
    {a : α} (h : plan.AsksOnly K) (ha : plan.Yields answers a) :
    plan.Yields (fun k v => K k ∧ answers k v) a := by
  induction plan with
  | done b s => exact ha
  | ask key s resume ih =>
      obtain ⟨v, hv, hrest⟩ := ha
      exact ⟨v, ⟨h.1, hv⟩, ih v () (h.2 v ()) hrest⟩
  | stuck => exact ha

section Bind

variable {β : Type} {K : κ → Prop} {answers : κ → ν → Prop} {plan : Plan Unit κ ν α}
  {next : α → Unit → Plan Unit κ ν β} {b : β}

theorem Plan.yields_bind :
    (plan.bind next).Yields answers b ↔
      ∃ a, plan.Yields answers a ∧ (next a ()).Yields answers b := by
  induction plan with
  | done a s => exact ⟨fun h => ⟨a, rfl, h⟩, fun ⟨a', ha, h⟩ => ha ▸ h⟩
  | ask key s resume ih =>
      constructor
      · rintro ⟨v, hv, h⟩
        obtain ⟨a, ha, h⟩ := (ih v ()).1 h
        exact ⟨a, ⟨v, hv, ha⟩, h⟩
      · rintro ⟨a, ⟨v, hv, ha⟩, h⟩
        exact ⟨v, hv, (ih v ()).2 ⟨a, ha, h⟩⟩
  | stuck => exact ⟨False.elim, fun ⟨_, ha, _⟩ => ha.elim⟩

theorem Plan.AsksOnly.bind (h : plan.AsksOnly K) (hnext : ∀ a s, (next a s).AsksOnly K) :
    (plan.bind next).AsksOnly K := by
  induction plan with
  | done a s => exact hnext a s
  | ask key s resume ih => exact ⟨h.1, fun v s => ih v s (h.2 v s)⟩
  | stuck => exact h

end Bind

variable [Ord κ] [Std.TransOrd κ] [Std.LawfulEqOrd κ] [BEq ν]

/-- The answers that a plan was given are in the memory when it is done. -/
theorem Plan.Ensures.yields {C : Contract Unit κ ν} {mayStop : Prop}
    {Q : α → Memory κ ν → Unit → Prop} {plan : Plan Unit κ ν α} {m : Memory κ ν}
    (h : plan.Ensures C mayStop Q m) :
    plan.Ensures C mayStop (fun a m' s => Q a m' s ∧ plan.Yields m'.Holds a) m := by
  induction plan generalizing m with
  | done a s => exact ⟨h, rfl⟩
  | ask key s resume ih =>
      refine ⟨h.1, fun v m₁ s₁ hframe hholds hv => ?_⟩
      refine (ih v s₁ (h.2 v m₁ s₁ hframe hholds hv)).mono ?_
      exact fun a m₂ _ hframe' ⟨hq, hyields⟩ => ⟨hq, v, hframe'.holds_of hholds, hyields⟩
  | stuck => exact h

/-! ## Settled keys -/

/-- Whatever holds of all settlements of a visit holds of the keys that the visit finishes. -/
theorem visit_finished {rules : Rules Unit κ ν} {P : κ → ν → Prop} {depth : Nat} {key : κ}
    {m m' : Memory κ ν} {v : ν}
    (hP : ∀ e, Settles rules e depth key m () → P e.key e.computed)
    (h : visit rules depth key m () = some (v, m', ())) :
    ∀ k w, m'.Finished k w → m.Finished k w ∨ P k w := by
  let C : Contract Unit κ ν :=
    { asks := fun _ _ _ => True
      answers := fun _ m _ _ m' _ => ∀ k w, m'.Finished k w → m.Finished k w ∨ P k w }
  have hplan {plan : Plan Unit κ ν ν} {m : Memory κ ν} :
      plan.Ensures C True (fun _ m' _ => ∀ k w, m'.Finished k w → m.Finished k w ∨ P k w) m := by
    induction plan generalizing m with
    | done a s => exact fun k w => .inl
    | ask key s resume ih =>
        refine ⟨trivial, fun v m₁ s₁ _ _ hv => (ih v s₁).mono fun a m₂ _ _ h k w hk => ?_⟩
        exact (h k w hk).elim (hv k w) .inr
    | stuck => trivial
  have hkept : C.Kept rules True (fun e => P e.key e.computed) (fun _ => True) :=
    { remembered := fun _ _ _ _ _ _ _ _ k w hk => .inl hk.of_giveAway
      carried := fun key m s p s₀ _ _ _ => hplan.mono fun v m₁ _ _ h _ hv => by
        refine ⟨trivial, fun k w hk => ?_⟩
        rcases hk.of_finish with ⟨rfl, rfl⟩ | ⟨-, hk⟩
        · exact .inr hv
        · exact (h k w hk).imp (·.of_start) id }
  exact (visit_ensures hkept (show C.asks key m () from trivial) hP).2 v m' () h

/-! ## From pass to pass -/

/-- Whether a settlement takes place in a run, which need not have a result. -/
def RunSettles (rules : Rules Unit κ ν) (e : Settlement Unit κ ν) (depth : Nat) (key : κ) :
    Nat → Memory κ ν → Prop
  | 0, _ => False
  | passes + 1, m =>
    Settles rules e depth key m.nextPass () ∨
      ∃ v m', visit rules depth key m.nextPass () = some (v, m', ()) ∧ m'.stale = true ∧
        RunSettles rules e depth key passes m'

section Run

variable {rules : Rules Unit κ ν} {depth passes : Nat} {key : κ} {v : ν} {m m' : Memory κ ν}

theorem iterate_last_pass {Allowed : Settlement Unit κ ν → Prop} {J : Memory κ ν → Prop}
    (hpass : ∀ m v m', J m → (∀ e, Settles rules e depth key m.nextPass () → Allowed e) →
      visit rules depth key m.nextPass () = some (v, m', ()) → J m')
    (hJ : J m) (hallowed : ∀ e, RunSettles rules e depth key passes m → Allowed e)
    (h : iterate rules depth key passes m () = some (v, ())) :
    ∃ m₀ m₁, J m₀ ∧ (∀ e, Settles rules e depth key m₀.nextPass () → Allowed e) ∧
      visit rules depth key m₀.nextPass () = some (v, m₁, ()) ∧ m₁.stale = false := by
  induction passes generalizing m with
  | zero => cases h
  | succ passes ih =>
      have hnow : ∀ e, Settles rules e depth key m.nextPass () → Allowed e :=
        fun e he => hallowed e (.inl he)
      rw [iterate] at h
      split at h
      · next w m₁ s hv =>
          split at h
          · next hstale =>
              exact ih (hpass m w m₁ hJ hnow hv)
                (fun e he => hallowed e (.inr ⟨w, m₁, hv, hstale, he⟩)) h
          · next hstale =>
              cases h
              exact ⟨m, m₁, hJ, hnow, hv, by simpa using hstale⟩
      · cases h

/-- A run that has a result ends with a pass that is not stale. -/
theorem run_last_pass {Allowed : Settlement Unit κ ν → Prop} {J : Memory κ ν → Prop}
    (hpass : ∀ m v m', J m → (∀ e, Settles rules e depth key m.nextPass () → Allowed e) →
      visit rules depth key m.nextPass () = some (v, m', ()) → J m')
    (hJ : J .empty) (hallowed : ∀ e, RunSettles rules e depth key passes .empty → Allowed e)
    (h : run rules depth passes key () = some (v, ())) :
    ∃ m₀ m₁, J m₀ ∧ (∀ e, Settles rules e depth key m₀.nextPass () → Allowed e) ∧
      visit rules depth key m₀.nextPass () = some (v, m₁, ()) ∧ m₁.stale = false :=
  iterate_last_pass hpass hJ hallowed h

end Run

/-! ## The values of a pass that is not stale -/

namespace Memory

/-- A key has the value for good, or its provisional value has been given away. -/
def Told (m : Memory κ ν) (k : κ) (v : ν) : Prop :=
  (m.progress[k]? = some .finished ∨ m.progress[k]? = some (.underway true)) ∧
    m.values[k]? = some v

/-- Every value of the pass is what its rule makes of values that have been told. -/
def Traced (rules : Rules Unit κ ν) (m : Memory κ ν) : Prop :=
  ∀ k v, m.Finished k v → (rules.rule k ()).Yields m.Told v

variable {rules : Rules Unit κ ν} {m m' : Memory κ ν} {key : κ} {p v w : ν} {k : κ}

theorem Told.frame (h : m.Told k v) (hframe : m.Frame m') : m'.Told k v := by
  obtain ⟨hp, hv⟩ := h
  refine ⟨?_, ?_⟩
  · rcases hp with hp | hp
    · exact .inl (hframe.finished k hp)
    · obtain ⟨b, hb, htrue⟩ := hframe.underway k true hp
      exact .inr (by rw [hb, htrue rfl])
  · rw [hframe.value k (by rcases hp with hp | hp <;> simp [hp]), hv]

theorem told_giveAway {progress : Progress} (hp : m.progress[key]? = some progress)
    (hv : m.values[key]? = some v) : (m.giveAway key progress).Told key v := by
  cases progress with
  | finished => exact ⟨.inl hp, hv⟩
  | underway b => exact ⟨.inr Std.TreeMap.getElem?_insert_self, hv⟩

theorem told_start (hkey : k ≠ key) : (m.start key p).Told k v ↔ m.Told k v := by
  unfold Told
  rw [progress_start_of_ne hkey, values_start_of_ne hkey]

/-- When a key is settled in a pass that is not stale, what was told of it stays true. -/
theorem Told.finish [LawfulBEq ν] (h : m'.Told k w) (hp : m'.values[key]? = some p)
    (hunderway : m'.progress[key]? ≠ some .finished)
    (hstale : (m'.finish key p v).stale = false) : (m'.finish key p v).Told k w := by
  rcases eq_or_ne k key with rfl | hkey
  · obtain ⟨hprogress, hw⟩ := h
    have hgiven : m'.wasGivenAway k = true := by
      rcases hprogress with h | h
      · exact absurd h hunderway
      · simp [wasGivenAway, h]
    have hpv : p = v := by
      simp only [Memory.finish, hgiven, Bool.true_and, Bool.or_eq_false_iff] at hstale
      simpa using hstale.2
    obtain rfl : p = w := by
      rw [hp] at hw
      exact Option.some.inj hw
    rw [hpv]
    exact ⟨.inl finished_finish.1, finished_finish.2⟩
  · unfold Told
    rw [progress_finish_of_ne hkey, values_finish_of_ne hkey]
    exact h

end Memory

/-- As long as no provisional value turns out wrong, every value is traced. -/
def traced (rules : Rules Unit κ ν) : Contract Unit κ ν where
  asks _ m _ := m.stale = false → m.Traced rules
  answers key m _ v m' _ := m'.stale = false →
    m'.Traced rules ∧ m'.Told key v ∧ ∀ k w, m.Told k w → m'.Told k w

theorem Plan.ensures_traced {rules : Rules Unit κ ν} {plan : Plan Unit κ ν α} {m : Memory κ ν}
    (hm : m.stale = false → m.Traced rules) :
    plan.Ensures (traced rules) True
      (fun a m' _ => m'.stale = false →
        m'.Traced rules ∧ plan.Yields m'.Told a ∧ ∀ k w, m.Told k w → m'.Told k w) m := by
  induction plan generalizing m with
  | done a s => exact fun h => ⟨hm h, rfl, fun _ _ => id⟩
  | ask key s resume ih =>
      refine ⟨hm, fun v m₁ s₁ hframe _ hv => ?_⟩
      refine (ih v s₁ fun h => (hv h).1).mono fun a m₂ s₂ hframe' h hstale => ?_
      obtain ⟨htraced, hyields, htold⟩ := h hstale
      have hstale₁ : m₁.stale = false := by
        by_contra hne
        simp [hframe'.stale (by simpa using hne)] at hstale
      obtain ⟨-, hkey, htold₁⟩ := hv hstale₁
      exact ⟨htraced, ⟨v, htold _ _ hkey, hyields⟩, fun k w hw => htold k w (htold₁ k w hw)⟩
  | stuck => trivial

theorem traced_kept [LawfulBEq ν] (rules : Rules Unit κ ν) :
    (traced rules).Kept rules True (fun _ => True) (fun _ => True) where
  remembered key m s v progress hasks hp hv hstale := by
    have hframe := Memory.frame_giveAway (m := m) hp
    have hm := hasks (by
      by_contra hne
      simp [hframe.stale (by simpa using hne)] at hstale)
    refine ⟨fun k w hk => ?_, Memory.told_giveAway hp hv, fun k w hw => hw.frame hframe⟩
    exact (hm k w hk.of_giveAway).mono fun k v h => h.frame hframe
  carried key m s p s₀ hasks hfresh _ := by
    refine (Plan.ensures_traced (m := m.start key p) fun hstale => ?_).mono ?_
    · intro k w hk
      refine (hasks hstale k w hk.of_start).mono fun k' v' h' => ?_
      have hne' : k' ≠ key := fun he => by
        subst he
        rcases h'.1 with h | h <;> simp [hfresh] at h
      exact (Memory.told_start hne').2 h'
    · intro v m₁ s₁ hframe₁ h hframe _
      refine ⟨trivial, fun hstale => ?_⟩
      have hstale₁ : m₁.stale = false := by
        simp only [Memory.finish, Bool.or_eq_false_iff] at hstale
        exact hstale.1
      obtain ⟨htraced, hyields, htold⟩ := h hstale₁
      have hunderway : m₁.Underway key p := hframe.underway_of Memory.underway_start
      have hkeep {k : κ} {w : ν} (hw : m₁.Told k w) : (m₁.finish key p v).Told k w := by
        refine hw.finish hunderway.2 ?_ hstale
        obtain ⟨b, hb⟩ := hunderway.1
        simp [hb]
      refine ⟨fun k w hk => ?_, ⟨.inl Memory.finished_finish.1, Memory.finished_finish.2⟩,
        fun k w hw => ?_⟩
      · rcases hk.of_finish with ⟨rfl, rfl⟩ | ⟨-, hk⟩
        · exact hyields.mono fun k w => hkeep
        · exact (htraced k w hk).mono fun k w => hkeep
      · have hne : k ≠ key := fun he => by
          subst he
          rcases hw.1 with h | h <;> simp [hfresh] at h
        exact hkeep (htold k w ((Memory.told_start hne).2 hw))

/-- After a pass that is not stale, every value is what its rule makes of the other values. -/
theorem visit_traced [LawfulBEq ν] {rules : Rules Unit κ ν} {depth : Nat} {key : κ}
    {m m' : Memory κ ν} {v : ν} (h : visit rules depth key m.nextPass () = some (v, m', ()))
    (hstale : m'.stale = false) :
    m'.Finished key v ∧ ∀ k w, m'.Finished k w → (rules.rule k ()).Yields m'.Finished w := by
  obtain ⟨hframe, hholds⟩ := visit_frame h
  have hfinished {k : κ} {w : ν} (hk : m'.Holds k w) : m'.Finished k w := by
    rcases hframe.holds_cases hk with hold | hnew
    · exact absurd Std.TreeMap.getElem?_emptyc hold.1
    · exact hnew
  have hasks : (traced rules).asks key m.nextPass () := fun _ k w hk => by
    simp [Memory.Finished, Memory.nextPass] at hk
  obtain ⟨htraced, -, -⟩ :=
    (visit_ensures (traced_kept rules) hasks fun _ _ => trivial).2 v m' () h hstale
  refine ⟨hfinished hholds, fun k w hk => (htraced k w hk).mono fun k' w' hw => ?_⟩
  refine hfinished ⟨?_, hw.2⟩
  rcases hw.1 with h | h <;> simp [h]

/-! ## Bounds -/

/-- Every remembered value is within a bound. -/
def Memory.Within (B : κ → ν → Prop) (m : Memory κ ν) : Prop :=
  ∀ (k : κ) (v : ν), m.values[k]? = some v → B k v

/-- Values within a bound remain there. -/
def within (B : κ → ν → Prop) : Contract Unit κ ν where
  asks _ m _ := m.Within B
  answers _ _ _ _ m' _ := m'.Within B

/-- Rules that keep a bound, at least where a computed value is allowed. -/
structure Keeps (rules : Rules Unit κ ν) (B Allowed : κ → ν → Prop) : Prop where
  bottom : ∀ k, B k (rules.bottom k ()).1
  rule : ∀ k v, Allowed k v → (rules.rule k ()).Yields B v → B k v

theorem Plan.ensures_within {B : κ → ν → Prop} {plan : Plan Unit κ ν α} {m : Memory κ ν}
    (hm : m.Within B) :
    plan.Ensures (within B) True (fun a m' _ => m'.Within B ∧ plan.Yields B a) m := by
  induction plan generalizing m with
  | done a s => exact ⟨hm, rfl⟩
  | ask key s resume ih =>
      refine ⟨hm, fun v m₁ s₁ _ hholds hm₁ => ?_⟩
      exact (ih v s₁ hm₁).mono fun a m₂ _ _ ⟨hm₂, hyields⟩ =>
        ⟨hm₂, v, hm₁ key v hholds.2, hyields⟩
  | stuck => trivial

section Within

variable {rules : Rules Unit κ ν} {B Allowed : κ → ν → Prop}

theorem Memory.Within.insert {m m' : Memory κ ν} {key : κ} {v : ν} (hm : m.Within B)
    (hv : B key v) (hself : m'.values[key]? = some v)
    (hne : ∀ k, k ≠ key → m'.values[k]? = m.values[k]?) : m'.Within B := by
  intro k w hw
  rcases eq_or_ne k key with rfl | hkey
  · obtain rfl : v = w := Option.some.inj (hself.symm.trans hw)
    exact hv
  · exact hm k w (by rw [← hne k hkey]; exact hw)

theorem within_kept (hB : Keeps rules B Allowed) :
    (within B).Kept rules True (fun e => Allowed e.key e.computed)
      (fun e => B e.key e.computed) where
  remembered key m s v progress hm _ _ := by
    cases progress <;> exact hm
  carried key m s p s₀ hm _ hstart := by
    have hp : B key p := by
      unfold Rules.provisional at hstart
      split at hstart
      · next hw =>
          cases hstart
          exact hm key p hw
      · obtain rfl := congrArg Prod.fst hstart
        exact hB.bottom key
    have hm₀ : (m.start key p).Within B :=
      hm.insert hp Memory.underway_start.2 fun k => Memory.values_start_of_ne
    refine (Plan.ensures_within hm₀).mono fun v m₁ _ _ ⟨hm₁, hyields⟩ _ hallowed => ?_
    have hv : B key v := hB.rule key v hallowed hyields
    exact ⟨hv, hm₁.insert hv Memory.finished_finish.2 fun k => Memory.values_finish_of_ne⟩

theorem visit_within (hB : Keeps rules B Allowed) {depth : Nat} {key : κ} {m m' : Memory κ ν}
    {v : ν} (hm : m.Within B)
    (hallowed : ∀ e, Settles rules e depth key m () → Allowed e.key e.computed)
    (h : visit rules depth key m () = some (v, m', ())) : m'.Within B :=
  (visit_ensures (within_kept hB) hm hallowed).2 v m' () h

theorem Memory.within_empty : (Memory.empty : Memory κ ν).Within B := by
  intro k v hv
  simp [Memory.empty] at hv

/-- Every settlement of a run computes a value within the bound. -/
theorem settles_within (hB : Keeps rules B Allowed) {depth passes : Nat} {key : κ}
    {m : Memory κ ν} (hm : m.Within B)
    (hallowed : ∀ e, RunSettles rules e depth key passes m → Allowed e.key e.computed) :
    ∀ e, RunSettles rules e depth key passes m → B e.key e.computed := by
  induction passes generalizing m with
  | zero => exact fun e he => he.elim
  | succ passes ih =>
      have hnow : ∀ e, Settles rules e depth key m.nextPass () → Allowed e.key e.computed :=
        fun e he => hallowed e (.inl he)
      rintro e (he | ⟨v, m', hv, hstale, he⟩)
      · exact (visit_ensures (within_kept hB) (m := m.nextPass) hm hnow).1 e he
      · exact ih (visit_within hB (m := m.nextPass) hm hnow hv)
          (fun e he => hallowed e (.inr ⟨v, m', hv, hstale, he⟩)) e he

end Within

/-! ## Keys that lead to each other -/

/-- The rules that are running lead to the key that is asked for, and the finished keys have a
property. -/
def reaching (K : κ → Prop) (E : κ → κ → Prop) (P : κ → ν → Prop) : Contract Unit κ ν where
  asks key m _ :=
    K key ∧ (∀ k v, m.Underway k v → E k key) ∧ ∀ k v, m.Finished k v → P k v
  answers _ _ _ _ m' _ := ∀ k v, m'.Finished k v → P k v

section Reaching

variable {rules : Rules Unit κ ν} {K : κ → Prop} {E : κ → κ → Prop} {P Allowed : κ → ν → Prop}

theorem Plan.ensures_reaching {plan : Plan Unit κ ν α} {m : Memory κ ν}
    (hasks : plan.AsksOnly fun key => K key ∧ ∀ k v, m.Underway k v → E k key)
    (hm : ∀ k v, m.Finished k v → P k v) :
    plan.Ensures (reaching K E P) True (fun _ m' _ => ∀ k v, m'.Finished k v → P k v) m := by
  induction plan generalizing m with
  | done a s => exact hm
  | ask key s resume ih =>
      refine ⟨⟨hasks.1.1, hasks.1.2, hm⟩, fun v m₁ s₁ hframe _ hm₁ => ih v s₁ ?_ hm₁⟩
      simp only [hframe.underway_iff]
      exact hasks.2 v s₁
  | stuck => trivial

/-- The questions of a rule are about keys that its own key leads to, and a rule that gets its
answers from finished keys with the property `P`, or from running rules, computes a value with the
property. -/
structure Leading (rules : Rules Unit κ ν) (K : κ → Prop) (E : κ → κ → Prop)
    (P Allowed : κ → ν → Prop) : Prop where
  refl : ∀ k, E k k
  trans : ∀ k k' k'', E k k' → E k' k'' → E k k''
  asks : ∀ k, K k → (rules.rule k ()).AsksOnly fun k' => K k' ∧ E k k'
  rule : ∀ (k : κ) (v : ν) (m : Memory κ ν), K k → (∀ k' v', m.Underway k' v' → E k' k) →
    (∀ k' v', m.Finished k' v' → P k' v') → (rules.rule k ()).Yields m.Holds v →
    Allowed k v → P k v

/-- If the questions of a rule lead to keys that its own key leads to, then every running rule
leads to the one that is being evaluated. -/
theorem reaching_kept (hL : Leading rules K E P Allowed) :
    (reaching K E P).Kept rules True (fun e => Allowed e.key e.computed)
      (fun e => P e.key e.computed) where
  remembered _ _ _ _ _ hm _ _ k v hk := hm.2.2 k v hk.of_giveAway
  carried key m s p s₀ hm _ _ := by
    obtain ⟨hkey, hunderway, hfinished⟩ := hm
    have hstarted : ∀ k v, (m.start key p).Underway k v → E k key := fun k v hk => by
      rcases hk.of_start with ⟨rfl, -⟩ | hk
      · exact hL.refl k
      · exact hunderway k v hk
    have hplan : (rules.rule key ()).AsksOnly fun k' =>
        K k' ∧ ∀ k v, (m.start key p).Underway k v → E k k' :=
      (hL.asks key hkey).mono fun k' hk' =>
        ⟨hk'.1, fun k v hk => hL.trans k key k' (hstarted k v hk) hk'.2⟩
    refine (Plan.ensures_reaching hplan fun k v hk => hfinished k v hk.of_start).yields.mono ?_
    intro v m₁ _ _ ⟨hm₁, hyields⟩ hframe hallowed
    have hv : P key v := hL.rule key v m₁ hkey
      (fun k w hk => hstarted k w (hframe.underway_iff.1 hk)) hm₁ hyields hallowed
    refine ⟨hv, fun k w hk => ?_⟩
    rcases hk.of_finish with ⟨rfl, rfl⟩ | ⟨-, hk⟩
    · exact hv
    · exact hm₁ k w hk

/-- A property that the rules establish on top of finished keys holds of all settlements of a
run. -/
theorem settles_reaching (hL : Leading rules K E P Allowed) {key : κ} {depth passes : Nat}
    (hkey : K key) {m : Memory κ ν}
    (hallowed : ∀ e, RunSettles rules e depth key passes m → Allowed e.key e.computed) :
    ∀ e, RunSettles rules e depth key passes m → P e.key e.computed := by
  induction passes generalizing m with
  | zero => exact fun e he => he.elim
  | succ passes ih =>
      have hstart : (reaching K E P).asks key m.nextPass () :=
        ⟨hkey, fun k v hk => by simp [Memory.Underway, Memory.nextPass] at hk,
          fun k v hk => by simp [Memory.Finished, Memory.nextPass] at hk⟩
      rintro e (he | ⟨v, m', hv, hstale, he⟩)
      · exact (visit_ensures (reaching_kept hL) hstart fun e he => hallowed e (.inl he)).1 e he
      · exact ih (fun e he => hallowed e (.inr ⟨v, m', hv, hstale, he⟩)) e he

end Reaching

/-! ## Runs that have a result -/

/-- A partial order of values, of which `b` is the least. -/
structure Ordered (le : ν → ν → Prop) (b : ν) : Prop where
  refl : ∀ x, le x x
  trans : ∀ x y z, le x y → le y z → le x z
  antisymm : ∀ x y, le x y → le y x → x = y
  least : ∀ x, le b x

/-- Rules that are monotone, at least where a computed value is allowed.  That `v` is *below* what
the rule of `k` makes of the values `f` is written `below f k v`: then no value that the rule
computes from larger answers is less than `v`, and every value that it computes from smaller answers
is below, if those answers are below what the rules make of them. -/
structure Rising (rules : Rules Unit κ ν) (le : ν → ν → Prop) (b : ν)
    (below : (κ → ν) → κ → ν → Prop) (Allowed : κ → ν → Prop) : Prop where
  ordered : Ordered le b
  bottom : ∀ k, rules.bottom k () = (b, ())
  least : ∀ f k, below f k b
  mono : ∀ f f' k v, (∀ k, le (f k) (f' k)) → below f k v → below f' k v
  lower : ∀ f k v w, Allowed k v → (rules.rule k ()).Yields (fun k v => le (f k) v) v →
    below f k w → le w v
  upper : ∀ f k v, (∀ k, below f k (f k)) → Allowed k v →
    (rules.rule k ()).Yields (fun k v => le v (f k)) v → below f k v

namespace Memory

/-- The remembered value of a key, or `b` if there is none. -/
def value (b : ν) (m : Memory κ ν) (k : κ) : ν := m.values[k]?.getD b

/-- The values are below what the rules would make of them. -/
def Supported (b : ν) (below : (κ → ν) → κ → ν → Prop) (m : Memory κ ν) : Prop :=
  ∀ k, below (m.value b) k (m.value b k)

/-- The values of `m'` are at least those of `m`, and if `m'` is stale and `m` is not, one of the
keys has got another value. -/
structure Raised (le : ν → ν → Prop) (b : ν) (keys : Finset κ) (m m' : Memory κ ν) : Prop where
  atLeast : ∀ k, le (m.value b k) (m'.value b k)
  stale : m'.stale = true → m.stale = true ∨ ∃ k ∈ keys, m.value b k ≠ m'.value b k

variable {le : ν → ν → Prop} {b : ν} {keys : Finset κ} {m m' m'' : Memory κ ν} {key : κ} {v : ν}

theorem Raised.refl (hle : Ordered le b) (keys : Finset κ) (m : Memory κ ν) :
    m.Raised le b keys m :=
  ⟨fun _ => hle.refl _, .inl⟩

theorem Raised.trans (hle : Ordered le b) (h : m.Raised le b keys m')
    (h' : m'.Raised le b keys m'') : m.Raised le b keys m'' where
  atLeast k := hle.trans _ _ _ (h.atLeast k) (h'.atLeast k)
  stale hs := by
    -- A value that has once been left does not come back.
    have hleft {k : κ} (he : m.value b k = m''.value b k) : m.value b k = m'.value b k :=
      hle.antisymm _ _ (h.atLeast k) (he ▸ h'.atLeast k)
    rcases h'.stale hs with hs' | ⟨k, hk, hne⟩
    · exact (h.stale hs').imp_right fun ⟨k, hk, hne⟩ => ⟨k, hk, fun he => hne (hleft he)⟩
    · exact .inr ⟨k, hk, fun he => hne (by rw [← hleft he, he])⟩

theorem value_of_holds (h : m.Holds key v) : m.value b key = v := by
  simp [value, h.2]

/-- A rule that starts has the value of its key for its provisional value. -/
theorem value_start (key : κ) : (m.start key (m.value b key)).value b = m.value b := by
  funext k
  rcases eq_or_ne k key with rfl | hkey
  · simp [value, underway_start.2]
  · rw [value, values_start_of_ne hkey, value]

theorem value_finish_self {p : ν} : (m.finish key p v).value b key = v := by
  simp [value, finished_finish.2]

theorem value_finish_of_ne {p : ν} {k : κ} (hkey : k ≠ key) :
    (m.finish key p v).value b k = m.value b k := by
  rw [value, values_finish_of_ne hkey, value]

theorem value_giveAway {progress : Progress} (k : κ) :
    (m.giveAway key progress).value b k = m.value b k := by
  cases progress <;> rfl

theorem Within.value {B : κ → ν → Prop} (hm : m.Within B) (hb : ∀ k, B k b) (k : κ) :
    B k (m.value b k) := by
  unfold Memory.value
  rcases hv : m.values[k]? with _ | v
  · exact hb k
  · exact hm k v hv

end Memory

/-- The values of a pass stay supported and are only raised. -/
def ascending (le : ν → ν → Prop) (b : ν) (below : (κ → ν) → κ → ν → Prop) (keys : Finset κ) :
    Contract Unit κ ν where
  asks key m _ := key ∈ keys ∧ m.Supported b below
  answers _ m _ _ m' _ := m'.Supported b below ∧ m.Raised le b keys m'

section Rising

variable {le : ν → ν → Prop} {b : ν} {below : (κ → ν) → κ → ν → Prop} {keys : Finset κ}
  {rules : Rules Unit κ ν} {Allowed B : κ → ν → Prop} {m m' : Memory κ ν} {key : κ} {v : ν}
  {depth passes : Nat}

/-- While a plan is carried out the values are only raised.  Its questions have to be about the keys
only for answers that agree with what the memory holds and are below what the rules make of them. -/
theorem Plan.ensures_ascending (hle : Ordered le b) {plan : Plan Unit κ ν α}
    (hasks : ∀ f : κ → ν, (∀ k v, m.Holds k v → f k = v) → (∀ k, below f k (f k)) →
      plan.AsksWithin (· ∈ keys) f)
    (hm : m.Supported b below) :
    plan.Ensures (ascending le b below keys) False
      (fun _ m' _ => m'.Supported b below ∧ m.Raised le b keys m') m := by
  induction plan generalizing m with
  | done a s => exact ⟨hm, .refl hle keys m⟩
  | ask key s resume ih =>
      have hkey : key ∈ keys := (hasks (m.value b) (fun k v => Memory.value_of_holds) hm).1
      refine ⟨⟨hkey, hm⟩, fun v m₁ s₁ hframe hholds ⟨hm₁, hraised₁⟩ => ?_⟩
      have hasks₁ : ∀ f : κ → ν, (∀ k v, m₁.Holds k v → f k = v) → (∀ k, below f k (f k)) →
          (resume v s₁).AsksWithin (· ∈ keys) f := by
        intro f hf hbelow
        have hrest := (hasks f (fun k w hk => hf k w (hframe.holds_of hk)) hbelow).2
        rwa [hf key v hholds] at hrest
      exact (ih v s₁ hasks₁ hm₁).mono fun a m₂ s₂ _ ⟨hm₂, hraised₂⟩ =>
        ⟨hm₂, hraised₁.trans hle hraised₂⟩
  | stuck => exact hasks (m.value b) (fun k v => Memory.value_of_holds) hm

theorem provisional_eq (hbottom : rules.bottom key () = (b, ())) :
    rules.provisional m key () = (m.value b key, ()) := by
  unfold Rules.provisional Memory.value
  rcases m.values[key]? with _ | v
  · exact hbottom
  · rfl

theorem Memory.Supported.start (hm : m.Supported b below) (key : κ) :
    (m.start key (m.value b key)).Supported b below := fun k => by
  rw [value_start]
  exact hm k

/-- A key of this pass is answered without a change. -/
theorem ascending_giveAway (hle : Ordered le b) (hasks : (ascending le b below keys).asks key m ())
    (progress : Progress) :
    (ascending le b below keys).answers key m () v (m.giveAway key progress) () := by
  have hvalue : (m.giveAway key progress).value b = m.value b :=
    funext fun k => Memory.value_giveAway k
  refine ⟨fun k => ?_, fun k => ?_, fun hs => .inl ?_⟩
  · rw [hvalue]
    exact hasks.2 k
  · rw [hvalue]
    exact hle.refl _
  · cases progress <;> exact hs

/-- A key is answered with a computed value that is no less than the provisional one and below what
the rule makes of the values. -/
theorem ascending_finish [LawfulBEq ν] (hle : Ordered le b)
    (hmono : ∀ f f' k v, (∀ k, le (f k) (f' k)) → below f k v → below f' k v) (hkey : key ∈ keys)
    (hframe : (m.start key (m.value b key)).Frame m') (hm' : m'.Supported b below)
    (hraised : (m.start key (m.value b key)).Raised le b keys m') (hpv : le (m.value b key) v)
    (hv : below (m'.value b) key v) :
    (ascending le b below keys).answers key m () v (m'.finish key (m.value b key) v) () := by
  have hp : m'.value b key = m.value b key := by
    have hunderway : m'.Underway key (m.value b key) := hframe.underway_of Memory.underway_start
    simp [Memory.value, hunderway.2]
  have hfinish (k : κ) : le (m'.value b k) ((m'.finish key (m.value b key) v).value b k) := by
    rcases eq_or_ne k key with rfl | hne
    · rw [hp, Memory.value_finish_self]
      exact hpv
    · rw [Memory.value_finish_of_ne hne]
      exact hle.refl _
  refine ⟨fun k => ?_, fun k => ?_, fun hstale => ?_⟩
  · rcases eq_or_ne k key with rfl | hne
    · rw [Memory.value_finish_self]
      exact hmono _ _ _ _ hfinish hv
    · rw [Memory.value_finish_of_ne hne]
      exact hmono _ _ _ _ hfinish (hm' k)
  · have hk := hraised.atLeast k
    rw [Memory.value_start] at hk
    exact hle.trans _ _ _ hk (hfinish k)
  · simp only [Memory.finish, Bool.or_eq_true, Bool.and_eq_true, bne_iff_ne] at hstale
    rcases hstale with hs | ⟨-, hne⟩
    · rcases hraised.stale hs with hs | ⟨k, hk, hne⟩
      · exact .inl hs
      refine .inr ⟨k, hk, fun he => hne ?_⟩
      refine hle.antisymm _ _ (hraised.atLeast k) ?_
      rw [Memory.value_start, he]
      exact hfinish k
    · refine .inr ⟨key, hkey, ?_⟩
      rwa [Memory.value_finish_self]

/-- A pass has a result if its values are only raised.  If it is stale, it has raised one of
them. -/
theorem ascending_pass {Allowed Sound : Settlement Unit κ ν → Prop}
    (hkept : (ascending le b below keys).Kept rules False Allowed Sound) (hkey : key ∈ keys)
    (hdepth : keys.card < depth) (hm : m.Supported b below)
    (hallowed : ∀ e, Settles rules e depth key m.nextPass () → Allowed e) :
    ∃ v m', visit rules depth key m.nextPass () = some (v, m', ()) ∧ m'.Supported b below ∧
      (∀ k, le (m.value b k) (m'.value b k)) ∧
        (m'.stale = true → ∃ k ∈ keys, m.value b k ≠ m'.value b k) := by
  have hasks : (ascending le b below keys).asks key m.nextPass () := ⟨hkey, hm⟩
  have hrecorded : m.nextPass.Recorded := fun k hk => absurd Std.TreeMap.getElem?_emptyc hk
  obtain ⟨v, m', ⟨⟩, hv⟩ := visit_answers hkept (fun _ _ _ h => h.1) hasks hallowed
    hrecorded (lt_of_le_of_lt (Finset.card_filter_le _ _) hdepth)
  obtain ⟨hm', hraised⟩ := (visit_ensures hkept hasks hallowed).2 v m' () hv
  refine ⟨v, m', hv, hm', hraised.atLeast, fun hs => (hraised.stale hs).resolve_left ?_⟩
  simp [Memory.nextPass]

namespace Rising

variable [LawfulBEq ν]

theorem kept (hR : Rising rules le b below Allowed)
    (htotal : ∀ k ∈ keys, ∀ f, (∀ k, below f k (f k)) → (rules.rule k ()).AsksWithin (· ∈ keys) f) :
    (ascending le b below keys).Kept rules False (fun e => Allowed e.key e.computed)
      (fun _ => True) where
  remembered _ _ _ _ progress hasks _ _ := ascending_giveAway hR.ordered hasks progress
  carried key m s p s₀ hasks hfresh hstart := by
    obtain ⟨hkey, hm⟩ := hasks
    obtain rfl : m.value b key = p :=
      congrArg Prod.fst ((provisional_eq (hR.bottom key)).symm.trans hstart)
    have hplan := Plan.ensures_ascending hR.ordered
      (fun f _ => htotal key hkey f) (hm.start key)
    refine hplan.yields.mono ?_
    rintro v m₁ _ _ ⟨⟨hm₁, hraised⟩, hyields⟩ hframe hallowed
    -- The provisional value is supported by values that have only been raised since.
    have hpv : le (m.value b key) v := by
      refine hR.lower _ _ _ _ hallowed (hyields.mono fun k w hw => ?_) (hm key)
      rw [← Memory.value_start key, ← Memory.value_of_holds (b := b) hw]
      exact hraised.atLeast k
    have hv : below (m₁.value b) key v := by
      refine hR.upper _ _ _ hm₁ hallowed (hyields.mono fun k w hw => ?_)
      rw [Memory.value_of_holds hw]
      exact hR.ordered.refl w
    exact ⟨trivial, ascending_finish hR.ordered hR.mono hkey hframe hm₁ hraised hpv hv⟩

/-- How far the values have risen. -/
def weight (rank : ν → Nat) (b : ν) (keys : Finset κ) (m : Memory κ ν) : Nat :=
  ∑ k ∈ keys, rank (m.value b k)

theorem iterate_answers (hR : Rising rules le b below Allowed) (hB : Keeps rules B Allowed)
    (htotal : ∀ k ∈ keys, ∀ f, (∀ k, below f k (f k)) → (rules.rule k ()).AsksWithin (· ∈ keys) f)
    (rank : ν → Nat) (limit : κ → Nat) (hrank : ∀ x y, le x y → x ≠ y → rank x < rank y)
    (hlimit : ∀ k ∈ keys, ∀ v, B k v → rank v ≤ limit k) (hkey : key ∈ keys)
    (hdepth : keys.card < depth) (hpasses : ∑ k ∈ keys, limit k < passes + weight rank b keys m)
    (hm : m.Supported b below) (hwithin : m.Within B)
    (hallowed : ∀ e, RunSettles rules e depth key passes m → Allowed e.key e.computed) :
    ∃ v, iterate rules depth key passes m () = some (v, ()) := by
  have hb : ∀ k, B k b := fun k => by
    have hk := hB.bottom k
    rwa [hR.bottom k] at hk
  induction passes generalizing m with
  | zero =>
      have hle : weight rank b keys m ≤ ∑ k ∈ keys, limit k :=
        Finset.sum_le_sum fun k hk => hlimit k hk _ (hwithin.value hb k)
      omega
  | succ passes ih =>
      have hnow : ∀ e, Settles rules e depth key m.nextPass () → Allowed e.key e.computed :=
        fun e he => hallowed e (.inl he)
      obtain ⟨v, m', hv, hm', hraised, hrises⟩ := ascending_pass (hR.kept htotal) hkey hdepth hm hnow
      have hwithin' : m'.Within B := visit_within hB (m := m.nextPass) hwithin hnow hv
      rw [iterate, hv]
      rcases hstale : m'.stale with _ | _
      · exact ⟨v, by simp [hstale]⟩
      · have hle (k : κ) : rank (m.value b k) ≤ rank (m'.value b k) := by
          by_cases he : m.value b k = m'.value b k
          · rw [he]
          · exact (hrank _ _ (hraised k) he).le
        have hlt : weight rank b keys m < weight rank b keys m' := by
          obtain ⟨k, hk, hne⟩ := hrises hstale
          exact Finset.sum_lt_sum (fun k _ => hle k) ⟨k, hk, hrank _ _ (hraised k) hne⟩
        simp only [hstale, if_true]
        exact ih (by omega) hm' hwithin' fun e he => hallowed e (.inr ⟨v, m', hv, hstale, he⟩)

/-- If the values of a run can rise only so far, it has a result within as many passes as they can
take steps, and one more.  The rules may be stuck for answers that never come up. -/
theorem run_answers (hR : Rising rules le b below Allowed) (hB : Keeps rules B Allowed)
    (htotal : ∀ k ∈ keys, ∀ f, (∀ k, below f k (f k)) → (rules.rule k ()).AsksWithin (· ∈ keys) f)
    (rank : ν → Nat) (limit : κ → Nat) (hrank : ∀ x y, le x y → x ≠ y → rank x < rank y)
    (hlimit : ∀ k ∈ keys, ∀ v, B k v → rank v ≤ limit k) (hkey : key ∈ keys)
    (hdepth : keys.card < depth) (hpasses : ∑ k ∈ keys, limit k < passes)
    (hallowed : ∀ e, RunSettles rules e depth key passes .empty → Allowed e.key e.computed) :
    ∃ v, run rules depth passes key () = some (v, ()) := by
  refine hR.iterate_answers hB htotal rank limit hrank hlimit hkey hdepth (by omega) (fun k => ?_)
    Memory.within_empty hallowed
  simpa [Memory.value, Memory.empty] using hR.least _ k

end Rising

end Rising

/-! ## Truth values -/

/-- `x` is at most `y` where `b` counts as the least truth value. -/
def AtMost (b x y : Bool) : Prop := x = b ∨ x = y

namespace AtMost

variable {b x y z : Bool}

theorem refl (b x : Bool) : AtMost b x x := .inr rfl

theorem trans (h : AtMost b x y) (h' : AtMost b y z) : AtMost b x z := by
  rcases h with rfl | rfl
  · exact .inl rfl
  · exact h'

theorem antisymm (h : AtMost b x y) (h' : AtMost b y x) : x = y := by
  rcases h with rfl | rfl
  · rcases h' with rfl | rfl <;> rfl
  · rfl

theorem ordered (b : Bool) : Ordered (AtMost b) b :=
  ⟨.refl b, fun _ _ _ => trans, fun _ _ => antisymm, fun _ => .inl rfl⟩

end AtMost

/-- Rules over truth values that follow a monotone function `step` of the values, at least where a
computed value is allowed. -/
structure Ascent (rules : Rules Unit κ Bool) (b : Bool) (step : (κ → Bool) → κ → Bool)
    (Allowed : κ → Bool → Prop) : Prop where
  bottom : ∀ k, rules.bottom k () = (b, ())
  mono : ∀ f f', (∀ k, AtMost b (f k) (f' k)) → ∀ k, AtMost b (step f k) (step f' k)
  lower : ∀ f k v, Allowed k v →
    (rules.rule k ()).Yields (fun k v => AtMost b (f k) v) v → AtMost b (step f k) v
  upper : ∀ f k v, Allowed k v →
    (rules.rule k ()).Yields (fun k v => AtMost b v (f k)) v → AtMost b v (step f k)

namespace Ascent

variable {b : Bool} {step : (κ → Bool) → κ → Bool} {keys : Finset κ}
  {rules : Rules Unit κ Bool} {Allowed : κ → Bool → Prop}

theorem rising (hA : Ascent rules b step Allowed) :
    Rising rules (AtMost b) b (fun f k v => AtMost b v (step f k)) Allowed where
  ordered := AtMost.ordered b
  bottom := hA.bottom
  least _ _ := .inl rfl
  mono f f' k _ hf h := h.trans (hA.mono f f' hf k)
  lower f k v _ hallowed hyields h := h.trans (hA.lower f k v hallowed hyields)
  upper f k v _ := hA.upper f k v

/-- A run over truth values has a result within as many passes as there are keys, and one more. -/
theorem run_answers (hA : Ascent rules b step Allowed)
    (htotal : ∀ k ∈ keys, (rules.rule k ()).AsksOnly (· ∈ keys)) {depth passes : Nat} {key : κ}
    (hkey : key ∈ keys) (hdepth : keys.card < depth) (hpasses : keys.card < passes)
    (hallowed : ∀ e, RunSettles rules e depth key passes .empty → Allowed e.key e.computed) :
    ∃ v, run rules depth passes key () = some (v, ()) := by
  have hB : Keeps rules (fun _ _ => True) Allowed := ⟨fun _ => trivial, fun _ _ _ _ => trivial⟩
  refine hA.rising.run_answers hB (fun k hk f _ => (htotal k hk).within f)
    (fun x => if x = b then 0 else 1) (fun _ => 1) (fun x y hxy hne => ?_) (fun _ _ v _ => ?_)
    hkey hdepth ?_ hallowed
  · obtain rfl : x = b := hxy.resolve_right hne
    simp [hne.symm]
  · by_cases hv : v = b <;> simp [hv]
  · simpa using hpasses

end Ascent

end DerivativeParsing.Fixpoint
