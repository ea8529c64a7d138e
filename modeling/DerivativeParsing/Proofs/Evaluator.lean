import Mathlib.Data.Finset.Card
import Mathlib.Data.Finset.Filter
import DerivativeParsing.Fixpoint.Evaluator

/-!
# Reasoning about the evaluator

A rule is a plan that asks questions, and the evaluator answers them by carrying out other plans.
What an evaluation does is therefore derived from what single plans do: a `Contract` says when a
key may be asked for and what holds once it is answered, and every plan is shown to keep it
(`Plan.Ensures`).  The induction over the nesting of the questions is done here, once:

* `visit_frame` — what a visit leaves of the memory it found;
* `visit_ensures` — if every plan keeps a contract, every visit does;
* `visit_answers` — if the plans are never stuck besides, a visit has an answer.

A *settlement* is the moment at which the rule of a key comes to its end.  `Settles` follows the
settlements of an evaluation whether or not the evaluation has a result in the end.
-/

set_option autoImplicit false
set_option linter.unusedSectionVars false

namespace DerivativeParsing.Fixpoint

variable {σ κ ν α β : Type}

/-! ## Plans -/

@[simp] theorem Plan.bind_done (a : α) (s : σ) (f : α → σ → Plan σ κ ν β) :
    (Plan.done a s).bind f = f a s := rfl

@[simp] theorem Plan.bind_ask (k : κ) (s : σ) (resume : ν → σ → Plan σ κ ν α)
    (f : α → σ → Plan σ κ ν β) :
    (Plan.ask k s resume).bind f = .ask k s fun v s => (resume v s).bind f := rfl

@[simp] theorem Plan.bind_stuck (f : α → σ → Plan σ κ ν β) :
    (Plan.stuck : Plan σ κ ν α).bind f = .stuck := rfl

theorem Rule.bind_apply (x : Rule σ κ ν α) (f : α → Rule σ κ ν β) (s : σ) :
    (x >>= f) s = (x s).bind fun a s => f a s := rfl

/-! ## The memory -/

variable [Ord κ]

namespace Memory

/-- A key of this pass has the value `v`, for good or for the time being. -/
def Holds (m : Memory κ ν) (k : κ) (v : ν) : Prop :=
  m.progress[k]? ≠ none ∧ m.values[k]? = some v

/-- A key has its value in this pass. -/
def Finished (m : Memory κ ν) (k : κ) (v : ν) : Prop :=
  m.progress[k]? = some .finished ∧ m.values[k]? = some v

/-- The rule of a key is running, with the provisional value `v`. -/
def Underway (m : Memory κ ν) (k : κ) (v : ν) : Prop :=
  (∃ b, m.progress[k]? = some (.underway b)) ∧ m.values[k]? = some v

theorem holds_iff {m : Memory κ ν} {k : κ} {v : ν} :
    m.Holds k v ↔ m.Finished k v ∨ m.Underway k v := by
  unfold Holds Finished Underway
  rcases h : m.progress[k]? with _ | p
  · simp
  · cases p <;> simp

/-- What a visit leaves of the memory it found: keys of this pass keep their values, rules that
were running still run, and every key that it came to is finished. -/
structure Frame (m m' : Memory κ ν) : Prop where
  value : ∀ k : κ, m.progress[k]? ≠ none → m'.values[k]? = m.values[k]?
  finished : ∀ k : κ, m.progress[k]? = some .finished → m'.progress[k]? = some .finished
  underway : ∀ (k : κ) (b : Bool), m.progress[k]? = some (.underway b) →
    ∃ b', m'.progress[k]? = some (.underway b') ∧ (b = true → b' = true)
  fresh : ∀ k : κ, m.progress[k]? = none →
    (m'.progress[k]? = none ∧ m'.values[k]? = m.values[k]?) ∨ ∃ v, m'.Finished k v
  stale : m.stale = true → m'.stale = true

namespace Frame

variable {m m' m'' : Memory κ ν} {k : κ} {v : ν}

theorem refl (m : Memory κ ν) : m.Frame m where
  value _ _ := rfl
  finished _ h := h
  underway _ b h := ⟨b, h, id⟩
  fresh _ h := .inl ⟨h, rfl⟩
  stale := id

theorem progress_ne_none (h : m.Frame m') (hk : m.progress[k]? ≠ none) :
    m'.progress[k]? ≠ none := by
  rcases hp : m.progress[k]? with _ | p
  · exact absurd hp hk
  · cases p with
    | underway b =>
      obtain ⟨b', hb, -⟩ := h.underway k b hp
      simp [hb]
    | finished => simp [h.finished k hp]

theorem finished_of (h : m.Frame m') (hk : m.Finished k v) : m'.Finished k v :=
  ⟨h.finished k hk.1, by rw [h.value k (by simp [hk.1]), hk.2]⟩

theorem underway_of (h : m.Frame m') (hk : m.Underway k v) : m'.Underway k v := by
  obtain ⟨⟨b, hb⟩, hv⟩ := hk
  obtain ⟨b', hb', -⟩ := h.underway k b hb
  exact ⟨⟨b', hb'⟩, by rw [h.value k (by simp [hb]), hv]⟩

/-- No rule is left running that was not running before. -/
theorem underway_iff (h : m.Frame m') : m'.Underway k v ↔ m.Underway k v := by
  refine ⟨fun hk => ?_, h.underway_of⟩
  obtain ⟨⟨b, hb⟩, hv⟩ := hk
  rcases hp : m.progress[k]? with _ | p
  · rcases h.fresh k hp with ⟨hn, -⟩ | ⟨w, hw, -⟩
    · simp [hb] at hn
    · simp [hb] at hw
  · cases p with
    | underway b' => exact ⟨⟨b', hp⟩, by rw [← h.value k (by simp [hp]), hv]⟩
    | finished => simp [h.finished k hp] at hb

theorem holds_of (h : m.Frame m') (hk : m.Holds k v) : m'.Holds k v := by
  rcases holds_iff.1 hk with hk | hk
  · exact holds_iff.2 (.inl (h.finished_of hk))
  · exact holds_iff.2 (.inr (h.underway_of hk))

/-- A key that was not asked for before is finished if it is in the pass afterwards. -/
theorem holds_cases (h : m.Frame m') (hk : m'.Holds k v) : m.Holds k v ∨ m'.Finished k v := by
  rcases hp : m.progress[k]? with _ | p
  · rcases h.fresh k hp with ⟨hn, -⟩ | ⟨w, hw, hv⟩
    · exact absurd hn hk.1
    · obtain rfl : w = v := by rw [hk.2] at hv; exact (Option.some.inj hv).symm
      exact .inr ⟨hw, hv⟩
  · exact .inl ⟨by simp [hp], by rw [← h.value k (by simp [hp])]; exact hk.2⟩

theorem trans (h : m.Frame m') (h' : m'.Frame m'') : m.Frame m'' where
  value k hk := by rw [h'.value k (h.progress_ne_none hk), h.value k hk]
  finished k hk := h'.finished k (h.finished k hk)
  underway k b hk := by
    obtain ⟨b', hb', hbb⟩ := h.underway k b hk
    obtain ⟨b'', hb'', hbb'⟩ := h'.underway k b' hb'
    exact ⟨b'', hb'', fun hb => hbb' (hbb hb)⟩
  fresh k hk := by
    rcases h.fresh k hk with ⟨hn, hv⟩ | ⟨v, hv⟩
    · rcases h'.fresh k hn with ⟨hn', hv'⟩ | h''
      · exact .inl ⟨hn', by rw [hv', hv]⟩
      · exact .inr h''
    · exact .inr ⟨v, h'.finished_of hv⟩
  stale hs := h'.stale (h.stale hs)

end Frame

end Memory

/-! ## Settlements -/

/-- The moment at which the rule of a key comes to its end: the provisional value, the computed
one, and the state before the key is settled. -/
structure Settlement (σ κ ν : Type) where
  key : κ
  provisional : ν
  computed : ν
  state : σ

/-- The provisional value of a key when its rule starts, and the state then. -/
def Rules.provisional (rules : Rules σ κ ν) (m : Memory κ ν) (key : κ) (s : σ) : ν × σ :=
  match m.values[key]? with
  | some v => (v, s)
  | none => rules.bottom key s

/-- Whether something happens inside one of the questions of a plan. -/
def During (visit : κ → Memory κ ν → σ → Option (ν × Memory κ ν × σ))
    (inside : κ → Memory κ ν → σ → Prop) : Plan σ κ ν α → Memory κ ν → Prop
  | .done _ _, _ => False
  | .ask key s resume, m =>
    inside key m s ∨
      ∃ v m' s', visit key m s = some (v, m', s') ∧ During visit inside (resume v s') m'
  | .stuck, _ => False

/-- Whether a settlement takes place in a visit, which need not have a result. -/
def Settles [BEq ν] (rules : Rules σ κ ν) (e : Settlement σ κ ν) :
    Nat → κ → Memory κ ν → σ → Prop
  | 0, _, _, _ => False
  | depth + 1, key, m, s =>
    m.progress[key]? = none ∧
      let (provisional, s) := rules.provisional m key s
      During (visit rules depth) (Settles rules e depth) (rules.rule key s)
          (m.start key provisional) ∨
        ∃ computed m' s',
          carryOut (visit rules depth) (rules.rule key s) (m.start key provisional) =
              some (computed, m', s') ∧
            e = ⟨key, provisional, computed, s'⟩

/-! ## One visit -/

section Visit

variable [BEq ν] {rules : Rules σ κ ν} {depth : Nat} {key : κ} {m m' : Memory κ ν} {s s' : σ}
  {v : ν}

/-- A key of this pass is answered from the memory. -/
theorem visit_known {progress : Progress} (hp : m.progress[key]? = some progress)
    (hv : m.values[key]? = some v) :
    visit rules (depth + 1) key m s = some (v, m.giveAway key progress, s) := by
  rw [visit]
  simp only [hp, hv]

/-- A key that is new in this pass has its rule carried out. -/
theorem visit_new (hp : m.progress[key]? = none) :
    visit rules (depth + 1) key m s =
      (carryOut (visit rules depth) (rules.rule key (rules.provisional m key s).2)
        (m.start key (rules.provisional m key s).1)).map fun (computed, m', s') =>
          (computed, m'.finish key (rules.provisional m key s).1 computed,
            rules.settle (rules.provisional m key s).1 computed s') := by
  rw [visit]
  simp only [hp]
  unfold Rules.provisional
  rcases m.values[key]? with _ | w
  · cases carryOut (visit rules depth) (rules.rule key (rules.bottom key s).2)
      (m.start key (rules.bottom key s).1) <;> simp
  · cases carryOut (visit rules depth) (rules.rule key s) (m.start key w) <;> simp

/-- A visit either finds the key in the memory or carries out its rule. -/
theorem visit_cases (h : visit rules depth key m s = some (v, m', s')) :
    (∃ progress, m.progress[key]? = some progress ∧ m.values[key]? = some v ∧
        m' = m.giveAway key progress ∧ s' = s) ∨
      ∃ d p s₀ m₁ s₁, depth = d + 1 ∧ m.progress[key]? = none ∧
        rules.provisional m key s = (p, s₀) ∧
        carryOut (visit rules d) (rules.rule key s₀) (m.start key p) = some (v, m₁, s₁) ∧
        m' = m₁.finish key p v ∧ s' = rules.settle p v s₁ := by
  cases depth with
  | zero => cases h
  | succ d =>
      rcases hp : m.progress[key]? with _ | progress
      · rw [visit_new hp, Option.map_eq_some_iff] at h
        obtain ⟨⟨w, m₁, s₁⟩, hc, he⟩ := h
        cases he
        exact .inr ⟨d, _, _, m₁, s₁, rfl, rfl, rfl, hc, rfl, rfl⟩
      · rcases hv : m.values[key]? with _ | w
        · rw [visit] at h
          simp [hp, hv] at h
        · rw [visit_known hp hv] at h
          cases h
          exact .inl ⟨progress, rfl, rfl, rfl, rfl⟩

end Visit

/-! ## What a visit leaves of the memory -/

variable [Std.TransOrd κ] [Std.LawfulEqOrd κ]

theorem getElem?_insert_of_ne {ω : Type} {t : Std.TreeMap κ ω} {k key : κ} {w : ω} (h : k ≠ key) :
    (t.insert key w)[k]? = t[k]? := by
  rw [Std.TreeMap.getElem?_insert, if_neg]
  exact fun he => h (Std.LawfulEqOrd.eq_of_compare he).symm

namespace Memory

variable {m m' : Memory κ ν} {key : κ} {p v : ν}

theorem frame_giveAway {progress : Progress} (hp : m.progress[key]? = some progress) :
    m.Frame (m.giveAway key progress) := by
  cases progress with
  | finished => exact Frame.refl m
  | underway b =>
      have hself : (m.giveAway key (.underway b)).progress[key]? = some (.underway true) :=
        Std.TreeMap.getElem?_insert_self
      have hne {k : κ} (h : k ≠ key) :
          (m.giveAway key (.underway b)).progress[k]? = m.progress[k]? := getElem?_insert_of_ne h
      constructor
      · exact fun k _ => rfl
      · intro k hk
        rcases eq_or_ne k key with rfl | h
        · simp [hp] at hk
        · rw [hne h, hk]
      · intro k b' hk
        rcases eq_or_ne k key with rfl | h
        · exact ⟨true, hself, fun _ => rfl⟩
        · exact ⟨b', by rw [hne h, hk], id⟩
      · intro k hk
        rcases eq_or_ne k key with rfl | h
        · simp [hp] at hk
        · exact .inl ⟨by rw [hne h, hk], rfl⟩
      · exact id

theorem holds_giveAway {progress : Progress} (hp : m.progress[key]? = some progress)
    (hv : m.values[key]? = some v) : (m.giveAway key progress).Holds key v := by
  have hframe := frame_giveAway (m := m) hp
  exact hframe.holds_of ⟨by simp [hp], hv⟩

theorem underway_start : (m.start key p).Underway key p :=
  ⟨⟨false, Std.TreeMap.getElem?_insert_self⟩, Std.TreeMap.getElem?_insert_self⟩

theorem finished_finish [BEq ν] : (m.finish key p v).Finished key v :=
  ⟨Std.TreeMap.getElem?_insert_self, Std.TreeMap.getElem?_insert_self⟩

theorem progress_start_of_ne {k : κ} (h : k ≠ key) :
    (m.start key p).progress[k]? = m.progress[k]? := getElem?_insert_of_ne h

theorem values_start_of_ne {k : κ} (h : k ≠ key) :
    (m.start key p).values[k]? = m.values[k]? := getElem?_insert_of_ne h

theorem progress_finish_of_ne [BEq ν] {k : κ} (h : k ≠ key) :
    (m.finish key p v).progress[k]? = m.progress[k]? := getElem?_insert_of_ne h

theorem values_finish_of_ne [BEq ν] {k : κ} (h : k ≠ key) :
    (m.finish key p v).values[k]? = m.values[k]? := getElem?_insert_of_ne h

/-- The rule that starts is not finished. -/
theorem Finished.of_start {k : κ} {w : ν} (h : (m.start key p).Finished k w) : m.Finished k w := by
  have hne : k ≠ key := by
    rintro rfl
    have hself : (m.start k p).Underway k p := underway_start
    obtain ⟨b, hb⟩ := hself.1
    simp [Finished, hb] at h
  exact ⟨(progress_start_of_ne hne).symm.trans h.1, (values_start_of_ne hne).symm.trans h.2⟩

theorem Finished.of_giveAway {progress : Progress} {k : κ} {w : ν}
    (h : (m.giveAway key progress).Finished k w) : m.Finished k w := by
  cases progress with
  | finished => exact h
  | underway b =>
      have hne : k ≠ key := by
        rintro rfl
        simp [giveAway, Finished] at h
      exact ⟨(getElem?_insert_of_ne hne).symm.trans h.1, h.2⟩

/-- Only the rule that ends becomes finished. -/
theorem Finished.of_finish [BEq ν] {k : κ} {w : ν} (h : (m.finish key p v).Finished k w) :
    k = key ∧ w = v ∨ k ≠ key ∧ m.Finished k w := by
  rcases eq_or_ne k key with rfl | hne
  · exact .inl ⟨rfl, Option.some.inj (h.2.symm.trans finished_finish.2)⟩
  · exact .inr ⟨hne, (progress_finish_of_ne hne).symm.trans h.1,
      (values_finish_of_ne hne).symm.trans h.2⟩

/-- A rule that is running is the one that has started or ran before. -/
theorem Underway.of_start {k : κ} {w : ν} (h : (m.start key p).Underway k w) :
    k = key ∧ w = p ∨ m.Underway k w := by
  rcases eq_or_ne k key with rfl | hne
  · exact .inl ⟨rfl, Option.some.inj (h.2.symm.trans underway_start.2)⟩
  · obtain ⟨⟨b, hb⟩, hw⟩ := h
    exact .inr ⟨⟨b, (progress_start_of_ne hne).symm.trans hb⟩,
      (values_start_of_ne hne).symm.trans hw⟩

/-- A key whose rule has been carried out leaves the rest of the memory as its questions did. -/
theorem frame_finish [BEq ν] (hfresh : m.progress[key]? = none)
    (h : (m.start key p).Frame m') : m.Frame (m'.finish key p v) := by
  have hne {k : κ} (hk : m.progress[k]? ≠ none) : k ≠ key := fun he => hk (he ▸ hfresh)
  constructor
  · intro k hk
    rw [values_finish_of_ne (hne hk), h.value k (by rwa [progress_start_of_ne (hne hk)]),
      values_start_of_ne (hne hk)]
  · intro k hk
    have hkey : k ≠ key := hne (by simp [hk])
    rw [progress_finish_of_ne hkey]
    exact h.finished k (by rwa [progress_start_of_ne hkey])
  · intro k b hk
    have hkey : k ≠ key := hne (by simp [hk])
    rw [progress_finish_of_ne hkey]
    exact h.underway k b (by rwa [progress_start_of_ne hkey])
  · intro k hk
    rcases eq_or_ne k key with rfl | hkey
    · exact .inr ⟨v, finished_finish⟩
    · rw [progress_finish_of_ne hkey, values_finish_of_ne hkey]
      rcases h.fresh k (by rwa [progress_start_of_ne hkey]) with ⟨hn, hv⟩ | ⟨w, hw⟩
      · exact .inl ⟨hn, by rw [hv, values_start_of_ne hkey]⟩
      · exact .inr ⟨w, by rw [progress_finish_of_ne hkey]; exact hw.1,
          by rw [values_finish_of_ne hkey]; exact hw.2⟩
  · intro hs
    have hs' : m'.stale = true := h.stale hs
    simp [finish, hs']

end Memory

section Visit

variable [BEq ν] {rules : Rules σ κ ν} {depth : Nat} {key : κ} {m m' : Memory κ ν} {s s' : σ}
  {v : ν}

theorem carryOut_frame {visit : κ → Memory κ ν → σ → Option (ν × Memory κ ν × σ)}
    (hvisit : ∀ key m s v m' s', visit key m s = some (v, m', s') → m.Frame m')
    {plan : Plan σ κ ν α} {a : α} (h : carryOut visit plan m = some (a, m', s')) :
    m.Frame m' := by
  induction plan generalizing m with
  | done result s =>
      cases h
      exact .refl _
  | ask key s resume ih =>
      rw [carryOut] at h
      split at h
      · next v m₁ s₁ hv => exact (hvisit _ _ _ _ _ _ hv).trans (ih v s₁ h)
      · cases h
  | stuck => cases h

/-- A visit keeps what the memory holds, and the key has its answer afterwards. -/
theorem visit_frame (h : visit rules depth key m s = some (v, m', s')) :
    m.Frame m' ∧ m'.Holds key v := by
  induction depth generalizing key m s v m' s' with
  | zero => cases h
  | succ depth ih =>
      rcases visit_cases h with ⟨progress, hp, hv, rfl, -⟩ | ⟨d, p, s₀, m₁, s₁, hd, hfresh, -, hc, rfl, -⟩
      · exact ⟨Memory.frame_giveAway hp, Memory.holds_giveAway hp hv⟩
      · cases hd
        have hframe := carryOut_frame (fun _ _ _ _ _ _ h => (ih h).1) hc
        exact ⟨Memory.frame_finish hfresh hframe, Memory.holds_iff.2 (.inl Memory.finished_finish)⟩

end Visit

/-! ## Contracts -/

/-- When a key may be asked for, and what holds once it has been answered. -/
structure Contract (σ κ ν : Type) [Ord κ] where
  asks : κ → Memory κ ν → σ → Prop
  answers : κ → Memory κ ν → σ → ν → Memory κ ν → σ → Prop

/-- A plan asks only what it may, and if its questions are answered as the contract says, its
result has the property `Q`.  A plan that is stuck has no result. -/
def Plan.Ensures (C : Contract σ κ ν) (mayStop : Prop) (Q : α → Memory κ ν → σ → Prop) :
    Plan σ κ ν α → Memory κ ν → Prop
  | .done a s, m => Q a m s
  | .ask key s resume, m =>
    C.asks key m s ∧
      ∀ v m' s', m.Frame m' → m'.Holds key v → C.answers key m s v m' s' →
        (resume v s').Ensures C mayStop Q m'
  | .stuck, _ => mayStop

namespace Plan.Ensures

variable {C : Contract σ κ ν} {mayStop : Prop} {m : Memory κ ν}

theorem mono {Q R : α → Memory κ ν → σ → Prop} {plan : Plan σ κ ν α}
    (h : plan.Ensures C mayStop Q m)
    (hQR : ∀ a m' s, m.Frame m' → Q a m' s → R a m' s) : plan.Ensures C mayStop R m := by
  induction plan generalizing m with
  | done a s => exact hQR a m s (.refl m) h
  | ask key s resume ih =>
      refine ⟨h.1, fun v m' s' hframe hholds hv => ?_⟩
      exact ih v s' (h.2 v m' s' hframe hholds hv) fun a m'' s'' h' hq =>
        hQR a m'' s'' (hframe.trans h') hq
  | stuck => exact h

/-- What a plan ensures under two contracts it ensures under the one that promises more. -/
theorem and {C' : Contract σ κ ν} {mayStop' : Prop} {Q Q' : α → Memory κ ν → σ → Prop}
    {plan : Plan σ κ ν α} (h : plan.Ensures C mayStop Q m) (h' : plan.Ensures C' mayStop' Q' m)
    (hanswers : ∀ key m s v m' s', C'.answers key m s v m' s' → C.answers key m s v m' s') :
    plan.Ensures C' mayStop' (fun a m s => Q a m s ∧ Q' a m s) m := by
  induction plan generalizing m with
  | done a s => exact ⟨h, h'⟩
  | ask key s resume ih =>
      refine ⟨h'.1, fun v m' s' hframe hholds hv => ?_⟩
      exact ih v s' (h.2 v m' s' hframe hholds (hanswers key m s v m' s' hv))
        (h'.2 v m' s' hframe hholds hv)
  | stuck => exact h'

theorem bind {Q : β → Memory κ ν → σ → Prop} {plan : Plan σ κ ν α}
    {next : α → σ → Plan σ κ ν β}
    (h : plan.Ensures C mayStop (fun a m s => (next a s).Ensures C mayStop Q m) m) :
    (plan.bind next).Ensures C mayStop Q m := by
  induction plan generalizing m with
  | done a s => exact h
  | ask key s resume ih =>
      exact ⟨h.1, fun v m' s' hframe hholds hv => ih v s' (h.2 v m' s' hframe hholds hv)⟩
  | stuck => exact h

end Plan.Ensures

/-- Every plan of the rules keeps a contract, at least as long as its settlements are allowed, and
every settlement is then sound. -/
structure Contract.Kept [BEq ν] (C : Contract σ κ ν) (rules : Rules σ κ ν) (mayStop : Prop)
    (Allowed Sound : Settlement σ κ ν → Prop) : Prop where
  /-- A key of this pass is answered from the memory. -/
  remembered : ∀ key m s v progress, C.asks key m s → m.progress[key]? = some progress →
    m.values[key]? = some v → C.answers key m s v (m.giveAway key progress) s
  /-- A key that is new in this pass is answered by its rule. -/
  carried : ∀ key m s p s₀, C.asks key m s → m.progress[key]? = none →
    rules.provisional m key s = (p, s₀) →
    (rules.rule key s₀).Ensures C mayStop
      (fun v m₁ s₁ => (m.start key p).Frame m₁ → Allowed ⟨key, p, v, s₁⟩ →
        Sound ⟨key, p, v, s₁⟩ ∧
          C.answers key m s v (m₁.finish key p v) (rules.settle p v s₁))
      (m.start key p)

section Kept

variable [BEq ν] {rules : Rules σ κ ν} {C : Contract σ κ ν} {mayStop : Prop}
  {Allowed Sound : Settlement σ κ ν → Prop}

/-- What a plan ensures holds when it is carried out. -/
theorem carryOut_ensures {depth : Nat}
    (hvisit : ∀ key m s, C.asks key m s → (∀ e, Settles rules e depth key m s → Allowed e) →
      (∀ e, Settles rules e depth key m s → Sound e) ∧
        ∀ v m' s', visit rules depth key m s = some (v, m', s') → C.answers key m s v m' s')
    {Q : α → Memory κ ν → σ → Prop} {plan : Plan σ κ ν α} {m : Memory κ ν}
    (h : plan.Ensures C mayStop Q m)
    (hallowed : ∀ e, During (visit rules depth) (Settles rules e depth) plan m → Allowed e) :
    (∀ e, During (visit rules depth) (Settles rules e depth) plan m → Sound e) ∧
      ∀ a m' s', carryOut (visit rules depth) plan m = some (a, m', s') →
        m.Frame m' ∧ Q a m' s' := by
  induction plan generalizing m with
  | done result s =>
      refine ⟨fun e he => he.elim, fun a m' s' hc => ?_⟩
      cases hc
      exact ⟨.refl _, h⟩
  | ask key s resume ih =>
      obtain ⟨hasks, hresume⟩ := h
      obtain ⟨hsound, hanswers⟩ := hvisit key m s hasks fun e he => hallowed e (.inl he)
      constructor
      · rintro e (he | ⟨v, m', s', hv, he⟩)
        · exact hsound e he
        · obtain ⟨hframe, hholds⟩ := visit_frame hv
          have hrest := hresume v m' s' hframe hholds (hanswers v m' s' hv)
          exact (ih v s' hrest fun e he => hallowed e (.inr ⟨v, m', s', hv, he⟩)).1 e he
      · intro a m'' s'' hc
        rw [carryOut] at hc
        split at hc
        · next v m' s' hv =>
            obtain ⟨hframe, hholds⟩ := visit_frame hv
            have hrest := hresume v m' s' hframe hholds (hanswers v m' s' hv)
            obtain ⟨hframe', hq⟩ :=
              (ih v s' hrest fun e he => hallowed e (.inr ⟨v, m', s', hv, he⟩)).2 a m'' s'' hc
            exact ⟨hframe.trans hframe', hq⟩
        · cases hc
  | stuck => exact ⟨fun e he => he.elim, fun a m' s' hc => by cases hc⟩

/-- If every plan keeps a contract, every visit does. -/
theorem visit_ensures (hC : C.Kept rules mayStop Allowed Sound) {depth : Nat} {key : κ}
    {m : Memory κ ν} {s : σ} (hasks : C.asks key m s)
    (hallowed : ∀ e, Settles rules e depth key m s → Allowed e) :
    (∀ e, Settles rules e depth key m s → Sound e) ∧
      ∀ v m' s', visit rules depth key m s = some (v, m', s') → C.answers key m s v m' s' := by
  induction depth generalizing key m s with
  | zero => exact ⟨fun e he => he.elim, fun v m' s' h => by cases h⟩
  | succ depth ih =>
      have hplan (hfresh : m.progress[key]? = none) :=
        carryOut_ensures (Q := _) (fun key m s => ih)
          (hC.carried key m s _ _ hasks hfresh rfl)
          fun e he => hallowed e ⟨hfresh, .inl he⟩
      constructor
      · rintro e ⟨hfresh, he | ⟨v, m₁, s₁, hc, rfl⟩⟩
        · exact (hplan hfresh).1 e he
        · obtain ⟨hframe, hq⟩ := (hplan hfresh).2 v m₁ s₁ hc
          exact (hq hframe (hallowed _ ⟨hfresh, .inr ⟨v, m₁, s₁, hc, rfl⟩⟩)).1
      · intro v m' s' hv
        rcases visit_cases hv with
          ⟨progress, hp, hvalue, rfl, rfl⟩ | ⟨d, p, s₀, m₁, s₁, hd, hfresh, hstart, hc, rfl, rfl⟩
        · exact hC.remembered key m s' v progress hasks hp hvalue
        · cases hd
          have hfst : (rules.provisional m key s).1 = p := by rw [hstart]
          have hsnd : (rules.provisional m key s).2 = s₀ := by rw [hstart]
          subst hfst hsnd
          obtain ⟨hframe, hq⟩ := (hplan hfresh).2 v m₁ s₁ hc
          exact (hq hframe (hallowed _ ⟨hfresh, .inr ⟨v, m₁, s₁, hc, rfl⟩⟩)).2

end Kept

/-! ## Evaluations that have a result -/

namespace Memory

/-- Every key of this pass has a value. -/
def Recorded (m : Memory κ ν) : Prop := ∀ k : κ, m.progress[k]? ≠ none → m.values[k]? ≠ none

open Classical in
/-- The keys that have not been asked for in this pass. -/
noncomputable def unvisited (keys : Finset κ) (m : Memory κ ν) : Finset κ :=
  keys.filter fun k => m.progress[k]? = none

theorem Recorded.frame {m m' : Memory κ ν} (hm : m.Recorded) (h : m.Frame m') : m'.Recorded := by
  intro k hk
  rcases hp : m.progress[k]? with _ | progress
  · rcases h.fresh k hp with ⟨hn, -⟩ | ⟨v, hv⟩
    · exact absurd hn hk
    · simp [hv.2]
  · rw [h.value k (by simp [hp])]
    exact hm k (by simp [hp])

theorem Recorded.start {m : Memory κ ν} (hm : m.Recorded) (key : κ) (p : ν) :
    (m.start key p).Recorded := by
  intro k hk
  rcases eq_or_ne k key with rfl | hkey
  · simp [underway_start.2]
  · rw [progress_start_of_ne hkey] at hk
    rw [values_start_of_ne hkey]
    exact hm k hk

theorem card_unvisited_le {keys : Finset κ} {m m' : Memory κ ν} (h : m.Frame m') :
    (m'.unvisited keys).card ≤ (m.unvisited keys).card := by
  refine Finset.card_le_card fun k hk => ?_
  simp only [unvisited, Finset.mem_filter] at hk ⊢
  exact ⟨hk.1, by_contra fun hp => h.progress_ne_none hp hk.2⟩

theorem card_unvisited_start {keys : Finset κ} {m : Memory κ ν} {key : κ} {p : ν}
    (hkey : key ∈ keys) (hfresh : m.progress[key]? = none) :
    ((m.start key p).unvisited keys).card < (m.unvisited keys).card := by
  refine Finset.card_lt_card (Finset.ssubset_iff_of_subset (fun k hk => ?_) |>.2 ⟨key, ?_, ?_⟩)
  · simp only [unvisited, Finset.mem_filter] at hk ⊢
    refine ⟨hk.1, ?_⟩
    have hne : k ≠ key := fun he => by simp [he, start] at hk
    rw [← hk.2, progress_start_of_ne hne]
  · exact Finset.mem_filter.2 ⟨hkey, hfresh⟩
  · intro hk
    have hself : (m.start key p).Underway key p := underway_start
    obtain ⟨b, hb⟩ := hself.1
    rw [unvisited, Finset.mem_filter, hb] at hk
    cases hk.2

end Memory

section Total

variable [BEq ν] {rules : Rules σ κ ν} {C : Contract σ κ ν} {Allowed Sound : Settlement σ κ ν → Prop}

/-- A plan that is never stuck can be carried out if its questions can be answered. -/
theorem carryOut_answers (hC : C.Kept rules False Allowed Sound) {keys : Finset κ} {depth : Nat}
    (hvisit : ∀ key m s, C.asks key m s → (∀ e, Settles rules e depth key m s → Allowed e) →
      m.Recorded → (m.unvisited keys).card < depth →
      ∃ v m' s', visit rules depth key m s = some (v, m', s'))
    {Q : α → Memory κ ν → σ → Prop} {plan : Plan σ κ ν α} {m : Memory κ ν}
    (h : plan.Ensures C False Q m)
    (hallowed : ∀ e, During (visit rules depth) (Settles rules e depth) plan m → Allowed e)
    (hm : m.Recorded) (hdepth : (m.unvisited keys).card < depth) :
    ∃ a m' s', carryOut (visit rules depth) plan m = some (a, m', s') := by
  induction plan generalizing m with
  | done result s => exact ⟨result, m, s, rfl⟩
  | ask key s resume ih =>
      have hinside : ∀ e, Settles rules e depth key m s → Allowed e :=
        fun e he => hallowed e (.inl he)
      obtain ⟨v, m', s', hv⟩ := hvisit key m s h.1 hinside hm hdepth
      obtain ⟨hframe, hholds⟩ := visit_frame hv
      have hanswers := (visit_ensures hC h.1 hinside).2 v m' s' hv
      obtain ⟨a, m'', s'', hc⟩ := ih v s' (h.2 v m' s' hframe hholds hanswers)
        (fun e he => hallowed e (.inr ⟨v, m', s', hv, he⟩)) (hm.frame hframe)
        (lt_of_le_of_lt (Memory.card_unvisited_le hframe) hdepth)
      exact ⟨a, m'', s'', by rw [carryOut, hv]; exact hc⟩
  | stuck => exact h.elim

/-- A visit has an answer if no plan is ever stuck and its questions cannot nest deeper than
there are keys left. -/
theorem visit_answers (hC : C.Kept rules False Allowed Sound) {keys : Finset κ}
    (hkeys : ∀ key m s, C.asks key m s → key ∈ keys) {depth : Nat} {key : κ} {m : Memory κ ν}
    {s : σ} (hasks : C.asks key m s) (hallowed : ∀ e, Settles rules e depth key m s → Allowed e)
    (hm : m.Recorded) (hdepth : (m.unvisited keys).card < depth) :
    ∃ v m' s', visit rules depth key m s = some (v, m', s') := by
  induction depth generalizing key m s with
  | zero => exact absurd hdepth (Nat.not_lt_zero _)
  | succ depth ih =>
      rcases hp : m.progress[key]? with _ | progress
      · have hlt := Memory.card_unvisited_start (p := (rules.provisional m key s).1)
          (hkeys key m s hasks) hp
        obtain ⟨v, m', s', hc⟩ := carryOut_answers hC (fun key m s => ih)
          (hC.carried key m s (rules.provisional m key s).1 (rules.provisional m key s).2 hasks hp rfl)
          (fun e he => hallowed e ⟨hp, .inl he⟩) (hm.start key _) (by omega)
        exact ⟨_, _, _, by rw [visit_new hp, hc]; rfl⟩
      · obtain ⟨v, hv⟩ := Option.ne_none_iff_exists'.1 (hm key (by simp [hp]))
        exact ⟨_, _, _, visit_known hp hv⟩

end Total

end DerivativeParsing.Fixpoint
