import Mathlib.Order.FixedPoints
import Mathlib.Order.CompletePartialOrder
import DerivativeParsing.Proofs.Chains

/-!
# Least solutions

A `Meaning` says what a node stands for when it is known what its operands stand for: a language,
a set of parses, a truth value.  A graph turns it into a system of equations, one for each slot,
and `Meaning.value` is the least solution.  Two ways to bound the least solution from above are
derived here for all meanings:

* `value_le` — whatever is closed under the equations of a region is above the least solution;
* `value_le_of_unfolding` — the same, where the equations may be unfolded any number of times.

The value of a handle depends on the region that can be reached from it alone (`value_congr`).
-/

set_option autoImplicit false

namespace DerivativeParsing

/-- What nodes stand for.  A node looks at its operands only, and stands for more if they do. -/
structure Meaning (X : Type) [CompleteLattice X] where
  node : Node → (Handle → X) → X
  mono : ∀ (n : Node) (V W : Handle → X), (∀ c ∈ n.children, V c ≤ W c) → node n V ≤ node n W

namespace Meaning

variable {X : Type} [CompleteLattice X]

/-- What a slot stands for, given what handles stand for.  A reference that leads nowhere stands
for nothing. -/
def slot (M : Meaning X) (V : Handle → X) : Option Slot → X
  | some (.node n) => M.node n V
  | some (.forward target) => V target
  | _ => ⊥

variable (M : Meaning X) {N : Meaning X} {g g' : Graph} {D : Set Handle} {h r t : Handle}
  {n : Node} {A V W : Handle → X}

theorem slot_mono (hVW : ∀ k ∈ g.references h, V k ≤ W k) :
    M.slot V (g.slot? h) ≤ M.slot W (g.slot? h) := by
  rcases hs : g.slot? h with _ | (n | body | name | t)
  · exact le_rfl
  · rw [Graph.references_of_node hs] at hVW
    exact M.mono n V W hVW
  · exact le_rfl
  · exact le_rfl
  · exact hVW t (by simp [Graph.references_of_forward hs])

/-- The right-hand sides of the equations of a graph. -/
def step (g : Graph) : (Handle → X) →o (Handle → X) where
  toFun V h := M.slot V (g.slot? h)
  monotone' _ _ hVW _ := M.slot_mono fun k _ => hVW k

/-- The least solution of the equations of a graph. -/
def value (g : Graph) : Handle → X := (M.step g).lfp

theorem value_eq (g : Graph) (h : Handle) : M.value g h = M.slot (M.value g) (g.slot? h) :=
  congrFun (M.step g).map_lfp.symm h

theorem value_node (hs : g.slot? h = some (.node n)) : M.value g h = M.node n (M.value g) := by
  rw [value_eq, hs, slot]

theorem value_forward (hs : g.slot? h = some (.forward t)) : M.value g h = M.value g t := by
  rw [value_eq, hs, slot]

theorem value_leads (hl : g.Leads h r) : M.value g h = M.value g r := by
  induction hl with
  | here => rfl
  | step hs _ ih => rw [M.value_forward hs, ih]

/-- A handle at the end of its chain stands for what the node there does: a reference that leads
nowhere stands for nothing, like `∅`. -/
theorem slot_of_end (hnil : M.node .nil V = ⊥) (hend : ∀ t, g.slot? r ≠ some (.forward t)) :
    M.slot V (g.slot? r) = M.node (g.node r) V := by
  unfold Graph.node Graph.stored?
  rcases hs : g.slot? r with _ | (n | body | name | t)
  · exact hnil.symm
  · rfl
  · exact hnil.symm
  · exact hnil.symm
  · exact absurd hs (hend t)

/-- Whatever is closed under the equations of a region is above the least solution. -/
theorem value_le (hD : g.Closed D) (hA : ∀ h ∈ D, M.slot A (g.slot? h) ≤ A h) :
    ∀ h ∈ D, M.value g h ≤ A h := by
  classical
  have hle : M.value g ≤ fun h => if h ∈ D then A h else ⊤ := by
    refine (M.step g).lfp_le fun h => ?_
    by_cases hh : h ∈ D
    · rw [if_pos hh]
      refine (M.slot_mono fun k hk => ?_).trans (hA h hh)
      rw [if_pos (hD h hh k hk)]
    · rw [if_neg hh]
      exact le_top
  intro h hh
  simpa [hh] using hle h

/-- To bound the least solution, the equations may be unfolded: it is enough to consider what
handles stand for at a stage `V` of the approximation from below. -/
theorem value_le_of_unfolding (hD : g.Closed D)
    (hA : ∀ V : Handle → X, (∀ h ∈ D, V h ≤ A h) → (∀ h ∈ D, V h ≤ M.value g h) →
      (∀ h ∈ D, V h ≤ M.slot V (g.slot? h)) → ∀ h ∈ D, M.slot V (g.slot? h) ≤ A h) :
    ∀ h ∈ D, M.value g h ≤ A h := by
  classical
  -- The union of all stages is a stage, and unfolding it once more leads to another one.
  let stages : Set (Handle → X) :=
    {V | (∀ h ∈ D, V h ≤ A h) ∧ (∀ h ∈ D, V h ≤ M.value g h) ∧
      ∀ h ∈ D, V h ≤ M.slot V (g.slot? h)}
  let W : Handle → X := fun h => ⨆ V ∈ stages, V h
  have hmem {V : Handle → X} (hV : V ∈ stages) (h : Handle) : V h ≤ W h :=
    le_iSup₂ (f := fun V (_ : V ∈ stages) => V h) V hV
  have hW : W ∈ stages := by
    refine ⟨fun h hh => iSup₂_le fun V hV => hV.1 h hh,
      fun h hh => iSup₂_le fun V hV => hV.2.1 h hh, fun h hh => iSup₂_le fun V hV => ?_⟩
    exact (hV.2.2 h hh).trans (M.slot_mono fun k _ => hmem hV k)
  let W' : Handle → X := fun h => if h ∈ D then M.slot W (g.slot? h) else W h
  have hWW' : ∀ h ∈ D, W h ≤ W' h := fun h hh => by
    simp only [W', if_pos hh]
    exact hW.2.2 h hh
  have hW' : W' ∈ stages := by
    refine ⟨fun h hh => ?_, fun h hh => ?_, fun h hh => ?_⟩ <;> simp only [W', if_pos hh]
    · exact hA W hW.1 hW.2.1 hW.2.2 h hh
    · rw [M.value_eq]
      exact M.slot_mono fun k hk => hW.2.1 k (hD h hh k hk)
    · exact M.slot_mono fun k hk => hWW' k (hD h hh k hk)
  intro h hh
  refine le_trans ?_ (hW.1 h hh)
  refine M.value_le hD (fun k hk => ?_) h hh
  have hle := hmem hW' k
  simpa only [W', if_pos hk] using hle

/-- What a handle stands for depends on the region that can be reached from it alone. -/
theorem value_le_congr (hD : g.Closed D) (hslot : ∀ h ∈ D, g'.slot? h = g.slot? h)
    (hnode : ∀ h ∈ D, ∀ n, g.slot? h = some (.node n) → ∀ V, M.node n V ≤ N.node n V) :
    ∀ h ∈ D, M.value g h ≤ N.value g' h := by
  refine M.value_le hD fun h hh => ?_
  rw [N.value_eq, hslot h hh]
  rcases hs : g.slot? h with _ | (n | body | name | t)
  · exact bot_le
  · exact hnode h hh n hs _
  · exact bot_le
  · exact bot_le
  · exact le_rfl

theorem value_congr (hD : g.Closed D) (hslot : ∀ h ∈ D, g'.slot? h = g.slot? h)
    (hnode : ∀ h ∈ D, ∀ n, g.slot? h = some (.node n) → ∀ V, M.node n V = N.node n V) :
    ∀ h ∈ D, M.value g h = N.value g' h := by
  have hD' : g'.Closed D := fun h hh k hk => by
    unfold Graph.references at hk
    rw [hslot h hh] at hk
    exact hD h hh k hk
  intro h hh
  refine le_antisymm
    (M.value_le_congr hD hslot (fun h hh n hs V => (hnode h hh n hs V).le) h hh)
    (N.value_le_congr hD' (fun h hh => (hslot h hh).symm) (fun h hh n hs V => ?_) h hh)
  exact (hnode h hh n (by rw [← hslot h hh]; exact hs) V).ge

/-- When a forward is sent on to what stands for less, everything stands for less. -/
theorem value_redirect_le {p v : Handle} (hD : (g.redirect p v).Closed D)
    (hp : g.slot? p = some (.forward t)) (hle : M.value g v ≤ M.value g p)
    (hnode : ∀ h ∈ D, ∀ n, g.slot? h = some (.node n) → ∀ V, N.node n V ≤ M.node n V) :
    ∀ h ∈ D, N.value (g.redirect p v) h ≤ M.value g h := by
  refine N.value_le hD fun h hh => ?_
  rcases eq_or_ne h p with rfl | hne
  · unfold Graph.redirect
    split
    · rw [hp, M.value_forward hp]
      exact le_rfl
    · rw [Graph.slot?_setForward_self (Graph.slot?_lt hp)]
      exact hle
  · rw [Graph.slot?_redirect_of_ne hne, M.value_eq g h]
    rcases hs : g.slot? h with _ | (n | body | name | t)
    · exact le_rfl
    · exact hnode h hh n hs _
    · exact le_rfl
    · exact le_rfl
    · exact le_rfl

/-- When a forward has been sent on and stands for no less than what it forwarded to, nothing stands
for less. -/
theorem le_value_redirect {p v : Handle} (hD : g.Closed D) (hp : g.slot? p = some (.forward t))
    (hle : N.value (g.redirect p v) t ≤ N.value (g.redirect p v) p)
    (hnode : ∀ h ∈ D, ∀ n, g.slot? h = some (.node n) → ∀ V, M.node n V ≤ N.node n V) :
    ∀ h ∈ D, M.value g h ≤ N.value (g.redirect p v) h := by
  refine M.value_le hD fun h hh => ?_
  rcases eq_or_ne h p with rfl | hne
  · rw [hp]
    exact hle
  · rw [N.value_eq (g.redirect p v) h, Graph.slot?_redirect_of_ne hne]
    rcases hs : g.slot? h with _ | (n | body | name | t)
    · exact le_rfl
    · exact hnode h hh n hs _
    · exact le_rfl
    · exact le_rfl
    · exact le_rfl

end Meaning

end DerivativeParsing
