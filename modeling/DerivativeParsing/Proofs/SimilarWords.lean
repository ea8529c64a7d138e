import DerivativeParsing.Proofs.Bisimilarity

/-!
# Equal expressions match the same words

A relation *simulates* if related handles lead to the same end, or to nodes whose operands are
related in turn (`Graph.Simulates`).  Handles that are related by such a relation have the same
language, in each stratum (`Simulates.stratum_eq`).

The pairs that a comparison is left with are such a relation, so that expressions that are found to
be equal match the same words (`language_eq_of_similar`).  Nothing is asked of the graph here: an
expression may contain references that lead nowhere.
-/

set_option autoImplicit false

namespace DerivativeParsing

open Fixpoint DerivativeParsing.Graph
open scoped Computability

/-! ## Words of related nodes -/

section Relates

variable {R : Handle → Handle → Prop} {n m : Node} {outer outer' V W : Handle → WordSet}

/-- A node that is related to another has no more words than it, if that holds of the operands. -/
theorem Node.Relates.words_le (h : n.Relates R m) (hVW : ∀ a b, R a b → V a ≤ W b)
    (houter : ∀ a b, n = .not a → m = .not b → R a b → outer' b ≤ outer a) :
    n.words outer V ≤ m.words outer' W := by
  cases h with
  | nil => exact le_rfl
  | empty => exact le_rfl
  | any => exact le_rfl
  | char c => exact le_rfl
  | range first last => exact le_rfl
  | token text => exact le_rfl
  | alt h h' => exact add_le_add (hVW _ _ h) (hVW _ _ h')
  | seq h h' => exact mul_le_mul' (hVW _ _ h) (hVW _ _ h')
  | star h => exact kstar_mono (hVW _ _ h)
  | rep count h =>
      cases count with
      | exactly k => exact pow_le_pow_left' (hVW _ _ h) k
      | unbounded => exact kstar_mono (hVW _ _ h)
  | not h =>
      have hle := houter _ _ rfl rfl h
      exact fun w hw hmem => hw (hle hmem)
  | nullability h => exact inf_le_inf_right _ (hVW _ _ h)
  | emptyReduction trees => exact le_rfl
  | reduction hname h => exact hVW _ _ h

end Relates

/-! ## Simulations -/

namespace Graph

variable {g : Graph} {R : Handle → Handle → Prop} {a b h r : Handle} {i : Nat}
  {outer V : Handle → WordSet}

/-- At the end of a chain, a handle has the words of the node there: a reference that leads nowhere
has none, like `∅`. -/
theorem slot_words_of_end (hend : ∀ t, g.slot? r ≠ some (.forward t)) :
    (wordMeaning outer).slot V (g.slot? r) = (g.node r).words outer V :=
  (wordMeaning outer).slot_of_end rfl hend

/-- Related handles lead to the same end, or to nodes whose operands are related. -/
def Simulates (g : Graph) (R : Handle → Handle → Prop) : Prop :=
  ∀ a b, R a b → ∃ r s, g.Leads a r ∧ g.Leads b s ∧ (r = s ∨ (g.node r).Relates R (g.node s))

theorem Simulates.symm (hR : g.Simulates R) : g.Simulates fun a b => R b a := fun a b hab => by
  obtain ⟨r, s, hr, hs, he | hrelates⟩ := hR b a hab
  · exact ⟨s, r, hs, hr, .inl he.symm⟩
  · exact ⟨s, r, hs, hr, .inr hrelates.symm⟩

/-- What related handles stand for is below one another if that is so for related nodes. -/
theorem Simulates.value_le {X : Type} [CompleteLattice X] {M : Meaning X} (hR : g.Simulates R)
    (hnil : ∀ V, M.node .nil V = ⊥)
    (hnode : ∀ a b r s, R a b → g.Leads a r → g.Leads b s → (g.node r).Relates R (g.node s) →
      ∀ V W : Handle → X, (∀ c d, R c d → V c ≤ W d) →
        M.node (g.node r) V ≤ M.node (g.node s) W)
    (hab : R a b) : M.value g a ≤ M.value g b := by
  -- What a handle stands for at a stage is below whatever its end is related to.
  let A : Handle → X := fun h =>
    M.value g h ⊓ sInf {x | ∃ r a b, g.Leads h r ∧ g.Leads a r ∧ R a b ∧ x = M.value g b}
  have hA : ∀ h ∈ (Set.univ : Set Handle), M.value g h ≤ A h := by
    refine M.value_le (fun _ _ _ _ => trivial) fun h _ => ?_
    have hvalue : M.slot A (g.slot? h) ≤ M.value g h := by
      rw [M.value_eq]
      exact M.slot_mono fun _ _ => inf_le_left
    refine le_inf hvalue (le_sInf ?_)
    rintro _ ⟨r, a, b, hl, ha, hab, rfl⟩
    cases hl with
    | step hf hrest =>
        rw [hf]
        exact inf_le_right.trans (sInf_le ⟨r, a, b, hrest, ha, hab, rfl⟩)
    | here hend =>
        obtain ⟨r, s, hr, hs, hrs⟩ := hR a b hab
        obtain rfl := ha.unique hr
        rw [M.value_leads hs]
        rcases hrs with rfl | hrelates
        · exact hvalue
        · rw [M.value_eq, M.slot_of_end (hnil _) hend, M.slot_of_end (hnil _) hs.end_ne_forward]
          refine hnode a b _ s hab hr hs hrelates _ _ fun c d hcd => ?_
          obtain ⟨r', -, hr', -⟩ := hR c d hcd
          exact inf_le_right.trans (sInf_le ⟨r', c, d, hr', hr', hcd, rfl⟩)
  obtain ⟨r, -, hr, -⟩ := hR a b hab
  exact (hA a trivial).trans (inf_le_right.trans (sInf_le ⟨r, a, b, hr, hr, hab, rfl⟩))

/-- In a stratum, related handles are below one another if they are equal in the stratum below. -/
theorem Simulates.stratum_le (hR : g.Simulates R)
    (hbelow : ∀ a b, R a b → g.stratum i a = g.stratum i b) (hab : R a b) :
    g.stratum (i + 1) a ≤ g.stratum (i + 1) b :=
  hR.value_le (M := wordMeaning (g.stratum i)) (fun _ => rfl)
    (fun _ _ _ _ _ _ _ hrelates _ _ hVW => hrelates.words_le hVW fun c d _ _ hcd =>
      (hbelow c d hcd).ge) hab

/-- Related handles are equal in all strata. -/
theorem Simulates.stratum_eq (hR : g.Simulates R) (i : Nat) :
    ∀ a b, R a b → g.stratum i a = g.stratum i b := by
  induction i with
  | zero => exact fun _ _ _ => rfl
  | succ i ih =>
      intro a b hab
      exact le_antisymm (hR.stratum_le ih hab)
        (hR.symm.stratum_le (fun a b hab => (ih b a hab).symm) hab)

/-- Related handles have the same language. -/
theorem Simulates.language_eq (hR : g.Simulates R) (hab : R a b) : g.language a = g.language b := by
  ext w
  exact exists_congr fun n => forall₂_congr fun i _ => by rw [hR.stratum_eq i a b hab]

/-! ## Comparisons -/

/-- The pairs that a comparison is left with are a simulation. -/
theorem exists_simulates_of_similar (h : g.similar a b = some true) :
    ∃ R : Handle → Handle → Prop, g.Simulates R ∧ R a b := by
  unfold Graph.similar at h
  rcases hr : g.resolve a with _ | r
  · simp [hr] at h
  rcases hs : g.resolve b with _ | s
  · simp [hr, hs] at h
  simp only [hr, hs, Option.bind_eq_bind, Option.bind_some, Option.bind_eq_some_iff] at h
  obtain ⟨⟨v, _⟩, hrun, hv⟩ := h
  cases hv
  obtain ⟨m₀, m₁, -, -, hvisit, hstale⟩ := run_last_pass (J := fun _ => True)
    (fun _ _ _ _ _ _ => trivial) trivial (fun _ _ => trivial) hrun
  obtain ⟨hfinished, htraced⟩ := visit_traced hvisit hstale
  let R : Handle → Handle → Prop := fun x y =>
    ∃ r s, g.Leads x r ∧ g.Leads y s ∧ (r = s ∨ m₁.Finished (r, s) true)
  have hR : g.Simulates R := by
    rintro x y ⟨r, s, hx, hy, he | hrs⟩
    · exact ⟨r, s, hx, hy, .inl he⟩
    · refine ⟨r, s, hx, hy, (Similar.of_rule_yields_true (htraced _ _ hrs)).imp id fun h => ?_⟩
      refine h.mono fun c _ d _ hcd => ?_
      obtain ⟨t, u, ht, hu, hv⟩ := hcd
      exact ⟨t, u, ht, hu, .inr hv⟩
  exact ⟨R, hR, r, s, resolve_eq_some.1 hr, resolve_eq_some.1 hs, .inr hfinished⟩

/-- Expressions that are found to be equal match the same words. -/
theorem language_eq_of_similar (h : g.similar a b = some true) : g.language a = g.language b := by
  obtain ⟨R, hR, hab⟩ := exists_simulates_of_similar h
  exact hR.language_eq hab

end Graph

end DerivativeParsing
