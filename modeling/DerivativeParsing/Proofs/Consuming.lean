import DerivativeParsing.Recognition
import DerivativeParsing.Proofs.DerivativeWords
import DerivativeParsing.Proofs.Simplification
import DerivativeParsing.Proofs.EmptyTrees

/-!
# What derivatives leave of an expression

Matching and parsing take one derivative for each character and simplify it, once or until nothing
changes.  What is left of the expression has no words but the remainders of words of the expression
(`After`), and all of them if no simplification on the way loses a word.

The expressions on the way have to be ready: a simplification that closes a chain of forwards leaves
an expression that the next derivative cannot be asked for.  Where no cycle can be reached, nothing
of that happens: derivatives and simplification keep that (`throughout_of_kept`).
-/

set_option autoImplicit false

namespace DerivativeParsing

open Fixpoint

namespace Graph

variable {g g' g₁ g₂ : Graph} {h h' d s : Handle} {c : Char} {fuel rounds : Nat} {E : Prop}
  {word u w : List Char} {f : Graph → Handle → Option (Handle × Graph)}
  {P I : Graph → Handle → Prop}

/-! ## One step -/

/-- An expression that has been made of another one: it has no more words, and the same words if
nothing has been lost. -/
structure Refines (E : Prop) (g : Graph) (h : Handle) (g' : Graph) (s : Handle) : Prop where
  workable : g'.Workable s
  le : g'.language s ≤ g.language h
  eq : E → g'.language s = g.language h
  trees : g.HasTrees {k | g.Reaches h k} → g'.HasTrees {k | g'.Reaches s k}

theorem Refines.trans (h₁ : Refines E g h g₁ d) (h₂ : Refines E g₁ d g₂ s) :
    Refines E g h g₂ s where
  workable := h₂.workable
  le := h₂.le.trans h₁.le
  eq hE := (h₂.eq hE).trans (h₁.eq hE)
  trees htrees := h₂.trees (h₁.trees htrees)

/-- An expression can be prepared, and so can its simplified form. -/
def SimplifiesReady (fuel : Nat) (g : Graph) (h : Handle) : Prop :=
  g.Ready h ∧ ∀ s g', g.simplify fuel h = some (s, g') → g'.Ready s

/-- Simplification of an expression loses no word: no cycle can be reached, or no placeholder comes
to stand for less. -/
def KeepsWords (fuel : Nat) (g : Graph) (h : Handle) : Prop :=
  g.Tame h ∨ ∀ r, g.Leads h r → g.SimplifiesLosslessly fuel r

/-- Simplification of an expression leaves one with the same words, which can be prepared. -/
def SimplifiesFaithfully (fuel : Nat) (g : Graph) (h : Handle) : Prop :=
  g.SimplifiesReady fuel h ∧ g.KeepsWords fuel h

theorem HasTrees.scope (hg : g.WellFormed) (h' : g.HasTrees {k | g.Reaches h k}) :
    g.HasTrees (g.scope h) := by
  rintro k (hk | rfl | rfl | rfl) f hs
  · exact h' k hk f hs
  · rw [hg.nil] at hs
    cases hs
  · rw [hg.empty] at hs
    cases hs
  · rw [hg.any] at hs
    cases hs

theorem HasTrees.reaches (h' : g.HasTrees {k | g.Reaches h k}) (hd : g.Reaches h d) :
    g.HasTrees {k | g.Reaches d k} := fun k hk => h' k (hd.trans hk)

namespace Workable

/-- The derivative of an expression has the remainders of its words, and can be worked with if it
can be prepared.  If no cycle can be reached, that is so, and none can be reached from the
derivative either. -/
theorem derivative (hh : g.Workable h) (hd : g.derivative c h = some (d, g')) :
    (∀ w, w ∈ g'.language d ↔ c :: w ∈ g.language h) ∧ (g'.Ready d → g'.Workable d) ∧
      (g.HasTrees {k | g.Reaches h k} → g'.HasTrees {k | g'.Reaches d k}) ∧
        (g.Tame h → g'.Ready d ∧ g'.Tame d) := by
  obtain ⟨r, n, hl, -⟩ := hh.ready h .refl
  obtain ⟨v, graph, m, hrun, hdiff, hv⟩ := derivative_differentiates (c := c) hh.part
    hh.tameComplements (.inl .refl) hl
  rw [hd] at hrun
  cases hrun
  have hmem := (hdiff.finished_mem hv).2
  have hfirm := hdiff.inv.firm
  refine ⟨fun w => ?_, fun hready => ?_, fun htrees k hk => ?_, fun htame => ?_⟩
  · rw [hh.layered.language_leads hl]
    exact hdiff.mem_language_iff hv w
  · exact ⟨hdiff.working.wellFormed, hmem.1, hready, hfirm.complementsTame hdiff.working hmem⟩
  · exact hfirm.trees (htrees.scope hh.wellFormed) k (hdiff.working.closed.of_reaches hmem hk)
  · have hd := hfirm.results r d hv (htame.reaches hl.reaches)
    exact ⟨hdiff.working.ready_of_firm hh.part hmem hd, hd.tame⟩

/-- The simplified form of an expression refines it if it can be prepared. -/
theorem simplify (hh : g.Workable h) (hs : g.simplify fuel h = some (s, g'))
    (hready : g'.Ready s) (hkeeps : E → g.KeepsWords fuel h) :
    Refines E g h g' s := by
  obtain ⟨r, n, hl, -⟩ := hh.ready h .refl
  obtain ⟨m, hsimplified⟩ := hh.part.simplified hh.tameComplements (.inl .refl) hl hs
  have hmem := hsimplified.mem_grown
  have hw := hsimplified.working
  refine ⟨⟨hw.wellFormed, hmem.1, hready, hsimplified.inv.firm.complementsTame hw hmem⟩, ?_,
    fun hE => ?_, fun htrees k hk => ?_⟩
  · rw [hh.layered.language_leads hl]
    exact hsimplified.language_le
  · rw [hh.layered.language_leads hl]
    exact hsimplified.language_eq ((hkeeps hE).symm.imp (· r hl) (·.reaches hl.reaches))
  · exact hsimplified.inv.firm.trees (htrees.scope hh.wellFormed) k (hw.closed.of_reaches hmem hk)

/-- If no cycle can be reached from an expression, its simplified form can be prepared, and no cycle
can be reached from it either. -/
theorem simplify_of_tame (hh : g.Workable h) (htame : g.Tame h)
    (hs : g.simplify fuel h = some (s, g')) : g'.Workable s ∧ g'.Tame s := by
  obtain ⟨r, n, hl, -⟩ := hh.ready h .refl
  obtain ⟨m, hsimplified⟩ := hh.part.simplified hh.tameComplements (.inl .refl) hl hs
  have htame := htame.reaches hl.reaches
  have hready := hsimplified.ready hh.part (.inr htame)
  exact ⟨(hh.simplify (E := False) hs hready False.elim).workable,
    (hsimplified.inv.firm.results r s hsimplified.finished htame).tame⟩

theorem simplifiesFaithfully_of_tame (hh : g.Workable h) (htame : g.Tame h) :
    g.SimplifiesFaithfully fuel h :=
  ⟨⟨hh.ready, fun _ _ hs => (hh.simplify_of_tame htame hs).1.ready⟩, .inl htame⟩

/-- If there can be room for all lists of an expression, there can be for those of its
derivatives. -/
theorem fits_derivative (hh : g.Workable h) (hfits : g.Fits {k | g.Reaches h k})
    (hd : g.derivative c h = some (d, g')) : g'.Fits {k | g'.Reaches d k} := by
  obtain ⟨r, n, hl, -⟩ := hh.ready h .refl
  obtain ⟨v, graph, m, hrun, hdiff, hv⟩ := derivative_differentiates (c := c) hh.part
    hh.tameComplements (.inl .refl) hl
  rw [hd] at hrun
  cases hrun
  exact fun k hk => hdiff.inv.firm.fits (hfits.scope hh.wellFormed) k
    (hdiff.working.closed.of_reaches (hdiff.finished_mem hv).2 hk)

/-- So there can be for those of its simplified form. -/
theorem fits_simplify (hh : g.Workable h) (hfits : g.Fits {k | g.Reaches h k})
    (hs : g.simplify fuel h = some (s, g')) : g'.Fits {k | g'.Reaches s k} := by
  obtain ⟨r, n, hl, -⟩ := hh.ready h .refl
  obtain ⟨m, hsimplified⟩ := hh.part.simplified hh.tameComplements (.inl .refl) hl hs
  exact fun k hk => hsimplified.inv.firm.fits (hfits.scope hh.wellFormed) k
    (hsimplified.working.closed.of_reaches hsimplified.mem_grown hk)

theorem not_mem_of_isNil (hh : g.Workable h) (hnil : g.isNil h = some true) :
    w ∉ g.language h := by
  rw [hh.layered.language_nodeAt (nodeAt_of_isNil hnil)]
  exact id

end Workable

/-! ## Normalisation -/

/-- A property holds of every expression that is simplified in a normalisation. -/
def ThroughoutRounds (fuel : Nat) (P : Graph → Handle → Prop) : Nat → Graph → Handle → Prop
  | 0, _, _ => True
  | rounds + 1, g, h => P g h ∧ ∀ s g', g.simplify fuel h = some (s, g') → s ≠ h →
      g'.similar h s = some false → g'.ThroughoutRounds fuel P rounds s

/-- A property holds of every expression that is simplified until nothing changes. -/
abbrev Normalises (fuel : Nat) (P : Graph → Handle → Prop) (g : Graph) (h : Handle) : Prop :=
  g.ThroughoutRounds fuel P fuel h

/-- A normalisation ends with a simplification that makes no difference, or goes on with its result.
-/
theorem normaliseWithin_cases (hrun : g.normaliseWithin fuel (rounds + 1) h = some (s, g')) :
    g.simplify fuel h = some (s, g') ∧ (s = h ∨ g'.similar h s = some true) ∨
      ∃ d g₁, g.simplify fuel h = some (d, g₁) ∧ d ≠ h ∧ g₁.similar h d = some false ∧
        g₁.normaliseWithin fuel rounds d = some (s, g') := by
  rw [normaliseWithin] at hrun
  obtain ⟨⟨d, g₁⟩, hd, hrun⟩ := Option.bind_eq_some_iff.1 hrun
  dsimp only at hrun
  split at hrun
  · next he =>
      cases hrun
      exact .inl ⟨hd, .inl he⟩
  · next hne =>
      obtain ⟨same, hsame, hrun⟩ := Option.bind_eq_some_iff.1 hrun
      cases same with
      | true =>
          cases hrun
          exact .inl ⟨hd, .inr hsame⟩
      | false => exact .inr ⟨d, g₁, hd, hne, hsame, hrun⟩

/-- If an expression can be worked with once it can be prepared, what is left when it has been
simplified until nothing changes refines it. -/
theorem refines_normalise (hworkable : g.Ready h → g.Workable h)
    (hP : ∀ g h, P g h → g.SimplifiesReady fuel h ∧ (E → g.KeepsWords fuel h))
    (hrounds : g.ThroughoutRounds fuel P rounds h)
    (hrun : g.normaliseWithin fuel rounds h = some (s, g')) : Refines E g h g' s := by
  induction rounds generalizing g h with
  | zero => cases hrun
  | succ rounds ih =>
      obtain ⟨hready, hkeeps⟩ := hP g h hrounds.1
      have hh := hworkable hready.1
      rcases normaliseWithin_cases hrun with ⟨hs, -⟩ | ⟨d, g₁, hd, hne, hsimilar, hrun⟩
      · exact hh.simplify hs (hready.2 s g' hs) hkeeps
      · have hrefines := hh.simplify hd (hready.2 d g₁ hd) hkeeps
        refine hrefines.trans (ih (fun _ => hrefines.workable) ?_ hrun)
        exact hrounds.2 d g₁ hd hne hsimilar

/-- A property of expressions that simplification keeps holds throughout a normalisation. -/
theorem throughoutRounds_of_kept
    (hsimplify : ∀ g h s g', I g h → g.simplify fuel h = some (s, g') → I g' s)
    (hP : ∀ g h, I g h → P g h) (hh : I g h) : g.ThroughoutRounds fuel P rounds h := by
  induction rounds generalizing g h with
  | zero => trivial
  | succ rounds ih => exact ⟨hP g h hh, fun s g' hs _ _ => ih (hsimplify g h s g' hh hs)⟩

/-- A property of expressions that simplification keeps holds of what is left. -/
theorem normalise_of_kept
    (hsimplify : ∀ g h s g', I g h → g.simplify fuel h = some (s, g') → I g' s) (hh : I g h)
    (hrun : g.normaliseWithin fuel rounds h = some (s, g')) : I g' s := by
  induction rounds generalizing g h with
  | zero => cases hrun
  | succ rounds ih =>
      rcases normaliseWithin_cases hrun with ⟨hs, -⟩ | ⟨d, g₁, hd, -, -, hrun⟩
      · exact hsimplify g h s g' hh hs
      · exact ih (hsimplify g h d g₁ hh hd) hrun

/-! ## Words -/

/-- After derivatives by the characters of a word, what is left of an expression has no words but
the remainders, and all of them if nothing has been lost. -/
structure After (E : Prop) (g : Graph) (h : Handle) (u : List Char) (g' : Graph) (h' : Handle) :
    Prop where
  workable : g'.Workable h'
  le : ∀ w, w ∈ g'.language h' → u ++ w ∈ g.language h
  eq : E → ∀ w, w ∈ g'.language h' ↔ u ++ w ∈ g.language h
  trees : g.HasTrees {k | g.Reaches h k} → g'.HasTrees {k | g'.Reaches h' k}

/-- Derivatives by characters of a word, each of them followed by `f`, lead to another expression,
with which a rest of the word is left. -/
inductive Consumes (f : Graph → Handle → Option (Handle × Graph)) :
    Graph → Handle → List Char → Graph → Handle → List Char → Prop where
  | done {g : Graph} {h : Handle} {w : List Char} : Consumes f g h w g h w
  | step {g g₁ g₂ g' : Graph} {h d s h' : Handle} {c : Char} {word w : List Char}
      (hd : g.derivative c h = some (d, g₁)) (hs : f g₁ d = some (s, g₂))
      (hrest : Consumes f g₂ s word g' h' w) : Consumes f g h (c :: word) g' h' w

/-- A property holds of every derivative to which `f` is applied. -/
def Throughout (f : Graph → Handle → Option (Handle × Graph)) (P : Graph → Handle → Prop) :
    Graph → Handle → List Char → Prop
  | _, _, [] => True
  | g, h, c :: rest => ∀ d g₁, g.derivative c h = some (d, g₁) → P g₁ d ∧
      ∀ s g₂, f g₁ d = some (s, g₂) → Throughout f P g₂ s rest

namespace Workable

/-- What is left after derivatives, each of them refined. -/
theorem consumes (hh : g.Workable h)
    (hrefines : ∀ g h s g', P g h → (g.Ready h → g.Workable h) → f g h = some (s, g') →
      Refines E g h g' s)
    (hP : Throughout f P g h word) (hrun : Consumes f g h word g' h' w) :
    ∃ u, word = u ++ w ∧ After E g h u g' h' := by
  induction hrun with
  | done => exact ⟨[], rfl, hh, fun _ => id, fun _ _ => .rfl, id⟩
  | @step g g₁ g₂ g' h d s h' c word w hd hs _ ih =>
      obtain ⟨hwords, hworkable, htrees, -⟩ := hh.derivative hd
      obtain ⟨hp, hP⟩ := hP d g₁ hd
      have hrefines := hrefines g₁ d s g₂ hp hworkable hs
      obtain ⟨u, rfl, hafter⟩ := ih hrefines.workable (hP s g₂ hs)
      refine ⟨c :: u, rfl, hafter.workable, fun w hw => ?_, fun hE w => ?_, fun h => ?_⟩
      · exact (hwords _).1 (hrefines.le (hafter.le w hw))
      · rw [hafter.eq hE w, hrefines.eq hE]
        exact hwords _
      · exact hafter.trees (hrefines.trees (htrees h))

/-- An expression from which no cycle can be reached has such a derivative. -/
theorem derivative_of_tame (hh : g.Workable h) (htame : g.Tame h)
    (hd : g.derivative c h = some (d, g')) : g'.Workable d ∧ g'.Tame d := by
  obtain ⟨-, hworkable, -, hready⟩ := hh.derivative hd
  obtain ⟨hready, htame⟩ := hready htame
  exact ⟨hworkable hready, htame⟩

end Workable

/-- A property of expressions that derivatives and `f` keep holds throughout. -/
theorem throughout_of_kept
    (hderivative : ∀ c g h d g', I g h → g.derivative c h = some (d, g') → I g' d)
    (hf : ∀ g h s g', I g h → f g h = some (s, g') → I g' s) (hP : ∀ g h, I g h → P g h)
    (hh : I g h) : Throughout f P g h word := by
  induction word generalizing g h with
  | nil => trivial
  | cons c rest ih =>
      intro d g₁ hd
      have hd := hderivative c g h d g₁ hh hd
      exact ⟨hP g₁ d hd, fun s g₂ hs => ih (hf g₁ d s g₂ hd hs)⟩

end Graph

end DerivativeParsing
