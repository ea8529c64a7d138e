import DerivativeParsing.Proofs.Matching
import DerivativeParsing.Proofs.SimplifiedTraces
import DerivativeParsing.Proofs.TangibleDerivatives

/-!
# The trees of a parse

A derivative gives to a word the trees that the expression gives to the word with the character in
front.  So if no simplification on the way changes trees (`SimplifiesTruly`), the parses of a word
are exactly the trees that the expression gives to it (`Grammar.mem_parse_iff`): none is lost, and
none is made up.

That is so for tangible expressions from which no cycle can be reached.  Derivatives and
simplification make such expressions of them (`Solid.derivative`, `Solid.simplify`).
-/

set_option autoImplicit false

namespace DerivativeParsing

open Fixpoint DerivativeParsing.Graph

namespace Graph

variable {g g' : Graph} {h h' d s : Handle} {c : Char} {fuel rounds : Nat} {word w : List Char}
  {F : Forest} {t : Tree} {R : Set Reducer}

/-- Simplification of an expression leaves one that can be prepared, and that gives every word the
same trees. -/
def SimplifiesTruly (fuel : Nat) (g : Graph) (h : Handle) : Prop :=
  g.SimplifiesReady fuel h ∧
    ∀ s g', g.simplify fuel h = some (s, g') → g'.treesOf s = g.treesOf h

theorem treesOf_normaliseWithin (hrounds : g.ThroughoutRounds fuel (SimplifiesTruly fuel) rounds h)
    (hrun : g.normaliseWithin fuel rounds h = some (s, g')) : g'.treesOf s = g.treesOf h := by
  induction rounds generalizing g h with
  | zero => cases hrun
  | succ rounds ih =>
      obtain ⟨⟨-, htrees⟩, hrest⟩ := hrounds
      rcases normaliseWithin_cases hrun with ⟨hs, -⟩ | ⟨d, g₁, hd, hne, hsimilar, hrun⟩
      · exact htrees s g' hs
      · exact (ih (hrest d g₁ hd hne hsimilar) hrun).trans (htrees d g₁ hd)

namespace Workable

/-- A normalisation without a simplification that changes trees. -/
theorem normalise_truly (hh : g.Ready h → g.Workable h)
    (hnormalises : g.Normalises fuel (SimplifiesTruly fuel) h)
    (hrun : g.normalise fuel h = some (s, g')) : g'.Workable s ∧ g'.treesOf s = g.treesOf h :=
  ⟨(refines_normalise (E := False) hh (fun _ _ hp => ⟨hp.1, False.elim⟩) hnormalises hrun).workable,
    treesOf_normaliseWithin hnormalises hrun⟩

/-- What derivatives leave gives to the rest of a word the trees that the expression gives to the
word. -/
theorem treesOf_consumes (hh : g.Workable h)
    (hthroughout : Throughout (normalise fuel) (Normalises fuel (SimplifiesTruly fuel)) g h word)
    (hrun : Consumes (normalise fuel) g h word g' h' w) :
    g'.Workable h' ∧ g'.treesOf h' w = g.treesOf h word := by
  induction hrun with
  | done => exact ⟨hh, rfl⟩
  | @step g g₁ g₂ g' h d s h' c word w hd hs _ ih =>
      obtain ⟨-, hworkable, -, -⟩ := hh.derivative hd
      obtain ⟨hp, hthroughout⟩ := hthroughout d g₁ hd
      obtain ⟨hsworkable, htrees⟩ := normalise_truly hworkable hp hs
      obtain ⟨hworkable', htrees'⟩ := ih hsworkable (hthroughout s g₂ hs)
      exact ⟨hworkable', by rw [htrees', htrees, hh.treesOf_derivative hd]⟩

/-- The parses of a word are its trees. -/
theorem mem_parses (hh : g.Workable h) (hwhen : g.WhenParsing fuel (SimplifiesTruly fuel) h word)
    (hrun : g.parses fuel h word = some (F, g')) : t ∈ F ↔ t ∈ g.treesOf h word := by
  rw [parses] at hrun
  obtain ⟨⟨s, g₁⟩, hs, hrun⟩ := Option.bind_eq_some_iff.1 hrun
  obtain ⟨hworkable, htrees⟩ := normalise_truly (fun _ => hh) hwhen.1 hs
  obtain ⟨s', w, hconsumes, hend⟩ := consumes_of_parsesFrom hrun
  obtain ⟨hworkable', htrees'⟩ := hworkable.treesOf_consumes (hwhen.2 s g₁ hs) hconsumes
  rw [← htrees, ← htrees']
  rcases hend with ⟨rfl, hF⟩ | ⟨hnil, rfl⟩
  · rw [treesOf_nil]
    exact hworkable'.mem_emptyParses hF
  · rw [treesOf_of_isNil hnil]
    exact iff_of_false (Forest.not_mem_empty t) id

end Workable

/-! ## Tangible expressions -/

/-- A tangible expression that can be worked with, and from which no cycle can be reached. -/
structure Solid (R : Set Reducer) (g : Graph) (h : Handle) : Prop where
  workable : g.Workable h
  tame : g.Tame h
  tangible : g.Tangible R h

namespace Solid

theorem derivative (hh : g.Solid R h) (hR : Reducer.Agreeing R)
    (hd : g.derivative c h = some (d, g')) : g'.Solid R d := by
  obtain ⟨hworkable, htame⟩ := hh.workable.derivative_of_tame hh.tame hd
  exact ⟨hworkable, htame, hh.workable.tangible_derivative hR hh.tame hh.tangible hd⟩

theorem simplify (hh : g.Solid R h) (hR : Reducer.Agreeing R)
    (hs : g.simplify fuel h = some (s, g')) : g'.Solid R s := by
  obtain ⟨hworkable, htame⟩ := hh.workable.simplify_of_tame hh.tame hs
  exact ⟨hworkable, htame, (hh.workable.traces_simplify hR hh.tame hh.tangible hs).2⟩

theorem simplifiesTruly (hh : g.Solid R h) (hR : Reducer.Agreeing R) :
    g.SimplifiesTruly fuel h := by
  refine ⟨⟨hh.workable.ready, fun s g' hs => (hh.simplify hR hs).workable.ready⟩, fun s g' hs => ?_⟩
  unfold treesOf
  rw [(hh.workable.traces_simplify hR hh.tame hh.tangible hs).1]

/-- No simplification changes trees when a word is parsed. -/
theorem whenParsing (hh : g.Solid R h) (hR : Reducer.Agreeing R) :
    g.WhenParsing fuel (SimplifiesTruly fuel) h word :=
  whenParsing_of_kept (fun _ _ _ _ _ hh hd => hh.derivative hR hd)
    (fun _ _ _ _ hh hs => hh.simplify hR hs) (fun _ _ hh => hh.simplifiesTruly hR) hh

end Solid

end Graph

/-! ## The action on a grammar -/

namespace Grammar

variable {g g₁ g₂ : Grammar} {root r : Handle} {fuel : Nat} {text : String} {F : Forest}

/-- The parses of a text are the trees that the expression gives to it, as long as no simplification
on the way changes trees, as for tangible expressions from which no cycle can be reached. -/
theorem mem_parse_iff (hg : g.WellFormed) (hroot : g.Has root)
    (hprepare : (prepare root).run.run g = (.ok r, g₁)) (htame : g₁.graph.ComplementsTame root)
    (hwhen : g₁.graph.WhenParsing fuel (SimplifiesTruly fuel) r text.toList ∨
      ∃ R, Reducer.Agreeing R ∧ g₁.graph.Tame root ∧ g₁.graph.Tangible R root)
    (hparse : (parse fuel root text).run.run g = (.ok F, g₂)) (t : Tree) :
    t ∈ F ↔ t ∈ g₁.graph.treesOf root text.toList := by
  obtain ⟨hl, hworkable, -⟩ := workable_of_prepare hg hroot hprepare htame
  obtain ⟨after, hrun⟩ := parses_of_run hprepare hparse
  have hwhen : g₁.graph.WhenParsing fuel (SimplifiesTruly fuel) r text.toList := by
    rcases hwhen with hwhen | ⟨R, hR, htame, htangible⟩
    · exact hwhen
    · have hr : g₁.graph.Solid R r :=
        ⟨hworkable, htame.reaches hl.reaches, htangible.reaches hl.reaches⟩
      exact hr.whenParsing hR
  rw [hworkable.mem_parses hwhen hrun]
  unfold treesOf
  rw [traces_leads hl]

end Grammar

end DerivativeParsing
