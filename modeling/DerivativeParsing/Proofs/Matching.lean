import Mathlib.Data.List.Permutation
import DerivativeParsing.Recognition
import DerivativeParsing.Proofs.Consuming
import DerivativeParsing.Proofs.EmptyTrees

/-!
# Matching and parsing

A word is matched, and it is parsed, by derivatives that are simplified.  A derivative is exact, and
simplification adds no word, so that only words of an expression are accepted, and only they have
parses.  All of them are and have, if no simplification on the way loses a word.  Then matching and
parsing agree, although they simplify different expressions.

Both need that the expressions on the way can be prepared (`SimplifiesReady`).  Where no cycle can
be reached, nothing has to be required.
-/

set_option autoImplicit false

namespace DerivativeParsing

open Fixpoint DerivativeParsing.Graph

namespace Graph

variable {g g' g₁ g₂ : Graph} {h h' : Handle} {fuel : Nat} {b : Bool} {F : Forest} {E p : Prop}
  {u w word : List Char} {P : Graph → Handle → Prop}

/-- A property holds of every expression that is simplified when a word is matched. -/
def WhenMatching (fuel : Nat) (P : Graph → Handle → Prop) (g : Graph) (h : Handle)
    (word : List Char) : Prop :=
  Throughout (simplify fuel) P g h word

/-- A property holds of every expression that is simplified when a word is parsed. -/
def WhenParsing (fuel : Nat) (P : Graph → Handle → Prop) (g : Graph) (h : Handle)
    (word : List Char) : Prop :=
  g.Normalises fuel P h ∧ ∀ s g', g.normalise fuel h = some (s, g') →
    Throughout (normalise fuel) (Normalises fuel P) g' s word

/-- A property of expressions that derivatives and simplification keep holds when a word is
parsed. -/
theorem whenParsing_of_kept {I : Graph → Handle → Prop}
    (hderivative : ∀ c g h d g', I g h → g.derivative c h = some (d, g') → I g' d)
    (hsimplify : ∀ g h s g', I g h → g.simplify fuel h = some (s, g') → I g' s)
    (hP : ∀ g h, I g h → P g h) (hh : I g h) : g.WhenParsing fuel P h word := by
  have hnormalise : ∀ g h s g', I g h → g.normalise fuel h = some (s, g') → I g' s :=
    fun _ _ _ _ hh hs => normalise_of_kept hsimplify hh hs
  refine ⟨throughoutRounds_of_kept hsimplify hP hh, fun s g' hs => ?_⟩
  exact throughout_of_kept hderivative hnormalise
    (fun _ _ hh => throughoutRounds_of_kept hsimplify hP hh) (hnormalise g h s g' hh hs)

/-! ## The answers -/

/-- What an answer about a word comes from: the derivatives reach its end, or nothing can match any
more. -/
theorem consumes_of_accepts (hrun : g.accepts fuel h word = some (b, g')) :
    ∃ s w, Consumes (simplify fuel) g h word g' s w ∧
      (w = [] ∧ g'.nullable fuel s = some b ∨ g'.isNil s = some true ∧ b = false) := by
  induction word generalizing g h with
  | nil =>
      rw [accepts] at hrun
      obtain ⟨b', hb, he⟩ := Option.bind_eq_some_iff.1 hrun
      cases he
      exact ⟨h, [], .done, .inl ⟨rfl, hb⟩⟩
  | cons c rest ih =>
      rw [accepts] at hrun
      obtain ⟨⟨d, g₁⟩, hd, hrun⟩ := Option.bind_eq_some_iff.1 hrun
      obtain ⟨⟨s, g₂⟩, hs, hrun⟩ := Option.bind_eq_some_iff.1 hrun
      obtain ⟨isNil, hnil, hrun⟩ := Option.bind_eq_some_iff.1 hrun
      cases isNil with
      | true =>
          cases hrun
          exact ⟨s, rest, .step hd hs .done, .inr ⟨hnil, rfl⟩⟩
      | false =>
          obtain ⟨s', w, hrest, hend⟩ := ih hrun
          exact ⟨s', w, .step hd hs hrest, hend⟩

/-- What the parses of a word come from. -/
theorem consumes_of_parsesFrom (hrun : g.parsesFrom fuel h word = some (F, g')) :
    ∃ s w, Consumes (normalise fuel) g h word g' s w ∧
      (w = [] ∧ g'.emptyParses fuel s = some F ∨ g'.isNil s = some true ∧ F = .empty) := by
  induction word generalizing g h with
  | nil =>
      rw [parsesFrom] at hrun
      obtain ⟨F', hF, he⟩ := Option.bind_eq_some_iff.1 hrun
      cases he
      exact ⟨h, [], .done, .inl ⟨rfl, hF⟩⟩
  | cons c rest ih =>
      rw [parsesFrom] at hrun
      obtain ⟨⟨d, g₁⟩, hd, hrun⟩ := Option.bind_eq_some_iff.1 hrun
      obtain ⟨⟨s, g₂⟩, hs, hrun⟩ := Option.bind_eq_some_iff.1 hrun
      obtain ⟨isNil, hnil, hrun⟩ := Option.bind_eq_some_iff.1 hrun
      cases isNil with
      | true =>
          cases hrun
          exact ⟨s, rest, .step hd hs .done, .inr ⟨hnil, rfl⟩⟩
      | false =>
          obtain ⟨s', w, hrest, hend⟩ := ih hrun
          exact ⟨s', w, .step hd hs hrest, hend⟩

/-- An answer that is right about what is left of an expression is right about the expression. -/
theorem After.answer (hafter : After E g h u g' h')
    (hp : w = [] ∧ (p ↔ [] ∈ g'.language h') ∨ g'.isNil h' = some true ∧ ¬p) :
    (p → u ++ w ∈ g.language h) ∧ (E → (p ↔ u ++ w ∈ g.language h)) := by
  rcases hp with ⟨rfl, hp⟩ | ⟨hnil, hp⟩
  · exact ⟨fun h => hafter.le [] (hp.1 h), fun hE => hp.trans (hafter.eq hE [])⟩
  · refine ⟨fun h => absurd h hp, fun hE => iff_of_false hp fun hw => ?_⟩
    exact hafter.workable.not_mem_of_isNil hnil ((hafter.eq hE w).2 hw)

namespace Workable

/-- Only words of an expression are accepted, and all of them if none is lost. -/
theorem accepts_answer (hh : g.Workable h)
    (hP : ∀ g h, P g h → g.SimplifiesReady fuel h ∧ (E → g.KeepsWords fuel h))
    (hwhen : g.WhenMatching fuel P h word) (hrun : g.accepts fuel h word = some (b, g')) :
    (b = true → word ∈ g.language h) ∧ (E → (b = true ↔ word ∈ g.language h)) := by
  obtain ⟨s, w, hconsumes, hend⟩ := consumes_of_accepts hrun
  obtain ⟨u, rfl, hafter⟩ := hh.consumes (E := E) (fun g h s g' hp hworkable hs => by
    obtain ⟨hready, hkeeps⟩ := hP g h hp
    exact (hworkable hready.1).simplify hs (hready.2 s g' hs) hkeeps) hwhen hconsumes
  refine hafter.answer ?_
  rcases hend with ⟨rfl, hb⟩ | ⟨hnil, rfl⟩
  · exact .inl ⟨rfl, hafter.workable.nullable_iff hb⟩
  · exact .inr ⟨hnil, Bool.false_ne_true⟩

/-- Only words of an expression have parses, and all of them if none is lost. -/
theorem parses_answer (hh : g.Workable h) (htrees : g.HasTrees {k | g.Reaches h k})
    (hP : ∀ g h, P g h → g.SimplifiesReady fuel h ∧ (E → g.KeepsWords fuel h))
    (hwhen : g.WhenParsing fuel P h word) (hrun : g.parses fuel h word = some (F, g')) :
    (F ≠ .empty → word ∈ g.language h) ∧ (E → (F ≠ .empty ↔ word ∈ g.language h)) := by
  rw [parses] at hrun
  obtain ⟨⟨s, g₁⟩, hs, hrun⟩ := Option.bind_eq_some_iff.1 hrun
  have hstart : Refines E g h g₁ s := refines_normalise (fun _ => hh) hP hwhen.1 hs
  obtain ⟨s', w, hconsumes, hend⟩ := consumes_of_parsesFrom hrun
  obtain ⟨u, rfl, hafter⟩ := hstart.workable.consumes (E := E)
    (fun _ _ _ _ hp hworkable hs => refines_normalise hworkable hP hp hs) (hwhen.2 s g₁ hs)
    hconsumes
  have hend : w = [] ∧ (F ≠ .empty ↔ [] ∈ g'.language s') ∨
      g'.isNil s' = some true ∧ ¬F ≠ .empty := by
    rcases hend with ⟨rfl, hF⟩ | ⟨hnil, rfl⟩
    · rw [← Forest.hasTree_iff]
      exact .inl ⟨rfl, hafter.workable.hasTree_iff (hafter.trees (hstart.trees htrees)) hF⟩
    · exact .inr ⟨hnil, not_not_intro rfl⟩
  obtain ⟨hsound, hexact⟩ := hafter.answer hend
  exact ⟨fun h => hstart.le (hsound h), fun hE => hstart.eq hE ▸ hexact hE⟩

theorem mem_of_accepts (hh : g.Workable h) (hrun : g.accepts fuel h word = some (b, g'))
    (hwhen : g.WhenMatching fuel (SimplifiesReady fuel) h word) (hb : b = true) :
    word ∈ g.language h :=
  (hh.accepts_answer (E := False) (fun _ _ h => ⟨h, False.elim⟩) hwhen hrun).1 hb

theorem accepts_iff (hh : g.Workable h) (hrun : g.accepts fuel h word = some (b, g'))
    (hwhen : g.WhenMatching fuel (SimplifiesFaithfully fuel) h word) :
    b = true ↔ word ∈ g.language h :=
  (hh.accepts_answer (E := True) (fun _ _ h => ⟨h.1, fun _ => h.2⟩) hwhen hrun).2 trivial

theorem mem_of_parses (hh : g.Workable h) (htrees : g.HasTrees {k | g.Reaches h k})
    (hrun : g.parses fuel h word = some (F, g'))
    (hwhen : g.WhenParsing fuel (SimplifiesReady fuel) h word) (hF : F ≠ .empty) :
    word ∈ g.language h :=
  (hh.parses_answer htrees (E := False) (fun _ _ h => ⟨h, False.elim⟩) hwhen hrun).1 hF

theorem parses_iff (hh : g.Workable h) (htrees : g.HasTrees {k | g.Reaches h k})
    (hrun : g.parses fuel h word = some (F, g'))
    (hwhen : g.WhenParsing fuel (SimplifiesFaithfully fuel) h word) :
    F ≠ .empty ↔ word ∈ g.language h :=
  (hh.parses_answer htrees (E := True) (fun _ _ h => ⟨h.1, fun _ => h.2⟩) hwhen hrun).2 trivial

theorem whenMatching_of_tame (hh : g.Workable h) (htame : g.Tame h) :
    g.WhenMatching fuel (SimplifiesFaithfully fuel) h word :=
  throughout_of_kept (I := fun g h => g.Workable h ∧ g.Tame h)
    (fun _ _ _ _ _ hh hd => hh.1.derivative_of_tame hh.2 hd)
    (fun _ _ _ _ hh hs => hh.1.simplify_of_tame hh.2 hs)
    (fun _ _ hh => hh.1.simplifiesFaithfully_of_tame hh.2) ⟨hh, htame⟩

theorem whenParsing_of_tame (hh : g.Workable h) (htame : g.Tame h) :
    g.WhenParsing fuel (SimplifiesFaithfully fuel) h word :=
  whenParsing_of_kept (I := fun g h => g.Workable h ∧ g.Tame h)
    (fun _ _ _ _ _ hh hd => hh.1.derivative_of_tame hh.2 hd)
    (fun _ _ _ _ hh hs => hh.1.simplify_of_tame hh.2 hs)
    (fun _ _ hh => hh.1.simplifiesFaithfully_of_tame hh.2) ⟨hh, htame⟩

end Workable

end Graph

/-! ## The action on a grammar -/

namespace Grammar

variable {g g₁ g₂ g₃ : Grammar} {root r : Handle} {fuel : Nat} {text : String} {b : Bool}
  {F : Forest}

theorem run_matches {after : Graph} (hprepare : (prepare root).run.run g = (.ok r, g₁))
    (haccepts : g₁.graph.accepts fuel r text.toList = some (b, after)) :
    (Grammar.matches fuel root text).run.run g =
      (.ok b, { g₁ with graph := after.truncate g₁.graph.size }) := by
  unfold Grammar.matches
  rw [run_bind, hprepare]
  exact run_onGraph? (Option.bind_eq_some_iff.2 ⟨(b, after), haccepts, rfl⟩)

theorem run_parse {after : Graph} (hprepare : (prepare root).run.run g = (.ok r, g₁))
    (hparses : g₁.graph.parses fuel r text.toList = some (F, after)) :
    (parse fuel root text).run.run g =
      (.ok F, { g₁ with graph := after.truncate g₁.graph.size }) := by
  unfold parse
  rw [run_bind, hprepare]
  exact run_onGraph? (Option.bind_eq_some_iff.2 ⟨(F, after), hparses, rfl⟩)

theorem accepts_of_run (hprepare : (prepare root).run.run g = (.ok r, g₁))
    (hmatches : (Grammar.matches fuel root text).run.run g = (.ok b, g₂)) :
    ∃ after, g₁.graph.accepts fuel r text.toList = some (b, after) := by
  unfold Grammar.matches at hmatches
  rw [run_bind, hprepare] at hmatches
  obtain ⟨graph, hgraph, -⟩ := of_run_onGraph? hmatches
  obtain ⟨⟨b', after⟩, haccepts, he⟩ := Option.bind_eq_some_iff.1 hgraph
  cases he
  exact ⟨after, haccepts⟩

/-- What an answer of `parse` comes from. -/
theorem parses_of_run (hprepare : (prepare root).run.run g = (.ok r, g₁))
    (hparse : (parse fuel root text).run.run g = (.ok F, g₂)) :
    ∃ after, g₁.graph.parses fuel r text.toList = some (F, after) := by
  unfold parse at hparse
  rw [run_bind, hprepare] at hparse
  obtain ⟨graph, hgraph, -⟩ := of_run_onGraph? hparse
  obtain ⟨⟨F', after⟩, hparses, he⟩ := Option.bind_eq_some_iff.1 hgraph
  cases he
  exact ⟨after, hparses⟩

/-- A text that matches an expression belongs to its language, as long as the derivatives can be
prepared.  If no simplification on the way loses a word, in particular if no cycle can be reached
from the expression, every answer is right. -/
theorem matches_iff (hg : g.WellFormed) (hroot : g.Has root)
    (hprepare : (prepare root).run.run g = (.ok r, g₁)) (htame : g₁.graph.ComplementsTame root)
    (hmatches : (Grammar.matches fuel root text).run.run g = (.ok b, g₂)) :
    (g₁.graph.WhenMatching fuel (SimplifiesReady fuel) r text.toList →
        b = true → text.toList ∈ g₁.graph.language root) ∧
      (g₁.graph.WhenMatching fuel (SimplifiesFaithfully fuel) r text.toList →
        (b = true ↔ text.toList ∈ g₁.graph.language root)) ∧
      (g₁.graph.Tame root → (b = true ↔ text.toList ∈ g₁.graph.language root)) := by
  obtain ⟨hl, hr, hlanguage⟩ := workable_of_prepare hg hroot hprepare htame
  obtain ⟨graph, hrun⟩ := accepts_of_run hprepare hmatches
  rw [hlanguage]
  refine ⟨hr.mem_of_accepts hrun, hr.accepts_iff hrun, fun htame => ?_⟩
  exact hr.accepts_iff hrun (hr.whenMatching_of_tame (htame.reaches hl.reaches))

/-- A text that has parses by an expression belongs to its language, as long as the derivatives can
be prepared.  If no simplification on the way loses a word, in particular if no cycle can be reached
from the expression, all texts of the language have parses. -/
theorem parse_iff (hg : g.WellFormed) (hroot : g.Has root)
    (hprepare : (prepare root).run.run g = (.ok r, g₁)) (htame : g₁.graph.ComplementsTame root)
    (htrees : g₁.graph.HasTrees {k | g₁.graph.Reaches root k})
    (hparse : (parse fuel root text).run.run g = (.ok F, g₂)) :
    (g₁.graph.WhenParsing fuel (SimplifiesReady fuel) r text.toList →
        F ≠ .empty → text.toList ∈ g₁.graph.language root) ∧
      (g₁.graph.WhenParsing fuel (SimplifiesFaithfully fuel) r text.toList →
        (F ≠ .empty ↔ text.toList ∈ g₁.graph.language root)) ∧
      (g₁.graph.Tame root → (F ≠ .empty ↔ text.toList ∈ g₁.graph.language root)) := by
  obtain ⟨hl, hr, hlanguage⟩ := workable_of_prepare hg hroot hprepare htame
  have htrees := htrees.reaches hl.reaches
  obtain ⟨graph, hrun⟩ := parses_of_run hprepare hparse
  rw [hlanguage]
  refine ⟨hr.mem_of_parses htrees hrun, hr.parses_iff htrees hrun, fun htame => ?_⟩
  exact hr.parses_iff htrees hrun (hr.whenParsing_of_tame (htame.reaches hl.reaches))

/-- A text matches an expression exactly if it has parses, if no simplification loses a word, in
particular if no cycle can be reached from the expression. -/
theorem matches_iff_parse (hg : g.WellFormed) (hroot : g.Has root)
    (hprepare : (prepare root).run.run g = (.ok r, g₁)) (htame : g₁.graph.ComplementsTame root)
    (htrees : g₁.graph.HasTrees {k | g₁.graph.Reaches root k})
    (hmatches : (Grammar.matches fuel root text).run.run g = (.ok b, g₂))
    (hparse : (parse fuel root text).run.run g = (.ok F, g₃)) :
    (g₁.graph.WhenMatching fuel (SimplifiesFaithfully fuel) r text.toList →
        g₁.graph.WhenParsing fuel (SimplifiesFaithfully fuel) r text.toList →
          (b = true ↔ F ≠ .empty)) ∧
      (g₁.graph.Tame root → (b = true ↔ F ≠ .empty)) := by
  obtain ⟨hl, hr, hlanguage⟩ := workable_of_prepare hg hroot hprepare htame
  obtain ⟨-, hexact, htameExact⟩ := parse_iff hg hroot hprepare htame htrees hparse
  obtain ⟨graph, hrun⟩ := accepts_of_run hprepare hmatches
  rw [hlanguage] at hexact htameExact
  refine ⟨fun hm hp => (hr.accepts_iff hrun hm).trans (hexact hp).symm, fun htame => ?_⟩
  refine (hr.accepts_iff hrun ?_).trans (htameExact htame).symm
  exact hr.whenMatching_of_tame (htame.reaches hl.reaches)

/-! ## Two complements -/

namespace Doubled

/-- The expression `~~'a'*`. -/
def grammar : Grammar :=
  ⟨⟨#[.node .nil, .node .empty, .node .any, .node (.char 'a'), .node (.star ⟨3⟩), .node (.not ⟨4⟩),
      .node (.not ⟨5⟩)]⟩, [], [], 0⟩

/-- The handle of the expression. -/
def start : Handle := ⟨6⟩

/-- The handles that can be reached from the expression. -/
def handles : List Handle := [⟨3⟩, ⟨4⟩, ⟨5⟩, ⟨6⟩]

theorem wellFormed_grammar : grammar.WellFormed where
  graph := .of_fits rfl rfl rfl (by decide)
  rules := by decide
  names := by decide

theorem tame : grammar.graph.Tame start :=
  Graph.tame_of_list (l := handles) (by decide) (by decide)

theorem complementsTame : grammar.graph.ComplementsTame start := fun k p hk hs =>
  (tame.reaches hk).of_mem_references (by simp [Graph.references_of_node hs, Node.children])

theorem hasTrees : grammar.graph.HasTrees {k | grammar.graph.Reaches start k} := by
  have hclosed : grammar.graph.Closed {h | h ∈ handles} := fun h hh k hk =>
    (by decide : ∀ h ∈ handles, ∀ k ∈ grammar.graph.references h, k ∈ handles) h hh k hk
  intro k hk f hs
  have hmem : k ∈ handles := hclosed.of_reaches (by decide : start ∈ handles) hk
  simp only [handles, List.mem_cons, List.not_mem_nil, or_false] at hmem
  rcases hmem with rfl | rfl | rfl | rfl <;> cases hs

theorem prepare_start : (prepare start).run.run grammar = (.ok start, grammar) := rfl

theorem accepts_start : (grammar.graph.accepts 2 start "a".toList).map Prod.fst = some true := by
  cbv

theorem parses_start : (grammar.graph.parses 2 start "a".toList).map (·.1.trees) =
    some [.list [.char 'a']] := by
  cbv

theorem matches_start :
    ∃ g, (Grammar.matches 2 start "a").run.run grammar = (.ok true, g) := by
  obtain ⟨⟨_, after⟩, haccepts, rfl⟩ := Option.map_eq_some_iff.1 accepts_start
  exact ⟨_, run_matches prepare_start haccepts⟩

theorem parse_start : ∃ F g, (parse 2 start "a").run.run grammar = (.ok F, g) := by
  obtain ⟨⟨F, after⟩, hparses, -⟩ := Option.map_eq_some_iff.1 parses_start
  exact ⟨F, _, run_parse prepare_start hparses⟩

/-- The text `a` matches `~~'a'*`, and belongs to its language. -/
theorem matches_iff_start :
    (grammar.WellFormed ∧ grammar.Has start ∧
        (prepare start).run.run grammar = (.ok start, grammar) ∧
        grammar.graph.ComplementsTame start ∧
        ∃ g, (Grammar.matches 2 start "a").run.run grammar = (.ok true, g)) ∧
      "a".toList ∈ grammar.graph.language start := by
  have hstart : grammar.Has start := (by decide : 6 < 7)
  obtain ⟨g, hmatches⟩ := matches_start
  have hiff := matches_iff wellFormed_grammar hstart prepare_start complementsTame hmatches
  exact ⟨⟨wellFormed_grammar, hstart, prepare_start, complementsTame, g, hmatches⟩,
    (hiff.2.2 tame).1 rfl⟩

/-- The text `a` matches `~~'a'*`, and has a parse. -/
theorem matches_iff_parse_start :
    (grammar.WellFormed ∧ grammar.Has start ∧
        (prepare start).run.run grammar = (.ok start, grammar) ∧
        grammar.graph.ComplementsTame start ∧
        grammar.graph.HasTrees {k | grammar.graph.Reaches start k} ∧
        ∃ g, (Grammar.matches 2 start "a").run.run grammar = (.ok true, g)) ∧
      ∃ F g, (parse 2 start "a").run.run grammar = (.ok F, g) ∧ F ≠ .empty := by
  have hstart : grammar.Has start := (by decide : 6 < 7)
  obtain ⟨g, hmatches⟩ := matches_start
  obtain ⟨F, g', hparse⟩ := parse_start
  have hiff := matches_iff_parse wellFormed_grammar hstart prepare_start complementsTame hasTrees
    hmatches hparse
  exact ⟨⟨wellFormed_grammar, hstart, prepare_start, complementsTame, hasTrees, g, hmatches⟩,
    F, g', hparse, (hiff.2 tame).1 rfl⟩

end Doubled

end Grammar

end DerivativeParsing
