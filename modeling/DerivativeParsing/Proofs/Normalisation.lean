import DerivativeParsing.Proofs.Idempotence
import DerivativeParsing.Proofs.LighterForms
import DerivativeParsing.Proofs.Matching
import DerivativeParsing.Proofs.Stacking
import DerivativeParsing.Proofs.StepLimits

/-!
# Simplifying until nothing changes

Simplification is repeated until it gives back an expression that is equal to the one before.  Each
round either makes the shape of the expression lighter, or it finds that all its nodes rest.  So it
comes to an end if no cycle can be reached and there can be room for all lists
(`Graph.Acyclic.exists_normaliseWithin`), with nodes that rest
(`Graph.Acyclic.rests_of_normaliseWithin`).  Derivatives of such an expression are such expressions
again, and so all its texts can be parsed (`Grammar.normalise_ends`).

How many rounds there are is not known in advance.  Once there are enough of them, the result is the
same with any number.
-/

set_option autoImplicit false

namespace DerivativeParsing

open Fixpoint DerivativeParsing.Graph

namespace Graph

variable {g g' : Graph} {h r s : Handle} {fuel rounds : Nat}

/-- An expression from which no cycle can be reached, in a graph whose nodes are stored after their
operands. -/
structure Acyclic (g : Graph) (h : Handle) : Prop where
  workable : g.Workable h
  tame : g.Tame h
  bottomUp : g.BottomUp

/-! ## One round -/

/-- The repetition stops with an expression that is equal to the one before. -/
theorem normaliseWithin_of_stop (hs : g.simplify fuel h = some (s, g'))
    (hstop : s = h ∨ g'.similar h s = some true) :
    g.normaliseWithin fuel (rounds + 1) h = some (s, g') := by
  rw [normaliseWithin]
  refine Option.bind_eq_some_iff.2 ⟨(s, g'), hs, ?_⟩
  dsimp only
  split
  · rfl
  · next hne => exact Option.bind_eq_some_iff.2 ⟨true, hstop.resolve_left hne, rfl⟩

/-- The repetition goes on with an expression that is not equal to the one before. -/
theorem normaliseWithin_of_step {d : Handle} {g₁ : Graph} {x : Handle × Graph}
    (hd : g.simplify fuel h = some (d, g₁)) (hne : d ≠ h) (hsimilar : g₁.similar h d = some false)
    (hrest : g₁.normaliseWithin fuel rounds d = some x) :
    g.normaliseWithin fuel (rounds + 1) h = some x := by
  rw [normaliseWithin]
  refine Option.bind_eq_some_iff.2 ⟨(d, g₁), hd, ?_⟩
  dsimp only
  rw [if_neg hne]
  exact Option.bind_eq_some_iff.2 ⟨false, hsimilar, hrest⟩

namespace Acyclic

theorem hasShape (hh : g.Acyclic h) : g.HasShape h :=
  hh.tame.hasShape hh.workable.wellFormed hh.workable.ready

/-- A simplification makes the expression lighter, or it follows its references and finds that all
nodes rest. -/
theorem simplify (hh : g.Acyclic h) (hfuel : 0 < fuel) (hs : g.simplify fuel h = some (s, g')) :
    g'.Extends g ∧ g'.Acyclic s ∧
      ((g'.shapeOf s).Lighter (g.shapeOf h) ∨
        g'.Leads h s ∧ g'.AllNodes (fun k n => n.Rests g' k) s) := by
  obtain ⟨r, n, hl, -⟩ := hh.workable.ready h .refl
  have hleaves := hh.workable.lightens hh.tame hh.bottomUp hl hfuel hs
  refine ⟨hleaves.kept, ⟨hleaves.workable, hleaves.tame, hleaves.bottomUp⟩, ?_⟩
  rw [(hh.hasShape.leads hl).2]
  refine hleaves.lightens.lighter_or.imp_right ?_
  rintro ⟨rfl, hrests⟩
  exact ⟨hl.congr hh.workable.wellFormed.closed_lt hleaves.kept.2 hh.workable.inRange, hrests⟩

/-- An expression is found equal to one of a graph that has been extended if both have one shape. -/
theorem similar (hh : g.Acyclic h) (hext : g'.Extends g) (hs : g'.Acyclic s) :
    ∃ b, g'.similar h s = some b ∧ (b = true ↔ g.shapeOf h = g'.shapeOf s) := by
  have hready : g'.Ready h := Grows.ready (.of_extends hext) hh.workable.ready
  obtain ⟨hshape, hsame⟩ :=
    hh.hasShape.congr hh.workable.wellFormed.closed_lt hext.2 hh.workable.inRange
  obtain ⟨b, hb, hiff⟩ := similar_eq_some hs.workable.wellFormed hready hs.workable.ready
  refine ⟨b, hb, hiff.trans ?_⟩
  rw [Unfolds.bisimilar_iff hshape hs.hasShape, hsame]

/-- A round after which the repetition stops has found that all nodes rest. -/
theorem rests_of_stop (hh : g.Acyclic h) (hfuel : 0 < fuel)
    (hs : g.simplify fuel h = some (s, g')) (hstop : s = h ∨ g'.similar h s = some true) :
    g'.AllNodes (fun k n => n.Rests g' k) s := by
  obtain ⟨hext, hacyclic, hlighter⟩ := hh.simplify hfuel hs
  refine (hlighter.resolve_left fun hlt => ?_).2
  -- A lighter shape is another one, and would have been found different.
  have hsame : g.shapeOf h = g'.shapeOf s := by
    rcases hstop with rfl | hsimilar
    · exact (hh.hasShape.congr hh.workable.wellFormed.closed_lt hext.2 hh.workable.inRange).2.symm
    · obtain ⟨b, hb, hiff⟩ := hh.similar hext hacyclic
      exact hiff.1 (Option.some.inj (hb.symm.trans hsimilar))
  exact Shape.Lighter.irrefl (hsame ▸ hlt)

/-- What the repetition of simplification leaves is an expression all of whose nodes rest. -/
theorem rests_of_normaliseWithin (hh : g.Acyclic h) (hfuel : 0 < fuel)
    (hrun : g.normaliseWithin fuel rounds h = some (s, g')) :
    g'.Extends g ∧ g'.Acyclic s ∧ g'.AllNodes (fun k n => n.Rests g' k) s := by
  induction rounds generalizing g h with
  | zero => cases hrun
  | succ rounds ih =>
      rcases normaliseWithin_cases hrun with ⟨hs, hstop⟩ | ⟨d, g₁, hd, -, -, hrun⟩
      · obtain ⟨hext, hacyclic, -⟩ := hh.simplify hfuel hs
        exact ⟨hext, hacyclic, hh.rests_of_stop hfuel hs hstop⟩
      · obtain ⟨hext, hacyclic, -⟩ := hh.simplify hfuel hd
        obtain ⟨hext', hs⟩ := ih hacyclic hrun
        exact ⟨hext'.trans hext, hs⟩

/-- The repetition of simplification comes to an end if there can be room for all lists. -/
theorem exists_normaliseWithin (hh : g.Acyclic h) (hfits : g.Fits {k | g.Reaches h k})
    (hfuel : 0 < fuel) : ∃ rounds s g', g.normaliseWithin fuel rounds h = some (s, g') ∧
      g'.Fits {k | g'.Reaches s k} := by
  induction hshape : g.shapeOf h using Shape.lighter_wf.induction generalizing g h with
  | h t ih =>
      obtain ⟨d, g₁, hd⟩ := hh.workable.exists_simplify_of_tame hh.tame hfits hfuel
      have hfits₁ := hh.workable.fits_simplify hfits hd
      obtain ⟨hext, hacyclic, hlighter⟩ := hh.simplify hfuel hd
      obtain ⟨b, hb, hiff⟩ := hh.similar hext hacyclic
      -- The round is the last one exactly if the shape has stayed the same.
      by_cases hsame : g.shapeOf h = g₁.shapeOf d
      · exact ⟨1, d, g₁, normaliseWithin_of_stop hd (.inr (hiff.2 hsame ▸ hb)), hfits₁⟩
      · have hkept := hh.hasShape.congr hh.workable.wellFormed.closed_lt hext.2 hh.workable.inRange
        have hlt : (g₁.shapeOf d).Lighter (g.shapeOf h) := hlighter.resolve_right fun ⟨hl, _⟩ =>
          hsame (hkept.2 ▸ (hkept.1.leads hl).2)
        have hne : d ≠ h := by
          rintro rfl
          exact hsame hkept.2.symm
        obtain rfl : b = false := by simpa [hsame] using hiff
        obtain ⟨rounds, s, g', hrun, hfits'⟩ := ih _ (hshape ▸ hlt) hacyclic hfits₁ rfl
        exact ⟨rounds + 1, s, g', normaliseWithin_of_step hd hne hb hrun, hfits'⟩

/-- What is left by a normalisation is an expression all of whose nodes rest. -/
theorem rests_of_normalise (hh : g.Acyclic h) (hrun : g.normalise fuel h = some (s, g')) :
    g'.Extends g ∧ g'.Acyclic s ∧ g'.AllNodes (fun k n => n.Rests g' k) s := by
  have hfuel : 0 < fuel := Nat.pos_of_ne_zero fun he => by
    subst he
    cases hrun
  exact hh.rests_of_normaliseWithin hfuel hrun

/-- With enough rounds the repetition of simplification has a result, which is always the same. -/
theorem normalise (hh : g.Acyclic h) (hfits : g.Fits {k | g.Reaches h k}) :
    ∃ N s g', (∀ fuel ≥ N, g.normalise fuel h = some (s, g')) ∧ g'.Acyclic s ∧
      g'.Fits {k | g'.Reaches s k} := by
  obtain ⟨rounds, s, g', hrun, hfits'⟩ := hh.exists_normaliseWithin hfits Nat.one_pos
  refine ⟨rounds + 1, s, g', fun fuel hfuel => ?_,
    (hh.rests_of_normaliseWithin Nat.one_pos hrun).2.1, hfits'⟩
  exact normaliseWithin_mono hrun (by omega) (by omega)

/-! ## Parsing -/

/-- A derivative leads to no cycle either. -/
theorem derivative (hh : g.Acyclic h) (c : Char) :
    ∃ d g', g.derivative c h = some (d, g') ∧ g'.Acyclic d := by
  obtain ⟨r, n, hl, -⟩ := hh.workable.ready h .refl
  obtain ⟨d, g', -, hd, -⟩ := derivative_differentiates (c := c) hh.workable.part
    hh.workable.tameComplements (.inl .refl) hl
  obtain ⟨hworkable, htame⟩ := hh.workable.derivative_of_tame hh.tame hd
  have hbottom := (hh.bottomUp.derivative hh.workable.wellFormed hh.workable.inRange hd).2.1
  exact ⟨d, g', hd, hworkable, htame, hbottom⟩

/-- The parses of the empty word are found in one pass. -/
theorem emptyParses (hh : g.Acyclic h) (hfits : g.Fits {k | g.Reaches h k}) :
    ∃ F, g.emptyParses 1 h = some F := by
  have hready := hh.workable.ready
  obtain ⟨r, n, hl, -⟩ := hready h .refl
  have hasks : ∀ k n, g.Reaches h k → g.slot? k = some (.node n) →
      ((EmptyParses.table 1).rule g k ()).AsksOnly fun k' => ∃ c ∈ n.children, g.Leads c k' := by
    intro k n hk hs
    show (EmptyParses.ofNode 1 g (g.node k) ()).AsksOnly _
    rw [node_eq hs]
    refine EmptyParses.ofNode_asksOnly (fun c hc => ⟨_, hready.operand_leads hk hs hc⟩)
      (fun c r hc hl => ⟨c, EmptyParses.consulted_subset hc, hl⟩) (hfits k hk n hs) fun c hc => ?_
    have hkc : g.Reaches h c := hk.tail (by simp [references_of_node hs, hc, Node.children])
    obtain ⟨b, hb, -⟩ :=
      (hh.workable.reaches hkc).nullable_of_tame (hh.tame.reaches hkc) Nat.one_pos
    exact ⟨b, hb⟩
  obtain ⟨F, -, hF, -⟩ := hh.tame.evaluates (EmptyParses.table 1) (P := fun _ _ => True)
    hh.workable.wellFormed hready hl hasks fun _ _ _ _ _ _ => trivial
  exact ⟨F, hF 1 Nat.one_pos⟩

/-- Every word is parsed, if there are enough rounds. -/
theorem parsesFrom (hh : g.Acyclic h) (hfits : g.Fits {k | g.Reaches h k}) (word : List Char) :
    ∃ fuel F g', g.parsesFrom fuel h word = some (F, g') := by
  induction word generalizing g h with
  | nil =>
      obtain ⟨F, hF⟩ := hh.emptyParses hfits
      exact ⟨1, F, g, Option.bind_eq_some_iff.2 ⟨F, hF, rfl⟩⟩
  | cons c rest ih =>
      obtain ⟨d, g₁, hd, hacyclic⟩ := hh.derivative c
      obtain ⟨N, s, g₂, hs, hacyclic', hfits'⟩ :=
        hacyclic.normalise (hh.workable.fits_derivative hfits hd)
      obtain ⟨q, n, hq, -⟩ := hacyclic'.workable.ready s .refl
      obtain ⟨b, hb⟩ : ∃ b, g₂.isNil s = some b := by
        simp [isNil, nodeAt, resolve_eq_some.2 hq]
      have hstep {fuel : Nat} {x : Forest × Graph} (hfuel : N ≤ fuel)
          (hx : (if b then some (.empty, g₂) else g₂.parsesFrom fuel s rest) = some x) :
          g.parsesFrom fuel h (c :: rest) = some x := by
        rw [Graph.parsesFrom]
        refine Option.bind_eq_some_iff.2 ⟨(d, g₁), hd, Option.bind_eq_some_iff.2 ⟨(s, g₂),
          hs fuel hfuel, Option.bind_eq_some_iff.2 ⟨b, hb, ?_⟩⟩⟩
        cases b <;> exact hx
      cases b with
      | true => exact ⟨N, _, _, hstep le_rfl rfl⟩
      | false =>
          obtain ⟨fuel, F, g', hF⟩ := ih hacyclic' hfits'
          exact ⟨max N fuel, F, g', hstep (le_max_left _ _) (parsesFrom_mono hF (le_max_right _ _))⟩

theorem parses (hh : g.Acyclic h) (hfits : g.Fits {k | g.Reaches h k}) (word : List Char) :
    ∃ fuel F g', g.parses fuel h word = some (F, g') := by
  obtain ⟨N, s, g₁, hs, hacyclic, hfits'⟩ := hh.normalise hfits
  obtain ⟨fuel, F, g', hF⟩ := hacyclic.parsesFrom hfits' word
  refine ⟨max N fuel, F, g', Option.bind_eq_some_iff.2 ⟨(s, g₁), hs _ (le_max_left _ _), ?_⟩⟩
  exact parsesFrom_mono hF (le_max_right _ _)

end Acyclic

end Graph

/-! ## The actions on a grammar -/

namespace Grammar

variable {g g₁ : Grammar} {root r : Handle}

/-- A prepared expression from which no cycle can be reached. -/
theorem Stacked.acyclic_of_prepare (hg : g.Stacked) (hroot : g.Has root)
    (hprepare : (prepare root).run.run g = (.ok r, g₁)) (htame : g₁.graph.Tame root) :
    g₁.Stacked ∧ g₁.graph.Acyclic r := by
  have hg₁ : g₁.Stacked := by
    have hkept := moves_prepare keepsStacked_traceWithin root g hg
    rwa [hprepare] at hkept
  obtain ⟨hl, hworkable, -⟩ :=
    workable_of_prepare hg.wellFormed hroot hprepare htame.complementsTame
  exact ⟨hg₁, hworkable, htame.reaches hl.reaches, hg₁.bottomUp⟩

/-- The parses of a text are found with any number of rounds that is large enough. -/
theorem run_parse_of_acyclic (hprepare : (prepare root).run.run g = (.ok r, g₁))
    (hr : g₁.graph.Acyclic r) (hfits : g₁.graph.Fits {k | g₁.graph.Reaches r k}) (text : String) :
    ∃ N F, ∀ fuel ≥ N, (parse fuel root text).run.run g = (.ok F, g₁) := by
  obtain ⟨N, F, after, hF⟩ := hr.parses hfits text.toList
  refine ⟨N, F, fun fuel hfuel => ?_⟩
  have hrun := parses_mono hF hfuel
  rw [run_parse hprepare hrun, (Reworks.of_parses hrun).kept.truncate]

/-- If no cycle can be reached from an expression once it has been prepared, the simplification that
is repeated until nothing changes leaves an expression that is found equal to its own simplified
form.  If there can be room for all lists besides, it does come to an end: with enough rounds there
is a result, which depends on their number no more.  And then every text has its parses, with enough
rounds.  Preparing an expression always comes to an end, and if it fails, so does parsing, in the
same way. -/
theorem normalise_ends (hg : Attained g) (hroot : g.Has root)
    (htame : ((prepare root).run.run g).2.graph.Tame root) :
    ∃ res g₁, (prepare root).run.run g = (res, g₁) ∧ res ≠ .error .exhausted ∧
      (∀ e, res = .error e → ∀ fuel text, (parse fuel root text).run.run g = (.error e, g₁)) ∧
      ∀ r, res = .ok r →
        (∀ fuel n graph, g₁.graph.normalise fuel r = some (n, graph) →
          ∀ fuel', 0 < fuel' → ∃ s g₂,
            (Grammar.simplify fuel' n).run.run { g₁ with graph } = (.ok s, g₂) ∧
              (Grammar.similar n s).run.run g₂ = (.ok true, g₂)) ∧
        (g₁.graph.Fits {k | g₁.graph.Reaches root k} →
          (∃ N n graph, ∀ fuel ≥ N, g₁.graph.normalise fuel r = some (n, graph)) ∧
            ∀ text, ∃ N F, ∀ fuel ≥ N, (parse fuel root text).run.run g = (.ok F, g₁)) := by
  obtain ⟨res, g₁, hprepare, -, -, herror⟩ := hg.stacked.wellFormed.prepare_ends hroot
  rw [hprepare] at htame
  refine ⟨res, g₁, hprepare, ?_, ?_, ?_⟩
  · rintro rfl
    obtain ⟨k, -, hfault⟩ := herror _ rfl
    exact hfault
  · rintro e rfl fuel text
    unfold parse
    rw [run_bind, hprepare]
  · rintro r rfl
    obtain ⟨hg₁, hr⟩ := hg.stacked.acyclic_of_prepare hroot hprepare htame
    refine ⟨fun fuel n graph hn fuel' hfuel' => ?_, fun hfits => ?_⟩
    · obtain ⟨hext, hacyclic, hrests⟩ := hr.rests_of_normalise hn
      have hg₂ : ({ g₁ with graph } : Grammar).WellFormed :=
        hg₁.wellFormed.withGraph hacyclic.workable.wellFormed hext.1
      obtain ⟨s, g₂, hs, -, hsimilar⟩ :=
        run_simplify_of_rests hg₂ hacyclic.workable hacyclic.tame hrests hfuel'
      exact ⟨s, g₂, hs, hsimilar⟩
    · obtain ⟨hl, -⟩ := part_of_prepare hg.stacked.wellFormed hroot hprepare htame.complementsTame
      replace hfits := hfits.reaches hl.reaches
      obtain ⟨N, n, graph, hn, -⟩ := hr.normalise hfits
      exact ⟨⟨N, n, graph, hn⟩, run_parse_of_acyclic hprepare hr hfits⟩

/-! ### A reference that has to be opened -/

namespace Delayed

/-- The operations that build `('x' | r) | 'w'*`, where the rule `r` is a suspended `'y' | 'z'`. -/
def operations : List Operation :=
  [.construct (.rule "r"), .build (.suspended (.alternatives [.text "y", .text "z"])),
    .define "r" (.handle ⟨4⟩), .construct (.star (.text "w")),
    .construct (.alternatives [.text "x", .handle ⟨3⟩, .handle ⟨6⟩])]

/-- The grammar that they build. -/
def grammar : Grammar := Operation.effects operations initial

/-- The handle of the expression. -/
def start : Handle := ⟨9⟩

/-- The grammar in which the suspended reference has been built. -/
def prepared : Grammar :=
  ⟨⟨#[.node .nil, .node .empty, .node .any, .forward ⟨4⟩, .forward ⟨12⟩, .node (.char 'w'),
      .node (.star ⟨5⟩), .node (.char 'x'), .node (.alt ⟨7⟩ ⟨3⟩), .node (.alt ⟨8⟩ ⟨6⟩),
      .node (.char 'y'), .node (.char 'z'), .node (.alt ⟨10⟩ ⟨11⟩)]⟩, [("r", ⟨3⟩)], [], 1⟩

theorem attained_grammar : Attained grammar := by
  have hrule : Attained _ :=
    .step (.construct (.rule "r")) .initial (by simp [Operation.Fits, Constructor.operands])
  have hbody := hrule.step (.build (.suspended (.alternatives [.text "y", .text "z"]))) trivial
  have hdefine := hbody.step (.define "r" (.handle ⟨4⟩)) (by decide : 4 < 5)
  have hstar := hdefine.step (.construct (.star (.text "w")))
    (by simp [Operation.Fits, Constructor.operands, HasOperand])
  refine hstar.step (.construct (.alternatives [.text "x", .handle ⟨3⟩, .handle ⟨6⟩])) ?_
  simp only [Operation.Fits, Constructor.operands, List.mem_cons, List.not_mem_nil, or_false]
  rintro o (rfl | rfl | rfl)
  · trivial
  · exact (by decide : 3 < 7)
  · exact (by decide : 6 < 7)

/-- The handles that can be reached, operands first. -/
def handles : List Handle := [⟨10⟩, ⟨11⟩, ⟨12⟩, ⟨4⟩, ⟨3⟩, ⟨7⟩, ⟨8⟩, ⟨5⟩, ⟨6⟩, ⟨9⟩]

theorem prepare_start : (prepare start).run.run grammar = (.ok start, prepared) := by rfl

theorem tame : prepared.graph.Tame start :=
  Graph.tame_of_rank handles.idxOf (by decide) (by decide : start ∈ handles)

/-- One simplification puts the reference in order and the next one opens it.  Every text is parsed.
-/
theorem normalise_ends_start :
    (Attained grammar ∧ grammar.Has start ∧
        ((prepare start).run.run grammar).2.graph.Tame start ∧
        prepared.graph.Fits {k | prepared.graph.Reaches start k}) ∧
      (prepare start).run.run grammar = (.ok start, prepared) ∧
      (∃ N n graph, (∀ fuel ≥ N, prepared.graph.normalise fuel start = some (n, graph)) ∧
        ∀ fuel, 0 < fuel → ∃ s g₂,
          (Grammar.simplify fuel n).run.run { prepared with graph } = (.ok s, g₂) ∧
            (Grammar.similar n s).run.run g₂ = (.ok true, g₂)) ∧
      ∀ text, ∃ N F, ∀ fuel ≥ N, (parse fuel start text).run.run grammar = (.ok F, prepared) := by
  have hroot : grammar.Has start := (by decide : 9 < 10)
  have htame : ((prepare start).run.run grammar).2.graph.Tame start := by
    rw [prepare_start]
    exact tame
  have hfits : prepared.graph.Fits {k | prepared.graph.Reaches start k} :=
    .of_slots (by simp [prepared, Node.Fits])
  obtain ⟨res, g₁, hrun, -, -, hok⟩ := normalise_ends attained_grammar hroot htame
  rw [prepare_start] at hrun
  cases hrun
  obtain ⟨hagain, hends⟩ := hok start rfl
  obtain ⟨⟨N, n, graph, hn⟩, hparse⟩ := hends hfits
  exact ⟨⟨attained_grammar, hroot, htame, hfits⟩, prepare_start,
    ⟨N, n, graph, hn, hagain N n graph (hn N le_rfl)⟩, hparse⟩

end Delayed

/-! ### A list that there is no room for -/

namespace Bulky

/-- The operation that builds `'a'{18446744073709551615}`, with the largest count there is. -/
def operation : Operation := .build (.rep (.char 'a') (.exactly 18446744073709551615))

/-- The grammar that it builds. -/
def grammar : Grammar := operation.effect initial

/-- The handle of the expression. -/
def start : Handle := ⟨4⟩

theorem attained_grammar : Attained grammar := .step operation .initial trivial

theorem tame : grammar.graph.Tame start :=
  Graph.tame_of_list (l := [⟨3⟩, ⟨4⟩]) (by decide) (by decide)

/-- The expression can be simplified, and does not match the empty word.  But room for the list of
all matches is made before it is known that there are none. -/
theorem not_parse_start :
    Attained grammar ∧ grammar.Has start ∧
      (prepare start).run.run grammar = (.ok start, grammar) ∧ grammar.graph.Tame start ∧
      (∃ g, grammar.graph.normalise 1 start = some (start, g)) ∧
      ∀ fuel F g, (parse fuel start "").run.run grammar ≠ (.ok F, g) := by
  have hprepare : (prepare start).run.run grammar = (.ok start, grammar) := rfl
  refine ⟨attained_grammar, (by decide : 4 < 5), hprepare, tame, ⟨_, rfl⟩, fun fuel F g h => ?_⟩
  have hparse : (parse fuel start "").run.run grammar = (.error .exhausted, grammar) := by
    cases fuel <;> rfl
  rw [hparse] at h
  cases h

end Bulky
end Grammar

end DerivativeParsing
