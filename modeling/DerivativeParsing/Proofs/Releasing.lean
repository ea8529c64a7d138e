import DerivativeParsing.Proofs.Additions
import DerivativeParsing.Proofs.Forcing
import DerivativeParsing.Proofs.Matching

/-!
# What matching and parsing leave of a grammar

Matching or parsing a text prepares the expression, works on nodes of its own and releases them
again.  What it leaves is therefore what the preparation alone leaves
(`inquiry_leaves_prepared`): new slots at the end, and suspended references that can be reached from
the expression, which have been built.

A preparation that has come to an end has nothing left to do when it is repeated, even if other
expressions have been prepared in between (`prepare_again`).  So it matters which expressions have
been asked about, and not how often.  That it matters which expressions have been asked about, a
definition can tell: a suspended reference that has been built may turn out to be the rule itself
(`Detour.define_after_inquiry`).
-/

set_option autoImplicit false

namespace DerivativeParsing

open Fixpoint DerivativeParsing.Graph

/-! ## Working on nodes of one's own -/

namespace Graph

variable {g g' g₁ : Graph} {h s : Handle} {fuel rounds : Nat} {word w : List Char} {b : Bool}
  {F : Forest} {f : Graph → Handle → Option (Handle × Graph)}

/-- Derivatives and simplifications, in any number and order, lead from one graph to another. -/
inductive Reworks (fuel : Nat) (g : Graph) : Graph → Prop where
  | refl : Reworks fuel g g
  | derivative {g₁ g₂ : Graph} {c : Char} {h d : Handle} (hrest : Reworks fuel g g₁)
      (hd : g₁.derivative c h = some (d, g₂)) : Reworks fuel g g₂
  | simplify {g₁ g₂ : Graph} {h s : Handle} (hrest : Reworks fuel g g₁)
      (hs : g₁.simplify fuel h = some (s, g₂)) : Reworks fuel g g₂

namespace Reworks

theorem trans {g₂ : Graph} (h₁ : Reworks fuel g g₁) (h₂ : Reworks fuel g₁ g₂) :
    Reworks fuel g g₂ := by
  induction h₂ with
  | refl => exact h₁
  | derivative _ hd ih => exact ih.derivative hd
  | simplify _ hs ih => exact ih.simplify hs

/-- No slot that a graph had is changed on the way. -/
theorem kept (h : Reworks fuel g g') : g'.Extends g := by
  induction h with
  | refl => exact .refl g
  | derivative _ hd ih => exact (derivative_extends hd).trans ih
  | simplify _ hs ih => exact (simplify_extends hs).trans ih

theorem of_normaliseWithin (hrun : g.normaliseWithin fuel rounds h = some (s, g')) :
    Reworks fuel g g' := by
  induction rounds generalizing g h with
  | zero => cases hrun
  | succ rounds ih =>
      rcases normaliseWithin_cases hrun with ⟨hs, -⟩ | ⟨d, g₁, hd, -, -, hrun⟩
      · exact Reworks.refl.simplify hs
      · exact (Reworks.refl.simplify hd).trans (ih hrun)

theorem of_consumes (hf : ∀ g h s g', f g h = some (s, g') → Reworks fuel g g')
    (hrun : Consumes f g h word g' s w) : Reworks fuel g g' := by
  induction hrun with
  | done => exact .refl
  | step hd hs _ ih => exact ((Reworks.refl.derivative hd).trans (hf _ _ _ _ hs)).trans ih

theorem of_accepts (hrun : g.accepts fuel h word = some (b, g')) : Reworks fuel g g' := by
  obtain ⟨s, w, hconsumes, -⟩ := consumes_of_accepts hrun
  exact of_consumes (fun _ _ _ _ hs => Reworks.refl.simplify hs) hconsumes

theorem of_parses (hrun : g.parses fuel h word = some (F, g')) : Reworks fuel g g' := by
  rw [parses] at hrun
  obtain ⟨⟨d, g₁⟩, hd, hrun⟩ := Option.bind_eq_some_iff.1 hrun
  obtain ⟨s, w, hconsumes, -⟩ := consumes_of_parsesFrom hrun
  exact (of_normaliseWithin hd).trans (of_consumes (fun _ _ _ _ => of_normaliseWithin) hconsumes)

end Reworks

end Graph

namespace Grammar

variable {α β : Type} {g g' g₁ g₂ : Grammar} {h root : Handle} {fuel fuel' : Nat}

/-! ## Doing something again -/

theorem run_bind_cases {x : GrammarM α} {f : α → GrammarM β} {res : Except Failure β}
    (hrun : (x >>= f).run.run g = (res, g₁)) :
    (∃ e, x.run.run g = (.error e, g₁) ∧ res = .error e) ∨
      ∃ a g', x.run.run g = (.ok a, g') ∧ (f a).run.run g' = (res, g₁) := by
  rw [run_bind] at hrun
  rcases hx : x.run.run g with ⟨e | a, g'⟩ <;> rw [hx] at hrun
  · cases hrun
    exact .inl ⟨e, rfl, rfl⟩
  · exact .inr ⟨a, g', rfl, hrun⟩

/-- An action changes nothing, and comes to a given result unless it runs out of steps. -/
def Repeats (x : GrammarM α) (res : Except Failure α) (g : Grammar) : Prop :=
  x.run.run g = (res, g) ∨ x.run.run g = (.error .exhausted, g)

namespace Repeats

variable {x : GrammarM α} {f : α → GrammarM β} {a : α} {res : Except Failure β} {e : Failure}

theorem bind (hx : Repeats x (.ok a) g) (hf : Repeats (f a) res g) : Repeats (x >>= f) res g := by
  rcases hx with hx | hx <;> unfold Repeats <;> rw [run_bind, hx]
  · exact hf
  · exact .inr rfl

theorem bind_error (hx : Repeats x (.error e) g) : Repeats (x >>= f) (.error e) g := by
  rcases hx with hx | hx <;> unfold Repeats <;> rw [run_bind, hx]
  · exact .inl rfl
  · exact .inr rfl

theorem unchanged {res : Except Failure α} (hx : Repeats x res g) : (x.run.run g).2 = g := by
  rcases hx with hx | hx <;> rw [hx]

end Repeats

/-- A reference that has been followed to its destination is followed to the same destination when
other references have been built, and nothing is left to build. -/
theorem traceWithin_again {steps steps' : Nat} {passed : List Handle}
    {res : Except Failure Destination} (hg : g.WellFormed) (hh : g.Has h)
    (hrun : (traceWithin steps passed h).run.run g = (res, g₁))
    (hres : res ≠ .error .exhausted) (hlater : g₁.graph.Forces Set.univ g₂.graph) :
    Repeats (traceWithin steps' passed h) res g₂ := by
  -- The slots that the first run meets are nodes, forwards and undefined rules in the end.
  induction steps generalizing g h passed steps' with
  | zero =>
      cases hrun
      exact absurd rfl hres
  | succ steps ih =>
      cases steps' with
      | zero => exact .inr rfl
      | succ steps' =>
          have hreached {g : Graph} {h : Handle} : g.ReachedFrom Set.univ h := ⟨h, trivial, .refl⟩
          have hforces : g.graph.Forces Set.univ g₂.graph := by
            have hchange := (hg.traceWithin hh hreached (steps + 1) passed).change
            rw [hrun] at hchange
            exact Graph.Forces.trans hchange hlater
          unfold traceWithin at hrun ⊢
          split at hrun
          · next hpassed =>
              cases hrun
              rw [if_pos hpassed]
              exact .inl rfl
          · next hpassed =>
              rw [if_neg hpassed]
              rw [run_bind, run_get] at hrun
              dsimp only at hrun
              rcases hs : g.graph.slot? h with _ | (n | body | name | t) <;>
                simp only [hs] at hrun
              · exact absurd (slot?_eq_none.1 hs) (Nat.not_le.2 hh)
              · cases hrun
                have hs₂ := hforces.grows.node h n hs
                refine Repeats.bind (.inl rfl) (?_ : Repeats _ _ g₂)
                simp only [hs₂]
                exact .inl rfl
              · obtain ⟨t, ga, hforce⟩ := run_force body g
                have hsound : Sound Graph.Prefix (force body) Has g := hg.force body
                have ht := hsound.result t ga hforce
                have hga := hsound.wellFormed
                have hkept := hsound.change
                rw [hforce] at hga hkept
                have hsa : ga.graph.slot? h = some (.suspended body) := (hkept.2 h hh).trans hs
                let gb : Grammar := { ga with graph := ga.graph.setForward h t }
                have hgb : gb.WellFormed :=
                  { graph := hga.graph.setForward ht fun n => by simp [hsa]
                    rules := fun entry he => by simpa [gb] using hga.rules entry he
                    names := fun entry he => by simpa [gb] using hga.names entry he }
                have hsb : gb.graph.slot? h = some (.forward t) :=
                  slot?_setForward_self (slot?_lt hsa)
                have htb : gb.Has t := hgb.graph.inRange h t (by simp [references_of_forward hsb])
                rw [run_bind, hforce] at hrun
                dsimp only at hrun
                rw [run_bind, run_onGraph] at hrun
                have hchange := (hgb.traceWithin htb hreached steps (h :: passed)).change
                rw [show (traceWithin steps (h :: passed) t).run.run gb = (res, g₁) from hrun] at hchange
                have hs₂ := (Graph.Forces.trans hchange hlater).grows.forward h t hsb
                refine Repeats.bind (.inl rfl) (?_ : Repeats _ _ g₂)
                simp only [hs₂]
                exact ih hgb htb hrun
              · cases hrun
                have hs₂ : g₂.graph.slot? h = some (.undefined name) := by
                  rcases hforces.slot h hh with he | ⟨-, body, t, hs', -⟩
                  · exact he.trans hs
                  · rw [hs] at hs'
                    cases hs'
                refine Repeats.bind (.inl rfl) (?_ : Repeats _ _ g₂)
                simp only [hs₂]
                exact .inl rfl
              · have hs₂ := hforces.grows.forward h t hs
                have ht : g.Has t := hg.graph.inRange h t (by simp [references_of_forward hs])
                refine Repeats.bind (.inl rfl) (?_ : Repeats _ _ g₂)
                simp only [hs₂]
                exact ih hg ht hrun

theorem settleWithin_again {steps steps' : Nat} {res : Except Failure Handle} (hg : g.WellFormed)
    (hh : g.Has h) (hrun : (settleWithin steps h).run.run g = (res, g₁))
    (hres : res ≠ .error .exhausted) (hlater : g₁.graph.Forces Set.univ g₂.graph) :
    Repeats (settleWithin steps' h) res g₂ := by
  unfold settleWithin at hrun ⊢
  rcases run_bind_cases hrun with ⟨e, htrace, rfl⟩ | ⟨d, g', htrace, hrun⟩
  · have he : (.error e : Except Failure Destination) ≠ .error .exhausted := fun he => by
      cases he
      exact hres rfl
    exact (traceWithin_again hg hh htrace he hlater).bind_error
  · have hg' : g' = g₁ := by cases d <;> exact congrArg Prod.snd hrun
    subst hg'
    refine (traceWithin_again hg hh htrace (by simp) hlater).bind ?_
    cases d <;> cases hrun <;> exact .inl rfl

/-- What has been explored is found as it was left. -/
theorem exploreWithin_again (g₂ : Grammar) (reach' : Nat) {reach steps : Nat} {seen : Std.TreeSet Handle}
    {todo : List Handle} {res : Except Failure Unit} (hg : g.WellFormed)
    (htodo : ∀ h ∈ todo, g.Has h)
    (hrun : (exploreWithin reach steps seen todo).run.run g = (res, g₁)) :
    g.graph.Forces Set.univ g₁.graph ∧
      (res ≠ .error .exhausted → g₁.graph.Forces Set.univ g₂.graph → ∀ steps',
        Repeats (exploreWithin reach' steps' seen todo) res g₂) := by
  have hreached {g : Graph} {h : Handle} : g.ReachedFrom Set.univ h := ⟨h, trivial, .refl⟩
  induction steps generalizing g seen todo with
  | zero =>
      cases todo with
      | nil =>
          cases hrun
          exact ⟨.of_extends (.refl _), fun _ _ steps' => by cases steps' <;> exact .inl rfl⟩
      | cons h todo =>
          cases hrun
          exact ⟨.of_extends (.refl _), fun hres => absurd rfl hres⟩
  | succ steps ih =>
      cases todo with
      | nil =>
          cases hrun
          exact ⟨.of_extends (.refl _), fun _ _ steps' => by cases steps' <;> exact .inl rfl⟩
      | cons h todo =>
          have hh := htodo h (by simp)
          have hsettled := hg.settleWithin hh hreached reach
          unfold exploreWithin at hrun
          rcases run_bind_cases hrun with ⟨e, hsettle, rfl⟩ | ⟨r, ga, hsettle, hrun⟩
          · have hchange := hsettled.change
            rw [hsettle] at hchange
            refine ⟨hchange, fun hres hlater steps' => ?_⟩
            have he : (.error e : Except Failure Handle) ≠ .error .exhausted := fun he => by
              cases he
              exact hres rfl
            cases steps' with
            | zero => exact .inr rfl
            | succ steps' => exact (settleWithin_again hg hh hsettle he hlater).bind_error
          · obtain ⟨n, hl, hs⟩ := hsettled.result r ga hsettle
            have hga := hsettled.wellFormed
            have hchange := hsettled.change
            rw [hsettle] at hga hchange
            have hhas : ∀ k ∈ todo, ga.Has k := fun k hk =>
              Has.change (htodo k (by simp [hk])) hchange
            have hchildren : ∀ k ∈ n.children.reverse ++ todo, ga.Has k := fun k hk => by
              rcases List.mem_append.1 hk with hk | hk
              · refine hga.graph.inRange r k ?_
                rw [references_of_node hs]
                exact List.mem_reverse.1 hk
              · exact hhas k hk
            have hsettleAgain (hlater : ga.graph.Forces Set.univ g₂.graph) :
                Repeats (settleWithin reach' h) (.ok r) g₂ :=
              settleWithin_again hg hh hsettle (by simp) hlater
            dsimp only at hrun
            split at hrun
            · next hseen =>
                obtain ⟨hforces, hagain⟩ := ih hga hhas hrun
                refine ⟨hchange.trans hforces, fun hres hlater steps' => ?_⟩
                cases steps' with
                | zero => exact .inr rfl
                | succ steps' =>
                    unfold exploreWithin
                    refine (hsettleAgain (hforces.trans hlater)).bind ?_
                    rw [if_pos hseen]
                    exact hagain hres hlater steps'
            · next hseen =>
                rw [run_bind, run_get] at hrun
                dsimp only at hrun
                rw [node_eq hs] at hrun
                obtain ⟨hforces, hagain⟩ := ih hga hchildren hrun
                refine ⟨hchange.trans hforces, fun hres hlater steps' => ?_⟩
                cases steps' with
                | zero => exact .inr rfl
                | succ steps' =>
                    have hs₂ := (hforces.trans hlater).grows.node r n hs
                    unfold exploreWithin
                    refine (hsettleAgain (hforces.trans hlater)).bind ?_
                    rw [if_neg hseen]
                    refine Repeats.bind (.inl rfl) (?_ : Repeats _ _ g₂)
                    rw [node_eq hs₂]
                    exact hagain hres hlater steps'

/-- A preparation that has come to an end has nothing left to do when it is repeated, whatever has
been prepared in between. -/
theorem prepare_again {res : Except Failure Handle} (hg : g.WellFormed) (hroot : g.Has root)
    (hrun : (prepare root).run.run g = (res, g₁)) (hres : res ≠ .error .exhausted)
    (hlater : g₁.graph.Forces Set.univ g₂.graph) : Repeats (prepare root) res g₂ := by
  have hreached : g.graph.ReachedFrom Set.univ root := ⟨root, trivial, .refl⟩
  unfold prepare at hrun ⊢
  rw [run_bind, run_get] at hrun
  dsimp only at hrun
  refine Repeats.bind (.inl rfl) (?_ : Repeats _ _ g₂)
  have hsettled := hg.settleWithin hroot hreached (reachBound g)
  rcases run_bind_cases hrun with ⟨e, hsettle, rfl⟩ | ⟨r, ga, hsettle, hrun⟩
  · have he : (.error e : Except Failure Handle) ≠ .error .exhausted := fun he => by
      cases he
      exact hres rfl
    exact (settleWithin_again hg hroot hsettle he hlater).bind_error
  · obtain ⟨n, hl, hs⟩ := hsettled.result r ga hsettle
    have hga := hsettled.wellFormed
    rw [hsettle] at hga
    have hr : ∀ k ∈ [r], ga.Has k := by
      simpa [Has] using Graph.slot?_lt hs
    rcases run_bind_cases hrun with ⟨e, hexplore, rfl⟩ | ⟨u, gb, hexplore, hrun⟩
    · obtain ⟨hforces, hagain⟩ := exploreWithin_again g₂ (reachBound g₂) hga hr
        hexplore
      have he : (.error e : Except Failure Unit) ≠ .error .exhausted := fun he => by
        cases he
        exact hres rfl
      refine (settleWithin_again hg hroot hsettle (by simp) (hforces.trans hlater)).bind ?_
      exact (hagain he hlater _).bind_error
    · cases hrun
      obtain ⟨hforces, hagain⟩ := exploreWithin_again g₂ (reachBound g₂) hga hr
        hexplore
      refine (settleWithin_again hg hroot hsettle (by simp) (hforces.trans hlater)).bind ?_
      exact (hagain (by simp) hlater _).bind (.inl rfl)

/-! ## Inquiries -/

/-- A question about a text: whether an expression matches it, or what its parses are. -/
inductive Inquiry where
  | «matches» (h : Handle) (text : String)
  | parse (h : Handle) (text : String)

namespace Inquiry

/-- The expression that is asked about. -/
def subject : Inquiry → Handle
  | .matches h _ => h
  | .parse h _ => h

/-- The answer, a verdict or a forest. -/
def answer (fuel : Nat) : Inquiry → GrammarM (Bool ⊕ Forest)
  | .matches h text => do return .inl (← Grammar.matches fuel h text)
  | .parse h text => do return .inr (← Grammar.parse fuel h text)

/-- The grammar that an inquiry leaves. -/
def after (fuel : Nat) (q : Inquiry) (g : Grammar) : Grammar := ((q.answer fuel).run.run g).2

/-- An inquiry returns, with an answer or with a fault of the grammar. -/
def Returns (fuel : Nat) (q : Inquiry) (g : Grammar) : Prop :=
  ((q.answer fuel).run.run g).1 ≠ .error .exhausted

end Inquiry

/-- The grammar that several inquiries leave. -/
def afterAll (fuel : Nat) (qs : List Inquiry) (g : Grammar) : Grammar :=
  qs.foldl (fun g q => q.after fuel g) g

/-- What an action on the prepared expression adds is released again, or the action has no result.
-/
theorem run_releasing {f : Graph → Option (α × Graph)}
    (hf : ∀ a graph, f g.graph = some (a, graph) → graph.Extends g.graph) :
    ((onGraph? (Graph.releasing f)).run.run g).2 = g := by
  unfold onGraph?
  rw [run_bind, run_get]
  dsimp only
  rcases hrun : Graph.releasing f g.graph with _ | ⟨a, graph⟩
  · rfl
  · obtain rfl := Graph.releasing_eq hf hrun
    rfl

theorem after_eq (q : Inquiry) (g : Grammar) :
    q.after fuel g = ((prepare q.subject).run.run g).2 := by
  have hparts {γ : Type} (f : Handle → Graph → Option (γ × Graph)) (w : γ → Bool ⊕ Forest)
      (hf : ∀ r graph a after, f r graph = some (a, after) → after.Extends graph) :
      (((do
        let a ← (do
          let r ← prepare q.subject
          onGraph? (Graph.releasing (f r)))
        return w a : GrammarM (Bool ⊕ Forest))).run.run g).2 = ((prepare q.subject).run.run g).2 := by
    rw [run_bind, run_bind]
    rcases (prepare q.subject).run.run g with ⟨e | r, g₁⟩
    · rfl
    · have hreleased := run_releasing (g := g₁) (hf r g₁.graph)
      dsimp only
      rcases hrun : (onGraph? (Graph.releasing (f r))).run.run g₁ with ⟨e | a, g₂⟩
      · rw [hrun] at hreleased
        exact hreleased
      · rw [hrun] at hreleased
        exact hreleased
  cases q with
  | «matches» h text =>
      exact hparts (fun r graph => graph.accepts fuel r text.toList) .inl
        fun _ _ _ _ h => (Reworks.of_accepts h).kept
  | parse h text =>
      exact hparts (fun r graph => graph.parses fuel r text.toList) .inr
        fun _ _ _ _ h => (Reworks.of_parses h).kept

section Inquiries

variable {q : Inquiry} {qs : List Inquiry}

theorem WellFormed.after (fuel : Nat) (hg : g.WellFormed) (hsubject : g.Has q.subject) :
    (q.after fuel g).WellFormed ∧ g.graph.Forces {q.subject} (q.after fuel g).graph := by
  rw [after_eq]
  exact ⟨(hg.preparing hsubject).wellFormed, (hg.preparing hsubject).change⟩

/-- An inquiry that returns has prepared its expression, or found a fault. -/
theorem prepare_of_returns (h : q.Returns fuel g) :
    ((prepare q.subject).run.run g).1 ≠ .error .exhausted := by
  intro hprepare
  refine h ?_
  rcases hrun : (prepare q.subject).run.run g with ⟨res, g₁⟩
  rw [hrun] at hprepare
  cases q <;>
  · simp only [Inquiry.subject] at hrun
    simp only [Inquiry.answer, Grammar.matches, parse]
    rw [run_bind, run_bind, hrun]
    simp only at hprepare
    rw [hprepare]

/-- Inquiries force suspended references and do nothing else. -/
theorem WellFormed.afterAll (hg : g.WellFormed) (hqs : ∀ q ∈ qs, g.Has q.subject) :
    g.graph.Forces Set.univ (afterAll fuel qs g).graph := by
  induction qs generalizing g with
  | nil => exact .of_extends (.refl _)
  | cons q qs ih =>
      obtain ⟨hwellFormed, hforces⟩ := hg.after fuel (hqs q (by simp))
      have hqs' : ∀ q' ∈ qs, (q.after fuel g).Has q'.subject := fun q' hq' =>
        Has.change (hqs q' (by simp [hq'])) hforces
      exact (hforces.mono (Set.subset_univ _)).trans (ih hwellFormed hqs')

/-- Whatever an inquiry comes to, it leaves what the preparation of its expression leaves: slots
have been added, suspended references that can be reached from the expression have become forwards,
all of them if the preparation succeeds, and no other slot and no rule has changed.  No derivative
or simplification in between changes a slot that is left, and no reference that is left goes to a
released slot.  After an inquiry that has returned, another one about the same expression changes
nothing, however many others there were in between. -/
theorem inquiry_leaves_prepared (hg : g.WellFormed) (hsubject : g.Has q.subject) :
    q.after fuel g = ((prepare q.subject).run.run g).2 ∧
      (g.graph.Forces {q.subject} (q.after fuel g).graph ∧ g.rules <+: (q.after fuel g).rules) ∧
      (∀ r, ((prepare q.subject).run.run g).1 = .ok r → (q.after fuel g).graph.Ready q.subject) ∧
      (∀ working, Reworks fuel (q.after fuel g).graph working →
        working.Extends (q.after fuel g).graph) ∧
      (∀ h, ∀ k ∈ (q.after fuel g).graph.references h, k.index < (q.after fuel g).graph.size) ∧
      (q.Returns fuel g → ∀ (others : List Inquiry) (again : Inquiry) (fuel' : Nat),
        (∀ q' ∈ others, g.Has q'.subject) → again.subject = q.subject →
          again.after fuel' (afterAll fuel' others (q.after fuel g)) =
            afterAll fuel' others (q.after fuel g)) := by
  obtain ⟨hwellFormed, hforces⟩ := hg.after fuel hsubject
  have hrules : g.rules <+: (q.after fuel g).rules := by
    rw [after_eq]
    exact appends_prepare q.subject g
  have hready : ∀ r, ((prepare q.subject).run.run g).1 = .ok r →
      (q.after fuel g).graph.Ready q.subject := by
    intro r hr
    have hrun : (prepare q.subject).run.run g = (.ok r, q.after fuel g) := by
      rw [after_eq, ← hr]
      rfl
    exact ((hg.preparing hsubject).result r _ hrun).2
  refine ⟨after_eq q g, ⟨hforces, hrules⟩, hready, fun working h => h.kept,
    hwellFormed.graph.inRange, fun hreturns others again fuel' hothers hagain => ?_⟩
  have hlater : (q.after fuel g).graph.Forces Set.univ
      (afterAll fuel' others (q.after fuel g)).graph :=
    hwellFormed.afterAll fun q' hq' => Has.change (hothers q' hq') hforces
  have hprepare := prepare_of_returns hreturns
  have hrun : (prepare q.subject).run.run g =
      (((prepare q.subject).run.run g).1, q.after fuel g) := by
    rw [after_eq]
    rfl
  rw [after_eq again, hagain]
  exact (prepare_again hg hsubject hrun hprepare hlater).unchanged

end Inquiries

/-! ## A detour to a rule -/

namespace Detour

/-- A rule without a body, a suspended reference to the rule, and a suspended `'a'`. -/
def grammar : Grammar :=
  ⟨⟨#[.node .nil, .node .empty, .node .any, .undefined "r", .suspended (.rule "r"),
      .suspended (.char 'a')]⟩, [("r", ⟨3⟩)], [], 0⟩

/-- The handle of the rule. -/
def ruleHandle : Handle := ⟨3⟩

/-- The suspended reference to the rule. -/
def reference : Handle := ⟨4⟩

/-- The suspended `'a'`. -/
def letter : Handle := ⟨5⟩

theorem wellFormed_grammar : grammar.WellFormed where
  graph := .of_fits rfl rfl rfl (by decide)
  rules := by decide
  names := by decide

/-- A rule may be defined as a suspended reference to it, but no longer once an inquiry has built
the reference: the inquiry, which found that the rule has no body, shows in what the definition
comes to. -/
theorem define_after_inquiry :
    grammar.WellFormed ∧ grammar.Has reference ∧
      ((Inquiry.matches reference "").answer 1).run.run grammar =
        (.error (.grammar (.undefinedRule "r")), (Inquiry.matches reference "").after 1 grammar) ∧
      ((define "r" (.handle reference)).run.run grammar).1 = .ok ruleHandle ∧
      ((define "r" (.handle reference)).run.run
        ((Inquiry.matches reference "").after 1 grammar)).1 =
          .error (.grammar (.cyclicRule "r")) := by
  refine ⟨wellFormed_grammar, (by decide : 4 < 6), ?_, ?_, ?_⟩
  · rfl
  · rfl
  · rfl

/-- Asking whether `a` matches the suspended `'a'` builds it; asking for the parses of another text
afterwards changes nothing, although the reference to the rule has been built in between. -/
theorem inquiry_leaves_prepared_letter :
    (grammar.WellFormed ∧ grammar.Has letter ∧ (Inquiry.matches letter "a").Returns 2 grammar) ∧
      (Inquiry.matches letter "a").after 2 grammar = ((prepare letter).run.run grammar).2 ∧
      (Inquiry.parse letter "b").after 2
          (afterAll 2 [.matches reference ""] ((Inquiry.matches letter "a").after 2 grammar)) =
        afterAll 2 [.matches reference ""] ((Inquiry.matches letter "a").after 2 grammar) := by
  have hletter : grammar.Has letter := (by decide : 5 < 6)
  have hreturns : (Inquiry.matches letter "a").Returns 2 grammar := by
    have hanswer : (((Inquiry.matches letter "a").answer 2).run.run grammar).1 = .ok (.inl true) := by
      rfl
    unfold Inquiry.Returns
    rw [hanswer]
    simp
  have hleaves := @inquiry_leaves_prepared grammar 2 (.matches letter "a") wellFormed_grammar hletter
  refine ⟨⟨wellFormed_grammar, hletter, hreturns⟩, hleaves.1, ?_⟩
  refine hleaves.2.2.2.2.2 hreturns [.matches reference ""] (.parse letter "b") 2 ?_ rfl
  intro q hq
  rw [List.mem_singleton.1 hq]
  exact (by decide : 4 < 6)

end Detour

end Grammar

end DerivativeParsing
