import DerivativeParsing.Recognition
import DerivativeParsing.Proofs.Transforms

/-!
# What a transformation leaves alone

The rules of derivatives and of simplification only ever add slots.  The one change to a slot that
is there already is the redirection of a placeholder, and every placeholder is new in the
transformation.  So no slot that a graph had before is changed, whatever the graph is and wherever
its references lead, and releasing what was added since restores the graph exactly
(`releasing_eq`).

Nothing is required of the graph: where Proofs/Transforms follows a transformation through a part of
a graph that is ready, this file follows it through any graph.
-/

set_option autoImplicit false

namespace DerivativeParsing

open Fixpoint DerivativeParsing.Graph

variable {α β : Type}

/-! ## Plans that add slots -/

/-- A plan changes no slot of the graph that it has in hand: between two questions it only adds
slots, to the graph that the last answer came with. -/
def Fixpoint.Plan.Adds : Plan Graph Handle Handle α → Graph → Prop
  | .done _ g', g => g'.Extends g
  | .ask _ g' resume, g => g'.Extends g ∧ ∀ v g'', (resume v g'').Adds g''
  | .stuck, _ => True

/-- A rule changes no slot, in whatever graph it starts. -/
def TransformM.Adds (x : TransformM α) : Prop := ∀ g, (x g).Adds g

namespace Fixpoint.Plan.Adds

variable {g g' : Graph} {plan : Plan Graph Handle Handle α}

theorem of_extends (h : plan.Adds g') (hkept : g'.Extends g) : plan.Adds g := by
  cases plan with
  | done a g'' => exact Extends.trans h hkept
  | ask key g'' resume => exact ⟨h.1.trans hkept, h.2⟩
  | stuck => trivial

theorem bind {next : α → TransformM β} (h : plan.Adds g) (hnext : ∀ a, (next a).Adds) :
    (plan.bind fun a s => next a s).Adds g := by
  induction plan generalizing g with
  | done a g' => exact (hnext a g').of_extends h
  | ask key g' resume ih => exact ⟨h.1, fun v g'' => ih v g'' (h.2 v g'')⟩
  | stuck => trivial

end Fixpoint.Plan.Adds

namespace TransformM.Adds

theorem pure (a : α) : (pure a : TransformM α).Adds := fun g => Extends.refl g

theorem bind {x : TransformM α} {next : α → TransformM β} (hx : x.Adds)
    (hnext : ∀ a, (next a).Adds) : (x >>= next).Adds := fun g => (hx g).bind hnext

theorem ask (h : Handle) : (Transform.ask h).Adds := by
  intro g
  unfold Transform.ask
  split
  · exact ⟨.refl g, fun _ g' => Extends.refl g'⟩
  · trivial

theorem look (f : Graph → Option α) : (Transform.look f).Adds := by
  intro g
  unfold Transform.look Rule.query
  split
  · exact Extends.refl g
  · trivial

theorem make (n : Node) : (Transform.make n).Adds := fun _ => extends_make

theorem ite {p : Prop} [Decidable p] {x y : TransformM α} (hx : x.Adds) (hy : y.Adds) :
    (if p then x else y).Adds := by
  split
  · exact hx
  · exact hy

end TransformM.Adds

/-! ## The rules -/

namespace Derivative

open TransformM

theorem adds_matched (c : Char) : (matched c).Adds := .make _

theorem adds_another (first rest : Handle) : (another first rest).Adds :=
  (Adds.make _).bind fun _ => .make _

/-- The rule of a derivative adds slots only. -/
theorem adds_ofNode (c : Char) (self : Handle) (n : Node) : (ofNode c self n).Adds := by
  cases n with
  | nil => exact .pure _
  | empty => exact .pure _
  | any => exact .pure _
  | char v => exact .ite (adds_matched c) (.pure _)
  | range first last => exact .ite (adds_matched c) (.pure _)
  | token text =>
      cases text with
      | nil => exact .pure _
      | cons first rest =>
          exact .ite ((Adds.make _).bind fun _ => (adds_matched c).bind fun _ => .make _) (.pure _)
  | alt left right => exact (Adds.ask _).bind fun _ => (Adds.ask _).bind fun _ => .make _
  | seq first second =>
      exact (Adds.ask _).bind fun _ => (Adds.make _).bind fun _ => (Adds.ask _).bind fun _ =>
        (Adds.make _).bind fun _ => (Adds.make _).bind fun _ => .make _
  | star operand => exact (Adds.ask _).bind fun _ => adds_another _ _
  | rep operand count =>
      rcases count with (_ | _ | _ | k) | _
      · exact .pure _
      · exact .ask _
      · exact (Adds.ask _).bind fun _ => .make _
      · exact (Adds.ask _).bind fun _ => (Adds.make _).bind fun _ => adds_another _ _
      · exact (Adds.ask _).bind fun _ => adds_another _ _
  | not operand => exact (Adds.ask _).bind fun _ => .make _
  | nullability operand => exact .pure _
  | emptyReduction trees => exact .pure _
  | reduction operand reducer => exact (Adds.ask _).bind fun _ => .make _

end Derivative

namespace Simplify

open TransformM

theorem adds_keepOrMake (self new old : Handle) (n : Node) : (keepOrMake self new old n).Adds :=
  (Adds.look _).bind fun _ => .ite (.pure _) (.make _)

theorem adds_rebuild (branches : List Handle) (existing : Option Handle) :
    (rebuild branches existing).Adds := by
  induction branches generalizing existing with
  | nil => exact .pure _
  | cons first rest ih =>
      cases rest with
      | nil => exact .pure _
      | cons second rest =>
          refine (Adds.look _).bind fun shape => ?_
          rcases shape with _ | ⟨e, left, right⟩
          · exact (ih none).bind fun _ => .make _
          · exact (Adds.look _).bind fun _ => (ih _).bind fun _ => (Adds.look _).bind fun _ =>
              .ite (.pure _) (.make _)

theorem adds_alternatives (self left right : Handle) : (alternatives self left right).Adds :=
  (Adds.look _).bind fun _ => adds_rebuild _ _

/-- The rule of a simplification adds slots only. -/
theorem adds_ofNode (fuel : Nat) (self : Handle) (n : Node) : (ofNode fuel self n).Adds := by
  cases n with
  | nil => exact .pure _
  | empty => exact .pure _
  | any => exact .pure _
  | char v => exact .pure _
  | range first last => exact .ite (.make _) (.pure _)
  | token text => exact .pure _
  | alt left right =>
      exact (Adds.ask _).bind fun _ => (Adds.ask _).bind fun _ => adds_alternatives _ _ _
  | seq first second =>
      refine (Adds.ask _).bind fun _ => (Adds.ask _).bind fun _ => ?_
      refine (Adds.look _).bind fun _ => .ite (.pure _) ?_
      refine (Adds.look _).bind fun _ => .ite (.pure _) ?_
      refine (Adds.look _).bind fun _ => .ite (.pure _) ?_
      refine (Adds.look _).bind fun _ => .ite (.pure _) ?_
      exact (Adds.look _).bind fun _ => .ite (.pure _) (.make _)
  | star operand =>
      refine (Adds.ask _).bind fun new => (Adds.look _).bind fun n => ?_
      rcases starred? new n with _ | done
      · exact adds_keepOrMake _ _ _ _
      · exact .pure _
  | rep operand count =>
      rcases count with (_ | _ | k) | _
      · exact .pure _
      · exact .ask _
      · refine (Adds.ask _).bind fun new => (Adds.look _).bind fun n => ?_
        cases n <;> first | exact .pure _ | exact adds_keepOrMake _ _ _ _
      · refine (Adds.ask _).bind fun new => (Adds.look _).bind fun n => ?_
        rcases starred? new n with _ | done
        · exact .make _
        · exact .pure _
  | not operand =>
      refine (Adds.ask _).bind fun new => (Adds.look _).bind fun n => ?_
      cases n <;> first | exact .pure _ | exact adds_keepOrMake _ _ _ _
  | nullability operand =>
      refine (Adds.look _).bind fun _ => .ite ?_ (.pure _)
      refine (Adds.ask _).bind fun new => (Adds.look _).bind fun n => ?_
      cases n <;> first | exact .pure _ | exact adds_keepOrMake _ _ _ _
  | emptyReduction trees => exact .pure _
  | reduction operand reducer =>
      refine (Adds.ask _).bind fun new => (Adds.look _).bind fun n => ?_
      cases n with
      | nil => exact .pure _
      | emptyReduction trees => exact (Adds.look _).bind fun reduced => .make _
      | _ => exact adds_keepOrMake _ _ _ _

end Simplify

/-! ## Transformations -/

section Adding

variable {g₀ g g' : Graph} {m m' : Memory Handle Handle} {key p v root : Handle}
  {standIn : Handle → Handle} {rule : Handle → TransformM Handle}

/-- What holds while slots are added to a graph: its own slots are what they were, and all
placeholders are new. -/
structure Adding (g₀ : Graph) (m : Memory Handle Handle) (g : Graph) : Prop where
  kept : g.Extends g₀
  unasked : ∀ y : Handle, m.progress[y]? = none → m.values[y]? = none
  placeholder : ∀ y p, m.Underway y p → g₀.size ≤ p.index

/-- A transformation that adds slots to a graph. -/
def adding (g₀ : Graph) : Contract Graph Handle Handle where
  asks _ m g := Adding g₀ m g
  answers _ _ _ _ m' g' := Adding g₀ m' g'

namespace Adding

theorem initial (g₀ : Graph) : Adding g₀ .empty g₀ where
  kept := .refl g₀
  unasked _ _ := Std.TreeMap.getElem?_emptyc
  placeholder y p h := by simp [Memory.Underway, Memory.empty] at h

theorem extend (h : Adding g₀ m g) (hkept : g'.Extends g) : Adding g₀ m g' :=
  ⟨hkept.trans h.kept, h.unasked, h.placeholder⟩

theorem start (h : Adding g₀ m g) (hfresh : m.progress[key]? = none) :
    Adding g₀ (m.start key ⟨g.size⟩) (g.alloc (.forward (standIn key))).2 where
  kept := extends_alloc.trans h.kept
  unasked y hy := by
    have hne : y ≠ key := fun he => by
      subst he
      obtain ⟨b, hb⟩ := (Memory.underway_start : (m.start y ⟨g.size⟩).Underway y ⟨g.size⟩).1
      simp [hy] at hb
    rw [Memory.values_start_of_ne hne]
    exact h.unasked y ((Memory.progress_start_of_ne hne).symm.trans hy)
  placeholder y p hp := by
    rcases (Memory.underway_start_iff hfresh).1 hp with ⟨-, rfl⟩ | hp
    · exact h.kept.1
    · exact h.placeholder y p hp

theorem giveAway (h : Adding g₀ m g) {progress : Progress} (hp : m.progress[key]? = some progress) :
    Adding g₀ (m.giveAway key progress) g where
  kept := h.kept
  unasked y hy := by
    have hfresh : m.progress[y]? = none := by
      by_contra hne
      exact (Memory.frame_giveAway hp).progress_ne_none hne hy
    cases progress <;> exact h.unasked y hfresh
  placeholder y p hy := h.placeholder y p ((Memory.underway_giveAway hp).1 hy)

/-- Only the slot of a placeholder is redirected, and that is a new one. -/
theorem settle (h : Adding g₀ m g) (hp : m.Underway key p) :
    Adding g₀ (m.finish key p v) (g.redirect p v) where
  kept := by
    refine ⟨by simpa using h.kept.1, fun k hk => ?_⟩
    have hne : k ≠ p := fun he => by
      subst he
      exact absurd (h.placeholder key k hp) (Nat.not_le.2 hk)
    rw [slot?_redirect_of_ne hne]
    exact h.kept.2 k hk
  unasked y hy := by
    have hne : y ≠ key := fun he => by
      subst he
      rw [Memory.finished_finish.1] at hy
      cases hy
    rw [Memory.values_finish_of_ne hne]
    exact h.unasked y ((Memory.progress_finish_of_ne hne).symm.trans hy)
  placeholder y q hq := h.placeholder y q (Memory.underway_finish_iff.1 hq).2

/-- A plan that adds slots keeps adding slots, whatever its questions are answered with. -/
theorem ensures {plan : Plan Graph Handle Handle α} (h : Adding g₀ m g) (hplan : plan.Adds g) :
    plan.Ensures (adding g₀) True (fun _ m' g' => Adding g₀ m' g') m := by
  induction plan generalizing m g with
  | done a g' => exact h.extend hplan
  | ask key g' resume ih =>
      refine ⟨h.extend hplan.1, fun v m' g'' _ _ hanswer => ?_⟩
      exact ih v g'' hanswer (hplan.2 v g'')
  | stuck => trivial

end Adding

theorem adding_kept (g₀ : Graph) (hrule : ∀ key, (rule key).Adds) :
    (adding g₀).Kept (Transform.rules standIn rule) True (fun _ => True) (fun _ => True) where
  remembered key m g v progress h hp _ := Adding.giveAway h hp
  carried key m g p g₁ hasks hfresh hstart := by
    have h : Adding g₀ m g := hasks
    have hprovisional : (Transform.rules standIn rule).provisional m key g =
        g.alloc (.forward (standIn key)) := by
      unfold Rules.provisional
      rw [h.unasked key hfresh]
      rfl
    rw [hprovisional] at hstart
    cases hstart
    refine ((h.start hfresh).ensures (hrule key _)).mono ?_
    intro v m₁ g₁ _ h₁ hframe _
    exact ⟨trivial, h₁.settle (hframe.underway_of Memory.underway_start)⟩

/-- A transformation whose rules add slots only leaves every slot of the graph what it was. -/
theorem apply_extends (hrule : ∀ key, (rule key).Adds)
    (h : Transform.apply (Transform.rules standIn rule) g root = some (v, g')) : g'.Extends g := by
  rw [Transform.apply] at h
  obtain ⟨r, -, h⟩ := Option.bind_eq_some_iff.1 h
  rw [runOnce] at h
  split at h
  · next w m g₁ hvisit =>
      cases h
      have hadding : Adding g m g' :=
        (visit_ensures (adding_kept g hrule) (.initial g) fun _ _ => trivial).2 v m g' hvisit
      exact hadding.kept
  · cases h

end Adding

namespace Graph

variable {g g' : Graph} {h v : Handle} {c : Char} {fuel rounds : Nat}

theorem derivative_extends (hrun : g.derivative c h = some (v, g')) : g'.Extends g :=
  apply_extends (fun _ => (TransformM.Adds.look _).bind fun _ => Derivative.adds_ofNode c _ _) hrun

theorem simplify_extends (hrun : g.simplify fuel h = some (v, g')) : g'.Extends g :=
  apply_extends (fun _ => (TransformM.Adds.look _).bind fun _ => Simplify.adds_ofNode fuel _ _) hrun

/-! ## Releasing -/

/-- Dropping the slots that were added to a graph gives it back. -/
theorem Extends.truncate (h : g'.Extends g) : g'.truncate g.size = g := by
  obtain ⟨slots⟩ := g
  obtain ⟨slots'⟩ := g'
  have hsize : slots.size ≤ slots'.size := h.1
  refine congrArg Graph.mk (Array.ext ?_ fun i hi hi' => ?_)
  · simpa [Graph.size] using hsize
  · have hslot : slots'[i]? = slots[i]? := h.2 ⟨i⟩ hi'
    rw [Array.getElem?_eq_getElem hi', Array.getElem?_eq_getElem (hi'.trans_le hsize)] at hslot
    simpa [Graph.size] using Option.some.inj hslot

/-- A computation that adds slots leaves the graph as it was if it releases what it added. -/
theorem releasing_eq {f : Graph → Option (α × Graph)} {a : α}
    (hf : ∀ a g', f g = some (a, g') → g'.Extends g) (h : releasing f g = some (a, g')) : g' = g := by
  obtain ⟨⟨b, after⟩, hrun, he⟩ := Option.bind_eq_some_iff.1 h
  cases he
  exact (hf _ after hrun).truncate

end Graph

end DerivativeParsing
