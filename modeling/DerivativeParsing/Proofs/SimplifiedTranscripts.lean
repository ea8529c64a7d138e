import DerivativeParsing.Transform.Simplify
import DerivativeParsing.Proofs.Recording

/-!
# Transcripts of what is simplified

Simplification changes the trees of an expression, and not what they record: what has been left out
has recorded nothing, and reducers that are carried out early keep the text.  So the bounds on the
transcripts of an expression are bounds on those of its simplified form
(`Graph.Transcribes.simplify`).

The placeholder of a node forwards to the node itself, and what may be claimed of it are the bounds
on the node.  Therefore bounds on a handle are those on the end of its chain, even while
placeholders are on the chain (`transcribes_of_leads`).
-/

set_option autoImplicit false
set_option linter.unusedSectionVars false

namespace DerivativeParsing

open Fixpoint DerivativeParsing.Graph Transcript Transcripts
open scoped Pointwise

section Simplified

variable {g₀ g₁ g g' : Graph} {m m₁ : Memory Handle Handle} {key p v a b r z root : Handle}
  {n t : Node} {R A : Transcripts} {fuel : Nat}

theorem targets_records : Targets g₀ id g₀.Records where
  mono _ _ _ hR h := h.mono hR
  standIn _ _ h := h

/-- An expression has the bounds on transcripts that a key has. -/
def Fits (g₀ : Graph) (key : Handle) (m : Memory Handle Handle) (g : Graph) (v : Handle) : Prop :=
  v.index < g.size ∧ ∀ R, g₀.Records key R → g.Transcribes (Claims g₀.Records m) v R

theorem Fits.extend (h : Fits g₀ key m g v) (hkept : g'.Extends g) : Fits g₀ key m g' v :=
  ⟨h.1.trans_le hkept.1, fun R hR => (h.2 R hR).of_extends hkept fun _ _ _ => id⟩

/-- The operands of an alternative that fits fit. -/
theorem Fits.operands (h : Fits g₀ key m g v) (hg : g.WellFormed)
    (hs : g.slot? v = some (.node (.alt a b))) : Fits g₀ key m g a ∧ Fits g₀ key m g b := by
  have hlt : ∀ k ∈ [a, b], k.index < g.size := fun k hk =>
    hg.inRange v k (by rwa [references_of_node hs])
  exact ⟨⟨hlt a (by simp), fun R hR => ((h.2 R hR).node hs).1⟩,
    ⟨hlt b (by simp), fun R hR => ((h.2 R hR).node hs).2⟩⟩

/-- What is done for a key that has no bounds at all does not matter. -/
theorem Fits.of_unbounded (hv : v.index < g.size) (h : ∀ R, ¬ g₀.Records key R) :
    Fits g₀ key m g v := ⟨hv, fun R hR => absurd hR (h R)⟩

namespace Carrying

/-- What a rule of simplification comes to. -/
abbrev Simplifies (g₀ : Graph) (key p : Handle) (g₁ : Graph) (m₁ : Memory Handle Handle)
    (plan : Plan Graph Handle Handle Handle) (m : Memory Handle Handle) : Prop :=
  plan.Ensures (recording g₀ id g₀.Records) True (Reaching g₀ id g₀.Records key p g₁ m₁) m

section Rule

variable (h : Carrying g₀ g₀.handles True id (TranscriptInv g₀.Records) key p g₁ m₁ m g)

include h

/-! ### Bounds -/

/-- The bounds on the end of a chain are bounds on what leads to it. -/
theorem transcribes_of_leads (hl : g.Leads a r)
    (hr : g.Transcribes (Claims g₀.Records m) r R) :
    g.Transcribes (Claims g₀.Records m) a R := by
  induction hl with
  | here => exact hr
  | @step a t r hs _ ih =>
      refine .of_forward hs (fun R' hsub y hy => ?_) (ih hr)
      -- A placeholder forwards to its key, of which the same is certified.
      cases hs.symm.trans (h.working.placeholder y a hy).2
      have hrestrict : g₀.Records y R := (ih hr).restrict h.working.kept h.wellFormed
        (h.working.asked y a hy.holds).1 fun _ _ _ _ => trivial
      exact hrestrict.mono hsub

theorem transcribes_of_nodeAt (hn : g.nodeAt a = some t) (hnil : t ≠ .nil)
    (ht : t.Within (g.Transcribes (Claims g₀.Records m)) R) :
    g.Transcribes (Claims g₀.Records m) a R := by
  obtain ⟨r, hl, rfl⟩ := nodeAt_eq_some.1 hn
  exact h.transcribes_of_leads hl (.of_stored h.working (slot?_of_node_eq rfl hnil) ht)

/-- The answer for an operand has the bounds that the operand has. -/
theorem transcribes_answer (ha : HeldFor g₀ m z a) (hz : g₀.Records z A) :
    g.Transcribes (Claims g₀.Records m) a A := by
  obtain ⟨r, hl, ha⟩ := ha
  exact h.inv r a A ha (hz.leads hl)

theorem fits_answer (ha : HeldFor g₀ m z a) (hz : ∀ R, g₀.Records key R → g₀.Records z R) :
    Fits g₀ key m g a :=
  ⟨(h.answer_mem ha).1, fun R hR => h.transcribes_answer ha (hz R hR)⟩

theorem fits_self : Fits g₀ key m g key :=
  ⟨(h.mem_grown h.mem).1, fun _ hR => hR.lift h.working⟩

theorem fits_nil : Fits g₀ key m g .nil :=
  ⟨(h.mem_grown h.stage.nil).1, fun _ _ => .of_stored h.working h.working.wellFormed.nil trivial⟩

theorem fits_empty (hone : ∀ R, g₀.Records key R → 1 ∈ R) : Fits g₀ key m g .empty :=
  ⟨(h.mem_grown h.stage.empty).1,
    fun R hR => .of_stored h.working h.working.wellFormed.empty (hone R hR)⟩

/-- A node fits if its operands have bounds that make it fit. -/
theorem make (ht : ∀ k ∈ t.children, k.index < g.size) (htoken : t ≠ .token [])
    (hwithin : ∀ R, g₀.Records key R → t.Within (g.Transcribes (Claims g₀.Records m)) R) :
    Carrying g₀ g₀.handles True id (TranscriptInv g₀.Records) key p g₁ m₁ m (g.make t).2 ∧
      Fits g₀ key m (g.make t).2 (g.make t).1 := by
  have hbuilds : Builds (grown g₀ g₀.handles g) (· = t) g (g.make t).2 :=
    .make (fun k hk => mem_grown_handles.2 (ht k hk)) rfl
  have hslot : (g.make t).2.slot? (g.make t).1 = some (.node t) := h.working.wellFormed.slot?_make
  have h' := h.build TranscriptInv.steady hbuilds fun he => htoken he.symm
  refine ⟨h', slot?_lt hslot, fun R hR => .of_stored h'.working hslot ?_⟩
  refine (hwithin R hR).mono (fun _ => id) fun k _ A A' hA hk => ?_
  exact (hk.of_extends extends_make fun _ _ _ => id).mono hA

/-! ### Results -/

theorem simplifies_pure (hv : Fits g₀ key m g v) :
    Simplifies g₀ key p g₁ m₁ ((pure v : TransformM Handle) g) m := ⟨h, hv⟩

theorem simplifies_make (ht : ∀ k ∈ t.children, k.index < g.size) (htoken : t ≠ .token [])
    (hwithin : ∀ R, g₀.Records key R → t.Within (g.Transcribes (Claims g₀.Records m)) R) :
    Simplifies g₀ key p g₁ m₁ (Transform.make t g) m := h.make ht htoken hwithin

theorem simplifies_keepOrMake (ht : ∀ k ∈ t.children, k.index < g.size) (htoken : t ≠ .token [])
    (hwithin : ∀ R, g₀.Records key R → t.Within (g.Transcribes (Claims g₀.Records m)) R) :
    Simplifies g₀ key p g₁ m₁ (Simplify.keepOrMake key a z t g) m := by
  unfold Simplify.keepOrMake
  refine ensures_look (fun _ => trivial) fun same _ => ?_
  cases same with
  | true => exact h.simplifies_pure h.fits_self
  | false => exact h.simplifies_make ht htoken hwithin

/-! ### Alternatives -/

/-- What is put together from expressions that fit fits. -/
theorem fits_of_joins {items : List Handle} (hjoins : Simplify.Joins g items v)
    (hitems : ∀ k ∈ items, Fits g₀ key m g k) (hv : v.index < g.size) : Fits g₀ key m g v := by
  induction hjoins with
  | nil => exact h.fits_nil
  | only k => exact hitems k (by simp)
  | @cons first left tail right v items hs hleft hright _ ih =>
      have hlt : ∀ k ∈ [left, right], k.index < g.size := fun k hk =>
        h.working.wellFormed.inRange v k (by rwa [references_of_node hs])
      have htail := ih (fun k hk => hitems k (by simp [hk]))
        (h.working.wellFormed.lt_of_leads hright (hlt right (by simp)))
      -- An operand has the bounds of what it leads to.
      have hoperand {k r : Handle} (hkr : r = k ∨ g.Leads k r) (hr : Fits g₀ key m g r)
          (R : Transcripts) (hR : g₀.Records key R) : g.Transcribes (Claims g₀.Records m) k R :=
        hkr.elim (fun he => he ▸ hr.2 R hR) fun hl => h.transcribes_of_leads hl (hr.2 R hR)
      exact ⟨hv, fun R hR => .of_stored h.working hs
        ⟨hoperand hleft (hitems first (by simp)) R hR, hoperand hright htail R hR⟩⟩

theorem simplifies_alternatives (ha : Fits g₀ key m g a) (hb : Fits g₀ key m g b) :
    Simplifies g₀ key p g₁ m₁ (Simplify.alternatives key a b g) m := by
  have hg := h.working.wellFormed
  refine (Simplify.ensures_alternatives hg hg.closed_lt (fun _ => id) hg.nil_lt
    (h.mem_grown h.mem).1 ha.1 hb.1).mono ?_
  rintro v m' g' - ⟨items, hitems, rfl, hbuilds, hv, hjoins⟩
  have h' := h.build TranscriptInv.steady
    (hbuilds.mono (fun k hk => mem_grown_handles.2 hk) fun _ => id)
    fun ⟨_, _, he⟩ => by cases he
  have hfits : ∀ k ∈ items, Fits g₀ key m' g k := fun k hk =>
    Simplify.of_mem_joined (fun _ _ _ hs he => he.operands hg hs) ha hb hitems hk
  have hvlt : v.index < g'.size := hv.elim (fun hv => hv.trans_le hbuilds.kept.1) And.right
  exact ⟨h', h'.fits_of_joins hjoins (fun k hk => (hfits k hk).extend hbuilds.kept) hvlt⟩

/-! ### The other nodes -/

/-- Operands that record nothing are left out of a sequence. -/
theorem simplifies_seq {first second : Handle} (hn : g₀.node key = .seq first second) :
    Simplifies g₀ key p g₁ m₁ (Simplify.ofNode fuel key (.seq first second) g) m := by
  refine h.ensures_ask (by simp [hn, Node.children]) fun r a m' g' h' _ _ hl ha _ => ?_
  refine h'.ensures_ask (by simp [hn, Node.children])
    fun r' b m'' g'' h'' hframe _ hl' hb _ => ?_
  replace ha : HeldFor g₀ m'' first a := HeldFor.frame ⟨r, hl, ha⟩ hframe
  replace hb : HeldFor g₀ m'' second b := ⟨r', hl', hb⟩
  have hparts (R : Transcripts) (hR : g₀.Records key R) : ∃ A B,
      g''.Transcribes (Claims g₀.Records m'') a A ∧ g''.Transcribes (Claims g₀.Records m'') b B ∧
        A * B ⊆ R := by
    have hwithin := hR.read
    rw [hn] at hwithin
    obtain ⟨A, B, hA, hB, hsub⟩ := hwithin
    exact ⟨A, B, h''.transcribes_answer ha hA, h''.transcribes_answer hb hB, hsub⟩
  refine ensures_look (fun _ => trivial) fun firstNil _ => ?_
  cases firstNil with
  | true => exact h''.simplifies_pure h''.fits_nil
  | false =>
  refine ensures_look (fun _ => trivial) fun secondNil _ => ?_
  cases secondNil with
  | true => exact h''.simplifies_pure h''.fits_nil
  | false =>
  refine ensures_look (fun _ => trivial) fun firstEmpty hfirst => ?_
  cases firstEmpty with
  | true =>
      refine h''.simplifies_pure ⟨(h''.answer_mem hb).1, fun R hR => ?_⟩
      obtain ⟨A, B, hA, hB, hsub⟩ := hparts R hR
      have hone : 1 ∈ A := hA.nodeAt (nodeAt_of_isEmpty hfirst)
      exact hB.mono ((Set.subset_mul_right B hone).trans hsub)
  | false =>
  refine ensures_look (fun _ => trivial) fun secondEmpty hsecond => ?_
  cases secondEmpty with
  | true =>
      refine h''.simplifies_pure ⟨(h''.answer_mem ha).1, fun R hR => ?_⟩
      obtain ⟨A, B, hA, hB, hsub⟩ := hparts R hR
      have hone : 1 ∈ B := hB.nodeAt (nodeAt_of_isEmpty hsecond)
      exact hA.mono ((Set.subset_mul_left A hone).trans hsub)
  | false =>
  refine ensures_look (fun _ => trivial) fun same _ => ?_
  cases same with
  | true => exact h''.simplifies_pure h''.fits_self
  | false =>
      exact h''.simplifies_make
        (by simpa [Node.children] using ⟨(h''.answer_mem ha).1, (h''.answer_mem hb).1⟩) (by simp) hparts

/-- A repetition without a bound, of an operand that was asked for. -/
theorem fits_starred (ha : HeldFor g₀ m z a)
    (hz : ∀ R, g₀.Records key R → ∃ A, g₀.Records z A ∧ repeated A ⊆ R) (ht : g.nodeAt a = some t)
    (hv : Simplify.starred? a t = some v) : Fits g₀ key m g v := by
  rcases Simplify.starred?_eq_some hv with ⟨rfl, -⟩ | ⟨rfl, -⟩
  · refine h.fits_empty fun R hR => ?_
    obtain ⟨A, -, hsub⟩ := hz R hR
    exact hsub one_mem_repeated
  · refine ⟨(h.answer_mem ha).1, fun R hR => ?_⟩
    obtain ⟨A, hA, hsub⟩ := hz R hR
    exact (h.transcribes_answer ha hA).mono (subset_repeated.trans hsub)

theorem within_star (ha : HeldFor g₀ m z a)
    (hz : ∀ R, g₀.Records key R → ∃ A, g₀.Records z A ∧ repeated A ⊆ R) (R : Transcripts)
    (hR : g₀.Records key R) :
    (Node.star a).Within (g.Transcribes (Claims g₀.Records m)) R := by
  obtain ⟨A, hA, hsub⟩ := hz R hR
  exact ⟨A, h.transcribes_answer ha hA, hsub⟩

theorem simplifies_star {operand : Handle} (hn : g₀.node key = .star operand) :
    Simplifies g₀ key p g₁ m₁ (Simplify.ofNode fuel key (.star operand) g) m := by
  refine h.ensures_ask (by simp [hn, Node.children]) fun r a m' g' h' _ _ hl ha _ => ?_
  replace ha : HeldFor g₀ m' operand a := ⟨r, hl, ha⟩
  have hparts (R : Transcripts) (hR : g₀.Records key R) :
      ∃ A, g₀.Records operand A ∧ repeated A ⊆ R := by
    have hwithin := hR.read
    rwa [hn] at hwithin
  refine ensures_look (fun _ => trivial) fun t ht => ?_
  rcases hv : Simplify.starred? a t with _ | v
  · exact h'.simplifies_keepOrMake (by simpa [Node.children] using (h'.answer_mem ha).1) (by simp)
      (h'.within_star ha hparts)
  · exact h'.simplifies_pure (h'.fits_starred ha hparts ht hv)

/-- A number of repetitions becomes what it comes to. -/
theorem simplifies_rep {operand : Handle} {count : Count} (hn : g₀.node key = .rep operand count) :
    Simplifies g₀ key p g₁ m₁ (Simplify.ofNode fuel key (.rep operand count) g) m := by
  have hasked : operand ∈ (g₀.node key).children := by simp [hn, Node.children]
  have hwithin (R : Transcripts) (hR : g₀.Records key R) :
      (Node.rep operand count).Within g₀.Records R := hn ▸ hR.read
  rcases count with (_ | _ | k) | _
  · refine h.simplifies_pure (h.fits_empty fun R hR => ?_)
    obtain ⟨A, -, hsub⟩ := hwithin R hR
    exact hsub (Set.mem_one.2 rfl)
  · show (Transform.ask operand g).Ensures _ _ _ _
    rw [← Running.ask_bind_pure]
    refine h.ensures_ask hasked fun r a m' g' h' _ _ hl ha _ => ?_
    refine h'.simplifies_pure (h'.fits_answer ⟨r, hl, ha⟩ fun R hR => ?_)
    obtain ⟨A, hA, hsub⟩ := hwithin R hR
    rw [pow_one] at hsub
    exact hA.mono hsub
  · refine h.ensures_ask hasked fun r a m' g' h' _ _ hl ha _ => ?_
    replace ha : HeldFor g₀ m' operand a := ⟨r, hl, ha⟩
    refine ensures_look (fun _ => trivial) fun t ht => ?_
    have hother := h'.simplifies_keepOrMake (a := a) (z := operand)
      (t := .rep a (.exactly (k + 2))) (by simpa [Node.children] using (h'.answer_mem ha).1) (by simp)
      fun R hR => by
        obtain ⟨A, hA, hsub⟩ := hwithin R hR
        exact ⟨A, h'.transcribes_answer ha hA, hsub⟩
    cases t with
    | nil => exact h'.simplifies_pure h'.fits_nil
    | empty =>
        refine h'.simplifies_pure (h'.fits_empty fun R hR => ?_)
        obtain ⟨A, hA, hsub⟩ := hwithin R hR
        have hone : 1 ∈ A := (h'.transcribes_answer ha hA).nodeAt ht
        have hmem : 1 ^ (k + 2) ∈ A ^ (k + 2) := Set.pow_mem_pow hone
        rw [one_pow] at hmem
        exact hsub hmem
    | _ => exact hother
  · refine h.ensures_ask hasked fun r a m' g' h' _ _ hl ha _ => ?_
    replace ha : HeldFor g₀ m' operand a := ⟨r, hl, ha⟩
    refine ensures_look (fun _ => trivial) fun t ht => ?_
    rcases hv : Simplify.starred? a t with _ | v
    · exact h'.simplifies_make (by simpa [Node.children] using (h'.answer_mem ha).1) (by simp)
        (h'.within_star ha hwithin)
    · exact h'.simplifies_pure (h'.fits_starred ha hwithin ht hv)

/-- A complement has no bounds, so that nothing has to be shown of what becomes of it. -/
theorem simplifies_not {operand : Handle} (hn : g₀.node key = .not operand) :
    Simplifies g₀ key p g₁ m₁ (Simplify.ofNode fuel key (.not operand) g) m := by
  have hunbounded (R : Transcripts) : ¬ g₀.Records key R := fun hR => by
    have hwithin := hR.read
    rw [hn] at hwithin
    exact hwithin
  refine h.ensures_ask (by simp [hn, Node.children]) fun r a m' g' h' _ _ hl ha _ => ?_
  replace ha : HeldFor g₀ m' operand a := ⟨r, hl, ha⟩
  refine ensures_look (fun _ => trivial) fun t ht => ?_
  have hother := h'.simplifies_keepOrMake (a := a) (z := operand) (t := .not a)
    (by simpa [Node.children] using (h'.answer_mem ha).1) (by simp)
    fun R hR => absurd hR (hunbounded R)
  cases t with
  | not inner =>
      have hreaches : g'.Reaches a inner := reaches_of_nodeAt ht (by simp [Node.children])
      have hlt := h'.working.wellFormed.lt_of_reaches (h'.answer_mem ha).1 hreaches
      exact h'.simplifies_pure (.of_unbounded hlt hunbounded)
  | _ => exact hother

/-- What is finished stays what it is. -/
theorem simplifies_nullability {operand : Handle} (hn : g₀.node key = .nullability operand) :
    Simplifies g₀ key p g₁ m₁ (Simplify.ofNode fuel key (.nullability operand) g) m := by
  refine ensures_look (fun _ => trivial) fun nullable _ => ?_
  cases nullable with
  | false => exact h.simplifies_pure h.fits_nil
  | true =>
  refine h.ensures_ask (by simp [hn, Node.children]) fun r a m' g' h' _ _ hl ha _ => ?_
  replace ha : HeldFor g₀ m' operand a := ⟨r, hl, ha⟩
  have hparts (R : Transcripts) (hR : g₀.Records key R) :
      ∃ A, g'.Transcribes (Claims g₀.Records m') a A ∧ finished A ⊆ R := by
    have hwithin := hR.read
    rw [hn] at hwithin
    obtain ⟨A, hA, hsub⟩ := hwithin
    exact ⟨A, h'.transcribes_answer ha hA, hsub⟩
  refine ensures_look (fun _ => trivial) fun t ht => ?_
  have hother := h'.simplifies_keepOrMake (a := a) (z := operand) (t := .nullability a)
    (by simpa [Node.children] using (h'.answer_mem ha).1) (by simp) hparts
  have hdone (hnil : t ≠ .nil)
      (hfinished : ∀ A, t.Within (g'.Transcribes (Claims g₀.Records m')) A →
        t.Within (g'.Transcribes (Claims g₀.Records m')) (finished A)) :
      Simplifies g₀ key p g₁ m₁ ((pure a : TransformM Handle) g') m' := by
    refine h'.simplifies_pure ⟨(h'.answer_mem ha).1, fun R hR => ?_⟩
    obtain ⟨A, hA, hsub⟩ := hparts R hR
    exact (h'.transcribes_of_nodeAt ht hnil (hfinished A (hA.nodeAt ht))).mono hsub
  cases t with
  | empty => exact hdone (by simp) fun A hA => ⟨hA, rfl⟩
  | emptyReduction trees => exact hdone (by simp) fun A hA t ht => ⟨hA t ht, rfl⟩
  | nullability inner =>
      refine hdone (by simp) fun A ⟨B, hB, hsub⟩ => ⟨B, hB, fun x hx => ⟨hsub hx, hx.2⟩⟩
  | _ => exact hother

/-- A reduction that is carried out early keeps the text. -/
theorem simplifies_reduction {operand : Handle} {reducer : Reducer}
    (hn : g₀.node key = .reduction operand reducer) :
    Simplifies g₀ key p g₁ m₁ (Simplify.ofNode fuel key (.reduction operand reducer) g) m := by
  refine h.ensures_ask (by simp [hn, Node.children]) fun r a m' g' h' _ _ hl ha _ => ?_
  replace ha : HeldFor g₀ m' operand a := ⟨r, hl, ha⟩
  have hparts (R : Transcripts) (hR : g₀.Records key R) :
      reducer.KeepsText ∧ g'.Transcribes (Claims g₀.Records m') a R := by
    have hwithin := hR.read
    rw [hn] at hwithin
    exact ⟨hwithin.1, h'.transcribes_answer ha hwithin.2⟩
  refine ensures_look (fun _ => trivial) fun t ht => ?_
  have hother := h'.simplifies_keepOrMake (a := a) (z := operand) (t := .reduction a reducer)
    (by simpa [Node.children] using (h'.answer_mem ha).1) (by simp) hparts
  cases t with
  | nil => exact h'.simplifies_pure h'.fits_nil
  | emptyReduction trees =>
      refine ensures_look (fun _ => trivial) fun reduced hreduced => ?_
      obtain ⟨-, rfl⟩ := Reducer.reduce?_eq_some.1 hreduced
      refine h'.simplifies_make (by simp [Node.children]) (by simp) fun R hR t htree => ?_
      obtain ⟨hkeeps, ha⟩ := hparts R hR
      obtain ⟨s, hs, rfl⟩ := Forest.mem_map.1 htree
      rw [hkeeps s]
      exact ha.nodeAt ht s hs
  | _ => exact hother

/-- Every rule of simplification keeps the bounds. -/
theorem simplifies (hn : g₀.node key = n) :
    Simplifies g₀ key p g₁ m₁ (Simplify.ofNode fuel key n g) m := by
  have hself := h.simplifies_pure h.fits_self
  cases n with
  | nil => exact hself
  | empty => exact hself
  | any => exact hself
  | char c => exact hself
  | token text => exact hself
  | emptyReduction trees => exact hself
  | range first last =>
      show ((if first = last then Transform.make (.char first) else pure key : TransformM Handle)
        g).Ensures _ _ _ _
      by_cases he : first = last
      · rw [if_pos he]
        refine h.simplifies_make (by simp [Node.children]) (by simp) fun R hR => ?_
        have hwithin := hR.read
        rw [hn] at hwithin
        exact hwithin first (Char.le_refl _) (he ▸ Char.le_refl _)
      · rw [if_neg he]
        exact hself
  | alt left right =>
      have hoperands (R : Transcripts) (hR : g₀.Records key R) :
          g₀.Records left R ∧ g₀.Records right R := by
        have hwithin := hR.read
        rwa [hn] at hwithin
      refine h.ensures_ask (by simp [hn, Node.children]) fun r a m' g' h' _ _ hl ha _ => ?_
      refine h'.ensures_ask (by simp [hn, Node.children])
        fun r' b m'' g'' h'' hframe _ hl' hb _ => ?_
      have ha' : HeldFor g₀ m'' left a := HeldFor.frame ⟨r, hl, ha⟩ hframe
      exact h''.simplifies_alternatives (h''.fits_answer ha' fun R hR => (hoperands R hR).1)
        (h''.fits_answer ⟨r', hl', hb⟩ fun R hR => (hoperands R hR).2)
  | seq first second => exact h.simplifies_seq hn
  | star operand => exact h.simplifies_star hn
  | rep operand count => exact h.simplifies_rep hn
  | not operand => exact h.simplifies_not hn
  | nullability operand => exact h.simplifies_nullability hn
  | reduction operand reducer => exact h.simplifies_reduction hn

end Rule

end Carrying

/-- Simplification keeps the bounds on the transcripts of an expression. -/
theorem Graph.Transcribes.simplify (hg : g₀.WellFormed) (hroot : g₀.Records root R)
    (hrun : g₀.simplify fuel root = some (v, g')) :
    g'.WellFormed ∧ g'.Records v R := by
  have hrule (key p : Handle) (m : Memory Handle Handle) (g : Graph)
      (h : Carrying g₀ g₀.handles True id (TranscriptInv g₀.Records) key p g m m g) :
      (((Transform.look fun g => some (g.node key)) >>= Simplify.ofNode fuel key) g).Ensures
        (recording g₀ id g₀.Records) True (Reaching g₀ id g₀.Records key p g m) m := by
    refine ensures_look (fun _ => trivial) fun n hn => ?_
    obtain rfl : g₀.node key = n := h.node_eq.symm.trans (Option.some.inj hn)
    exact h.simplifies rfl
  obtain ⟨hw, r, hl, hrecords⟩ := apply_transcripts targets_records hrule hg
    (fun _ => id) hroot.lt hrun
  exact ⟨hw, hrecords R (hroot.leads hl)⟩

end Simplified

end DerivativeParsing
