import DerivativeParsing.Proofs.Sustaining
import DerivativeParsing.Proofs.Transcripts

/-!
# Transcripts of what is transformed

A derivative by `c` has the transcripts that are left once `c` has been read, and simplification
keeps the bounds on transcripts.  For a transformation it is enough to say which bound the result of
a key should have (`Target`) and to show that the rule of a key reaches it, if the results of the
operands do (`sustains_transcripts`): a placeholder is claimed to have no other transcripts than its
key's result should have, and when the rule ends the claim turns out to be true.
-/

set_option autoImplicit false
set_option linter.unusedSectionVars false

namespace DerivativeParsing

open Fixpoint DerivativeParsing.Graph Transcript Transcripts
open scoped Pointwise

section Recording

variable {g₀ g₁ g g' : Graph} {standIn : Handle → Handle} {rule : Handle → TransformM Handle}
  {Target : Handle → Transcripts → Prop} {m m' m₁ : Memory Handle Handle}
  {key p r v a z y h root : Handle} {n t : Node} {R R' A : Transcripts}

/-! ## Bounds on results -/

/-- Of a placeholder it may only be claimed what its key's result should have. -/
def Claims (Target : Handle → Transcripts → Prop) (m : Memory Handle Handle) (h : Handle)
    (R : Transcripts) : Prop := ∀ y, m.Underway y h → Target y R

/-- Every answer has the bounds that it should have. -/
def TranscriptInv (Target : Handle → Transcripts → Prop) (m : Memory Handle Handle) (g : Graph) :
    Prop := ∀ y v R, m.Holds y v → Target y R → g.Transcribes (Claims Target m) v R

/-- Bounds on results, of which what stands in for a result does not fall short. -/
structure Targets (g₀ : Graph) (standIn : Handle → Handle) (Target : Handle → Transcripts → Prop) :
    Prop where
  mono : ∀ y R R', R ⊆ R' → Target y R → Target y R'
  standIn : ∀ y R, Target y R → g₀.Records (standIn y) R

/-- A bound in the graph of the start is one while the transformation runs. -/
theorem Graph.Transcribes.lift (h' : g₀.Records h R) (hw : Working g₀ g₀.handles standIn m g) :
    g.Transcribes (Claims Target m) h R :=
  h'.of_extends hw.kept fun k _ hk _ y hy =>
    absurd (hw.placeholder y k hy).1 (Nat.not_le.2 hk)

/-- A node is no placeholder, and anything may be claimed of it. -/
theorem Graph.Transcribes.of_stored (hw : Working g₀ g₀.handles standIn m g)
    (hs : g.slot? h = some (.node n)) (hn : n.Within (g.Transcribes (Claims Target m)) R) :
    g.Transcribes (Claims Target m) h R := by
  refine .of_node hs (fun A y hy => ?_) hn
  cases hs.symm.trans (hw.placeholder y h hy).2

theorem TranscriptInv.steady : Steady g₀ g₀.handles standIn (TranscriptInv Target) :=
  fun _ _ _ _ _ h hbuilds y v R hv hR =>
    (h y v R hv hR).of_extends hbuilds.kept fun _ _ _ => id

theorem TranscriptInv.congr (h : TranscriptInv Target m g)
    (hfinished : ∀ y v, m'.Finished y v ↔ m.Finished y v)
    (hunderway : ∀ y p, m'.Underway y p ↔ m.Underway y p) : TranscriptInv Target m' g := by
  intro y v R hv hR
  have hv : m.Holds y v := by
    rw [Memory.holds_iff] at hv ⊢
    exact hv.imp (hfinished y v).1 (hunderway y v).1
  exact (h y v R hv hR).of_extends (.refl g) fun k A _ hk y hy => hk y ((hunderway y k).1 hy)

theorem TranscriptInv.start (htargets : Targets g₀ standIn Target) (h : TranscriptInv Target m g)
    (hw : Working g₀ g₀.handles standIn m g) (hfresh : m.progress[key]? = none) :
    TranscriptInv Target (m.start key ⟨g.size⟩) (g.alloc (.forward (standIn key))).2 := by
  -- A placeholder that was there is that of an older rule, and the new one is the key's.
  have hclaims {k : Handle} {A : Transcripts} (hk : k.index < g.size) (hA : Claims Target m k A) :
      Claims Target (m.start key ⟨g.size⟩) k A := by
    intro y hy
    rcases (Memory.underway_start_iff hfresh).1 hy with ⟨-, rfl⟩ | hy
    · exact absurd hk (Nat.lt_irrefl _)
    · exact hA y hy
  intro y v R hv hR
  rcases (Working.holds_start hfresh).1 hv with ⟨rfl, rfl⟩ | hv
  · have hstandIn : g.Transcribes (Claims Target m) (standIn y) R := (htargets.standIn y R hR).lift hw
    refine .of_forward slot?_alloc_new (fun R' hsub z hz => ?_)
      (hstandIn.of_extends extends_alloc fun k A => hclaims)
    rcases (Memory.underway_start_iff hfresh).1 hz with ⟨rfl, -⟩ | hz
    · exact htargets.mono _ R R' hsub hR
    · have hlt := slot?_lt (hw.placeholder z _ hz).2
      exact absurd hlt (Nat.lt_irrefl _)
  · exact (h y v R hv hR).of_extends extends_alloc fun k A => hclaims

theorem TranscriptInv.settle (h : TranscriptInv Target m g)
    (hw : Working g₀ g₀.handles standIn m g) (hp : m.Underway key p)
    (hresult : ∀ R, Target key R → g.Transcribes (Claims Target m) v R) :
    TranscriptInv Target (m.finish key p v) (g.redirect p v) := by
  have hredirect {k : Handle} {A : Transcripts} (hk : g.Transcribes (Claims Target m) k A) :
      (g.redirect p v).Transcribes (Claims Target (m.finish key p v)) k A :=
    hk.redirect ⟨_, (hw.placeholder key p hp).2⟩ (fun A hA => hresult A (hA key hp))
      fun k A hA y hy => hA y (Memory.underway_finish_iff.1 hy).2
  intro y w R hy hR
  rcases Memory.holds_iff.1 hy with hy | hy
  · rcases Memory.finished_finish_iff.1 hy with ⟨rfl, rfl⟩ | ⟨-, hy⟩
    · exact hredirect (hresult R hR)
    · exact hredirect (h y w R hy.holds hR)
  · exact hredirect (h y w R (Memory.underway_finish_iff.1 hy).2.holds hR)

/-- The answers of a transformation that keeps bounds tell nothing else. -/
abbrev recording (g₀ : Graph) (standIn : Handle → Handle) (Target : Handle → Transcripts → Prop) :
    Contract Graph Handle Handle :=
  sustaining g₀ g₀.handles standIn (TranscriptInv Target) fun _ _ _ _ _ => True

/-- What a rule comes to: a result with the bounds that it should have. -/
abbrev Reaching (g₀ : Graph) (standIn : Handle → Handle) (Target : Handle → Transcripts → Prop)
    (key p : Handle) (g₁ : Graph) (m₁ : Memory Handle Handle) :
    Handle → Memory Handle Handle → Graph → Prop := fun v m g =>
  Carrying g₀ g₀.handles True standIn (TranscriptInv Target) key p g₁ m₁ m g ∧ v.index < g.size ∧
    ∀ R, Target key R → g.Transcribes (Claims Target m) v R

theorem sustains_transcripts (htargets : Targets g₀ standIn Target)
    (hrule : ∀ key p m g, Carrying g₀ g₀.handles True standIn (TranscriptInv Target) key p g m m g →
      (rule key g).Ensures (recording g₀ standIn Target) True
        (Reaching g₀ standIn Target key p g m) m) :
    Sustains g₀ g₀.handles True standIn rule (TranscriptInv Target) (fun _ _ _ _ _ => True)
      (fun _ key v m g => ∀ R, Target key R → g.Transcribes (Claims Target m) v R) where
  congr _ _ _ hfinished hunderway h := h.congr hfinished hunderway
  known _ _ _ _ _ _ _ _ := trivial
  start _ _ _ _ hw h hfresh := h.start htargets hw hfresh
  rule key p m g h := (hrule key p m g h).mono fun _ _ _ _ ⟨h', hv, hR⟩ =>
    ⟨h', mem_grown_handles.2 hv, hR⟩
  settle _ _ _ _ _ _ _ _ _ h _ hresult :=
    ⟨h.inv.settle h.working h.underway hresult, trivial⟩

/-- What a transformation comes to in the end. -/
theorem apply_transcripts (htargets : Targets g₀ standIn Target)
    (hrule : ∀ key p m g, Carrying g₀ g₀.handles True standIn (TranscriptInv Target) key p g m m g →
      (rule key g).Ensures (recording g₀ standIn Target) True
        (Reaching g₀ standIn Target key p g m) m)
    (hg : g₀.WellFormed) (hstandIn : ∀ y, y.index < g₀.size → (standIn y).index < g₀.size)
    (hroot : root.index < g₀.size)
    (h : Transform.apply (Transform.rules standIn rule) g₀ root = some (v, g')) :
    g'.WellFormed ∧ ∃ r, g₀.Leads root r ∧ ∀ R, Target r R → g'.Records v R := by
  have hinit : TranscriptInv Target .empty g₀ := fun y v R hy => by
    simp [Memory.Holds, Memory.empty] at hy
  obtain ⟨r, m, hl, hw, hinv, hv, -⟩ :=
    apply_sustains (sustains_transcripts htargets hrule) hg.stage hstandIn hinit hroot h
  refine ⟨hw.wellFormed, r, hl, fun R hR => ?_⟩
  exact (hinv r v R hv.holds hR).of_extends (.refl g') fun _ _ _ _ => trivial

/-! ## Derivatives -/

/-- The bounds on a derivative: what is left of the transcripts of the key. -/
def Derivatives (c : Char) (g₀ : Graph) (y : Handle) (R : Transcripts) : Prop :=
  ∃ A, g₀.Records y A ∧ after [c] A ⊆ R

variable {c : Char}

theorem targets_derivatives (hg : g₀.WellFormed) :
    Targets g₀ (fun _ => .nil) (Derivatives c g₀) where
  mono _ _ _ hR := fun ⟨A, hA, hsub⟩ => ⟨A, hA, hsub.trans hR⟩
  standIn _ _ _ := .of_node hg.nil (fun _ => trivial) trivial

theorem Node.within_literalNode {Γ : Handle → Transcripts → Prop} (w : List Char) :
    (Grammar.literalNode w).Within Γ {verbatim w} := by
  unfold Grammar.literalNode
  split <;> exact Set.mem_singleton _

theorem Node.within_consumed {Γ : Handle → Transcripts → Prop} (h : recorded [c] ∈ R) :
    (consumed c).Within Γ R := by
  intro t ht
  rw [Forest.mem_singleton.1 ht]
  exact h

/-- The derivative of a node has the transcripts that are left of the node's. -/
theorem transcribes_of_derived
    (h : Carrying g₀ g₀.handles True standIn (TranscriptInv (Derivatives c g₀)) key p g₁ m₁ m g)
    (hd : Derived c g (HeldFor g₀ m) key n v) (hn : g₀.node key = n)
    (hR : Derivatives c g₀ key R) : g.Transcribes (Claims (Derivatives c g₀) m) v R := by
  obtain ⟨A, hA, hsub⟩ := hR
  refine Transcribes.mono ?_ hsub
  have hw := h.working
  have hwithin : n.Within g₀.Records A := hn ▸ hA.read
  have hstored {x : Handle} {t : Node} {B : Transcripts} (hx : g.slot? x = some (.node t))
      (ht : t.Within (g.Transcribes (Claims (Derivatives c g₀) m)) B) :
      g.Transcribes (Claims (Derivatives c g₀) m) x B := .of_stored hw hx ht
  have hanswer {z a : Handle} {B : Transcripts} (ha : HeldFor g₀ m z a) (hB : g₀.Records z B) :
      g.Transcribes (Claims (Derivatives c g₀) m) a (after [c] B) := by
    obtain ⟨r, hl, ha⟩ := ha
    exact h.inv r a _ ha ⟨B, hB.leads hl, fun _ => id⟩
  have hverbatim (hmem : verbatim [c] ∈ A) : recorded [c] ∈ after [c] A := by
    rw [verbatim_eq] at hmem
    exact hmem
  -- The transcripts of one match and then of the rest, if the whole repetition has them.
  have hanother {x z a rest : Handle} {B C : Transcripts} (ha : HeldFor g₀ m z a)
      (hB : g₀.Records z B) (hrest : g.Transcribes (Claims (Derivatives c g₀) m) rest C)
      (hBC : B * C ⊆ A) (hx : g.slot? x = some (.node (.seq a rest))) :
      g.Transcribes (Claims (Derivatives c g₀) m) x (after [c] A) :=
    hstored hx ⟨_, _, hanswer ha hB, hrest, after_mul_subset.trans (after_mono hBC)⟩
  have hself {operand : Handle} {B : Transcripts} (hB : g₀.Records operand B)
      (hslot : g₀.slot? key = some (.node (.star operand)) ∨
        g₀.slot? key = some (.node (.rep operand .unbounded))) :
      g.Transcribes (Claims (Derivatives c g₀) m) key (repeated B) := by
    refine Transcribes.lift ?_ hw
    rcases hslot with hs | hs
    · exact .of_node hs (fun _ => trivial) ⟨B, hB, fun _ => id⟩
    · exact .of_node hs (fun _ => trivial) ⟨B, hB, fun _ => id⟩
  cases hd with
  | dead => exact hstored hw.wellFormed.nil trivial
  | any =>
      refine hstored hw.wellFormed.empty ?_
      show skipped [c] * 1 ∈ A
      rw [mul_one]
      exact hwithin c
  | char hv => exact hstored hv (Node.within_consumed (hverbatim hwithin))
  | range hfirst hlast hv =>
      exact hstored hv (Node.within_consumed (hverbatim (hwithin c hfirst hlast)))
  | @token rest x y v hx hy hv =>
      refine hstored hv ⟨{recorded [c]}, {verbatim rest}, hstored hx (Node.within_consumed rfl),
        hstored hy (Node.within_literalNode rest), ?_⟩
      rintro _ ⟨_, rfl, _, rfl, rfl⟩
      show skipped [c] * (recorded [c] * verbatim rest) ∈ A
      rw [← mul_assoc, ← verbatim_eq, ← verbatim_append]
      exact hwithin
  | alt ha hb hv => exact hstored hv ⟨hanswer ha hwithin.1, hanswer hb hwithin.2⟩
  | seq ha hb hx hy hz hv =>
      obtain ⟨B, C, hB, hC, hBC⟩ := hwithin
      refine hstored hv ⟨hanother ha hB (hC.lift hw) hBC hx, hstored hz ?_⟩
      exact ⟨finished B, after [c] C, hstored hy ⟨B, hB.lift hw, fun _ => id⟩, hanswer hb hC,
        finished_mul_after_subset.trans (after_mono hBC)⟩
  | not => exact hwithin.elim
  | star ha hx hv =>
      obtain ⟨B, hB, hsub⟩ := hwithin
      have hslot := slot?_of_node_eq hn (by simp)
      exact hstored hv ⟨Reducer.keepsText_prepend,
        hanother ha hB (hself hB (.inl hslot)) (mul_repeated_subset.trans hsub) hx⟩
  | unbounded ha hx hv =>
      obtain ⟨B, hB, hsub⟩ := hwithin
      have hslot := slot?_of_node_eq hn (by simp)
      exact hstored hv ⟨Reducer.keepsText_prepend,
        hanother ha hB (hself hB (.inr hslot)) (mul_repeated_subset.trans hsub) hx⟩
  | once ha =>
      obtain ⟨B, hB, hsub⟩ := hwithin
      rw [pow_one] at hsub
      exact (hanswer ha hB).mono (after_mono hsub)
  | twice ha hv =>
      obtain ⟨B, hB, hsub⟩ := hwithin
      rw [pow_two] at hsub
      exact hanother ha hB (hB.lift hw) hsub hv
  | @more operand a x y v k ha hx hy hv =>
      obtain ⟨B, hB, hsub⟩ := hwithin
      rw [pow_succ'] at hsub
      have hrest : g.Transcribes (Claims (Derivatives c g₀) m) x (B ^ (k + 2)) :=
        hstored hx ⟨B, hB.lift hw, fun _ => id⟩
      exact hstored hv ⟨Reducer.keepsText_prepend, hanother ha hB hrest hsub hy⟩
  | reduction ha hv => exact hstored hv ⟨hwithin.1, hanswer ha hwithin.2⟩

/-- The derivative of an expression has the transcripts that are left once the character has been
read. -/
theorem Graph.Transcribes.derivative (hg : g₀.WellFormed) (hroot : g₀.Records root R)
    (hrun : g₀.derivative c root = some (v, g')) :
    g'.WellFormed ∧ g'.Records v (after [c] R) := by
  have hrule (key p : Handle) (m : Memory Handle Handle) (g : Graph)
      (h : Carrying g₀ g₀.handles True (fun _ => .nil) (TranscriptInv (Derivatives c g₀)) key p g m m g) :
      (((Transform.look fun g => some (g.node key)) >>= Derivative.ofNode c key) g).Ensures
        (recording g₀ (fun _ => .nil) (Derivatives c g₀)) True
        (Reaching g₀ (fun _ => .nil) (Derivatives c g₀) key p g m) m := by
    refine ensures_look (fun _ => trivial) fun n hn => ?_
    obtain rfl : g₀.node key = n := h.node_eq.symm.trans (Option.some.inj hn)
    refine (h.ensures_derived TranscriptInv.steady rfl).mono fun v m' g' _ ⟨h', hv, hd⟩ => ?_
    exact ⟨h', hv.1, fun R hR => transcribes_of_derived h' hd rfl hR⟩
  obtain ⟨hw, r, hl, hrecords⟩ := apply_transcripts (targets_derivatives hg) hrule hg
    (fun _ _ => hg.nil_lt) hroot.lt hrun
  exact ⟨hw, hrecords _ ⟨R, hroot.leads hl, fun _ => id⟩⟩

end Recording

end DerivativeParsing
