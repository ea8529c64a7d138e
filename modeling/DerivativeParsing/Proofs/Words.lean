import Mathlib.Algebra.Order.Monoid.Unbundled.Pow
import Mathlib.Computability.Language
import Mathlib.Data.Set.Card
import DerivativeParsing.Proofs.Meaning

/-!
# The language of an expression

The languages of the handles of a graph solve one equation for each node.  A complement does not
grow with its operand, so the equations have no least solution as they stand.  They are solved in
*strata*: in each stratum a complement is taken of what its operand stood for in the stratum below,
and the least solution of the stratum is taken.  A word belongs to the language of a handle if it
belongs to all strata from some stratum on.

Where no cycle passes through a complement (`Graph.Stratified`), the strata of a handle are the same
from some stratum on (`Layered.stratum_eq`), and the languages are the least solution in which
every complement is the complement of the final language of its operand (`Layered.language_eq`).
-/

set_option autoImplicit false

/-- A set of words. -/
abbrev WordSet : Type := Language Char

namespace DerivativeParsing

open scoped Computability

/-! ## What nodes stand for -/

/-- The words of a node, given the words of its operands.  A complement is taken of what `outer`
says. -/
def Node.words (outer V : Handle → WordSet) : Node → WordSet
  | .nil => 0
  | .empty => 1
  | .any => {w | ∃ c, w = [c]}
  | .char c => {w | w = [c]}
  | .range first last => {w | ∃ c, first ≤ c ∧ c ≤ last ∧ w = [c]}
  | .token text => {w | w = text}
  | .alt left right => V left + V right
  | .seq first second => V first * V second
  | .star operand => (V operand)∗
  | .rep operand .unbounded => (V operand)∗
  | .rep operand (.exactly n) => V operand ^ n
  | .not operand => (outer operand)ᶜ
  | .nullability operand => V operand ⊓ 1
  | .emptyReduction _ => 1
  | .reduction operand _ => V operand

theorem Node.words_mono (outer : Handle → WordSet) (n : Node) (V W : Handle → WordSet)
    (hVW : ∀ c ∈ n.children, V c ≤ W c) : n.words outer V ≤ n.words outer W := by
  cases n with
  | alt left right =>
      have hl := hVW left (by simp [children])
      have hr := hVW right (by simp [children])
      exact add_le_add hl hr
  | seq first second =>
      have hf := hVW first (by simp [children])
      have hs := hVW second (by simp [children])
      exact mul_le_mul' hf hs
  | star operand => exact kstar_mono (hVW operand (by simp [children]))
  | rep operand count =>
      have ho := hVW operand (by simp [children])
      cases count with
      | exactly n => exact pow_le_pow_left' ho n
      | unbounded => exact kstar_mono ho
  | nullability operand => exact inf_le_inf_right _ (hVW operand (by simp [children]))
  | reduction operand reducer => exact hVW operand (by simp [children])
  | _ => exact le_rfl

/-- The outer languages matter to complements only. -/
theorem Node.words_congr {outer outer' : Handle → WordSet} {n : Node}
    (houter : ∀ p, n = .not p → outer p = outer' p) (V : Handle → WordSet) :
    n.words outer V = n.words outer' V := by
  cases n with
  | not p => exact congrArg compl (houter p rfl)
  | rep operand count => cases count <;> rfl
  | _ => rfl

/-- What a node stands for when complements are taken of given languages. -/
def wordMeaning (outer : Handle → WordSet) : Meaning WordSet where
  node n V := n.words outer V
  mono := Node.words_mono outer

namespace Graph

/-! ## Strata -/

/-- The languages of a stratum. -/
def stratum (g : Graph) : Nat → Handle → WordSet
  | 0 => fun _ => 0
  | n + 1 => (wordMeaning (g.stratum n)).value g

/-- The language of a handle. -/
def language (g : Graph) (h : Handle) : WordSet := {w | ∃ n, ∀ m ≥ n, w ∈ g.stratum m h}

/-- No cycle that can be reached from a handle passes through a complement. -/
def Stratified (g : Graph) (root : Handle) : Prop :=
  ∀ k p, g.Reaches root k → g.slot? k = some (.node (.not p)) → ¬ g.Reaches p k

/-- At most `n` complements are nested in what can be reached from a handle. -/
def NestsAtMost (g : Graph) : Nat → Handle → Prop
  | 0, h => ∀ k p, g.Reaches h k → g.slot? k ≠ some (.node (.not p))
  | n + 1, h => ∀ k p, g.Reaches h k → g.slot? k = some (.node (.not p)) → g.NestsAtMost n p

/-- Complements are nested to a finite depth. -/
def Layered (g : Graph) (h : Handle) : Prop := ∃ n, g.NestsAtMost n h

variable {g g' : Graph} {h k r t p : Handle} {n : Node} {i j : Nat}

theorem NestsAtMost.reaches (hh : g.NestsAtMost i h) (hk : g.Reaches h k) :
    g.NestsAtMost i k := by
  cases i with
  | zero => exact fun k' p hk' => hh k' p (hk.trans hk')
  | succ i => exact fun k' p hk' => hh k' p (hk.trans hk')

theorem NestsAtMost.succ (hh : g.NestsAtMost i h) : g.NestsAtMost (i + 1) h := by
  induction i generalizing h with
  | zero => exact fun k p hk hs => absurd hs (hh k p hk)
  | succ i ih => exact fun k p hk hs => ih (hh k p hk hs)

theorem NestsAtMost.mono (hh : g.NestsAtMost i h) (hij : i ≤ j) : g.NestsAtMost j h := by
  induction hij with
  | refl => exact hh
  | step _ ih => exact ih.succ

theorem Layered.reaches (hh : g.Layered h) (hk : g.Reaches h k) : g.Layered k :=
  hh.imp fun _ hi => hi.reaches hk

theorem Layered.of_mem_references (hh : g.Layered h) (hk : k ∈ g.references h) : g.Layered k :=
  hh.reaches (.single hk)

/-- From the depth of its complements on, the strata of a handle are the same. -/
theorem NestsAtMost.stratum_eq (hh : g.NestsAtMost i h) (hij : i + 1 ≤ j) :
    g.stratum j h = g.stratum (i + 1) h := by
  induction i generalizing h j with
  | zero =>
      obtain ⟨j, rfl⟩ := Nat.exists_eq_add_of_le' hij
      refine Meaning.value_congr _ (closed_reaches g h) (fun _ _ => rfl) (fun k hk n hs => ?_) h .refl
      exact Node.words_congr fun p he => absurd (he ▸ hs) (hh k p hk)
  | succ i ih =>
      obtain ⟨j, rfl⟩ := Nat.exists_eq_add_of_le' (Nat.le_of_add_left_le hij)
      refine Meaning.value_congr _ (closed_reaches g h) (fun _ _ => rfl) (fun k hk n hs => ?_) h .refl
      exact Node.words_congr fun p he => ih (hh k p hk (he ▸ hs)) (by omega)

theorem NestsAtMost.language_eq (hh : g.NestsAtMost i h) :
    g.language h = g.stratum (i + 1) h := by
  ext w
  constructor
  · rintro ⟨n, hn⟩
    have hw := hn (max n (i + 1)) (le_max_left _ _)
    rwa [hh.stratum_eq (le_max_right _ _)] at hw
  · intro hw
    exact ⟨i + 1, fun m hm => by rwa [hh.stratum_eq hm]⟩

/-- The languages are the least solution in which every complement is the complement of the final
language of its operand. -/
theorem Layered.language_eq (hh : g.Layered h) :
    g.language h = (wordMeaning g.language).value g h := by
  obtain ⟨i, hi⟩ := hh
  rw [hi.language_eq]
  refine Meaning.value_congr _ (closed_reaches g h) (fun _ _ => rfl) (fun k hk n hs => ?_) h .refl
  refine Node.words_congr fun p he => ?_
  subst he
  cases i with
  | zero => exact absurd hs (hi k p hk)
  | succ i => exact (NestsAtMost.language_eq (hi k p hk hs)).symm

theorem Layered.language_node (hh : g.Layered h) (hs : g.slot? h = some (.node n)) :
    g.language h = n.words g.language g.language := by
  rw [hh.language_eq, Meaning.value_node _ hs]
  have hchild : ∀ c ∈ n.children, (wordMeaning g.language).value g c = g.language c :=
    fun c hc => (hh.of_mem_references (by rwa [references_of_node hs])).language_eq.symm
  exact le_antisymm (n.words_mono _ _ _ fun c hc => (hchild c hc).le)
    (n.words_mono _ _ _ fun c hc => (hchild c hc).ge)

theorem Layered.language_forward (hh : g.Layered h) (hs : g.slot? h = some (.forward t)) :
    g.language h = g.language t := by
  rw [hh.language_eq, Meaning.value_forward _ hs,
    (hh.of_mem_references (by simp [references_of_forward hs])).language_eq]

/-- Languages solve the equations of the slots, if complements are taken of languages. -/
theorem Layered.slot_language {outer : Handle → WordSet} (hh : g.Layered h)
    (houter : ∀ p, g.slot? h = some (.node (.not p)) → outer p = g.language p) :
    (wordMeaning outer).slot g.language (g.slot? h) = g.language h := by
  have hnone (hs : ∀ V, (wordMeaning g.language).slot V (g.slot? h) = ⊥) : g.language h = ⊥ := by
    rw [hh.language_eq, Meaning.value_eq, hs]
  rcases hs : g.slot? h with _ | (n | body | name | t)
  · exact (hnone fun V => by rw [hs]; rfl).symm
  · rw [hh.language_node hs]
    exact Node.words_congr (fun p hp => houter p (hp ▸ hs)) g.language
  · exact (hnone fun V => by rw [hs]; rfl).symm
  · exact (hnone fun V => by rw [hs]; rfl).symm
  · exact (hh.language_forward hs).symm

theorem Layered.language_leads (hh : g.Layered h) (hl : g.Leads h r) :
    g.language h = g.language r := by
  rw [hh.language_eq, Meaning.value_leads _ hl, (hh.reaches hl.reaches).language_eq]

/-- The languages of a closed set of slots depend on these slots only. -/
theorem stratum_congr {D : Set Handle} (hD : g.Closed D)
    (hslot : ∀ h ∈ D, g'.slot? h = g.slot? h) (i : Nat) :
    ∀ h ∈ D, g'.stratum i h = g.stratum i h := by
  induction i with
  | zero => exact fun _ _ => rfl
  | succ i ih =>
      intro h hh
      refine (Meaning.value_congr _ hD hslot (fun k hk n hs V => ?_) h hh).symm
      refine Node.words_congr (fun p hp => (ih p (hD k hk p ?_)).symm) V
      rw [references_of_node hs, hp, Node.children, List.mem_singleton]

theorem language_congr {D : Set Handle} (hD : g.Closed D)
    (hslot : ∀ h ∈ D, g'.slot? h = g.slot? h) : ∀ h ∈ D, g'.language h = g.language h := by
  intro h hh
  ext w
  exact exists_congr fun n => forall₂_congr fun i _ => by rw [stratum_congr hD hslot i h hh]

/-- Slots that are added make no difference. -/
theorem language_extends (hg : g.WellFormed) (hext : g'.Extends g) (hh : h.index < g.size) :
    g'.language h = g.language h :=
  language_congr hg.closed_lt hext.2 h hh

/-! ## Finite graphs -/

/-- The complements that can be reached from a handle. -/
def complements (g : Graph) (h : Handle) : Set Handle :=
  {k | g.Reaches h k ∧ ∃ p, g.slot? k = some (.node (.not p))}

theorem finite_complements (g : Graph) (h : Handle) : (g.complements h).Finite := by
  refine Set.Finite.of_finite_image (f := Handle.index)
    ((Set.finite_lt_nat g.size).subset ?_) fun a _ b _ => Handle.ext_index
  rintro _ ⟨k, ⟨-, p, hs⟩, rfl⟩
  exact slot?_lt hs

/-- Without cycles through complements, the nesting of complements is finite: the operand of a
complement reaches fewer complements than the complement does. -/
theorem Stratified.layered (hh : g.Stratified h) : g.Layered h := by
  suffices hnests : g.NestsAtMost (g.complements h).ncard h from ⟨_, hnests⟩
  induction hcard : (g.complements h).ncard using Nat.strong_induction_on generalizing h with
  | _ i ih =>
      subst hcard
      have hlt {k p : Handle} (hk : g.Reaches h k) (hs : g.slot? k = some (.node (.not p))) :
          (g.complements p).ncard < (g.complements h).ncard := by
        refine Set.ncard_lt_ncard ⟨fun k' hk' => ?_, fun hsub => ?_⟩ (g.finite_complements h)
        · have hkp : p ∈ g.references k := by simp [references_of_node hs, Node.children]
          exact ⟨(hk.tail hkp).trans hk'.1, hk'.2⟩
        · exact hh k p hk hs (hsub ⟨hk, p, hs⟩).1
      have hoperand {k p : Handle} (hk : g.Reaches h k) (hs : g.slot? k = some (.node (.not p))) :
          g.NestsAtMost (g.complements p).ncard p := by
        have hkp : p ∈ g.references k := by simp [references_of_node hs, Node.children]
        exact ih _ (hlt hk hs) (fun k' p' hk' => hh k' p' ((hk.tail hkp).trans hk')) rfl
      rcases hn : (g.complements h).ncard with _ | i
      · intro k p hk hs
        have := hlt hk hs
        omega
      · intro k p hk hs
        exact (hoperand hk hs).mono (by have := hlt hk hs; omega)

end Graph

end DerivativeParsing
