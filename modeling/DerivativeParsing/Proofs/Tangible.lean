import DerivativeParsing.Proofs.Alternatives
import DerivativeParsing.Proofs.Tameness
import DerivativeParsing.Proofs.Traces

/-!
# Tangible expressions

Simplification changes trees in a few places: what becomes `ε` leaves nothing in a sequence, a
complement of a complement becomes its operand, and repetitions of repetitions are not nested.  An
expression is *tangible* if nothing of that can happen to it.  It is made of nodes of which every
match leaves a tree, and a repetition without a bound has an operand that has matches, none of them
of the empty word (`Graph.Tangible`).

Alternatives of tangible expressions unite their traces (`unites_traces`), so that it makes no
difference in which order they are put together.
-/

set_option autoImplicit false

namespace DerivativeParsing

open Fixpoint DerivativeParsing.Graph Residue Trace

/-- Every match leaves a tree. -/
def Trace.Shown (A : Set Trace) : Prop := ∀ w, (w, none) ∉ A

/-- Reducers of which the name tells what they do.  One of them is the one that derivatives apply.
-/
structure Reducer.Agreeing (R : Set Reducer) : Prop where
  prepend : .prepend ∈ R
  action : ∀ f ∈ R, ∀ f' ∈ R, f.name = f'.name → f.action = f'.action

/-! ## Nodes -/

namespace Trace

variable {A B : Set Trace} {f : Tree → Tree} {k : Nat}

theorem Shown.exists_tree {a : Trace} (hA : Shown A) (ha : a ∈ A) : ∃ t, a = (a.1, some t) := by
  obtain ⟨w, _ | t⟩ := a
  · exact absurd ha (hA w)
  · exact ⟨t, rfl⟩

theorem shown_map : Shown (map f '' A) := by
  rintro w ⟨a, -, he⟩
  cases he

theorem shown_append : Shown (Set.image2 append A B) := by
  rintro w ⟨a, -, b, -, he⟩
  cases he

/-- A match that has a tree keeps it when it is passed on. -/
theorem Shown.map_id (hA : Shown A) : map id '' A = A := by
  have hmap : ∀ a ∈ A, map id a = a := by
    intro a ha
    obtain ⟨t, ht⟩ := hA.exists_tree ha
    rw [ht]
    rfl
  exact (Set.image_congr hmap).trans (Set.image_id' A)

theorem shown_lists : Shown (lists A k) := by
  rintro w ⟨items, -, -, he⟩
  cases he

theorem shown_counted : Shown (counted A (k + 2)) := by
  intro w ha
  cases k with
  | zero => exact ha.elim (shown_lists w) (shown_append w)
  | succ k => exact ha.elim (shown_lists w) (shown_map w)

theorem shown_repeated : Shown {a | Repeated A a} := by
  rintro w ha
  generalize he : ((w, none) : Trace) = a at ha
  cases ha with
  | none => cases he
  | more _ _ => cases he

/-- One match in a repetition is a match. -/
theorem Shown.counted_one (hA : Shown A) : counted A 1 = A := by
  have hblank : Shown (blank A) := fun w ha => hA w ha.1
  rw [counted, hblank.map_id]
  ext a
  constructor
  · rintro (ha | ha)
    · exact ha.1
    · exact ha.1
  · intro ha
    by_cases hw : a.1 = []
    · exact .inr ⟨ha, hw⟩
    · exact .inl ⟨ha, hw⟩

/-- There is no list of trees without trees for its items. -/
theorem lists_empty : lists ∅ (k + 1) = ∅ := by
  refine Set.eq_empty_of_forall_notMem ?_
  rintro a ⟨items, hlength, hitems, -⟩
  obtain ⟨t, rest, rfl⟩ := List.exists_cons_of_length_eq_add_one hlength
  obtain ⟨x, hx, -⟩ := hitems t (by simp)
  exact hx

theorem counted_empty : counted ∅ (k + 2) = ∅ := by
  have hbegun : begun ∅ = ∅ := Set.eq_empty_of_forall_notMem fun a ha => ha.1
  cases k with
  | zero => rw [counted, lists_empty, hbegun, Set.image2_empty_left, Set.union_empty]
  | succ k =>
      rw [counted, lists_empty, hbegun, Set.image2_empty_left, Set.image_empty, Set.union_empty]

end Trace

namespace Node

variable {R : Set Reducer} {V W : Handle → Set Trace} {outer : Handle → WordSet} {n : Node}

/-- A node of which every match leaves a tree, and to which simplification does nothing that changes
trees, given the traces of its operands. -/
def Tangible (R : Set Reducer) (V : Handle → Set Trace) : Node → Prop
  | .empty | .any | .not _ | .rep _ (.exactly 0) => False
  | .token text => 2 ≤ text.length
  | .star operand | .rep operand .unbounded => (V operand).Nonempty ∧ ended (V operand) = ∅
  | .reduction _ reducer => reducer ∈ R
  | _ => True

theorem Tangible.congr (hn : n.Tangible R V) (hVW : ∀ c ∈ n.children, W c = V c) :
    n.Tangible R W := by
  cases n with
  | star operand =>
      show (W operand).Nonempty ∧ ended (W operand) = ∅
      rw [hVW operand (by simp [children])]
      exact hn
  | rep operand count =>
      rcases count with (_ | k) | _
      · exact hn
      · trivial
      · show (W operand).Nonempty ∧ ended (W operand) = ∅
        rw [hVW operand (by simp [children])]
        exact hn
  | _ => exact hn

/-- Every match of a tangible node leaves a tree, if that holds of its operands. -/
theorem Tangible.shown (hn : n.Tangible R V) (hW : ∀ c ∈ n.children, Shown (W c)) :
    Shown (n.traces outer W) := by
  intro w ha
  cases n with
  | nil => exact ha
  | empty => exact hn
  | any => exact hn
  | not operand => exact hn
  | char c => cases ha
  | range first last =>
      obtain ⟨c, -, -, he⟩ := ha
      cases he
  | token text =>
      obtain ⟨hne, he⟩ := ha
      cases text with
      | nil => exact hne rfl
      | cons c text => cases he
  | alt left right => exact shown_map w ha
  | seq first second => exact shown_append w ha
  | star operand => exact shown_repeated w ha
  | rep operand count =>
      rcases count with (_ | _ | k) | _
      · exact hn
      · have hone : (Node.rep operand (.exactly 1)).traces outer W = W operand :=
          (hW operand (by simp [children])).counted_one
        rw [hone] at ha
        exact hW operand (by simp [children]) w ha
      · exact shown_counted w ha
      · exact shown_repeated w ha
  | nullability operand => exact shown_map w ha
  | emptyReduction f =>
      obtain ⟨t, -, he⟩ := ha
      cases he
  | reduction operand reducer => exact shown_map w ha

end Node

/-! ## Expressions -/

namespace Graph

variable {R : Set Reducer} {g g' : Graph} {D : Set Handle} {a b h k r t : Handle} {n : Node}

/-- An expression that is made of tangible nodes. -/
def Tangible (R : Set Reducer) (g : Graph) (h : Handle) : Prop :=
  ∀ k n, g.Reaches h k → g.slot? k = some (.node n) → n.Tangible R g.traces

namespace Tangible

theorem reaches (hh : g.Tangible R h) (hk : g.Reaches h k) : g.Tangible R k :=
  fun k' n hk' hs => hh k' n (hk.trans hk') hs

theorem of_mem_references (hh : g.Tangible R h) (hk : k ∈ g.references h) : g.Tangible R k :=
  hh.reaches (.single hk)

theorem closed (R : Set Reducer) (g : Graph) : g.Closed {h | g.Tangible R h} :=
  fun _ hh _ hk => of_mem_references hh hk

/-- An expression is tangible if its node is, and its operands are. -/
theorem of_node (hs : g.slot? h = some (.node n)) (hn : n.Tangible R g.traces)
    (hc : ∀ c ∈ n.children, g.Tangible R c) : g.Tangible R h := by
  intro k n' hk hks
  rcases Relation.ReflTransGen.cases_head hk with rfl | ⟨c, hhc, hck⟩
  · rw [hs] at hks
    cases hks
    exact hn
  · rw [references_of_node hs] at hhc
    exact hc c hhc k n' hck hks

theorem of_forward (hs : g.slot? h = some (.forward t)) (ht : g.Tangible R t) :
    g.Tangible R h := by
  intro k n hk hks
  rcases Relation.ReflTransGen.cases_head hk with rfl | ⟨c, hhc, hck⟩
  · rw [hs] at hks
    cases hks
  · rw [references_of_forward hs, List.mem_singleton] at hhc
    exact ht k n (hhc ▸ hck) hks

theorem of_leads (hl : g.Leads h r) (hr : g.Tangible R r) : g.Tangible R h := by
  induction hl with
  | here => exact hr
  | step hs _ ih => exact of_forward hs (ih hr)

/-- Expressions in a closed set depend on its slots only. -/
theorem congr (hD : g.Closed D) (hslot : ∀ h ∈ D, g'.slot? h = g.slot? h) (hh : h ∈ D)
    (htangible : g.Tangible R h) : g'.Tangible R h := by
  intro k n hk hs
  have hhk := Reaches.congr hD hslot hh hk
  have hkD := hD.of_reaches hh hhk
  rw [hslot k hkD] at hs
  refine (htangible k n hhk hs).congr fun c hc => traces_congr hD hslot c (hD k hkD c ?_)
  rwa [references_of_node hs]

/-- The node that a tangible expression stands for is tangible. -/
theorem nodeAt (hh : g.Tangible R h) (hn : g.nodeAt h = some n) : n.Tangible R g.traces := by
  obtain ⟨r, hl, hr⟩ := nodeAt_eq_some.1 hn
  by_cases hnil : n = .nil
  · subst hnil
    trivial
  · exact hh r n hl.reaches (slot?_of_node_eq hr hnil)

/-- Every match of a tangible expression leaves a tree. -/
theorem shown (hh : g.Tangible R h) : Shown (g.traces h) := by
  let A : Handle → Set Trace := fun _ => {a | a.2 ≠ none}
  have hA : ∀ k ∈ {k | g.Tangible R k}, g.traces k ≤ A k := by
    refine Meaning.value_le _ (closed R g) fun k hk a ha hnone => ?_
    obtain ⟨w, x⟩ := a
    obtain rfl : x = none := hnone
    rcases hs : g.slot? k with _ | (n | body | name | t)
    · rw [hs] at ha
      exact ha
    · rw [hs] at ha
      have hn : n.Tangible R g.traces := hk k n .refl hs
      have hshown : Shown (n.traces g.language A) := hn.shown fun c _ w hw => hw rfl
      exact hshown w ha
    · rw [hs] at ha
      exact ha
    · rw [hs] at ha
      exact ha
    · rw [hs] at ha
      exact ha rfl
  intro w hw
  exact hA h hh hw rfl

end Tangible

/-- Reducers of the same name do the same in tangible expressions. -/
theorem namesReducers_tangible (hR : Reducer.Agreeing R) :
    g.NamesReducers {k | g.Tangible R k} := by
  rintro f f' ⟨k, hk, p, hs⟩ ⟨k', hk', p', hs'⟩ hname
  exact hR.action f (hk k _ .refl hs) f' (hk' k' _ .refl hs') hname

/-- Alternatives of tangible expressions unite their traces. -/
theorem unites_traces (hR : Reducer.Agreeing R) : g.Unites {k | g.Tangible R k} g.traces where
  closed := Tangible.closed R g
  leads _ _ _ hl := traces_leads hl
  alt k hk left right hs := by
    have hreferences : g.references k = [left, right] := references_of_node hs
    have hleft : g.Tangible R left := hk.of_mem_references (by simp [hreferences])
    have hright : g.Tangible R right := hk.of_mem_references (by simp [hreferences])
    rw [traces_node hs]
    show map id '' (g.traces left ∪ g.traces right) = g.traces left ∪ g.traces right
    rw [Set.image_union, hleft.shown.map_id, hright.shown.map_id]
  nil _ _ hnil := traces_nodeAt (nodeAt_of_isNil hnil)
  similar _ ha _ hb h :=
    traces_eq_of_similar (Tangible.closed R g) (namesReducers_tangible hR) ha hb h

end Graph

end DerivativeParsing
