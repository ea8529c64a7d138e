import Mathlib.Algebra.BigOperators.Group.List.Basic
import Mathlib.Algebra.Order.Group.Multiset
import DerivativeParsing.Proofs.Shapes
import DerivativeParsing.Proofs.SpreadAlternatives

/-!
# How much of an expression is left to simplify

Simplification never makes the shape of an expression larger (`Shape.size`).  Where it does not make
it smaller either, there may still be alternatives to put in order, ranges of one character, and
repetitions without a bound that become stars.  `Shape.work` adds up what there is to do in the
parts that alternatives consist of, and `Shape.unsettled` says how far alternatives are from
standing in the order of their heights.  All three together can only go down so many times
(`Shape.lighter_wf`).

Size and work of alternatives are sums over their branches, wherever these are cut off
(`Shape.Additive`).
-/

set_option autoImplicit false

namespace DerivativeParsing

namespace Shape

/-! ## Measures -/

/-- The number of nodes. -/
def size : Shape → Nat
  | .alt left right => size left + size right + 1
  | .seq first second => size first + size second + 1
  | .star operand => size operand + 1
  | .rep operand _ => size operand + 1
  | .not operand => size operand + 1
  | .nullability operand => size operand + 1
  | .reduction operand _ => size operand + 1
  | _ => 1

/-- The height, as simplification sorts by it. -/
def height : Shape → Nat
  | .alt left right => max (height left + 1) (height right + 1)
  | .seq first second => max (height first + 1) (height second + 1)
  | .star operand => height operand + 1
  | .rep operand _ => height operand + 1
  | .not operand => height operand + 1
  | .nullability operand => height operand + 1
  | .reduction operand _ => height operand + 1
  | _ => 0

def IsAlt : Shape → Prop
  | .alt _ _ => True
  | _ => False

instance : DecidablePred IsAlt := fun s => by cases s <;> unfold IsAlt <;> infer_instance

/-- What alternatives consist of when all of them are opened. -/
def leaves : Shape → List Shape
  | .alt left right => leaves left ++ leaves right
  | s => [s]

/-- The number of alternatives from the first one on that does not stand where it belongs: it is an
alternative itself, or one behind it is lower. -/
def unsettled : Shape → Nat
  | .alt left right =>
    if ¬ left.IsAlt ∧ ∀ t ∈ right.leaves, left.height ≤ t.height then unsettled right
    else (left.leaves ++ right.leaves).length
  | _ => 0

/-- What is left to do in an expression, of which `work` is in its leaves.  A change in a leaf
counts for more than any order of the leaves. -/
def weighted (work : Nat) (s : Shape) : Nat := work * (s.leaves.length + 1) + s.unsettled

/-- What is left to do in the leaves of an expression. -/
def work : Shape → Nat
  | .range first last => if first = last then 1 else 0
  | .alt left right => work left + work right
  | .seq first second => weighted (work first) first + weighted (work second) second
  | .star operand => weighted (work operand) operand
  | .rep operand .unbounded => weighted (work operand) operand + 1
  | .rep operand (.exactly _) => weighted (work operand) operand
  | .not operand => weighted (work operand) operand
  | .nullability operand => weighted (work operand) operand
  | .reduction operand _ => weighted (work operand) operand
  | _ => 0

/-- What is left to do in an expression. -/
def effort (s : Shape) : Nat := weighted s.work s

/-- A shape is smaller than another one, or there is less left to do in it. -/
def Lighter (s t : Shape) : Prop := s.size < t.size ∨ s.size = t.size ∧ s.effort < t.effort

variable {s t a b : Shape} {l : List Shape}

theorem lighter_wf : WellFounded Lighter := by
  refine Subrelation.wf (r := InvImage (Prod.Lex (· < ·) (· < ·)) fun s => (s.size, s.effort)) ?_
    (InvImage.wf _ (WellFounded.prod_lex Nat.lt_wfRel.wf Nat.lt_wfRel.wf))
  intro s t h
  exact Prod.lex_def.2 h

theorem Lighter.irrefl : ¬ Lighter s s := by
  rintro (h | ⟨-, h⟩) <;> exact Nat.lt_irrefl _ h

theorem leaves_of_not_alt (h : ¬ s.IsAlt) : s.leaves = [s] := by
  cases s with
  | alt left right => exact absurd trivial h
  | _ => rfl

theorem unsettled_of_not_alt (h : ¬ s.IsAlt) : s.unsettled = 0 := by
  cases s with
  | alt left right => exact absurd trivial h
  | _ => rfl

theorem length_leaves_pos (s : Shape) : 0 < s.leaves.length := by
  induction s with
  | alt left right ihleft _ =>
      rw [leaves, List.length_append]
      omega
  | _ => exact Nat.one_pos

theorem height_le_of_mem_leaves (h : t ∈ s.leaves) : t.height ≤ s.height := by
  induction s with
  | alt left right ihleft ihright =>
      rw [height]
      rcases List.mem_append.1 h with h | h
      · have := ihleft h
        omega
      · have := ihright h
        omega
  | _ => rw [List.mem_singleton.1 h]

theorem height_lt_of_mem_leaves (hs : s.IsAlt) (h : t ∈ s.leaves) : t.height < s.height := by
  cases s with
  | alt left right =>
      rw [height]
      rcases List.mem_append.1 h with h | h
      · have := height_le_of_mem_leaves h
        omega
      · have := height_le_of_mem_leaves h
        omega
  | _ => exact hs.elim

/-- Where the first alternative stands where it belongs, only the others have to be looked at. -/
theorem unsettled_alt (ha : ¬ a.IsAlt) (h : ∀ t ∈ b.leaves, a.height ≤ t.height) :
    (alt a b).unsettled = b.unsettled := by
  rw [unsettled, if_pos ⟨ha, h⟩]

theorem unsettled_alt_of_not (h : ¬ (¬ a.IsAlt ∧ ∀ t ∈ b.leaves, a.height ≤ t.height)) :
    (alt a b).unsettled = (alt a b).leaves.length := by
  rw [unsettled, if_neg h]
  rfl

theorem unsettled_le (s : Shape) : s.unsettled ≤ s.leaves.length := by
  induction s with
  | alt left right _ ihright =>
      rw [unsettled]
      split
      · rw [leaves, List.length_append]
        omega
      · rfl
  | _ => exact Nat.zero_le _

/-- What is done in the leaves counts for more than their order. -/
theorem effort_lt (hlength : s.leaves.length = t.leaves.length)
    (h : s.work < t.work ∨ s.work = t.work ∧ s.unsettled < t.unsettled) : s.effort < t.effort := by
  rw [effort, effort, weighted, weighted, hlength]
  rcases h with h | ⟨he, h⟩
  · have hle := unsettled_le s
    have hmul := Nat.mul_le_mul_right (t.leaves.length + 1) (Nat.succ_le_of_lt h)
    rw [Nat.succ_mul] at hmul
    omega
  · rw [he]
    omega

/-! ## Nested alternatives -/

/-- Alternatives that are nested to the right. -/
def nest : List Shape → Shape
  | [] => .nil
  | [s] => s
  | s :: rest => .alt s (nest rest)

theorem nest_cons (h : l ≠ []) : nest (s :: l) = .alt s (nest l) := by
  obtain ⟨t, l, rfl⟩ := List.exists_cons_of_ne_nil h
  rfl

theorem height_le_nest (h : s ∈ l) : s.height ≤ (nest l).height := by
  induction l with
  | nil => cases h
  | cons t l ih =>
      rcases eq_or_ne l [] with rfl | hne
      · rw [List.mem_singleton.1 h]
        rfl
      · rw [nest_cons hne, height]
        rcases List.mem_cons.1 h with rfl | h
        · omega
        · have := ih h
          omega

/-- A measure that is the sum over alternatives. -/
def Additive {M : Type} [AddCommMonoid M] (f : Shape → M) : Prop :=
  ∀ left right, f (.alt left right) = f left + f right

namespace Additive

variable {M : Type} [AddCommMonoid M] {f : Shape → M}

theorem nest (hf : Additive f) (h : l ≠ []) : f (nest l) = (l.map f).sum := by
  induction l with
  | nil => exact absurd rfl h
  | cons s l ih =>
      rcases eq_or_ne l [] with rfl | hne
      · simp [Shape.nest]
      · rw [nest_cons hne, hf, ih hne, List.map_cons, List.sum_cons]

theorem work : Additive work := fun _ _ => rfl

theorem size : Additive fun s => s.size + 1 := fun left right => by
  simp only [Shape.size]
  omega

/-- The leaves, in any order. -/
theorem leaves : Additive fun s => (s.leaves : Multiset Shape) := fun left right => by
  simp only [Shape.leaves, Multiset.coe_add]

end Additive

end Shape

/-! ## The shape of a handle -/

namespace Graph

variable {g g' : Graph} {D : Set Handle} {h k r left right : Handle} {s t : Shape} {n : Node}

open Classical in
/-- The shape of what a handle stands for, if it can be written out. -/
noncomputable def shapeOf (g : Graph) (h : Handle) : Shape :=
  if hs : ∃ s, g.Unfolds h s then hs.choose else .nil

/-- What a handle stands for can be written out. -/
abbrev HasShape (g : Graph) (h : Handle) : Prop := g.Unfolds h (g.shapeOf h)

theorem Unfolds.shapeOf_eq (hu : g.Unfolds h s) : g.shapeOf h = s := by
  have hex : ∃ s, g.Unfolds h s := ⟨s, hu⟩
  rw [shapeOf, dif_pos hex]
  exact hex.choose_spec.unique hu

theorem Unfolds.hasShape (hu : g.Unfolds h s) : g.HasShape h := by rwa [HasShape, hu.shapeOf_eq]

theorem Tame.hasShape (htame : g.Tame h) (hg : g.WellFormed) (hready : g.Ready h) : g.HasShape h := by
  obtain ⟨s, hu⟩ := htame.unfolds hg hready hready.lt
  exact hu.hasShape

namespace HasShape

theorem leads (hh : g.HasShape h) (hl : g.Leads h r) : g.HasShape r ∧ g.shapeOf h = g.shapeOf r := by
  have hr := (Unfolds.ends hl).1 hh
  exact ⟨hr.hasShape, hr.shapeOf_eq.symm⟩

/-- The node that a handle leads to has the shape that its operands give it. -/
theorem of_leads (hh : g.HasShape h) (hl : g.Leads h r) (hs : g.slot? r = some (.node n)) :
    g.shapeOf h = n.shape g.shapeOf ∧ ∀ c ∈ n.children, g.HasShape c := by
  obtain ⟨f, hshape, hc⟩ := Unfolds.of_leads hh hl hs
  refine ⟨?_, fun c hcn => (hc c hcn).hasShape⟩
  rw [hshape]
  exact Node.shape_congr fun c hcn => (hc c hcn).shapeOf_eq.symm

theorem of_node (hh : g.HasShape h) (hs : g.slot? h = some (.node n)) :
    g.shapeOf h = n.shape g.shapeOf ∧ ∀ c ∈ n.children, g.HasShape c :=
  hh.of_leads (.of_node hs) hs

theorem of_alt (hh : g.HasShape h) (hs : g.slot? h = some (.node (.alt left right))) :
    g.shapeOf h = .alt (g.shapeOf left) (g.shapeOf right) ∧ g.HasShape left ∧ g.HasShape right := by
  obtain ⟨hshape, hc⟩ := hh.of_node hs
  exact ⟨hshape, hc left (by simp [Node.children]), hc right (by simp [Node.children])⟩

/-- A node can be written out if its operands can. -/
theorem of_operands (hs : g.slot? h = some (.node n)) (hc : ∀ c ∈ n.children, g.HasShape c) :
    g.HasShape h :=
  (Unfolds.node g.shapeOf (.of_node hs) hs hc rfl).hasShape

theorem congr (hh : g.HasShape h) (hD : g.Closed D) (hslot : ∀ h ∈ D, g'.slot? h = g.slot? h)
    (hmem : h ∈ D) : g'.HasShape h ∧ g'.shapeOf h = g.shapeOf h := by
  have hu := Unfolds.congr hh hD hslot hmem
  exact ⟨hu.hasShape, hu.shapeOf_eq⟩

/-- A handle stands for an alternative if its shape is one. -/
theorem isAlt_of_nodeAt (hh : g.HasShape h) (hn : g.nodeAt h = some (.alt left right)) :
    (g.shapeOf h).IsAlt := by
  obtain ⟨r, hl, hr⟩ := nodeAt_eq_some.1 hn
  rw [(hh.of_leads hl (slot?_of_node_eq hr (by simp))).1]
  trivial

theorem nodeAt_of_isAlt (hh : g.HasShape h) (hs : (g.shapeOf h).IsAlt) :
    ∃ left right, g.nodeAt h = some (.alt left right) := by
  obtain ⟨f, hl, hn, -, hshape⟩ := hh
  rename_i r n
  rw [hshape] at hs
  cases n with
  | alt left right => exact ⟨left, right, nodeAt_eq_some.2 ⟨r, hl, node_eq hn⟩⟩
  | _ => exact hs.elim

end HasShape

/-- The height of an expression is that of its shape. -/
theorem Unfolds.tallness_eq (hu : g.Unfolds h s) : g.tallness h = s.height := by
  induction hu with
  | @node h r n s f hl hs hc hshape ih =>
      have hnode : g.tallness h = ⨆ c ∈ n.children, ((f c).height + 1 : ℕ∞) := by
        rw [tallness, heightMeaning.value_leads hl, heightMeaning.value_node hs]
        exact biSup_congr fun c hc => congrArg (· + 1) (ih c hc)
      rw [hnode, hshape]
      cases n <;> simp [Node.children, Node.shape, Shape.height, iSup_or, iSup_sup_eq,
        max_add_add_right, (Nat.mono_cast : Monotone (Nat.cast : ℕ → ℕ∞)).map_max]

/-- A measure that is the sum over alternatives is the sum over the branches of a handle. -/
theorem HasShape.sum_branches {M : Type} [AddCommMonoid M] {f : Shape → M} (hh : g.HasShape h)
    (hf : Shape.Additive f) :
    f (g.shapeOf h) = ((Simplify.branches g h).map fun k => f (g.shapeOf k)).sum := by
  induction h using Simplify.branches.induct g with
  | case1 h left right hs hlt ihleft ihright =>
      have hslot := stored?_eq_some.1 hs
      obtain ⟨hshape, hleft, hright⟩ := hh.of_alt hslot
      rw [branches_of_alt hslot hlt.1 hlt.2, List.map_append, List.sum_append, hshape, hf,
        ihleft hleft, ihright hright]
  | case2 h left right hs hlt =>
      rw [Simplify.branches, hs]
      simp [hlt]
  | case3 h hnot => simp [branches_of_not_alt fun l r hs => hnot l r (stored?_eq_some.2 hs)]

/-- The branches of a handle can be written out if the handle can. -/
theorem HasShape.of_mem_branches (hh : g.HasShape h) (hk : k ∈ Simplify.branches g h) :
    g.HasShape k :=
  Simplify.of_mem_branches (P := g.HasShape) (fun _ _ _ hs ha => (ha.of_alt hs).2) hh hk

end Graph

end DerivativeParsing
