import DerivativeParsing.Proofs.Bisimilarity
import DerivativeParsing.Proofs.Tameness

/-!
# The shape of an expression

An expression from which no cycle can be reached unfolds to a finite tree, its *shape*: references
are followed to the nodes that they lead to, shared parts are written out as often as they occur,
and of a reducer only the name is left (`Graph.Unfolds`).  Such expressions are bisimilar exactly if
they have one shape (`Graph.Unfolds.bisimilar_iff`).
-/

set_option autoImplicit false

namespace DerivativeParsing

/-- An expression written out in full, without references. -/
inductive Shape where
  | nil
  | empty
  | any
  | char (c : Char)
  | range (first last : Char)
  | token (text : List Char)
  | alt (left right : Shape)
  | seq (first second : Shape)
  | star (operand : Shape)
  | rep (operand : Shape) (count : Count)
  | not (operand : Shape)
  | nullability (operand : Shape)
  | emptyReduction (trees : Forest)
  | reduction (operand : Shape) (name : String)
deriving Inhabited

namespace Node

variable {f f' : Handle → Shape} {n m : Node}

/-- The shape of a node, given the shapes of its operands. -/
def shape (f : Handle → Shape) : Node → Shape
  | .nil => .nil
  | .empty => .empty
  | .any => .any
  | .char c => .char c
  | .range first last => .range first last
  | .token text => .token text
  | .alt left right => .alt (f left) (f right)
  | .seq first second => .seq (f first) (f second)
  | .star operand => .star (f operand)
  | .rep operand count => .rep (f operand) count
  | .not operand => .not (f operand)
  | .nullability operand => .nullability (f operand)
  | .emptyReduction trees => .emptyReduction trees
  | .reduction operand reducer => .reduction (f operand) reducer.name

theorem shape_congr (h : ∀ c ∈ n.children, f c = f' c) : n.shape f = n.shape f' := by
  cases n <;> simp_all [shape, children]

/-- Nodes of one shape are of the same kind and have the same data. -/
theorem relates_of_shape_eq (h : n.shape f = m.shape f') : n.Relates (fun a b => f a = f' b) m := by
  cases n <;> cases m <;> simp only [shape, Shape.alt.injEq, Shape.seq.injEq, Shape.char.injEq,
    Shape.range.injEq, Shape.token.injEq, Shape.star.injEq, Shape.rep.injEq, Shape.not.injEq,
    Shape.nullability.injEq, Shape.emptyReduction.injEq, Shape.reduction.injEq, reduceCtorEq] at h
  case nil.nil => exact .nil
  case empty.empty => exact .empty
  case any.any => exact .any
  case char.char c _ => exact h ▸ .char c
  case range.range first last _ _ => exact h.1 ▸ h.2 ▸ .range first last
  case token.token text _ => exact h ▸ .token text
  case alt.alt => exact .alt h.1 h.2
  case seq.seq => exact .seq h.1 h.2
  case star.star => exact .star h
  case rep.rep count _ _ => exact h.2 ▸ .rep count h.1
  case not.not => exact .not h
  case nullability.nullability => exact .nullability h
  case emptyReduction.emptyReduction trees _ => exact h ▸ .emptyReduction trees
  case reduction.reduction => exact .reduction h.2 h.1

theorem Relates.shape_eq (h : n.Relates (fun a b => f a = f' b) m) : n.shape f = m.shape f' := by
  cases h <;> simp_all [shape]

end Node

namespace Graph

variable {g g' : Graph} {D : Set Handle} {h r a b : Handle} {s t : Shape} {n : Node}

/-- What a handle stands for can be written out as a given shape. -/
inductive Unfolds (g : Graph) : Handle → Shape → Prop where
  | node {h r : Handle} {n : Node} {s : Shape} (f : Handle → Shape) (hl : g.Leads h r)
      (hs : g.slot? r = some (.node n)) (hc : ∀ c ∈ n.children, g.Unfolds c (f c))
      (hshape : s = n.shape f) : g.Unfolds h s

namespace Unfolds

/-- The node that a handle leads to has the shape that its operands give it. -/
theorem of_leads (hu : g.Unfolds h s) (hl : g.Leads h r) (hs : g.slot? r = some (.node n)) :
    ∃ f, s = n.shape f ∧ ∀ c ∈ n.children, g.Unfolds c (f c) := by
  obtain ⟨f, hl', hs', hc, hshape⟩ := hu
  obtain rfl := hl.unique hl'
  obtain rfl : n = _ := by simpa using hs.symm.trans hs'
  exact ⟨f, hshape, hc⟩

/-- An expression has one shape. -/
theorem unique (hs : g.Unfolds h s) (ht : g.Unfolds h t) : s = t := by
  induction hs generalizing t with
  | node f hl hs _ hshape ih =>
      obtain ⟨f', rfl, hc'⟩ := ht.of_leads hl hs
      exact hshape.trans (Node.shape_congr fun c hc => ih c hc (hc' c hc))

theorem ends (hl : g.Leads h r) : g.Unfolds h s ↔ g.Unfolds r s := by
  constructor
  · rintro ⟨f, hl', hs, hc, hshape⟩
    obtain rfl := hl.unique hl'
    exact .node f hl.self_end hs hc hshape
  · rintro ⟨f, hl', hs, hc, hshape⟩
    obtain rfl := hl.self_end.unique hl'
    exact .node f hl hs hc hshape

theorem congr (hu : g.Unfolds h s) (hD : g.Closed D) (hslot : ∀ h ∈ D, g'.slot? h = g.slot? h)
    (hh : h ∈ D) : g'.Unfolds h s := by
  induction hu with
  | node f hl hs _ hshape ih =>
      have hr := hD.of_reaches hh hl.reaches
      refine .node f (hl.congr hD hslot hh) ((hslot _ hr).trans hs) (fun c hc => ih c hc ?_) hshape
      exact hD _ hr c (by rwa [references_of_node hs])

theorem grows (hu : g.Unfolds h s) (hgrows : g.Grows g') : g'.Unfolds h s := by
  induction hu with
  | node f hl hs _ hshape ih => exact .node f (hgrows.leads hl hs) (hgrows.node _ _ hs) ih hshape

/-- Expressions that can be written out are bisimilar if they have one shape, and only then. -/
theorem bisimilar_iff (ha : g.Unfolds a s) (hb : g.Unfolds b t) : g.Bisimilar a b ↔ s = t := by
  constructor
  · intro hab
    induction ha generalizing b t with
    | node f hl hs _ hshape ih =>
        obtain ⟨r, q, n, m, hr, hn, hq, hm, hrelates⟩ := hab.unfold
        obtain rfl := hl.unique hr
        obtain rfl := Slot.node.inj (Option.some.inj (hs.symm.trans hn))
        obtain ⟨f', rfl, hc'⟩ := hb.of_leads hq hm
        exact hshape.trans (hrelates.mono fun x hx y hy hxy => ih x hx (hc' y hy) hxy).shape_eq
  · rintro rfl
    refine ⟨fun a b => ∃ s, g.Unfolds a s ∧ g.Unfolds b s, ?_, s, ha, hb⟩
    rintro a b ⟨s, ⟨f, hl, hs, hc, hshape⟩, ⟨f', hl', hs', hc', hshape'⟩⟩
    refine ⟨_, _, _, _, hl, hs, hl', hs', ?_⟩
    refine (Node.relates_of_shape_eq (hshape.symm.trans hshape')).mono fun x hx y hy hxy => ?_
    exact ⟨f x, hc x hx, hxy ▸ hc' y hy⟩

end Unfolds

/-- What leads to nodes everywhere and does not contain itself can be written out. -/
theorem Tame.unfolds (htame : g.Tame h) (hg : g.WellFormed) (hready : g.Ready h)
    (hlt : h.index < g.size) : ∃ s, g.Unfolds h s := by
  refine htame.induction hg hlt (P := fun k => g.Reaches h k → ∃ s, g.Unfolds k s) ?_ .refl
  intro k hk ih _
  obtain ⟨r, n, hl, hs⟩ := hready k hk
  have hrefs (c : Handle) (hc : c ∈ g.references k) : ∃ s, g.Unfolds c s := ih c hc (hk.tail hc)
  cases hl with
  | here =>
      rw [references_of_node hs] at hrefs
      choose! f hf using hrefs
      exact ⟨n.shape f, .node f (.of_node hs) hs hf rfl⟩
  | @step _ t _ hforward hrest =>
      obtain ⟨s, hu⟩ := hrefs t (by simp [references_of_forward hforward])
      exact ⟨s, (Unfolds.ends (.step hforward hrest)).2 ((Unfolds.ends hrest).1 hu)⟩

end Graph

end DerivativeParsing
