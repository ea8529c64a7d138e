import DerivativeParsing.Proofs.Construction
import DerivativeParsing.Proofs.NormalForms

/-!
# Expressions that are composed of nodes

An expression is *composed* if it has been put together from nodes only, each of which was made
after its operands (`Graph.Composed`).  The calls that make expressions compose, unless they refer
to a rule (`Grammar.composed_construct`).

No cycle can be reached from a composed expression, it can always be prepared, and nothing hides an
alternative in it.
-/

set_option autoImplicit false

namespace DerivativeParsing

open DerivativeParsing.Graph

namespace Graph

variable {g g' : Graph} {e k : Handle} {n : Node}

/-- An expression of nodes that were made after their operands. -/
inductive Composed (g : Graph) : Handle → Prop where
  | node {e : Handle} {n : Node} (hs : g.slot? e = some (.node n))
      (hlt : ∀ c ∈ n.children, c.index < e.index) (hc : ∀ c ∈ n.children, Composed g c) :
      Composed g e

namespace Composed

theorem atomic (hs : g.slot? e = some (.node n)) (hn : n.children = []) : g.Composed e :=
  .node hs (by simp [hn]) (by simp [hn])

theorem exists_node (he : g.Composed e) : ∃ n, g.slot? e = some (.node n) := by
  obtain ⟨hs, -, -⟩ := he
  exact ⟨_, hs⟩

theorem of_mem_references (he : g.Composed e) (hk : k ∈ g.references e) :
    g.Composed k ∧ k.index < e.index := by
  obtain ⟨hs, hlt, hc⟩ := he
  rw [references_of_node hs] at hk
  exact ⟨hc k hk, hlt k hk⟩

theorem reaches (he : g.Composed e) (hk : g.Reaches e k) : g.Composed k := by
  induction hk with
  | refl => exact he
  | tail _ hstep ih => exact (ih.of_mem_references hstep).1

/-- Whatever a composed expression refers to was made before it. -/
theorem lt_of_leadsTo (he : g.Composed e) (hk : g.LeadsTo e k) : k.index < e.index := by
  induction hk with
  | single hstep => exact (he.of_mem_references hstep).2
  | tail hek hstep ih => exact ((he.reaches hek.to_reflTransGen).of_mem_references hstep).2.trans ih

theorem tame (he : g.Composed e) : g.Tame e := fun _ hk hcycle =>
  Nat.lt_irrefl _ ((he.reaches hk).lt_of_leadsTo hcycle)

theorem ready (he : g.Composed e) : g.Ready e := fun k hk => by
  obtain ⟨n, hs⟩ := (he.reaches hk).exists_node
  exact ⟨k, n, .of_node hs, hs⟩

theorem opens (he : g.Composed e) : g.Opens e := by
  intro k n hk hs
  have hoperand : ∀ c ∈ n.children, g.Composed c ∧ c.index < k.index := fun c hc =>
    (he.reaches hk).of_mem_references (by rwa [references_of_node hs])
  have hexposed : ∀ c ∈ n.children, g.Exposed c := fun c hc => by
    obtain ⟨m, hm⟩ := (hoperand c hc).1.exists_node
    exact .of_node hm
  cases n with
  | alt left right =>
      have hleft : left ∈ (Node.alt left right).children := by simp [Node.children]
      have hright : right ∈ (Node.alt left right).children := by simp [Node.children]
      exact ⟨⟨(hoperand left hleft).2, (hoperand right hright).2⟩, hexposed left hleft,
        hexposed right hright⟩
  | not operand => exact hexposed operand (by simp [Node.children])
  | _ => trivial

theorem lt_size (he : g.Composed e) : e.index < g.size := by
  obtain ⟨n, hs⟩ := he.exists_node
  exact slot?_lt hs

/-- Slots that are added make no difference. -/
theorem extend (he : g.Composed e) (hext : g'.Extends g) : g'.Composed e := by
  induction he with
  | node hs hlt _ ih => exact .node ((hext.2 _ (slot?_lt hs)).trans hs) hlt ih

/-- Making a node of composed expressions composes. -/
theorem make (hg : g.WellFormed) (hn : ∀ c ∈ n.children, g.Composed c) :
    (g.make n).2.Composed (g.make n).1 := by
  refine .node hg.slot?_make (fun c hc => ?_) fun c hc => (hn c hc).extend extends_make
  -- The three fixed nodes are not made again.
  rcases g.make_cases n with ⟨h, -, ⟨-, rfl⟩ | ⟨-, rfl⟩ | ⟨-, rfl⟩⟩ | he
  · cases hc
  · cases hc
  · cases hc
  · rw [he]
    exact (hn c hc).lt_size

end Composed

end Graph

/-! ## Calls -/

namespace Grammar

variable {g g' : Grammar} {o : Operand} {h acc : Handle} {ps : List Operand} {n : Node}

/-- A handle is that of a composed expression. -/
def IsComposed (h : Handle) (g : Grammar) : Prop := g.graph.Composed h

/-- An operand is a text, or a composed expression. -/
def ComposedOperand : Operand → Grammar → Prop
  | .handle h, g => IsComposed h g
  | .text _, _ => True

theorem ComposedOperand.change (ho : ComposedOperand o g) (hkept : Graph.Prefix g.graph g'.graph) :
    ComposedOperand o g' := by
  cases o with
  | handle h => exact Graph.Composed.extend ho hkept
  | text text => trivial

namespace WellFormed

theorem composed_make (hg : g.WellFormed) (hn : ∀ c ∈ n.children, IsComposed c g)
    (htoken : n ≠ .token []) : Sound Graph.Prefix (Grammar.make n) IsComposed g :=
  .onGraph hg (hg.graph.make (fun c hc => (hn c hc).lt_size) htoken) extends_make
    (Graph.Composed.make hg.graph hn)

theorem composed_lit (hg : g.WellFormed) (text : String) :
    Sound Graph.Prefix (Grammar.lit text) IsComposed g :=
  hg.composed_make (by simp [children_literalNode]) (literalNode_ne _)

theorem composed_coerce (hg : g.WellFormed) (ho : ComposedOperand o g) :
    Sound Graph.Prefix (Grammar.coerce o) IsComposed g := by
  cases o with
  | handle h => exact .pure hg ho
  | text text => exact hg.composed_lit text

theorem composed_joinFrom (hg : g.WellFormed) {join : Handle → Handle → Node}
    (hjoin : ∀ a b, (join a b).children = [a, b]) (hacc : IsComposed acc g)
    (hps : ∀ o ∈ ps, ComposedOperand o g) :
    Sound Graph.Prefix (Grammar.joinFrom join acc ps) IsComposed g := by
  have htoken : ∀ a b, join a b ≠ .token [] := fun a b he => by
    have hchildren := hjoin a b
    rw [he] at hchildren
    cases hchildren
  induction ps generalizing g acc with
  | nil => exact .pure hg hacc
  | cons p ps ih =>
      refine (hg.composed_coerce (hps p (by simp))).bind fun h g₁ hg₁ hkept hh => ?_
      refine (hg₁.composed_make ?_ (htoken acc h)).bind fun acc' g₂ hg₂ hkept' hacc' => ?_
      · simpa [hjoin] using ⟨Graph.Composed.extend hacc hkept, hh⟩
      · exact ih hg₂ hacc' fun o ho =>
          (hps o (by simp [ho])).change (Graph.Change.trans hkept hkept')

theorem composed_unary (hg : g.WellFormed) {node : Handle → Node}
    (hnode : ∀ a, (node a).children = [a]) (ho : ComposedOperand o g) :
    Sound Graph.Prefix (Grammar.unary node o) IsComposed g := by
  refine (hg.composed_coerce ho).bind fun h g₁ hg₁ _ hh => ?_
  refine hg₁.composed_make (by simpa [hnode] using hh) fun he => ?_
  have hchildren := hnode h
  rw [he] at hchildren
  cases hchildren

theorem composed_plus (hg : g.WellFormed) (ho : ComposedOperand o g) :
    Sound Graph.Prefix (Grammar.plus o) IsComposed g := by
  refine (hg.composed_coerce ho).bind fun h g₁ hg₁ _ hh => ?_
  refine (hg₁.composed_make (n := .star h) (by simpa [Node.children] using hh) (by simp)).bind
    fun rest g₂ hg₂ hkept hrest => ?_
  exact hg₂.composed_make (by simpa [Node.children] using ⟨Graph.Composed.extend hh hkept, hrest⟩)
    (by simp)

end WellFormed

/-- A call composes its operands, unless it refers to a rule. -/
theorem composed_construct (hg : g.WellFormed) {k : Constructor}
    (hk : ∀ o ∈ k.operands, ComposedOperand o g) (hrule : ∀ name, k ≠ .rule name) :
    Sound Graph.Prefix k.perform IsComposed g := by
  have hoperand {p : Operand} (hp : k.operands = [p]) : ComposedOperand p g := hk p (by simp [hp])
  have hjoined {join : Handle → Handle → Node} (hjoin : ∀ a b, (join a b).children = [a, b])
      {p : Operand} {ps : List Operand} (hp : k.operands = p :: ps) :
      Sound Graph.Prefix (do joinFrom join (← coerce p) ps) IsComposed g := by
    refine (hg.composed_coerce (hk p (by simp [hp]))).bind fun h g₁ hg₁ hkept hh => ?_
    exact hg₁.composed_joinFrom hjoin hh fun o ho => (hk o (by simp [hp, ho])).change hkept
  cases k with
  | char c => exact hg.composed_make (n := .char c) (by simp [Node.children]) (by simp)
  | range first last =>
      show Sound _ (Grammar.range first last) _ _
      unfold Grammar.range
      split
      · exact .throw hg
      · split <;> exact hg.composed_make (by simp [Node.children]) (by simp)
  | token text =>
      show Sound _ (Grammar.token text) _ _
      unfold Grammar.token
      split
      · exact .throw hg
      · exact hg.composed_lit text
  | lit text => exact hg.composed_lit text
  | alternatives ps =>
      cases ps with
      | nil => exact .pure hg (.atomic hg.graph.nil rfl)
      | cons p ps => exact hjoined (fun _ _ => rfl) rfl
  | sequence ps =>
      cases ps with
      | nil => exact .pure hg (.atomic hg.graph.empty rfl)
      | cons p ps => exact hjoined (fun _ _ => rfl) rfl
  | star p => exact hg.composed_unary (fun _ => rfl) (hoperand rfl)
  | rep p count => exact hg.composed_unary (fun _ => rfl) (hoperand rfl)
  | not p => exact hg.composed_unary (fun _ => rfl) (hoperand rfl)
  | plus p => exact hg.composed_plus (hoperand rfl)
  | reduction p reducer => exact hg.composed_unary (fun _ => rfl) (hoperand rfl)
  | nullability p => exact hg.composed_unary (fun _ => rfl) (hoperand rfl)
  | emptyReduction trees => exact hg.composed_make (by simp [Node.children]) (by simp)
  | rule name => exact absurd rfl (hrule name)

end Grammar

end DerivativeParsing
