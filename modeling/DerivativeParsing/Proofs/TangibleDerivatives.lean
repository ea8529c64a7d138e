import DerivativeParsing.Proofs.Consuming
import DerivativeParsing.Proofs.DerivativeTraces
import DerivativeParsing.Proofs.Tangible

/-!
# Derivatives of tangible expressions

The derivative of an expression is made of the derivatives of its operands, and of new nodes that
are tangible if the expression is.  Where no cycle can be reached, an induction on what the
expression is made of shows that the derivative of a tangible expression is tangible
(`Workable.tangible_derivative`).
-/

set_option autoImplicit false

namespace DerivativeParsing

open Fixpoint DerivativeParsing.Graph Residue Trace

section Differentiated

variable {R : Set Reducer} {c : Char} {g₀ g : Graph} {S : Set Handle} {m : Memory Handle Handle}
  {y z v a : Handle} {n : Node}

namespace Differentiated

/-- What was there is as tangible as it was. -/
theorem tangible_old (hd : Differentiated c g₀ S m g) (hz : z ∈ S) (htangible : g₀.Tangible R z) :
    g.Tangible R z :=
  htangible.congr hd.part.closed (fun _ hk => hd.slot?_eq hk) hz

/-- The rest of a text is spelled by a tangible expression, as long as there is one. -/
theorem tangible_literalNode {text : List Char} {k : Handle} (htext : text ≠ [])
    (hk : g.slot? k = some (.node (Grammar.literalNode text))) : g.Tangible R k := by
  cases text with
  | nil => exact absurd rfl htext
  | cons c rest =>
      cases rest with
      | nil => exact .of_node hk trivial (by simp [Grammar.literalNode, Node.children])
      | cons d rest =>
          have hlength : 2 ≤ (c :: d :: rest).length := by
            simp only [List.length_cons]
            omega
          exact .of_node hk hlength (by simp [Grammar.literalNode, Node.children])

/-- The derivative of a tangible node is tangible, if the derivatives of its operands are. -/
theorem tangible_of_derived (hd : Differentiated c g₀ S m g) (hR : Reducer.Agreeing R) (hy : y ∈ S)
    (hs : g₀.slot? y = some (.node n)) (htangible : g₀.Tangible R y)
    (hderived : Derived c g (StandsFor g₀ m g) y n v)
    (hans : ∀ z ∈ n.children, ∀ a, StandsFor g₀ m g z a → g.Tangible R a) : g.Tangible R v := by
  have hn : n.Tangible R g₀.traces := htangible y n .refl hs
  have hself : g.Tangible R y := hd.tangible_old hy htangible
  have hold {z : Handle} (hz : z ∈ n.children) : g.Tangible R z := by
    have hreference : z ∈ g₀.references y := by rwa [references_of_node hs]
    exact hd.tangible_old (hd.part.closed y hy z hreference)
      (htangible.of_mem_references hreference)
  have hconsumed {k : Handle} (hk : g.slot? k = some (.node (consumed c))) : g.Tangible R k :=
    .of_node hk trivial (by simp [consumed, Node.children])
  have hbinary {k first second : Handle} (hfirst : g.Tangible R first)
      (hsecond : g.Tangible R second) :
      (g.slot? k = some (.node (.seq first second)) → g.Tangible R k) ∧
        (g.slot? k = some (.node (.alt first second)) → g.Tangible R k) := by
    constructor
    · intro hk
      exact .of_node hk trivial (by simpa [Node.children] using ⟨hfirst, hsecond⟩)
    · intro hk
      exact .of_node hk trivial (by simpa [Node.children] using ⟨hfirst, hsecond⟩)
  have hreduction {k operand : Handle} {f : Reducer} (hoperand : g.Tangible R operand) (hf : f ∈ R)
      (hk : g.slot? k = some (.node (.reduction operand f))) : g.Tangible R k :=
    .of_node hk hf (by simpa [Node.children] using hoperand)
  cases hderived with
  | dead hdead =>
      exact .of_node hd.working.wellFormed.nil trivial (by simp [Node.children])
  | any => exact hn.elim
  | char hv => exact hconsumed hv
  | range hfirst hlast hv => exact hconsumed hv
  | @token rest x x' v hx hx' hv =>
      have hrest : rest ≠ [] := by
        rintro rfl
        have hlength : 2 ≤ [c].length := hn
        simp at hlength
      exact (hbinary (hconsumed hx) (tangible_literalNode hrest hx')).1 hv
  | alt ha hb hv =>
      exact (hbinary (hans _ (by simp [Node.children]) _ ha)
        (hans _ (by simp [Node.children]) _ hb)).2 hv
  | @seq first second a b x x' x'' v ha hb hx hx' hx'' hv =>
      have hleft : g.Tangible R x :=
        (hbinary (hans first (by simp [Node.children]) a ha) (hold (by simp [Node.children]))).1 hx
      have hskip : g.Tangible R x' :=
        .of_node hx' trivial (by simpa [Node.children] using hold (by simp [Node.children]))
      have hright : g.Tangible R x'' :=
        (hbinary hskip (hans second (by simp [Node.children]) b hb)).1 hx''
      exact (hbinary hleft hright).2 hv
  | not ha hv => exact hn.elim
  | star ha hx hv =>
      exact hreduction ((hbinary (hans _ (by simp [Node.children]) _ ha) hself).1 hx) hR.prepend hv
  | unbounded ha hx hv =>
      exact hreduction ((hbinary (hans _ (by simp [Node.children]) _ ha) hself).1 hx) hR.prepend hv
  | once ha => exact hans _ (by simp [Node.children]) _ ha
  | twice ha hv =>
      exact (hbinary (hans _ (by simp [Node.children]) _ ha) (hold (by simp [Node.children]))).1 hv
  | @more operand a x x' v k ha hx hx' hv =>
      have hrest : g.Tangible R x :=
        .of_node hx trivial (by simpa [Node.children] using hold (by simp [Node.children]))
      exact hreduction ((hbinary (hans _ (by simp [Node.children]) _ ha) hrest).1 hx') hR.prepend hv
  | reduction ha hv => exact hreduction (hans _ (by simp [Node.children]) _ ha) hn hv

/-- What was given for the derivative of a tangible expression is tangible. -/
theorem tangible_of_standsFor (hd : Differentiated c g₀ S m g) (hR : Reducer.Agreeing R)
    (hz : z ∈ S) (htame : g₀.Tame z) (htangible : g₀.Tangible R z) (ha : StandsFor g₀ m g z a) :
    g.Tangible R a := by
  -- The operands of a node come before it, so that their derivatives are known to be tangible.
  refine htame.induction (P := fun z => g₀.Tangible R z → z ∈ S →
    ∀ a, StandsFor g₀ m g z a → g.Tangible R a) hd.part.wellFormed (hd.part.inRange z hz)
    (fun z _ ih htangible hz a ha => ?_) htangible hz a ha
  obtain ⟨r, hl, hstands⟩ := ha
  cases hl with
  | step hs hrest =>
      have hreference := references_of_forward hs
      exact ih _ (by simp [hreference]) (htangible.of_mem_references (by simp [hreference]))
        (hd.part.closed z hz _ (by simp [hreference])) a ⟨r, hrest, hstands⟩
  | here =>
      have hfinished {v : Handle} (hv : m.Finished z v) : g.Tangible R v := by
        obtain ⟨n, hs, hderived⟩ := hd.inv.derived hv
        refine hd.tangible_of_derived hR hz hs htangible hderived fun c hc b hb => ?_
        have hreference : c ∈ g₀.references z := by rwa [references_of_node hs]
        exact ih c hreference (htangible.of_mem_references hreference)
          (hd.part.closed z hz c hreference) b hb
      rcases hstands with hholds | ⟨v, hv, hs, -⟩
      · exact hfinished ((Memory.holds_iff.1 hholds).resolve_right (hd.idle z a))
      · exact .of_forward hs (hfinished hv)

end Differentiated

end Differentiated

/-- The derivative of a tangible expression is tangible, if no cycle can be reached. -/
theorem Graph.Workable.tangible_derivative {R : Set Reducer} {c : Char} {g g' : Graph}
    {h d : Handle} (hh : g.Workable h) (hR : Reducer.Agreeing R) (htame : g.Tame h)
    (htangible : g.Tangible R h) (hd : g.derivative c h = some (d, g')) : g'.Tangible R d := by
  obtain ⟨r, n, hl, -⟩ := hh.ready h .refl
  obtain ⟨v, graph, m, hrun, hdiff, hv⟩ := derivative_differentiates (c := c) hh.part
    hh.tameComplements (.inl .refl) hl
  rw [hd] at hrun
  cases hrun
  exact hdiff.tangible_of_standsFor hR (.inl .refl) htame htangible ⟨r, hl, .inl hv.holds⟩

end DerivativeParsing
