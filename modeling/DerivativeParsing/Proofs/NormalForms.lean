import DerivativeParsing.Proofs.SinglePasses
import DerivativeParsing.Proofs.RewriteRules

/-!
# Normal forms

To a *polished* node no rule of simplification applies: no operand of a sequence is `∅` or `ε`, no
repetition is repeated, no complement is complemented, and so on.  The branches of an alternative
match something, are not bisimilar to each other, and come in the order of their heights
(`Graph.Spread`).

Alternatives are only opened where they are stored in a slot themselves.  An expression *opens* if
no reference hides an alternative from an alternative or from a complement above it (`Graph.Opens`).
An expression that opens and whose nodes are all polished is *neat* (`Graph.Neat`).  All of this
depends on what can be reached from an expression only (`Graph.Neat.congr`).
-/

set_option autoImplicit false

namespace DerivativeParsing

open Fixpoint DerivativeParsing.Graph Simplify

/-! ## What depends on the reachable slots only -/

namespace Graph

variable {g g' : Graph} {D : Set Handle} {a b h k r : Handle} {n : Node}

theorem resolve_congr (hD : g.Closed D) (hslot : ∀ h ∈ D, g'.slot? h = g.slot? h) (hh : h ∈ D) :
    g'.resolve h = g.resolve h := by
  ext r
  show g'.resolve h = some r ↔ g.resolve h = some r
  rw [resolve_eq_some, resolve_eq_some]
  exact ⟨fun hl => hl.congr (hD.congr hslot) (fun k hk => (hslot k hk).symm) hh,
    fun hl => hl.congr hD hslot hh⟩

theorem nodeAt_congr (hD : g.Closed D) (hslot : ∀ h ∈ D, g'.slot? h = g.slot? h) (hh : h ∈ D) :
    g'.nodeAt h = g.nodeAt h := by
  unfold nodeAt
  rw [resolve_congr hD hslot hh]
  rcases hr : g.resolve h with _ | r
  · rfl
  · have hr : r ∈ D := hD.of_reaches hh (resolve_eq_some.1 hr).reaches
    simp [Graph.node, stored?, hslot r hr]

theorem nodeAt_leads (hl : g.Leads h r) : g.nodeAt h = g.nodeAt r := by
  unfold nodeAt
  rw [resolve_eq_some.2 hl, resolve_eq_some.2 hl.self_end]

theorem Ready.exists_nodeAt (hh : g.Ready h) : ∃ n, g.nodeAt h = some n := by
  obtain ⟨r, n, hl, hs⟩ := hh h .refl
  exact ⟨n, (nodeAt_leads hl).trans (nodeAt_of_slot hs)⟩

theorem tallness_congr (hD : g.Closed D) (hslot : ∀ h ∈ D, g'.slot? h = g.slot? h) (hh : h ∈ D) :
    g'.tallness h = g.tallness h :=
  (heightMeaning.value_congr hD hslot (fun _ _ _ _ _ => rfl) h hh).symm

theorem Bisimilar.congr (hD : g.Closed D) (hslot : ∀ h ∈ D, g'.slot? h = g.slot? h) (ha : a ∈ D)
    (hb : b ∈ D) (h : g.Bisimilar a b) : g'.Bisimilar a b := by
  -- The pairs within the closed set are a bisimulation of the other graph.
  refine ⟨fun x y => g.Bisimilar x y ∧ x ∈ D ∧ y ∈ D, ?_, h, ha, hb⟩
  rintro x y ⟨hxy, hx, hy⟩
  obtain ⟨r, s, n, m, hr, hn, hs, hm, hrelates⟩ := hxy.unfold
  have hrD := hD.of_reaches hx hr.reaches
  have hsD := hD.of_reaches hy hs.reaches
  refine ⟨r, s, n, m, hr.congr hD hslot hx, (hslot r hrD).trans hn, hs.congr hD hslot hy,
    (hslot s hsD).trans hm, hrelates.mono fun c hc d hd hcd => ⟨hcd, ?_, ?_⟩⟩
  · exact hD r hrD c (by rwa [references_of_node hn])
  · exact hD s hsD d (by rwa [references_of_node hm])

theorem branches_congr (hD : g.Closed D) (hslot : ∀ h ∈ D, g'.slot? h = g.slot? h) (hh : h ∈ D) :
    branches g' h = branches g h := by
  have hstored {k : Handle} (hk : k ∈ D) : g'.stored? k = g.stored? k := by
    rw [stored?, stored?, hslot k hk]
  induction h using branches.induct g with
  | case1 h left right hs hlt ihleft ihright =>
      have hreferences : g.references h = [left, right] :=
        references_of_node (stored?_eq_some.1 hs)
      have hleft : left ∈ D := hD h hh left (by simp [hreferences])
      have hright : right ∈ D := hD h hh right (by simp [hreferences])
      rw [branches, branches, hstored hh, hs]
      simp only [hlt, and_self, dite_true]
      rw [ihleft hleft, ihright hright]
  | case2 h left right hs hlt =>
      rw [branches, branches, hstored hh, hs]
      simp only [hlt, dite_false]
  | case3 h hnot =>
      rw [branches, branches, hstored hh]
      split
      · next left right hs => exact absurd hs (hnot left right)
      · rfl

/-! ## Ends of chains -/

theorem endOf_leads (hl : g.Leads h r) : g.endOf h = g.endOf r := by
  rw [hl.endOf, hl.self_end.endOf]

/-- A handle is the end of its chain, or its chain leads to another one, or nowhere. -/
theorem leads_endOf_or (g : Graph) (h : Handle) : g.Leads h (g.endOf h) ∨ g.endOf h = h := by
  rcases hr : g.resolve h with _ | r
  · exact .inr (by simp [endOf, hr])
  · have hl := resolve_eq_some.1 hr
    exact .inl (by rwa [hl.endOf])

@[simp] theorem endOf_endOf (g : Graph) (h : Handle) : g.endOf (g.endOf h) = g.endOf h := by
  rcases g.leads_endOf_or h with hl | he
  · exact hl.self_end.endOf
  · rw [he, he]

@[simp] theorem nodeAt_endOf (g : Graph) (h : Handle) : g.nodeAt (g.endOf h) = g.nodeAt h := by
  rcases g.leads_endOf_or h with hl | he
  · exact (nodeAt_leads hl).symm
  · rw [he]

@[simp] theorem tallness_endOf (g : Graph) (h : Handle) : g.tallness (g.endOf h) = g.tallness h := by
  rcases g.leads_endOf_or h with hl | he
  · exact (heightMeaning.value_leads hl).symm
  · rw [he]

/-- Whether two handles are bisimilar is a matter of the ends of their chains. -/
@[simp] theorem bisimilar_endOf (g : Graph) (a b : Handle) :
    g.Bisimilar (g.endOf a) (g.endOf b) ↔ g.Bisimilar a b := by
  constructor
  · intro h
    have hends : ∀ x y, g.Bisimilar (g.endOf x) (g.endOf y) →
        ∃ r s n m, g.Leads x r ∧ g.slot? r = some (.node n) ∧ g.Leads y s ∧
          g.slot? s = some (.node m) ∧ n.Relates g.Bisimilar m := by
      intro x y hxy
      obtain ⟨r, s, n, m, hr, hn, hs, hm, hrelates⟩ := hxy.unfold
      have hback {x r : Handle} (hr : g.Leads (g.endOf x) r) : g.Leads x r := by
        rcases g.leads_endOf_or x with hl | he
        · rwa [hr.unique hl.self_end]
        · rwa [he] at hr
      exact ⟨r, s, n, m, hback hr, hn, hback hs, hm, hrelates⟩
    -- After one step from the ends, the operands are bisimilar themselves.
    refine ⟨fun x y => g.Bisimilar x y ∨ g.Bisimilar (g.endOf x) (g.endOf y), ?_, .inr h⟩
    rintro x y (hxy | hxy)
    · obtain ⟨r, s, n, m, hr, hn, hs, hm, hrelates⟩ := hxy.unfold
      exact ⟨r, s, n, m, hr, hn, hs, hm, hrelates.mono fun _ _ _ _ => .inl⟩
    · obtain ⟨r, s, n, m, hr, hn, hs, hm, hrelates⟩ := hends x y hxy
      exact ⟨r, s, n, m, hr, hn, hs, hm, hrelates.mono fun _ _ _ _ => .inl⟩
  · intro h
    obtain ⟨r, s, n, m, hr, hn, hs, hm, -⟩ := h.unfold
    rw [hr.endOf, hs.endOf]
    exact h.ends hr hs

/-! ## Properties of all nodes -/

/-- All nodes that can be reached have a property. -/
def AllNodes (g : Graph) (P : Handle → Node → Prop) (h : Handle) : Prop :=
  ∀ k n, g.Reaches h k → g.slot? k = some (.node n) → P k n

namespace AllNodes

variable {P : Handle → Node → Prop}

theorem reaches (hh : g.AllNodes P h) (hk : g.Reaches h k) : g.AllNodes P k :=
  fun k' n hk' => hh k' n (hk.trans hk')

theorem operand (hh : g.AllNodes P h) (hs : g.slot? h = some (.node n)) {c : Handle}
    (hc : c ∈ n.children) : g.AllNodes P c :=
  hh.reaches (.single (by rwa [references_of_node hs]))

theorem of_node (hs : g.slot? h = some (.node n)) (hn : P h n)
    (hc : ∀ c ∈ n.children, g.AllNodes P c) : g.AllNodes P h := by
  intro k t hk ht
  rcases Relation.ReflTransGen.cases_head hk with rfl | ⟨c, hstep, hck⟩
  · obtain rfl : n = t := by simpa [hs] using ht
    exact hn
  · rw [references_of_node hs] at hstep
    exact hc c hstep k t hck ht

theorem of_leads (hl : g.Leads h r) (hr : g.AllNodes P r) : g.AllNodes P h := by
  induction hl with
  | here => exact hr
  | @step h t r hs _ ih =>
      intro k n hk hn
      rcases Relation.ReflTransGen.cases_head hk with rfl | ⟨c, hstep, hck⟩
      · rw [hs] at hn
        cases hn
      · rw [references_of_forward hs, List.mem_singleton] at hstep
        exact ih hr k n (hstep ▸ hck) hn

theorem congr {P' : Handle → Node → Prop} (hh : g.AllNodes P h) (hD : g.Closed D)
    (hslot : ∀ h ∈ D, g'.slot? h = g.slot? h) (hmem : h ∈ D)
    (hP : ∀ k n, k ∈ D → (∀ c ∈ n.children, c ∈ D) → P k n → P' k n) : g'.AllNodes P' h := by
  intro k n hk hs
  have hk := Reaches.congr hD hslot hmem hk
  have hkD := hD.of_reaches hmem hk
  rw [hslot k hkD] at hs
  exact hP k n hkD (fun c hc => hD k hkD c (by rwa [references_of_node hs])) (hh k n hk hs)

end AllNodes

/-! ## Expressions that open -/

/-- An alternative that a handle stands for is stored at the handle itself. -/
def Exposed (g : Graph) (h : Handle) : Prop :=
  ∀ left right, g.nodeAt h = some (.alt left right) → g.Leads h h

theorem Exposed.of_node (hs : g.slot? h = some (.node n)) : g.Exposed h := fun _ _ _ => .of_node hs

theorem Exposed.congr (hh : g.Exposed h) (hD : g.Closed D) (hslot : ∀ h ∈ D, g'.slot? h = g.slot? h)
    (hmem : h ∈ D) : g'.Exposed h := fun left right hn => by
  rw [nodeAt_congr hD hslot hmem] at hn
  exact (hh left right hn).congr hD hslot hmem

theorem branches_of_not_alt (h : ∀ left right, g.slot? k ≠ some (.node (.alt left right))) :
    branches g k = [k] := by
  rw [branches]
  split
  · next left right hs => exact absurd (stored?_eq_some.1 hs) (h left right)
  · rfl

theorem branches_of_alt {left right : Handle} (hs : g.slot? k = some (.node (.alt left right)))
    (hleft : left.index < k.index) (hright : right.index < k.index) :
    branches g k = branches g left ++ branches g right := by
  rw [branches, stored?_eq_some.2 hs]
  simp only [hleft, hright, and_self, dite_true]

theorem branches_ne_nil (g : Graph) (h : Handle) : branches g h ≠ [] := by
  induction h using branches.induct g with
  | case1 h left right hs hlt ihleft ihright =>
      rw [branches_of_alt (stored?_eq_some.1 hs) hlt.1 hlt.2]
      simp [ihleft]
  | case2 h left right hs hlt =>
      rw [branches, hs]
      simp [hlt]
  | case3 h hnot => simp [branches_of_not_alt fun l r hs => hnot l r (stored?_eq_some.2 hs)]

/-- An exposed handle and the end of its chain have the same branches, up to chains. -/
theorem Exposed.map_branches (hh : g.Exposed h) :
    (branches g h).map g.endOf = (branches g (g.endOf h)).map g.endOf := by
  rcases g.leads_endOf_or h with hl | he
  swap
  · rw [he]
  by_cases hend : g.Leads h h
  · rw [hend.endOf]
  · -- The handle is a reference, and does not stand for an alternative.
    have hnot : ∀ left right, g.slot? h ≠ some (.node (.alt left right)) :=
      fun left right hs => hend (.of_node hs)
    have hnotEnd : ∀ left right, g.slot? (g.endOf h) ≠ some (.node (.alt left right)) :=
      fun left right hs => hend (hh left right ((nodeAt_leads hl).trans (nodeAt_of_slot hs)))
    simp [branches_of_not_alt hnot, branches_of_not_alt hnotEnd]

end Graph

/-- Alternatives are stored after their operands, and no reference hides an alternative from them,
or from a complement. -/
def Node.Opens (g : Graph) (self : Handle) : Node → Prop
  | .alt left right =>
    (left.index < self.index ∧ right.index < self.index) ∧ g.Exposed left ∧ g.Exposed right
  | .not operand => g.Exposed operand
  | _ => True

theorem Node.Opens.congr {g g' : Graph} {D : Set Handle} {n : Node} {self : Handle}
    (hn : n.Opens g self) (hD : g.Closed D) (hslot : ∀ h ∈ D, g'.slot? h = g.slot? h)
    (hc : ∀ c ∈ n.children, c ∈ D) : n.Opens g' self := by
  cases n with
  | alt left right =>
      exact ⟨hn.1, hn.2.1.congr hD hslot (hc left (by simp [Node.children])),
        hn.2.2.congr hD hslot (hc right (by simp [Node.children]))⟩
  | not operand => exact Exposed.congr hn hD hslot (hc operand (by simp [Node.children]))
  | _ => trivial

namespace Graph

variable {g g' : Graph} {D : Set Handle} {h k : Handle} {items : List Handle}

/-- All nodes that can be reached open. -/
def Opens (g : Graph) : Handle → Prop := g.AllNodes fun k n => n.Opens g k

/-- The branches of an exposed expression that opens are exposed, and are not opened any further. -/
theorem Opens.of_mem_branches (hh : g.Opens h) (hexposed : g.Exposed h) (hk : k ∈ branches g h) :
    g.Reaches h k ∧ g.Exposed k ∧ branches g k = [k] := by
  induction h using branches.induct g with
  | case1 h left right hs hlt ihleft ihright =>
      have hslot := stored?_eq_some.1 hs
      obtain ⟨-, hleft, hright⟩ := hh h _ .refl hslot
      have hstep {c : Handle} (hc : c ∈ [left, right]) : g.Reaches h c :=
        .single (by rwa [references_of_node hslot])
      rw [branches_of_alt hslot hlt.1 hlt.2, List.mem_append] at hk
      rcases hk with hk | hk
      · obtain ⟨hreach, hk⟩ := ihleft (hh.reaches (hstep (by simp))) hleft hk
        exact ⟨(hstep (by simp)).trans hreach, hk⟩
      · obtain ⟨hreach, hk⟩ := ihright (hh.reaches (hstep (by simp))) hright hk
        exact ⟨(hstep (by simp)).trans hreach, hk⟩
  | case2 h left right hs hlt => exact absurd (hh h _ .refl (stored?_eq_some.1 hs)).1 hlt
  | case3 h hnot =>
      have hself := branches_of_not_alt fun l r hs => hnot l r (stored?_eq_some.2 hs)
      rw [hself, List.mem_singleton] at hk
      subst hk
      exact ⟨.refl, hexposed, hself⟩

/-! ## Polished nodes -/

/-- Alternatives that match something, differ from each other, and come in the order of their
heights. -/
structure Spread (g : Graph) (items : List Handle) : Prop where
  something : ∀ k ∈ items, g.nodeAt k ≠ some .nil
  different : items.Pairwise fun a b => ¬ g.Bisimilar a b
  sorted : items.Pairwise fun a b => g.tallness a ≤ g.tallness b

/-- Chains of forwards make no difference. -/
theorem spread_map_endOf : g.Spread (items.map g.endOf) ↔ g.Spread items := by
  constructor
  · rintro ⟨hsomething, hdifferent, hsorted⟩
    rw [List.pairwise_map] at hdifferent hsorted
    simp only [bisimilar_endOf, tallness_endOf] at hdifferent hsorted
    refine ⟨fun k hk => ?_, hdifferent, hsorted⟩
    rw [← nodeAt_endOf]
    exact hsomething _ (List.mem_map_of_mem hk)
  · rintro ⟨hsomething, hdifferent, hsorted⟩
    refine ⟨fun k hk => ?_, ?_, ?_⟩
    · obtain ⟨c, hc, rfl⟩ := List.mem_map.1 hk
      rw [nodeAt_endOf]
      exact hsomething c hc
    · simpa only [List.pairwise_map, bisimilar_endOf] using hdifferent
    · simpa only [List.pairwise_map, tallness_endOf] using hsorted

theorem Spread.congr (hitems : g.Spread items) (hD : g.Closed D)
    (hslot : ∀ h ∈ D, g'.slot? h = g.slot? h) (hmem : ∀ k ∈ items, k ∈ D) : g'.Spread items where
  something k hk := by
    rw [nodeAt_congr hD hslot (hmem k hk)]
    exact hitems.something k hk
  different := hitems.different.imp_of_mem fun {a b} ha hb hab hsame =>
    hab (hsame.congr (hD.congr hslot) (fun k hk => (hslot k hk).symm) (hmem a ha) (hmem b hb))
  sorted := hitems.sorted.imp_of_mem fun {a b} ha hb hab => by
    rwa [tallness_congr hD hslot (hmem a ha), tallness_congr hD hslot (hmem b hb)]

end Graph

/-- No rule of simplification applies to a node. -/
def Node.Polished (g : Graph) : Node → Prop
  | .range first last => first ≠ last
  | .alt left right => branches g left = [left] ∧ g.Spread (branches g left ++ branches g right)
  | .seq first second =>
    (g.nodeAt first ≠ some .nil ∧ g.nodeAt first ≠ some .empty) ∧
      g.nodeAt second ≠ some .nil ∧ g.nodeAt second ≠ some .empty
  | .star operand => (g.nodeAt operand ≠ some .nil ∧ g.nodeAt operand ≠ some .empty) ∧
    ∀ inner, g.nodeAt operand ≠ some (.star inner)
  | .rep operand count => (∃ n, count = .exactly (n + 2)) ∧
    g.nodeAt operand ≠ some .nil ∧ g.nodeAt operand ≠ some .empty
  | .not operand => ∀ inner, g.nodeAt operand ≠ some (.not inner)
  | .nullability operand => [] ∈ g.language operand ∧ g.nodeAt operand ≠ some .empty ∧
    (∀ trees, g.nodeAt operand ≠ some (.emptyReduction trees)) ∧
      ∀ inner, g.nodeAt operand ≠ some (.nullability inner)
  | .reduction operand _ =>
    g.nodeAt operand ≠ some .nil ∧ ∀ trees, g.nodeAt operand ≠ some (.emptyReduction trees)
  | _ => True

section Polished

variable {g g' : Graph} {D : Set Handle} {n t : Node}

theorem Node.Polished.congr (hn : n.Polished g) (hD : g.Closed D)
    (hslot : ∀ h ∈ D, g'.slot? h = g.slot? h) (hc : ∀ c ∈ n.children, c ∈ D) : n.Polished g' := by
  have hat {c : Handle} (hc' : c ∈ n.children) : g'.nodeAt c = g.nodeAt c :=
    nodeAt_congr hD hslot (hc c hc')
  cases n with
  | range first last => exact hn
  | alt left right =>
      have hbranches {c : Handle} (hc' : c ∈ (Node.alt left right).children) :
          branches g' c = branches g c ∧ ∀ k ∈ branches g c, k ∈ D :=
        ⟨branches_congr hD hslot (hc c hc'), closed_branches hD (hc c hc')⟩
      obtain ⟨hleft, hleftD⟩ := hbranches (c := left) (by simp [Node.children])
      obtain ⟨hright, hrightD⟩ := hbranches (c := right) (by simp [Node.children])
      rw [Node.Polished, hleft, hright]
      refine ⟨hn.1, hn.2.congr hD hslot fun k hk => ?_⟩
      exact (List.mem_append.1 hk).elim (hleftD k) (hrightD k)
  | nullability operand =>
      have hlanguage : g'.language operand = g.language operand :=
        language_congr hD hslot operand (hc operand (by simp [Node.children]))
      rw [Node.Polished, hlanguage, hat (by simp [Node.children])]
      exact hn
  | seq first second =>
      rw [Node.Polished, hat (c := first) (by simp [Node.children]),
        hat (c := second) (by simp [Node.children])]
      exact hn
  | star operand =>
      simp only [Node.Polished, hat (c := operand) (by simp [Node.children])]
      exact hn
  | rep operand count =>
      rw [Node.Polished, hat (by simp [Node.children])]
      exact hn
  | not operand =>
      simp only [Node.Polished, hat (c := operand) (by simp [Node.children])]
      exact hn
  | reduction operand reducer =>
      simp only [Node.Polished, hat (c := operand) (by simp [Node.children])]
      exact hn
  | _ => trivial

/-- Whether a node is polished is a matter of what the handles of its operands lead to. -/
theorem Node.polished_iff_of_refits (hrefits : Refits (fun z a => a = z ∨ g.Leads z a) n t)
    (hlayered : ∀ z ∈ n.children, g.Layered z) : n.Polished g ↔ t.Polished g := by
  have hat {z a : Handle} (ha : a = z ∨ g.Leads z a) : g.nodeAt z = g.nodeAt a :=
    ha.elim (fun he => he ▸ rfl) nodeAt_leads
  cases hrefits with
  | seq ha hb => rw [Node.Polished, Node.Polished, hat ha, hat hb]
  | star ha => simp only [Node.Polished, hat ha]
  | rep count ha => rw [Node.Polished, Node.Polished, hat ha]
  | not ha => simp only [Node.Polished, hat ha]
  | @nullability z a ha =>
      have hlanguage : g.language z = g.language a := ha.elim (fun he => he ▸ rfl)
        (hlayered z (by simp [Node.children])).language_leads
      simp only [Node.Polished, hat ha, hlanguage]
  | reduction f ha => simp only [Node.Polished, hat ha]

end Polished

/-! ## Neat expressions -/

/-- A node is polished and hides no alternative. -/
structure Node.Neat (g : Graph) (h : Handle) (n : Node) : Prop where
  opens : n.Opens g h
  polished : n.Polished g

namespace Graph

variable {g g' : Graph} {D : Set Handle} {h k v first left tail right : Handle} {n : Node}
  {items : List Handle}

/-- An expression whose nodes are all neat. -/
structure Neat (g : Graph) (h : Handle) : Prop where
  exposed : g.Exposed h
  nodes : g.AllNodes (fun k n => n.Neat g k) h

namespace Neat

theorem opens (hh : g.Neat h) : g.Opens h := fun k n hk hs => (hh.nodes k n hk hs).opens

theorem congr (hh : g.Neat h) (hD : g.Closed D) (hslot : ∀ h ∈ D, g'.slot? h = g.slot? h)
    (hmem : h ∈ D) : g'.Neat h where
  exposed := hh.exposed.congr hD hslot hmem
  nodes := hh.nodes.congr hD hslot hmem fun _ _ _ hc hn =>
    ⟨hn.opens.congr hD hslot hc, hn.polished.congr hD hslot hc⟩

theorem extend (hh : g.Neat h) (hg : g.WellFormed) (hext : g'.Extends g) (hlt : h.index < g.size) :
    g'.Neat h := hh.congr hg.closed_lt hext.2 hlt

theorem of_node (hs : g.slot? h = some (.node n)) (hn : n.Neat g h)
    (hc : ∀ c ∈ n.children, g.AllNodes (fun k n => n.Neat g k) c) : g.Neat h where
  exposed := .of_node hs
  nodes := .of_node hs hn hc

theorem nil (hg : g.WellFormed) : g.Neat .nil :=
  .of_node hg.nil ⟨trivial, trivial⟩ (by simp [Node.children])

theorem empty (hg : g.WellFormed) : g.Neat .empty :=
  .of_node hg.empty ⟨trivial, trivial⟩ (by simp [Node.children])

/-- The branches of a neat expression are neat. -/
theorem of_mem_branches (hh : g.Neat h) (hk : k ∈ branches g h) :
    g.Neat k ∧ branches g k = [k] := by
  obtain ⟨hreach, hexposed, hself⟩ := hh.opens.of_mem_branches hh.exposed hk
  exact ⟨⟨hexposed, hh.nodes.reaches hreach⟩, hself⟩

/-- The operand of a complement that a neat expression stands for is neat. -/
theorem inner (hh : g.Neat h) (hn : g.nodeAt h = some (.not k)) : g.Neat k := by
  obtain ⟨r, hl, hr⟩ := nodeAt_eq_some.1 hn
  have hs : g.slot? r = some (.node (.not k)) := slot?_of_node_eq hr (by simp)
  have hnodes := hh.nodes.reaches hl.reaches
  exact ⟨(hnodes r _ .refl hs).opens, hnodes.operand hs (by simp [Node.children])⟩

/-- An alternative of neat operands, of which the first one is not an alternative, is neat if the
branches are spread. -/
theorem alt (hs : g.slot? v = some (.node (.alt left right)))
    (hopens : (Node.alt left right).Opens g v) (hleft : first = left ∨ g.Leads left first)
    (hright : tail = right ∨ g.Leads right tail) (hfirst : g.Neat first)
    (hself : branches g first = [first]) (htail : g.Neat tail)
    (hbranches : (branches g tail).map g.endOf = items.map g.endOf)
    (hspread : g.Spread (first :: items)) :
    g.Neat v ∧ (branches g v).map g.endOf = (first :: items).map g.endOf := by
  have hleftSelf : branches g left = [left] := by
    by_cases he : first = left
    · rwa [← he]
    · -- The operand is a reference.
      have hl := hleft.resolve_left he
      exact branches_of_not_alt fun l r hs => he (hl.unique (.of_node hs))
  have hrightBranches : (branches g right).map g.endOf = items.map g.endOf := by
    rw [← hbranches]
    rcases hright with rfl | hleads
    · rfl
    · rw [hopens.2.2.map_branches, hleads.endOf]
  have hends : (branches g left ++ branches g right).map g.endOf =
      (first :: items).map g.endOf := by
    rw [hleftSelf, List.map_append, hrightBranches]
    rcases hleft with rfl | hleads
    · rfl
    · simp [endOf_leads hleads]
  have hpolished : (Node.alt left right).Polished g :=
    ⟨hleftSelf, by rwa [← spread_map_endOf, hends, spread_map_endOf]⟩
  refine ⟨.of_node hs ⟨hopens, hpolished⟩ fun c hc => ?_, ?_⟩
  · rcases List.mem_pair.1 hc with rfl | rfl
    · exact hleft.elim (fun he => he ▸ hfirst.nodes) fun hl => .of_leads hl hfirst.nodes
    · exact hright.elim (fun he => he ▸ htail.nodes) fun hl => .of_leads hl htail.nodes
  · rw [branches_of_alt hs hopens.1.1 hopens.1.2, hends]

end Neat

end Graph

/-- What is nested from neat branches that are spread is neat, and has these branches, up to chains
of forwards. -/
theorem Simplify.Nests.neat {g : Graph} {D : Set Handle} {v : Handle} {items : List Handle}
    (h : Nests g D items v) (hD : ∀ k ∈ D, g.Opens k)
    (hitems : ∀ k ∈ items, g.Neat k ∧ branches g k = [k]) (hspread : g.Spread items) :
    g.Neat v ∧ (branches g v).map g.endOf = items.map g.endOf := by
  have hrest {first : Handle} {items : List Handle} (hspread : g.Spread (first :: items)) :
      g.Spread items :=
    ⟨fun k hk => hspread.something k (by simp [hk]), hspread.different.of_cons,
      hspread.sorted.of_cons⟩
  induction h with
  | only k =>
      obtain ⟨hk, hself⟩ := hitems k (by simp)
      exact ⟨hk, by rw [hself]⟩
  | kept hv hs hleft hright _ ih =>
      obtain ⟨hfirst, hself⟩ := hitems _ List.mem_cons_self
      obtain ⟨htail, hbranches⟩ := ih (fun k hk => hitems k (by simp [hk])) (hrest hspread)
      exact Neat.alt hs (hD _ hv _ _ .refl hs) hleft hright hfirst hself htail hbranches hspread
  | made hs hlt hlt' _ ih =>
      obtain ⟨hfirst, hself⟩ := hitems _ List.mem_cons_self
      obtain ⟨htail, hbranches⟩ := ih (fun k hk => hitems k (by simp [hk])) (hrest hspread)
      refine Neat.alt hs ⟨⟨hlt, hlt'⟩, ?_, ?_⟩ (.inl rfl) (.inl rfl) hfirst hself htail hbranches
        hspread
      · exact hfirst.exposed
      · exact htail.exposed

end DerivativeParsing
