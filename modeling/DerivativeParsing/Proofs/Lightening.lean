import DerivativeParsing.Proofs.ShapeMeasures
import DerivativeParsing.Proofs.TameRules

/-!
# What simplification leaves to do

A simplification of an expression from which no cycle can be reached makes its shape lighter, or it
gives the expression back, and then all nodes of the expression rest (`Lightens.lighter_or`).

This is shown of one node after the other.  The case of alternatives needs to know more about
results whose shape is not smaller: their branches stand in line (`Graph.Lined`), and as long as the
work in the leaves is the same, so are the leaves (`Level`).  Alternatives that are joined then
stand in line again (`Simplify.Nests.stands`), and if they did not do so before, this is progress.
-/

set_option autoImplicit false

namespace DerivativeParsing

open Fixpoint DerivativeParsing.Graph

/-! ## Branches that stand in line -/

namespace Graph

variable {g g' : Graph} {D : Set Handle} {h v first tail left right : Handle} {n : Node}
  {items : List Handle}

/-- Every node is stored after its operands. -/
def BottomUp (g : Graph) : Prop :=
  ∀ h n, g.slot? h = some (.node n) → ∀ c ∈ n.children, c.index < h.index

theorem BottomUp.alt (hg : g.BottomUp) (hs : g.slot? h = some (.node (.alt left right))) :
    left.index < h.index ∧ right.index < h.index :=
  ⟨hg h _ hs left (by simp [Node.children]), hg h _ hs right (by simp [Node.children])⟩

theorem BottomUp.builds {P : Node → Prop} (hg : g.BottomUp) (hbuilds : Builds D P g g')
    (hD : ∀ k ∈ D, k.index < g.size) : g'.BottomUp := by
  intro h n hs c hc
  rcases Nat.lt_or_ge h.index g.size with hlt | hge
  · rw [hbuilds.kept.2 h hlt] at hs
    exact hg h n hs c hc
  · obtain ⟨n', hs', -, hn⟩ := hbuilds.new h hge (slot?_lt hs)
    obtain rfl : n = n' := by simpa [hs] using hs'
    exact (hn c hc).elim (fun hcD => (hD c hcD).trans_le hge) And.right

theorem BottomUp.alloc {s : Slot} (hg : g.BottomUp)
    (hn : ∀ n, s = .node n → ∀ c ∈ n.children, c.index < g.size) : (g.alloc s).2.BottomUp := by
  intro h n hs c hc
  rw [slot?_alloc] at hs
  split at hs
  · next he => exact he ▸ hn n (Option.some.inj hs) c hc
  · exact hg h n hs c hc

/-- The branches of a handle are in the order of their heights. -/
abbrev InOrder (g : Graph) (l : List Handle) : Prop :=
  l.Pairwise fun a b => (g.shapeOf a).height ≤ (g.shapeOf b).height

/-- The branches of a node are nested to the right in the order of their heights, and no leaf is
lower than the first one. -/
structure Lined (g : Graph) (h : Handle) : Prop where
  stored : ∃ n, g.slot? h = some (.node n)
  inOrder : g.InOrder (Simplify.branches g h)
  nested : g.shapeOf h = .nest ((Simplify.branches g h).map g.shapeOf)
  least : ∀ k ∈ (Simplify.branches g h).head?, ∀ t ∈ (g.shapeOf h).leaves,
    (g.shapeOf k).height ≤ t.height

theorem HasShape.not_isAlt (hh : g.HasShape h) (hs : g.slot? h = some (.node n))
    (hn : ¬ Simplify.IsAlternative n) : ¬ (g.shapeOf h).IsAlt := fun halt => by
  obtain ⟨left, right, hat⟩ := hh.nodeAt_of_isAlt halt
  rw [nodeAt_of_slot hs, Option.some.injEq] at hat
  exact hn ⟨left, right, hat⟩

theorem branches_of_not_isAlt (hh : g.HasShape h) (hn : ¬ (g.shapeOf h).IsAlt) :
    Simplify.branches g h = [h] := branches_of_nodeAt fun _ _ hat => hn (hh.isAlt_of_nodeAt hat)

/-- A node that is not an alternative is its only branch. -/
theorem Lined.of_not_isAlt (hh : g.HasShape h) (hs : g.slot? h = some (.node n))
    (hn : ¬ (g.shapeOf h).IsAlt) : g.Lined h := by
  have hself := branches_of_not_isAlt hh hn
  refine ⟨⟨n, hs⟩, ?_, ?_, fun k hk t ht => ?_⟩
  · rw [hself]
    exact List.pairwise_singleton _ _
  · rw [hself]
    rfl
  · rw [hself] at hk
    rw [Shape.leaves_of_not_alt hn, List.mem_singleton] at ht
    obtain rfl : h = k := by simpa using hk
    rw [ht]

theorem InOrder.congr {l : List Handle} (hl : g.InOrder l)
    (hsame : ∀ k ∈ l, g'.shapeOf k = g.shapeOf k) : g'.InOrder l :=
  hl.imp_of_mem fun ha hb hab => by rwa [hsame _ ha, hsame _ hb]

theorem Lined.congr (hh : g.Lined h) (hshape : g.HasShape h) (hD : g.Closed D)
    (hslot : ∀ h ∈ D, g'.slot? h = g.slot? h) (hmem : h ∈ D) : g'.Lined h := by
  have hsame : ∀ k ∈ Simplify.branches g h, g'.shapeOf k = g.shapeOf k := fun k hk =>
    ((hshape.of_mem_branches hk).congr hD hslot (Simplify.closed_branches hD hmem k hk)).2
  obtain ⟨n, hs⟩ := hh.stored
  refine ⟨⟨n, (hslot h hmem).trans hs⟩, ?_, ?_, fun k hk t ht => ?_⟩
  · rw [branches_congr hD hslot hmem]
    exact hh.inOrder.congr hsame
  · rw [branches_congr hD hslot hmem, (hshape.congr hD hslot hmem).2, hh.nested]
    exact congrArg _ (List.map_congr_left fun k hk => (hsame k hk).symm)
  · rw [branches_congr hD hslot hmem] at hk
    rw [(hshape.congr hD hslot hmem).2] at ht
    rw [hsame k (List.mem_of_mem_head? hk)]
    exact hh.least k hk t ht

/-- Alternatives are nested at a handle, and the branches of the handle stand in line.  There may be
fewer branches than alternatives, since the last one may be a reference to the others. -/
structure Stands (g : Graph) (items : List Handle) (v : Handle) : Prop where
  shape : g.shapeOf v = .nest (items.map g.shapeOf)
  inOrder : g.InOrder (Simplify.branches g v)
  nested : g.shapeOf v = .nest ((Simplify.branches g v).map g.shapeOf)
  head : (Simplify.branches g v).head?.map g.shapeOf = items.head?.map g.shapeOf

/-- The first alternative is not higher than any branch. -/
theorem Stands.height_le {k j : Handle} (h : g.Stands items v) (hk : k ∈ items.head?)
    (hj : j ∈ Simplify.branches g v) : (g.shapeOf k).height ≤ (g.shapeOf j).height := by
  have hhead := h.head
  have horder := h.inOrder
  rw [Option.mem_def.1 hk] at hhead
  rcases hb : Simplify.branches g v with _ | ⟨b, bs⟩
  · rw [hb] at hj
    cases hj
  · rw [hb] at hhead hj horder
    obtain hbk : g.shapeOf b = g.shapeOf k := by simpa using hhead
    rcases List.mem_cons.1 hj with rfl | hj
    · rw [hbk]
    · rw [← hbk]
      exact List.rel_of_pairwise_cons horder hj

/-- An alternative is put in front of others that are not lower. -/
theorem Stands.cons (hs : g.slot? v = some (.node (.alt left right))) (hv : g.HasShape v)
    (hlt : left.index < v.index ∧ right.index < v.index)
    (hleft : first = left ∨ g.Leads left first) (hright : tail = right ∨ g.Leads right tail)
    (hself : Simplify.branches g first = [first]) (htail : g.Stands items tail) (hne : items ≠ [])
    (hle : ∀ k ∈ items, (g.shapeOf first).height ≤ (g.shapeOf k).height) :
    g.Stands (first :: items) v := by
  obtain ⟨hshape, hshapeLeft, hshapeRight⟩ := hv.of_alt hs
  have hfirst : g.shapeOf left = g.shapeOf first :=
    hleft.elim (fun he => he ▸ rfl) fun hl => (hshapeLeft.leads hl).2
  have hrest : g.shapeOf right = g.shapeOf tail :=
    hright.elim (fun he => he ▸ rfl) fun hl => (hshapeRight.leads hl).2
  have hleftSelf : Simplify.branches g left = [left] := by
    by_cases he : first = left
    · rwa [← he]
    · have hl := hleft.resolve_left he
      exact branches_of_not_alt fun l r hs => he (hl.unique (.of_node hs))
  obtain ⟨k, hk⟩ : ∃ k, k ∈ items.head? := ⟨items.head hne, List.head?_eq_some_head hne⟩
  -- The second operand is what the others are nested at, or a reference to it.
  obtain ⟨horder, hnested, hbelow⟩ : g.InOrder (Simplify.branches g right) ∧
      g.shapeOf right = .nest ((Simplify.branches g right).map g.shapeOf) ∧
        ∀ j ∈ Simplify.branches g right, (g.shapeOf first).height ≤ (g.shapeOf j).height := by
    by_cases he : tail = right
    · subst he
      exact ⟨htail.inOrder, htail.nested, fun j hj =>
        (hle k (List.mem_of_mem_head? hk)).trans (htail.height_le hk hj)⟩
    · have hl := hright.resolve_left he
      have hone : Simplify.branches g right = [right] :=
        branches_of_not_alt fun l r hs => he (hl.unique (.of_node hs))
      rw [hone]
      refine ⟨List.pairwise_singleton _ _, rfl, fun j hj => ?_⟩
      rw [List.mem_singleton.1 hj, hrest, htail.shape]
      exact (hle k (List.mem_of_mem_head? hk)).trans
        (Shape.height_le_nest (List.mem_map_of_mem (List.mem_of_mem_head? hk)))
  have hbranches : Simplify.branches g v = left :: Simplify.branches g right := by
    rw [branches_of_alt hs hlt.1 hlt.2, hleftSelf, List.singleton_append]
  refine ⟨?_, ?_, ?_, ?_⟩
  · rw [hshape, hfirst, hrest, htail.shape, List.map_cons, Shape.nest_cons (by simpa using hne)]
  · rw [hbranches]
    exact List.pairwise_cons.2 ⟨fun j hj => by rw [hfirst]; exact hbelow j hj, horder⟩
  · rw [hbranches, List.map_cons, Shape.nest_cons (by simpa using branches_ne_nil g right),
      ← hnested, hshape]
  · rw [hbranches]
    simp [hfirst]

end Graph

/-- What is nested from alternatives in the order of their heights stands in line. -/
theorem Simplify.Nests.stands {g : Graph} {D : Set Handle} {items : List Handle} {v : Handle}
    (h : Nests g D items v) (hg : g.BottomUp) (hv : g.HasShape v)
    (hself : ∀ k ∈ items, branches g k = [k]) (horder : g.InOrder items) : g.Stands items v := by
  have hne {items : List Handle} {v : Handle} (h : Nests g D items v) : items ≠ [] := by
    cases h <;> simp
  induction h with
  | only k =>
      have hk := hself k (by simp)
      exact ⟨rfl, by simp [hk], by simp [hk, Shape.nest], by simp [hk]⟩
  | kept _ hs hleft hright hrest ih =>
      have htail := (hv.of_alt hs).2.2
      refine .cons hs hv (hg.alt hs) hleft hright (hself _ (by simp)) (ih ?_ ?_ ?_) (hne hrest)
        fun k hk => List.rel_of_pairwise_cons horder hk
      · exact hright.elim (fun he => he ▸ htail) fun hl => (htail.leads hl).1
      · exact fun k hk => hself k (by simp [hk])
      · exact horder.of_cons
  | made hs hlt hlt' hrest ih =>
      refine .cons hs hv ⟨hlt, hlt'⟩ (.inl rfl) (.inl rfl) (hself _ (by simp)) (ih ?_ ?_ ?_)
        (hne hrest) fun k hk => List.rel_of_pairwise_cons horder hk
      · exact (hv.of_alt hs).2.2
      · exact fun k hk => hself k (by simp [hk])
      · exact horder.of_cons

/-- What is nested from alternatives that can be written out can be written out. -/
theorem Simplify.Nests.hasShape {g : Graph} {D : Set Handle} {items : List Handle} {v : Handle}
    (h : Nests g D items v) (hitems : ∀ k ∈ items, g.HasShape k) (hD : ∀ k ∈ D, g.HasShape k) :
    g.HasShape v := by
  induction h with
  | only k => exact hitems k (by simp)
  | kept hv => exact hD _ hv
  | made hs _ _ _ ih =>
      refine .of_operands hs fun c hc => ?_
      rcases List.mem_pair.1 hc with rfl | rfl
      · exact hitems _ (by simp)
      · exact ih fun k hk => hitems k (by simp [hk])

/-- Two alternatives or more are nested at a node. -/
theorem Simplify.Nests.stored {g : Graph} {D : Set Handle} {items : List Handle} {v : Handle}
    (h : Nests g D items v) (hlength : 1 < items.length) : ∃ n, g.slot? v = some (.node n) := by
  cases h with
  | only k => exact absurd hlength (lt_irrefl _)
  | kept _ hs => exact ⟨_, hs⟩
  | made hs => exact ⟨_, hs⟩

/-! ## Branches that are joined -/

namespace Simplify

variable {g g' : Graph} {D : Set Handle} {a b h k v : Handle} {l items dropped : List Handle}

/-- No branch is stored as an alternative. -/
theorem branches_self (hg : g.BottomUp) (hk : k ∈ branches g h) : branches g k = [k] := by
  induction h using branches.induct g with
  | case1 h left right hs hlt ihleft ihright =>
      rw [branches_of_alt (stored?_eq_some.1 hs) hlt.1 hlt.2] at hk
      exact (List.mem_append.1 hk).elim ihleft ihright
  | case2 h left right hs hlt => exact absurd (hg.alt (stored?_eq_some.1 hs)) hlt
  | case3 h hnot =>
      have hone : branches g h = [h] :=
        branches_of_not_alt fun left right hs => hnot left right (stored?_eq_some.2 hs)
      rw [hone, List.mem_singleton] at hk
      rw [hk, hone]

/-- The leaves of a branch are leaves of the whole. -/
theorem mem_leaves_of_mem_branches {t : Shape} (hh : g.HasShape h) (hk : k ∈ branches g h)
    (ht : t ∈ (g.shapeOf k).leaves) : t ∈ (g.shapeOf h).leaves := by
  have hleaves : g.HasShape k ∧ ∀ t ∈ (g.shapeOf k).leaves, t ∈ (g.shapeOf h).leaves := by
    refine of_mem_branches (P := fun k => g.HasShape k ∧ ∀ t ∈ (g.shapeOf k).leaves,
      t ∈ (g.shapeOf h).leaves) (fun j left right hs hj => ?_) ⟨hh, fun _ => id⟩ hk
    obtain ⟨hshape, hleft, hright⟩ := hj.1.of_alt hs
    rw [hshape] at hj
    exact ⟨⟨hleft, fun t ht => hj.2 t (List.mem_append_left _ ht)⟩,
      hright, fun t ht => hj.2 t (List.mem_append_right _ ht)⟩
  exact hleaves.2 t ht

/-- Some of a list of branches have been put in the order of their heights.  If all of them have and
stood in order before, nothing has changed. -/
structure Orders (g : Graph) (l items dropped : List Handle) : Prop where
  perm : (items ++ dropped).Perm l
  inOrder : g.InOrder items
  stable : dropped = [] → g.InOrder l → items = l

theorem Orders.mem (h : Orders g l items dropped) (hk : k ∈ items) : k ∈ l :=
  h.perm.subset (List.mem_append_left _ hk)

theorem Orders.congr (h : Orders g l items dropped) (hsame : ∀ k ∈ l, g'.shapeOf k = g.shapeOf k) :
    Orders g' l items dropped where
  perm := h.perm
  inOrder := h.inOrder.congr fun _ hk => hsame _ (h.mem hk)
  stable hnone hl := h.stable hnone (hl.congr fun k hk => (hsame k hk).symm)

theorem tallness_le_iff (ha : g.HasShape a) (hb : g.HasShape b) :
    g.tallness a ≤ g.tallness b ↔ (g.shapeOf a).height ≤ (g.shapeOf b).height := by
  rw [Unfolds.tallness_eq ha, Unfolds.tallness_eq hb, Nat.cast_le]

theorem inOrder_iff (hl : ∀ k ∈ l, g.HasShape k) :
    g.InOrder l ↔ l.Pairwise fun a b => g.tallness a ≤ g.tallness b :=
  List.Pairwise.iff_of_mem fun ha hb => (tallness_le_iff (hl _ ha) (hl _ hb)).symm

/-- Operands are joined from some of their branches. -/
theorem orders_of_joined (hg : g.WellFormed)
    (hready : ∀ k ∈ branches g a ++ branches g b, g.Ready k ∧ g.Tame k)
    (h : joined g a b = some items) :
    ∃ dropped, Orders g (branches g a ++ branches g b) items dropped := by
  have hshapes : ∀ k ∈ branches g a ++ branches g b, g.HasShape k := fun k hk =>
    (hready k hk).2.hasShape hg (hready k hk).1
  obtain ⟨kept, hkept, hitems⟩ := Option.bind_eq_some_iff.1 h
  have hsub : kept.Sublist (branches g a ++ branches g b) := sublist_of_distinct hkept
  have hperm := byHeight_perm hitems
  obtain ⟨dropped, hdropped⟩ := hsub.exists_perm_append
  have hmem : ∀ k ∈ items, k ∈ branches g a ++ branches g b := fun k hk =>
    hsub.subset (hperm.subset hk)
  refine ⟨dropped, (hperm.append_right dropped).trans hdropped.symm, ?_, fun hnone hl => ?_⟩
  · rw [inOrder_iff fun k hk => hshapes k (hmem k hk)]
    exact (spread_of_joined hg (fun k hk => hready k (hmem k hk)) h).sorted
  · -- Nothing has been dropped, so that there was nothing to sort.
    rw [hnone, List.append_nil] at hdropped
    obtain rfl := hsub.eq_of_length hdropped.length_eq.symm
    rw [byHeight_of_sorted hg hready ((inOrder_iff hshapes).1 hl)] at hitems
    exact (Option.some.inj hitems).symm

end Simplify

/-- Alternatives are nested at a handle that have been joined from the branches of two others. -/
structure Graph.Joined (g : Graph) (a b : Handle) (items dropped : List Handle) (v : Handle) :
    Prop where
  left : g.HasShape a
  right : g.HasShape b
  orders : Simplify.Orders g (Simplify.branches g a ++ Simplify.branches g b) items dropped
  stands : g.Stands items v

namespace Graph.Joined

variable {M : Type} [AddCommMonoid M] {f : Shape → M} {g : Graph} {a b k v : Handle} {t : Shape}
  {items dropped rest : List Handle}

theorem ne_nil (h : g.Joined a b items dropped v) : items ≠ [] := fun he => by
  have hhead := h.stands.head
  rw [he] at hhead
  exact branches_ne_nil g v (by simpa using hhead)

/-- What is added up over alternatives has been passed on, or dropped. -/
theorem add (h : g.Joined a b items dropped v) (hf : Shape.Additive f) :
    f (g.shapeOf v) + (dropped.map fun k => f (g.shapeOf k)).sum =
      f (g.shapeOf a) + f (g.shapeOf b) := by
  have hne : items.map g.shapeOf ≠ [] := by simpa using h.ne_nil
  rw [h.stands.shape, hf.nest hne, List.map_map, h.left.sum_branches hf,
    h.right.sum_branches hf]
  have hsum := (h.orders.perm.map fun k => f (g.shapeOf k)).sum_eq
  simpa only [List.map_append, List.sum_append, Function.comp_def] using hsum

/-- The result is not larger than both operands. -/
theorem size (h : g.Joined a b items dropped v) :
    (g.shapeOf v).size < (g.shapeOf a).size + (g.shapeOf b).size + 1 ∨
      (g.shapeOf v).size = (g.shapeOf a).size + (g.shapeOf b).size + 1 ∧ dropped = [] := by
  have hadd := h.add Shape.Additive.size
  rcases dropped with _ | ⟨k, dropped⟩
  · rw [List.map_nil, List.sum_nil] at hadd
    exact .inr ⟨by omega, rfl⟩
  · rw [List.map_cons, List.sum_cons] at hadd
    exact .inl (by omega)

section

variable (h : g.Joined a b items [] v) (ha : g.Lined a) (hb : g.Lined b)

include h

theorem work : (g.shapeOf v).work = (g.shapeOf a).work + (g.shapeOf b).work := by
  simpa using h.add Shape.Additive.work

theorem leaves : ((g.shapeOf v).leaves : Multiset Shape) =
    ↑((g.shapeOf a).leaves ++ (g.shapeOf b).leaves) := by
  simpa using h.add Shape.Additive.leaves

/-- Both operands have a branch. -/
theorem one_lt_length : 1 < items.length := by
  have hlength := h.orders.perm.length_eq
  have hposa := List.length_pos_of_ne_nil (branches_ne_nil g a)
  have hposb := List.length_pos_of_ne_nil (branches_ne_nil g b)
  rw [List.append_nil, List.length_append] at hlength
  omega

include ha hb

/-- The first alternative is not higher than any leaf. -/
theorem least (hk : k ∈ items.head?) (ht : t ∈ (g.shapeOf v).leaves) :
    (g.shapeOf k).height ≤ t.height := by
  obtain ⟨rest, rfl⟩ : ∃ rest, items = k :: rest := List.head?_eq_some_iff.1 hk
  have hfirst {c j : Handle} (hc : g.Lined c) (hj : j ∈ Simplify.branches g c)
      (hmem : ∀ i ∈ Simplify.branches g c, i ∈ k :: rest) (ht : t ∈ (g.shapeOf c).leaves) :
      (g.shapeOf k).height ≤ t.height := by
    have hhead := List.head?_eq_some_head (List.ne_nil_of_mem hj)
    refine le_trans ?_ (hc.least _ hhead t ht)
    rcases List.mem_cons.1 (hmem _ (List.mem_of_mem_head? hhead)) with he | hi
    · rw [he]
    · exact List.rel_of_pairwise_cons h.orders.inOrder hi
  have hperm : ∀ i ∈ Simplify.branches g a ++ Simplify.branches g b, i ∈ k :: rest := fun i hi => by
    simpa using h.orders.perm.symm.subset hi
  have hmem : t ∈ (g.shapeOf a).leaves ++ (g.shapeOf b).leaves := by
    rw [← Multiset.mem_coe, ← h.leaves]
    exact ht
  rcases List.mem_append.1 hmem with ht | ht
  · exact hfirst ha (List.head_mem (branches_ne_nil g a))
      (fun i hi => hperm i (by simp [hi])) ht
  · exact hfirst hb (List.head_mem (branches_ne_nil g b))
      (fun i hi => hperm i (by simp [hi])) ht

/-- What is joined from branches that stand in line stands in line. -/
theorem lined (hs : ∃ n, g.slot? v = some (.node n)) : g.Lined v where
  stored := hs
  inOrder := h.stands.inOrder
  nested := h.stands.nested
  least k hk t ht := by
    obtain ⟨i, hi⟩ : ∃ i, i ∈ items.head? := ⟨_, List.head?_eq_some_head h.ne_nil⟩
    have hhead := h.stands.head
    rw [Option.mem_def.1 hk, Option.mem_def.1 hi] at hhead
    obtain hki : g.shapeOf k = g.shapeOf i := by simpa using hhead
    rw [hki]
    exact h.least ha hb hi ht

/-- The first alternative is where it belongs: since it is the lowest, it is no alternative itself.
-/
theorem unsettled_cons (he : items = k :: rest) (hne : rest ≠ []) :
    g.shapeOf v = .alt (g.shapeOf k) (.nest (rest.map g.shapeOf)) ∧
      (g.shapeOf v).unsettled = (Shape.nest (rest.map g.shapeOf)).unsettled := by
  have hshape : g.shapeOf v = .alt (g.shapeOf k) (.nest (rest.map g.shapeOf)) := by
    rw [h.stands.shape, he, List.map_cons, Shape.nest_cons (by simpa using hne)]
  have hleast : ∀ t ∈ (g.shapeOf v).leaves, (g.shapeOf k).height ≤ t.height := fun t ht =>
    h.least ha hb (by simp [he]) ht
  rw [hshape] at hleast
  refine ⟨hshape, ?_⟩
  rw [hshape]
  refine Shape.unsettled_alt (fun halt => ?_) fun t ht => hleast t (List.mem_append_right _ ht)
  obtain ⟨t, ht⟩ := List.exists_mem_of_length_pos (Shape.length_leaves_pos (g.shapeOf k))
  have hlt := Shape.height_lt_of_mem_leaves halt ht
  have hle := hleast t (List.mem_append_left _ ht)
  omega

end

end Graph.Joined

/-! ## Results -/

section Lightens

variable {g₀ g g' : Graph} {D : Set Handle} {y v r r' a b : Handle} {n t : Node}
  {items dropped : List Handle}

/-- What is left to do of a shape `t` in a result that is not smaller: there is less work in the
leaves, or they are the same.  Then they are closer to being in order, or nothing has been done,
because all nodes rest. -/
structure Level (g : Graph) (t : Shape) (y v : Handle) : Prop where
  lined : g.Lined v
  length : (g.shapeOf v).leaves.length = t.leaves.length
  work : (g.shapeOf v).work ≤ t.work
  leaves : (g.shapeOf v).work = t.work → ((g.shapeOf v).leaves : Multiset Shape) = t.leaves
  rests : (g.shapeOf v).work = t.work → (g.shapeOf v).unsettled < t.unsettled ∨
    v = y ∧ g.AllNodes (fun k n => n.Rests g k) v

/-- A handle is the simplified form of another one. -/
structure Lightens (g₀ g : Graph) (y v : Handle) : Prop where
  size : (g.shapeOf v).size ≤ (g₀.shapeOf y).size
  level : (g.shapeOf v).size = (g₀.shapeOf y).size → Level g (g₀.shapeOf y) y v

namespace Lightens

/-- There is less to do in the simplified form, or nothing has been done because there was nothing
to do. -/
theorem lighter_or (h : Lightens g₀ g y v) : (g.shapeOf v).Lighter (g₀.shapeOf y) ∨
    v = y ∧ g.AllNodes (fun k n => n.Rests g k) v := by
  rcases h.size.lt_or_eq with hlt | he
  · exact .inl (.inl hlt)
  · have hlevel := h.level he
    rcases hlevel.work.lt_or_eq with hlt | hwork
    · exact .inl (.inr ⟨he, Shape.effort_lt hlevel.length (.inl hlt)⟩)
    · exact (hlevel.rests hwork).imp_left fun hlt =>
        .inr ⟨he, Shape.effort_lt hlevel.length (.inr ⟨hwork, hlt⟩)⟩

theorem of_smaller (h : (g.shapeOf v).size < (g₀.shapeOf y).size) : Lightens g₀ g y v :=
  ⟨h.le, fun he => absurd he h.ne⟩

theorem congr (h : Lightens g₀ g y v) (hv : g.HasShape v) (hD : g.Closed D)
    (hslot : ∀ h ∈ D, g'.slot? h = g.slot? h) (hmem : v ∈ D) : Lightens g₀ g' y v := by
  have hsame := (hv.congr hD hslot hmem).2
  refine ⟨hsame ▸ h.size, fun he => ?_⟩
  obtain ⟨hlined, hlength, hwork, hleaves, hrests⟩ := h.level (hsame ▸ he)
  refine ⟨hlined.congr hv hD hslot hmem, hsame ▸ hlength, hsame ▸ hwork, hsame ▸ hleaves, ?_⟩
  rw [hsame]
  refine fun hw => (hrests hw).imp_right fun ⟨hvy, hrests⟩ => ⟨hvy, ?_⟩
  exact hrests.congr hD hslot hmem fun _ _ _ hc hn => hn.congr hD hslot hc

/-- A node that is not an alternative is lighter than another one of its size if there is less work
in it. -/
theorem of_lighter (hv : g.HasShape v) (hs : g.slot? v = some (.node t))
    (hvn : ¬ (g.shapeOf v).IsAlt) (hyn : ¬ (g₀.shapeOf y).IsAlt)
    (h : (g.shapeOf v).size < (g₀.shapeOf y).size ∨
      (g.shapeOf v).size = (g₀.shapeOf y).size ∧ (g.shapeOf v).work < (g₀.shapeOf y).work) :
    Lightens g₀ g y v := by
  rcases h with hlt | ⟨hsize, hwork⟩
  · exact .of_smaller hlt
  · refine ⟨hsize.le, fun _ => ⟨.of_not_isAlt hv hs hvn, ?_, hwork.le, fun he => ?_, fun he => ?_⟩⟩
    · rw [Shape.leaves_of_not_alt hvn, Shape.leaves_of_not_alt hyn]
      rfl
    · exact absurd he hwork.ne
    · exact absurd he hwork.ne

/-- A node that rests is given back. -/
theorem of_rests (he : g.shapeOf y = g₀.shapeOf y) (hn : g.Lined y)
    (hrests : g.AllNodes (fun k n => n.Rests g k) y) : Lightens g₀ g y y :=
  ⟨(congrArg Shape.size he).le, fun _ => ⟨hn, by rw [he], by rw [he], fun _ => by rw [he],
    fun _ => .inr ⟨rfl, hrests⟩⟩⟩

/-- Where nothing is dropped and the leaves stay the same, one more alternative stands where it
belongs, unless all of them did. -/
theorem unsettled_lt (h : g.Joined a b items [] v) (hr : g.shapeOf r = g₀.shapeOf r)
    (ha : Level g (g₀.shapeOf r) r a) (hb : Level g (g₀.shapeOf r') r' b)
    (hworka : (g.shapeOf a).work = (g₀.shapeOf r).work)
    (hworkb : (g.shapeOf b).work = (g₀.shapeOf r').work)
    (hnew : items = a :: Simplify.branches g b → a = r → b = r' → ¬ (g.shapeOf a).IsAlt →
      g.AllNodes (fun k n => n.Rests g k) a → ¬ g.AllNodes (fun k n => n.Rests g k) b) :
    (g.shapeOf v).unsettled < (Shape.alt (g₀.shapeOf r) (g₀.shapeOf r')).unsettled := by
  by_cases hfirst : ¬ (g₀.shapeOf r).IsAlt ∧
      ∀ t ∈ (g₀.shapeOf r').leaves, (g₀.shapeOf r).height ≤ t.height
  · -- The first operand has been given back, and the second one can be put behind it as it is.
    obtain ⟨rfl, hrestsa⟩ := (ha.rests hworka).resolve_left fun hlt => by
      rw [Shape.unsettled_of_not_alt hfirst.1] at hlt
      exact Nat.not_lt_zero _ hlt
    rw [Shape.unsettled_alt hfirst.1 hfirst.2]
    have hnot : ¬ (g.shapeOf a).IsAlt := hr ▸ hfirst.1
    have hself := branches_of_not_isAlt h.left hnot
    have hleast : ∀ t ∈ (g.shapeOf b).leaves, (g.shapeOf a).height ≤ t.height := fun t ht => by
      rw [hr]
      refine hfirst.2 t ?_
      rwa [← Multiset.mem_coe, ← hb.leaves hworkb]
    have horder : g.InOrder (Simplify.branches g a ++ Simplify.branches g b) := by
      rw [hself, List.singleton_append]
      refine List.pairwise_cons.2 ⟨fun j hj => ?_, hb.lined.inOrder⟩
      obtain ⟨t, ht⟩ := List.exists_mem_of_length_pos (Shape.length_leaves_pos (g.shapeOf j))
      exact (hleast t (Simplify.mem_leaves_of_mem_branches h.right hj ht)).trans
        (Shape.height_le_of_mem_leaves ht)
    have hitems : items = a :: Simplify.branches g b := by
      rw [h.orders.stable rfl horder, hself, List.singleton_append]
    have hunsettled :=
      (h.unsettled_cons ha.lined hb.lined hitems (branches_ne_nil g b)).2
    rw [← hb.lined.nested] at hunsettled
    rw [hunsettled]
    exact (hb.rests hworkb).resolve_right fun hrestsb =>
      hnew hitems rfl hrestsb.1 hnot hrestsa hrestsb.2
  · rw [Shape.unsettled_alt_of_not hfirst]
    obtain ⟨k, rest, hitems⟩ := List.exists_cons_of_ne_nil h.ne_nil
    have hrest : rest ≠ [] := fun he => by
      have hlength := h.one_lt_length
      rw [hitems, he, List.length_singleton] at hlength
      exact Nat.lt_irrefl _ hlength
    obtain ⟨hshape, hunsettled⟩ := h.unsettled_cons ha.lined hb.lined hitems hrest
    have hleaves := congrArg Multiset.card h.leaves
    have hle := Shape.unsettled_le (Shape.nest (rest.map g.shapeOf))
    have hpos := Shape.length_leaves_pos (g.shapeOf k)
    rw [hshape, Shape.leaves] at hleaves
    simp only [Multiset.coe_card, List.length_append, ha.length, hb.length] at hleaves
    rw [hunsettled, Shape.leaves, List.length_append]
    omega

/-- Alternatives are simplified to what the simplified operands are joined to. -/
theorem of_joined (h : g.Joined a b items dropped v)
    (hs : 1 < items.length → ∃ n, g.slot? v = some (.node n))
    (hy : g₀.shapeOf y = .alt (g₀.shapeOf r) (g₀.shapeOf r')) (hr : g.shapeOf r = g₀.shapeOf r)
    (ha : Lightens g₀ g r a) (hb : Lightens g₀ g r' b)
    (hnew : items = a :: Simplify.branches g b → a = r → b = r' → ¬ (g.shapeOf a).IsAlt →
      g.AllNodes (fun k n => n.Rests g k) a → ¬ g.AllNodes (fun k n => n.Rests g k) b) :
    Lightens g₀ g y v := by
  have hsizea := ha.size
  have hsizeb := hb.size
  have hsizey : (g₀.shapeOf y).size = (g₀.shapeOf r).size + (g₀.shapeOf r').size + 1 := by
    rw [hy, Shape.size]
  rcases h.size with hlt | ⟨hsize, rfl⟩
  · exact .of_smaller (by omega)
  refine ⟨by omega, fun he => ?_⟩
  have hla := ha.level (by omega)
  have hlb := hb.level (by omega)
  have hworka := hla.work
  have hworkb := hlb.work
  have hworky : (g₀.shapeOf y).work = (g₀.shapeOf r).work + (g₀.shapeOf r').work := by
    rw [hy, Shape.work]
  have hwork := h.work
  refine ⟨h.lined hla.lined hlb.lined (hs h.one_lt_length), ?_, by omega, fun hsame => ?_,
    fun hsame => .inl ?_⟩
  · have hleaves := congrArg Multiset.card h.leaves
    rw [Multiset.coe_card, Multiset.coe_card, List.length_append, hla.length, hlb.length] at hleaves
    rw [hleaves, hy, Shape.leaves, List.length_append]
  · rw [h.leaves, ← Multiset.coe_add, hla.leaves (by omega), hlb.leaves (by omega), hy, Shape.leaves,
      Multiset.coe_add]
  · rw [hy]
    exact unsettled_lt h hr hla hlb (by omega) (by omega) hnew

end Lightens

end Lightens

end DerivativeParsing
