import DerivativeParsing.Proofs.NormalForms

/-!
# Alternatives that are put together again

Joined operands are spread: none of them matches nothing, no two are bisimilar, and they come in the
order of their heights (`Simplify.spread_of_joined`).  If the branches of two operands are spread
already, nothing is left to do: they are joined as they are (`Simplify.joined_of_spread`).

A node *rests* if its rule gives it back as long as its operands are given back (`Node.Rests`).  The
nodes of an alternative that rests are those that its branches are put together with, so that the
alternative is given back itself (`Simplify.alternatives_of_rests`).  Neat nodes rest.
-/

set_option autoImplicit false

namespace DerivativeParsing

open Fixpoint DerivativeParsing.Graph

namespace Simplify

variable {g : Graph} {a b e h k left right : Handle} {items kept bs : List Handle}

/-! ## Branches without duplicates -/

theorem isNil_of_distinct (hkept : ∀ k ∈ kept, g.isNil k = some false)
    (h : distinct g kept bs = some items) : ∀ k ∈ items, g.isNil k = some false := by
  induction bs generalizing kept with
  | nil =>
      cases h
      simpa using hkept
  | cons b bs ih =>
      rcases distinct_cons h with ⟨-, h⟩ | ⟨⟨hb, -⟩, h⟩
      · exact ih hkept h
      · exact ih (List.forall_mem_cons.2 ⟨hb, hkept⟩) h

theorem pairwise_of_distinct (hkept : kept.reverse.Pairwise fun a b => g.similar a b = some false)
    (h : distinct g kept bs = some items) :
    items.Pairwise fun a b => g.similar a b = some false := by
  induction bs generalizing kept with
  | nil =>
      cases h
      exact hkept
  | cons b bs ih =>
      rcases distinct_cons h with ⟨-, h⟩ | ⟨⟨-, hnew⟩, h⟩
      · exact ih hkept h
      · refine ih ?_ h
        rw [List.reverse_cons, List.pairwise_append]
        refine ⟨hkept, List.pairwise_singleton _ _, fun k hk b' hb' => ?_⟩
        rw [List.mem_singleton.1 hb']
        exact hnew k (List.mem_reverse.1 hk)

/-- What is kept of the branches stays in their order. -/
theorem sublist_of_distinct (h : distinct g kept bs = some items) :
    items.Sublist (kept.reverse ++ bs) := by
  induction bs generalizing kept with
  | nil =>
      cases h
      simp
  | cons b bs ih =>
      rcases distinct_cons h with ⟨-, h⟩ | ⟨-, h⟩
      · exact (ih h).trans ((List.sublist_cons_self b bs).append_left kept.reverse)
      · have hsub := ih h
        rwa [List.reverse_cons, List.append_assoc, List.singleton_append] at hsub

/-- Where there is nothing to drop, nothing is dropped. -/
theorem distinct_eq_append (hnil : ∀ b ∈ bs, g.isNil b = some false)
    (hnew : (kept.reverse ++ bs).Pairwise fun a b => g.similar a b = some false) :
    distinct g kept bs = some (kept.reverse ++ bs) := by
  induction bs generalizing kept with
  | nil => rw [distinct, List.append_nil]
  | cons b bs ih =>
      have hsplit : kept.reverse ++ b :: bs = (b :: kept).reverse ++ bs := by simp
      have hb : isKept g b kept.reverse = some false :=
        isKept_eq_false.2 fun k hk => (List.pairwise_append.1 hnew).2.2 k hk b (by simp)
      rw [distinct, hnil b (by simp), hb]
      rw [hsplit] at hnew ⊢
      exact ih (fun b hb => hnil b (by simp [hb])) hnew

/-- Branches are found to be different exactly if they are not bisimilar. -/
theorem similar_eq_false (hg : g.WellFormed) (ha : g.Ready a) (hb : g.Ready b) :
    g.similar a b = some false ↔ ¬ g.Bisimilar a b := by
  obtain ⟨v, hv, hiff⟩ := similar_eq_some hg ha hb
  rw [hv, ← hiff]
  simp

theorem exists_isKept (hg : g.WellFormed) (hb : g.Ready b) (hkept : ∀ k ∈ kept, g.Ready k) :
    ∃ found, isKept g b kept = some found := by
  induction kept with
  | nil => exact ⟨false, rfl⟩
  | cons k kept ih =>
      obtain ⟨same, hsame, -⟩ := similar_eq_some hg (hkept k (by simp)) hb
      rw [isKept, hsame]
      cases same with
      | true => exact ⟨true, rfl⟩
      | false => exact ih fun k hk => hkept k (by simp [hk])

/-- It can be found out which branches match something and are no duplicates. -/
theorem exists_distinct (hg : g.WellFormed) (hkept : ∀ k ∈ kept, g.Ready k)
    (hbs : ∀ b ∈ bs, g.Ready b) : ∃ items, distinct g kept bs = some items := by
  induction bs generalizing kept with
  | nil => exact ⟨kept.reverse, rfl⟩
  | cons b bs ih =>
      have hb := hbs b (by simp)
      have hrest : ∀ b ∈ bs, g.Ready b := fun b hb => hbs b (by simp [hb])
      obtain ⟨n, hn⟩ := hb.exists_nodeAt
      rw [distinct]
      by_cases hnil : n = .nil
      · rw [isNil_of_nodeAt (hnil ▸ hn)]
        exact ih hkept hrest
      · rw [isNil_eq_false hn hnil]
        obtain ⟨found, hfound⟩ := exists_isKept hg hb fun k hk => hkept k (List.mem_reverse.1 hk)
        simp only [hfound, Option.bind_eq_bind, Option.bind_some, Bool.false_eq_true, if_false]
        cases found with
        | true => exact ih hkept hrest
        | false => exact ih (List.forall_mem_cons.2 ⟨hb, hkept⟩) hrest

/-! ## Branches in order -/

/-- Branches are paired with their heights. -/
theorem withHeights_of_height {f : Handle → Nat} (h : ∀ k ∈ bs, g.height k = some (f k)) :
    withHeights g bs = some (bs.map fun k => (f k, k)) := by
  unfold withHeights
  induction bs with
  | nil => rfl
  | cons b bs ih =>
      rw [List.mapM_cons, h b (by simp), ih fun k hk => h k (by simp [hk])]
      rfl

/-- Fewer than two items are in every order. -/
theorem mergeSort_of_length_lt_two {α : Type} {le : α → α → Bool} {l : List α} (h : l.length < 2) :
    l.mergeSort le = l := by
  match l with
  | [] => exact List.mergeSort_nil
  | [_] => exact List.mergeSort_singleton _

/-- Branches from which no cycle can be reached are ranked by how tall they are. -/
theorem exists_ranked (hg : g.WellFormed) (hbs : ∀ k ∈ bs, g.Ready k ∧ g.Tame k) :
    ∃ ranked : List (Nat × Handle), ranked.map (·.2) = bs ∧
      (∀ pair ∈ ranked, (pair.1 : ℕ∞) = g.tallness pair.2) ∧
      byHeight g bs = some ((ranked.mergeSort fun a b => a.1 ≤ b.1).map (·.2)) := by
  have hheight : ∀ k ∈ bs, ∃ n, g.height k = some n ∧ (n : ℕ∞) = g.tallness k :=
    fun k hk => (hbs k hk).2.height_eq hg (hbs k hk).1
  choose! f hf htall using hheight
  refine ⟨bs.map fun k => (f k, k), by simp [Function.comp_def], fun pair hpair => ?_, ?_⟩
  · obtain ⟨k, hk, rfl⟩ := List.mem_map.1 hpair
    exact htall k hk
  · unfold byHeight
    split
    · next hfew =>
        rw [mergeSort_of_length_lt_two (by simpa using hfew)]
        simp [Function.comp_def]
    · simp only [withHeights_of_height hf, Option.bind_eq_bind, Option.bind_some, Option.pure_def]

/-- Branches that are in the order of their heights stay as they are. -/
theorem byHeight_of_sorted (hg : g.WellFormed) (hbs : ∀ k ∈ bs, g.Ready k ∧ g.Tame k)
    (h : bs.Pairwise fun a b => g.tallness a ≤ g.tallness b) : byHeight g bs = some bs := by
  obtain ⟨ranked, rfl, htall, hsort⟩ := exists_ranked hg hbs
  -- The heights that were computed are those that the order speaks of.
  have hsorted : ranked.mergeSort (fun a b => a.1 ≤ b.1) = ranked := by
    refine List.mergeSort_of_pairwise ?_
    refine (List.pairwise_map.1 h).imp_of_mem fun {a b} ha hb hab => ?_
    rw [← htall a ha, ← htall b hb] at hab
    exact decide_eq_true (by exact_mod_cast hab)
  rwa [hsorted] at hsort

/-! ## Operands that are joined -/

/-- Operands can be joined if all chains that can be reached from their branches end at nodes. -/
theorem exists_joined (hg : g.WellFormed) (hbs : ∀ k ∈ branches g a ++ branches g b, g.Ready k) :
    ∃ items, joined g a b = some items := by
  have hnone : ∀ k ∈ ([] : List Handle), g.Ready k := by simp
  obtain ⟨kept, hkept⟩ := exists_distinct hg hnone hbs
  have hheight : ∀ k ∈ kept, ∃ n, g.height k = some n := fun k hk =>
    (hbs k ((mem_of_distinct hkept hk).resolve_left (by simp))).exists_height hg
  choose! f hf using hheight
  rw [joined, hkept, Option.bind_eq_bind, Option.bind_some, byHeight, withHeights_of_height hf]
  split
  · exact ⟨kept, rfl⟩
  · exact ⟨_, rfl⟩

/-- What operands are joined from is spread. -/
theorem spread_of_joined (hg : g.WellFormed) (hready : ∀ k ∈ items, g.Ready k ∧ g.Tame k)
    (h : joined g a b = some items) : g.Spread items := by
  unfold joined at h
  obtain ⟨kept, hkept, hitems⟩ := Option.bind_eq_some_iff.1 h
  have hmem (k : Handle) : k ∈ items ↔ k ∈ kept := mem_byHeight hitems
  obtain ⟨ranked, rfl, htall, hsort⟩ := exists_ranked hg fun k hk => hready k ((hmem k).2 hk)
  obtain rfl : _ = items := Option.some.inj (hsort.symm.trans hitems)
  have hperm := (List.mergeSort_perm ranked fun a b => a.1 ≤ b.1).map (·.2)
  refine ⟨fun k hk hnil => ?_, ?_, ?_⟩
  -- Sorting leaves the same branches, and to be different does not depend on their order.
  · have hfalse := isNil_of_distinct (by simp) hkept k ((hmem k).1 hk)
    rw [isNil_of_nodeAt hnil] at hfalse
    cases hfalse
  · refine (hperm.pairwise_iff fun hab hba => hab hba.symm).2 ?_
    refine (pairwise_of_distinct (by simp) hkept).imp_of_mem fun {a b} ha hb hab => ?_
    exact (similar_eq_false hg (hready a ((hmem a).2 ha)).1 (hready b ((hmem b).2 hb)).1).1 hab
  · rw [List.pairwise_map]
    have hsorted : (ranked.mergeSort fun a b => a.1 ≤ b.1).Pairwise
        fun a b => decide (a.1 ≤ b.1) = true :=
      List.pairwise_mergeSort (fun _ _ _ => by simpa using Nat.le_trans)
        (fun a b => by simpa using Nat.le_total a.1 b.1) ranked
    refine hsorted.imp_of_mem fun {a b} ha hb hab => ?_
    rw [← htall a (List.mem_mergeSort.1 ha), ← htall b (List.mem_mergeSort.1 hb)]
    exact_mod_cast of_decide_eq_true hab

/-- What is spread is joined as it is. -/
theorem joined_of_spread (hg : g.WellFormed)
    (hready : ∀ k ∈ branches g a ++ branches g b, g.Ready k ∧ g.Tame k)
    (h : g.Spread (branches g a ++ branches g b)) :
    joined g a b = some (branches g a ++ branches g b) := by
  generalize hbs : branches g a ++ branches g b = bs at *
  have hnil : ∀ k ∈ bs, g.isNil k = some false := fun k hk => by
    obtain ⟨n, hn⟩ := (hready k hk).1.exists_nodeAt
    exact isNil_eq_false hn fun he => h.something k hk (he ▸ hn)
  have hdistinct : distinct g [] bs = some bs := by
    refine distinct_eq_append hnil ?_
    refine h.different.imp_of_mem fun {a b} ha hb hab => ?_
    exact (similar_eq_false hg (hready a ha).1 (hready b hb).1).2 hab
  rw [joined, hbs, hdistinct]
  exact byHeight_of_sorted hg hready h.sorted

end Simplify

/-! ## Nodes that rest -/

section Resting

variable {g g' : Graph} {D : Set Handle} {n : Node} {h : Handle}

/-- The rule of a node gives the node back if the operands are given back.  The second operand of an
alternative may be a reference to another one, which is opened when it is joined. -/
def Node.Rests (g : Graph) (self : Handle) : Node → Prop
  | .alt left right =>
    (left.index < self.index ∧ right.index < self.index) ∧
      (∀ x y, g.nodeAt left ≠ some (.alt x y)) ∧
        g.Spread (left :: Simplify.branches g (g.endOf right))
  | n => n.Polished g

theorem Node.rests_iff (hn : ¬ Simplify.IsAlternative n) : n.Rests g h ↔ n.Polished g := by
  cases n with
  | alt left right => exact absurd ⟨left, right, rfl⟩ hn
  | _ => rfl

theorem Graph.endOf_congr (hD : g.Closed D) (hslot : ∀ h ∈ D, g'.slot? h = g.slot? h) (hh : h ∈ D) :
    g'.endOf h = g.endOf h := by
  rw [endOf, endOf, resolve_congr hD hslot hh]

theorem Graph.Closed.endOf_mem (hD : g.Closed D) (hh : h ∈ D) : g.endOf h ∈ D := by
  rcases g.leads_endOf_or h with hl | he
  · exact hD.of_reaches hh hl.reaches
  · rwa [he]

/-- A handle that stands for no alternative has one branch. -/
theorem Graph.branches_of_nodeAt (h' : ∀ x y, g.nodeAt h ≠ some (.alt x y)) :
    Simplify.branches g h = [h] :=
  branches_of_not_alt fun x y hs => h' x y (nodeAt_of_slot hs)

theorem Node.Rests.congr (hn : n.Rests g h) (hD : g.Closed D)
    (hslot : ∀ h ∈ D, g'.slot? h = g.slot? h) (hc : ∀ c ∈ n.children, c ∈ D) : n.Rests g' h := by
  by_cases halt : Simplify.IsAlternative n
  · obtain ⟨left, right, rfl⟩ := halt
    have hleft : left ∈ D := hc left (by simp [Node.children])
    have hright : g.endOf right ∈ D := hD.endOf_mem (hc right (by simp [Node.children]))
    obtain ⟨hlt, hself, hspread⟩ := hn
    refine ⟨hlt, fun x y => ?_, ?_⟩
    · rw [nodeAt_congr hD hslot hleft]
      exact hself x y
    · rw [endOf_congr hD hslot (hc right (by simp [Node.children])), branches_congr hD hslot hright]
      exact hspread.congr hD hslot
        (List.forall_mem_cons.2 ⟨hleft, Simplify.closed_branches hD hright⟩)
  · exact (Node.rests_iff halt).2 (((Node.rests_iff halt).1 hn).congr hD hslot hc)

/-- The nodes of a neat expression rest. -/
theorem Graph.AllNodes.rests (hh : g.AllNodes (fun k n => n.Neat g k) h) :
    g.AllNodes (fun k n => n.Rests g k) h := by
  intro k n hk hs
  have hn := hh k n hk hs
  by_cases halt : Simplify.IsAlternative n
  swap
  · exact (Node.rests_iff halt).2 hn.polished
  obtain ⟨left, right, rfl⟩ := halt
  obtain ⟨⟨hlt, hleft, hright⟩, hself, hspread⟩ := hn
  refine ⟨hlt, fun x y hat => ?_, ?_⟩
  · -- An alternative would be stored there, and have more than one branch.
    obtain ⟨r, hl, hr⟩ := nodeAt_eq_some.1 hat
    obtain rfl := hl.unique (hleft x y hat)
    have hs' : g.slot? r = some (.node (.alt x y)) := slot?_of_node_eq hr (by simp)
    have hreach : g.Reaches h r := hk.tail (by simp [references_of_node hs, Node.children])
    obtain ⟨hx, hy⟩ := (hh r _ hreach hs').opens.1
    have hlength := congrArg List.length hself
    rw [branches_of_alt hs' hx hy, List.length_append, List.length_singleton] at hlength
    have hxlength := List.length_pos_of_ne_nil (branches_ne_nil g x)
    have hylength := List.length_pos_of_ne_nil (branches_ne_nil g y)
    omega
  · rw [hself, List.singleton_append] at hspread
    rw [← spread_map_endOf, List.map_cons, ← hright.map_branches, ← List.map_cons, spread_map_endOf]
    exact hspread

end Resting

namespace Simplify

variable {g : Graph} {a b e left right : Handle} {items : List Handle}

/-! ## Alternatives that are there already -/

/-- What an operand stands for counts as unchanged. -/
theorem unchanged_of_leads (h : a = b ∨ g.Leads b a) : unchanged g a b = some true := by
  rw [unchanged]
  split
  · rfl
  · next hne =>
      rw [resolve_eq_some.2 (h.resolve_left hne)]
      simp

/-- An alternative is given back if it has the operands that it would be made with. -/
theorem rebuild_of_unchanged {first tail r : Handle} (hs : g.slot? e = some (.node (.alt left right)))
    (hne : items ≠ []) (hr : g.Leads right r) (htail : rebuild items (some r) g = .done tail g)
    (hfirst : first = left ∨ g.Leads left first) (hlast : tail = right ∨ g.Leads right tail) :
    rebuild (first :: items) (some e) g = .done e g := by
  have hshape : alternative? g e = some (left, right) := by
    rw [alternative?, stored?_eq_some.2 hs]
  obtain ⟨second, rest, rfl⟩ := List.exists_cons_of_ne_nil hne
  rw [rebuild]
  swap
  · simp
  rw [look_bind (x := some (e, left, right)) (by simp [hshape])]
  dsimp only
  rw [look_bind (resolve_eq_some.2 hr), Rule.bind_apply, htail]
  have hsame : bothUnchanged g first left tail right = some true :=
    bothUnchanged_eq_true.2 ⟨unchanged_of_leads hfirst, unchanged_of_leads hlast⟩
  exact look_bind (f := (bothUnchanged · first left tail right)) hsame

/-- An alternative that rests is put together with its own nodes. -/
theorem rebuild_branches (hready : g.Ready e) (hrests : g.AllNodes (fun k n => n.Rests g k) e) :
    rebuild (branches g e) (some e) g = .done e g := by
  induction e using branches.induct g with
  | case1 e left right hs hlt ihleft ihright =>
      have hslot := stored?_eq_some.1 hs
      obtain ⟨-, hself, -⟩ := hrests e _ .refl hslot
      have hright : right ∈ (Node.alt left right).children := by simp [Node.children]
      have hreach : g.Reaches e right := .single (by rwa [references_of_node hslot])
      obtain ⟨r, n, hl, -⟩ := hready right hreach
      rw [branches_of_alt hslot hlt.1 hlt.2, branches_of_nodeAt hself]
      refine rebuild_of_unchanged hslot (branches_ne_nil g right) hl ?_ (.inl rfl) (.inl rfl)
      by_cases hend : g.Leads right right
      · rw [hl.unique hend]
        exact ihright (hready.reaches hreach) (hrests.operand hslot hright)
      · -- The operand is a reference, and is put in as it is.
        have hself : branches g right = [right] :=
          branches_of_not_alt fun _ _ hs => hend (.of_node hs)
        rw [hself]
        rfl
  | case2 e left right hs hlt => exact absurd (hrests e _ .refl (stored?_eq_some.1 hs)).1 hlt
  | case3 e hnot =>
      rw [branches_of_not_alt fun l r hs => hnot l r (stored?_eq_some.2 hs)]
      rfl

/-- An alternative that rests is joined to itself. -/
theorem alternatives_of_rests (hg : g.WellFormed) (hs : g.slot? e = some (.node (.alt left right)))
    (hready : g.Ready e) (htame : g.Tame e) (hrests : g.AllNodes (fun k n => n.Rests g k) e)
    (ha : g.Leads left a) (hb : g.Leads right b) : alternatives e a b g = .done e g := by
  obtain ⟨-, hself, hspread⟩ := hrests e _ .refl hs
  have hstep {c : Handle} (hc : c ∈ [left, right]) : g.Reaches e c :=
    .single (by rwa [references_of_node hs])
  have hfirst : branches g a = [a] := branches_of_nodeAt fun x y hn =>
    hself x y ((nodeAt_leads ha).trans hn)
  -- The answers are what the operands lead to.
  have hends : (branches g a ++ branches g b).map g.endOf =
      (left :: branches g (g.endOf right)).map g.endOf := by
    rw [hfirst, hb.endOf, List.singleton_append, List.map_cons, List.map_cons, endOf_leads ha]
  have hreaches : ∀ k ∈ branches g a ++ branches g b, g.Reaches e k := by
    intro k hk
    rcases List.mem_append.1 hk with hk | hk
    · exact closed_branches (closed_reaches g e) ((hstep (by simp)).trans ha.reaches) k hk
    · exact closed_branches (closed_reaches g e) ((hstep (by simp)).trans hb.reaches) k hk
  have hjoined := joined_of_spread hg
    (fun k hk => ⟨hready.reaches (hreaches k hk), htame.reaches (hreaches k hk)⟩)
    (spread_map_endOf.1 (hends ▸ spread_map_endOf.2 hspread))
  rw [alternatives, look_bind hjoined, hfirst]
  have hrest : g.Reaches e b := (hstep (by simp)).trans hb.reaches
  exact rebuild_of_unchanged hs (branches_ne_nil g b) hb
    (rebuild_branches (hready.reaches hrest) (hrests.reaches hrest)) (.inr ha) (.inr hb)

end Simplify

end DerivativeParsing
