import Mathlib.Data.Set.Card
import DerivativeParsing.Proofs.EmptyTrees
import DerivativeParsing.Proofs.Limits

/-!
# The forests of the empty word are least solutions

What an expression gives to the empty word is described by one equation for each node
(`Node.forest`), and the forests of a graph are the least solution of these equations
(`Graph.leastForest`).  Nothing is asked of the graph: expressions may contain themselves, also
below complements, where the equation takes the answer that a query for nullability gives.

An evaluation that comes to a result has found the least solution
(`Graph.mem_iff_of_emptyParses`).  It comes to a result if the forests of all handles that can be
reached are finite: a pass that has to be repeated has added a tree to one of them
(`Graph.Ready.emptyParses_answers`).
-/

set_option autoImplicit false

namespace DerivativeParsing

open Fixpoint DerivativeParsing.Graph

/-! ## The equations -/

open Classical in
/-- The trees that a node gives to the empty word, given those of its operands, which of them are
`ε` itself, and which of them count as nullable.  `ε` itself is the unit of sequences. -/
noncomputable def Node.forest (blank nullable : Handle → Prop) (V : Handle → Set Tree) :
    Node → Set Tree
  | .nil | .any | .char _ | .range _ _ | .token _ => ∅
  | .empty | .star _ => {.unit}
  | .emptyReduction f => {t | t ∈ f}
  | .alt left right => V left ∪ V right
  | .seq first second =>
    if blank first then V second else if blank second then V first
    else Set.image2 .pair (V first) (V second)
  | .rep _ (.exactly 0) | .rep _ .unbounded => {.unit}
  | .rep operand (.exactly 1) => V operand
  | .rep operand (.exactly n) =>
    {t | ∃ items : List Tree, items.length = n ∧ (∀ s ∈ items, s ∈ V operand) ∧ .list items = t}
  | .not operand => {t | t = .unit ∧ ¬ nullable operand}
  | .nullability operand => V operand
  | .reduction operand reducer => reducer.apply '' V operand

theorem Node.forest_mono (blank nullable : Handle → Prop) (n : Node) (V W : Handle → Set Tree)
    (hVW : ∀ c ∈ n.children, V c ⊆ W c) : n.forest blank nullable V ⊆ n.forest blank nullable W := by
  cases n with
  | alt left right =>
      exact Set.union_subset_union (hVW left (by simp [children])) (hVW right (by simp [children]))
  | seq first second =>
      have hfirst := hVW first (by simp [children])
      have hsecond := hVW second (by simp [children])
      by_cases hb : blank first
      · simpa only [forest, if_pos hb] using hsecond
      · by_cases hb' : blank second
        · simpa only [forest, if_neg hb, if_pos hb'] using hfirst
        · simpa only [forest, if_neg hb, if_neg hb'] using Set.image2_subset hfirst hsecond
  | rep operand count =>
      rcases count with (_ | _ | k) | _
      · exact Set.Subset.rfl
      · exact hVW operand (by simp [children])
      · rintro t ⟨items, hlength, hitems, rfl⟩
        exact ⟨items, hlength, fun s hs => hVW operand (by simp [children]) (hitems s hs), rfl⟩
      · exact Set.Subset.rfl
  | nullability operand => exact hVW operand (by simp [children])
  | reduction operand reducer => exact Set.image_mono (hVW operand (by simp [children]))
  | _ => exact Set.Subset.rfl

/-- The forests of nodes. -/
noncomputable def forestMeaning (blank nullable : Handle → Prop) : Meaning (Set Tree) where
  node n V := n.forest blank nullable V
  mono := Node.forest_mono blank nullable

namespace Graph

variable {g : Graph} {fuel fuel' : Nat} {h c : Handle} {b b' : Bool}

/-- A query finds that an expression is nullable. -/
def FoundNullable (g : Graph) (h : Handle) : Prop := ∃ fuel, g.nullable fuel h = some true

/-- The least solution of the equations of a graph for the trees of the empty word. -/
noncomputable def leastForest (g : Graph) : Handle → Set Tree :=
  (forestMeaning (fun c => g.isEmpty c = some true) g.FoundNullable).value g

/-- A query that has a result has it with more passes as well. -/
theorem nullable_mono (hb : g.nullable fuel h = some b) (hle : fuel ≤ fuel') :
    g.nullable fuel' h = some b := Table.evaluate_mono hb hle (fun _ => .refl _) rfl

theorem nullable_unique (hb : g.nullable fuel h = some b) (hb' : g.nullable fuel' h = some b') :
    b = b' := by
  have h₁ := nullable_mono hb (le_max_left fuel fuel')
  rw [nullable_mono hb' (le_max_right fuel fuel')] at h₁
  exact (Option.some.inj h₁).symm

/-- The result of a query says whether the expression is found to be nullable. -/
theorem foundNullable_iff (hb : g.nullable fuel h = some b) : g.FoundNullable h ↔ b = true := by
  constructor
  · rintro ⟨fuel', ht⟩
    exact nullable_unique hb ht
  · rintro rfl
    exact ⟨fuel, hb⟩

end Graph

/-! ## What the rules compute -/

namespace EmptyParses

variable {g : Graph} {root h k r : Handle} {n : Node} {fuel : Nat} {F : Forest} {t : Tree}
  {answers : Handle → Forest → Prop} {V : Handle → Set Tree}

/-- The equation of a node of a graph. -/
noncomputable abbrev equation (g : Graph) (n : Node) (V : Handle → Set Tree) : Set Tree :=
  n.forest (fun c => g.isEmpty c = some true) g.FoundNullable V

theorem equation_seq_of_not_blank {first second : Handle} (hfirst : g.isEmpty first = some false)
    (hsecond : g.isEmpty second = some false) :
    equation g (.seq first second) V = Set.image2 .pair (V first) (V second) := by
  simp [equation, Node.forest, hfirst, hsecond]

theorem equation_seq_of_blank {first second : Handle} (hfirst : g.isEmpty first = some true) :
    equation g (.seq first second) V = V second := by
  simp [equation, Node.forest, hfirst]

theorem equation_seq_of_blank_second {first second : Handle} (hfirst : g.isEmpty first = some false)
    (hsecond : g.isEmpty second = some true) : equation g (.seq first second) V = V first := by
  simp [equation, Node.forest, hfirst, hsecond]

theorem Treeless.forest_eq (hn : Treeless n) : equation g n V = ∅ := by
  cases n with
  | nil => rfl
  | any => rfl
  | char c => rfl
  | range first last => rfl
  | token text => rfl
  | _ => exact hn.elim

theorem Unitary.forest_eq (hn : Unitary n) : equation g n V = {.unit} := by
  cases n with
  | empty => rfl
  | star operand => rfl
  | rep operand count =>
      rcases count with (_ | k) | _
      · rfl
      · exact hn.elim
      · rfl
  | _ => exact hn.elim

/-- From answers that are not too large, the rule of a node makes no tree that its equation does not
have. -/
theorem mem_equation_of_yields (h : (ofNode fuel g n ()).Yields answers F)
    (hV : ∀ c ∈ n.children, ∀ r v, g.Leads c r → answers r v → ∀ t ∈ v, t ∈ V c) (ht : t ∈ F) :
    t ∈ equation g n V := by
  cases made_of_yields h with
  | nothing _ => exact absurd ht (Forest.not_mem_empty t)
  | unit hn =>
      rw [hn.forest_eq]
      exact Forest.mem_singleton.1 ht
  | forest f => exact ht
  | @union left right l r v w hl hv hr hw =>
      exact (Forest.mem_union.1 ht).imp (hV left (by simp [Node.children]) l v hl hv t)
        (hV right (by simp [Node.children]) r w hr hw t)
  | @second first second r v he hl hv =>
      rw [equation_seq_of_blank he]
      exact hV second (by simp [Node.children]) r F hl hv t ht
  | @first first second r v hne he hl hv =>
      rw [equation_seq_of_blank_second hne he]
      exact hV first (by simp [Node.children]) r F hl hv t ht
  | @product first second l r v w hfirst hsecond hl hv hr hw =>
      rw [equation_seq_of_not_blank hfirst hsecond]
      obtain ⟨a, ha, b, hb, rfl⟩ := Forest.mem_product.1 ht
      exact ⟨a, hV first (by simp [Node.children]) l v hl hv a ha,
        b, hV second (by simp [Node.children]) r w hr hw b hb, rfl⟩
  | @once operand r v hl hv => exact hV operand (by simp [Node.children]) r F hl hv t ht
  | @lists operand r k v hl hv =>
      obtain ⟨items, hlength, hitems, rfl⟩ := Forest.mem_power.1 ht
      exact ⟨items, hlength,
        fun s hs => hV operand (by simp [Node.children]) r v hl hv s (hitems s hs), rfl⟩
  | matched _ => exact absurd ht (Forest.not_mem_empty t)
  | unmatched hb =>
      refine ⟨Forest.mem_singleton.1 ht, fun hfound => ?_⟩
      exact absurd ((foundNullable_iff hb).1 hfound) Bool.false_ne_true
  | @copy operand r v hl hv => exact hV operand (by simp [Node.children]) r F hl hv t ht
  | @image operand r f v hl hv =>
      obtain ⟨s, hs, rfl⟩ := Forest.mem_map.1 ht
      exact ⟨s, hV operand (by simp [Node.children]) r v hl hv s hs, rfl⟩

/-- From answers that are not too small, the rule of a node makes every tree that its equation has.
-/
theorem mem_of_mem_equation (h : (ofNode fuel g n ()).Yields answers F)
    (hV : ∀ c ∈ n.children, ∀ r v, g.Leads c r → answers r v → ∀ t ∈ V c, t ∈ v)
    (ht : t ∈ equation g n V) : t ∈ F := by
  cases made_of_yields h with
  | nothing hn => exact (hn.forest_eq.subset ht).elim
  | unit hn => exact Forest.mem_singleton.2 (hn.forest_eq.subset ht)
  | forest f => exact ht
  | @union left right l r v w hl hv hr hw =>
      exact Forest.mem_union.2 (ht.imp (hV left (by simp [Node.children]) l v hl hv t)
        (hV right (by simp [Node.children]) r w hr hw t))
  | @second first second r v he hl hv =>
      rw [equation_seq_of_blank he] at ht
      exact hV second (by simp [Node.children]) r F hl hv t ht
  | @first first second r v hne he hl hv =>
      rw [equation_seq_of_blank_second hne he] at ht
      exact hV first (by simp [Node.children]) r F hl hv t ht
  | @product first second l r v w hfirst hsecond hl hv hr hw =>
      rw [equation_seq_of_not_blank hfirst hsecond] at ht
      obtain ⟨a, ha, b, hb, rfl⟩ := ht
      exact Forest.mem_product.2 ⟨a, hV first (by simp [Node.children]) l v hl hv a ha,
        b, hV second (by simp [Node.children]) r w hr hw b hb, rfl⟩
  | @once operand r v hl hv => exact hV operand (by simp [Node.children]) r F hl hv t ht
  | @lists operand r k v hl hv =>
      obtain ⟨items, hlength, hitems, rfl⟩ := ht
      exact Forest.mem_power.2 ⟨items, hlength,
        fun s hs => hV operand (by simp [Node.children]) r v hl hv s (hitems s hs), rfl⟩
  | matched hb => exact absurd ((foundNullable_iff hb).2 rfl) ht.2
  | unmatched _ => exact Forest.mem_singleton.2 ht.1
  | @copy operand r v hl hv => exact hV operand (by simp [Node.children]) r F hl hv t ht
  | @image operand r f v hl hv =>
      obtain ⟨s, hs, rfl⟩ := ht
      exact Forest.mem_map.2 ⟨s, hV operand (by simp [Node.children]) r v hl hv s hs, rfl⟩

/-- The operands whose trees those of a node are made of. -/
def consulted (g : Graph) : Node → List Handle
  | .alt left right => [left, right]
  | .seq first second =>
    if g.isEmpty first = some true then [second]
    else if g.isEmpty second = some true then [first]
    else [first, second]
  | .rep operand (.exactly (_ + 1)) | .nullability operand | .reduction operand _ => [operand]
  | _ => []

theorem consulted_subset {c : Handle} (hc : c ∈ consulted g n) : c ∈ n.children := by
  cases n with
  | seq first second =>
      simp only [consulted] at hc
      split at hc
      · simpa [Node.children] using .inr (List.mem_singleton.1 hc)
      · split at hc
        · simpa [Node.children] using .inl (List.mem_singleton.1 hc)
        · exact hc
  | rep operand count =>
      rcases count with (_ | k) | _
      · cases hc
      · exact hc
      · cases hc
  | alt left right => exact hc
  | nullability operand => exact hc
  | reduction operand f => exact hc
  | _ => cases hc

/-- The rule of a node asks for all of them. -/
theorem answered_of_yields (h : (ofNode fuel g n ()).Yields answers F) {c : Handle}
    (hc : c ∈ consulted g n) : ∃ r v, g.Leads c r ∧ answers r v := by
  cases made_of_yields h with
  | nothing hn => cases n <;> first | exact hn.elim | cases hc
  | unit hn =>
      cases n with
      | rep operand count =>
          rcases count with (_ | k) | _
          · cases hc
          · exact hn.elim
          · cases hc
      | _ => first | exact hn.elim | cases hc
  | forest f => cases hc
  | union hl hv hr hw =>
      rcases List.mem_pair.1 hc with rfl | rfl
      · exact ⟨_, _, hl, hv⟩
      · exact ⟨_, _, hr, hw⟩
  | second he hl hv =>
      simp only [consulted, if_pos he, List.mem_singleton] at hc
      exact ⟨_, _, hc ▸ hl, hv⟩
  | first hne he hl hv =>
      simp only [consulted, hne, he, Option.some.injEq, Bool.false_eq_true, if_false, if_true,
        List.mem_singleton] at hc
      exact ⟨_, _, hc ▸ hl, hv⟩
  | product hfirst hsecond hl hv hr hw =>
      simp only [consulted, hfirst, hsecond, Option.some.injEq, Bool.false_eq_true, if_false,
        List.mem_pair] at hc
      rcases hc with rfl | rfl
      · exact ⟨_, _, hl, hv⟩
      · exact ⟨_, _, hr, hw⟩
  | once hl hv => exact ⟨_, _, List.mem_singleton.1 hc ▸ hl, hv⟩
  | lists hl hv => exact ⟨_, _, List.mem_singleton.1 hc ▸ hl, hv⟩
  | matched _ => cases hc
  | unmatched _ => cases hc
  | copy hl hv => exact ⟨_, _, List.mem_singleton.1 hc ▸ hl, hv⟩
  | image hl hv => exact ⟨_, _, List.mem_singleton.1 hc ▸ hl, hv⟩

/-- The rule of a reduction is not stuck if its operand has no tree, whatever room the reducer would
need. -/
theorem ofNode_asksWithin_of_blank {K : Handle → Prop} {f : Handle → Forest} {operand r : Handle}
    {reducer : Reducer} (hl : g.Leads operand r) (hr : K r) (hblank : f r = .empty) :
    (ofNode fuel g (.reduction operand reducer) ()).AsksWithin K f := by
  show ((Reading.ask g operand >>= fun trees =>
    Rule.query fun _ => reducer.reduce? trees : Reading Forest Forest) ()).AsksWithin K f
  rw [Rule.bind_apply]
  unfold Reading.ask
  rw [Graph.resolve_eq_some.2 hl]
  refine ⟨hr, ?_⟩
  have hrest : (Rule.query (fun _ => reducer.reduce? (f r)) () :
      Plan Unit Handle Forest Forest).AsksOnly K :=
    Reading.asksOnly_query (hblank ▸ reducer.reduce?_empty)
  exact hrest.within f

/-- There has been room for the lists that a rule has made, unless a reducer had no tree to work
on. -/
theorem fits_of_yields (h : (ofNode fuel g n ()).Yields answers F) :
    n.Fits ∨ ∃ operand f, n = .reduction operand f ∧
      ∃ r, g.Leads operand r ∧ answers r .empty := by
  cases n with
  | rep operand count =>
      rcases count with (_ | _ | k) | _
      · exact .inl (Nat.zero_le _)
      · exact .inl (by decide : 1 ≤ Tree.maxRoom)
      · obtain ⟨-, v, -, -, h⟩ := Reading.yields_bind_ask.1 h
        exact .inl (Forest.power?_eq_some.1 (Reading.yields_query.1 h)).1
      · exact .inl trivial
  | reduction operand f =>
      obtain ⟨r, v, hl, hv, h⟩ := Reading.yields_bind_ask.1 h
      have hfits := (Reducer.reduce?_eq_some.1 (Reading.yields_query.1 h)).1
      by_cases htree : v.HasTree
      · exact .inl (hfits htree)
      · obtain rfl : v = .empty := not_not.1 fun hne => htree (Forest.hasTree_iff.2 hne)
        exact .inr ⟨operand, f, rfl, r, hl, hv⟩
  | _ => exact .inl trivial

/-- The rule of a node is never stuck if its operands lead to nodes, the query for the operand of a
complement has a result, and there can be room for its lists. -/
theorem ofNode_asksOnly {K : Handle → Prop} (hleads : ∀ c ∈ n.children, ∃ r, g.Leads c r)
    (hK : ∀ c r, c ∈ consulted g n → g.Leads c r → K r) (hfits : n.Fits)
    (hnot : ∀ c, n = .not c → ∃ b, g.nullable fuel c = some b) :
    (ofNode fuel g n ()).AsksOnly K := by
  have hpure (f : Forest) : ((pure f : Reading Forest Forest) ()).AsksOnly K := trivial
  have hblank {c : Handle} (hc : c ∈ n.children) : ∃ b, g.isEmpty c = some b := by
    obtain ⟨r, hl⟩ := hleads c hc
    simp [Graph.isEmpty, Graph.nodeAt, resolve_eq_some.2 hl]
  have hask {c : Handle} (hc : c ∈ consulted g n) :
      ((Reading.ask g c : Reading Forest Forest) ()).AsksOnly K := by
    obtain ⟨r, hl⟩ := hleads c (consulted_subset hc)
    exact Reading.asksOnly_ask hl (hK c r hc hl)
  have hbind {c : Handle} (hc : c ∈ consulted g n) {next : Forest → Reading Forest Forest}
      (hnext : ∀ v, (next v ()).AsksOnly K) : ((Reading.ask g c >>= next) ()).AsksOnly K := by
    obtain ⟨r, hl⟩ := hleads c (consulted_subset hc)
    exact Reading.asksOnly_bind_ask hl (hK c r hc hl) hnext
  cases n with
  | alt left right =>
      exact hbind (by simp [consulted]) fun _ => hbind (by simp [consulted]) fun _ => hpure _
  | seq first second =>
      obtain ⟨firstBlank, hfirst⟩ := hblank (c := first) (by simp [Node.children])
      obtain ⟨secondBlank, hsecond⟩ := hblank (c := second) (by simp [Node.children])
      refine Reading.asksOnly_bind_query hfirst ?_
      cases firstBlank with
      | true => exact hask (by simp [consulted, hfirst])
      | false =>
          refine Reading.asksOnly_bind_query hsecond ?_
          cases secondBlank with
          | true => exact hask (by simp [consulted, hfirst, hsecond])
          | false =>
              exact hbind (by simp [consulted, hfirst, hsecond]) fun _ =>
                hbind (by simp [consulted, hfirst, hsecond]) fun _ => hpure _
  | rep operand count =>
      rcases count with (_ | _ | k) | _
      · exact hpure _
      · exact hask (by simp [consulted])
      · exact hbind (by simp [consulted]) fun v =>
          Reading.asksOnly_query (Forest.power?_eq_some.2 ⟨hfits, rfl⟩)
      · exact hpure _
  | not operand =>
      obtain ⟨b, hb⟩ := hnot operand rfl
      refine Reading.asksOnly_bind_query hb ?_
      cases b <;> exact hpure _
  | nullability operand => exact hask (by simp [consulted])
  | reduction operand reducer =>
      exact hbind (by simp [consulted]) fun v =>
        Reading.asksOnly_query (Reducer.reduce?_eq_some.2 ⟨fun _ => hfits, rfl⟩)
  | _ => exact hpure _

/-! ## The evaluation -/

/-- While the trees are evaluated, there are none but those of the least solution. -/
theorem keeps_least (fuel : Nat) (g : Graph) :
    Keeps ((table fuel).rules g) (fun k v => ∀ t ∈ v, t ∈ g.leastForest k) (fun _ _ => True) where
  bottom k t ht := absurd ht (Forest.not_mem_empty t)
  rule k v _ hyields t ht := by
    have hyields : (ofNode fuel g (g.node k) ()).Yields _ v := hyields
    by_cases hnil : g.node k = .nil
    · rw [hnil] at hyields
      exact absurd (eq_of_yields_pure hyields ▸ ht) (Forest.not_mem_empty t)
    rw [leastForest, Meaning.value_node _ (slot?_of_node_eq rfl hnil)]
    refine mem_equation_of_yields hyields (fun c _ r w hl hw s hs => ?_) ht
    rw [Meaning.value_leads _ hl]
    exact hw s hs

/-- No tree is missing once all values are what the rules make of each other. -/
theorem least_of_traced {m : Memory Handle Forest} {v : Forest}
    (htraced : ∀ k v, m.Finished k v → (((table fuel).rules g).rule k ()).Yields m.Finished v)
    (hv : m.Finished h v) (hl : g.Leads h h) (ht : t ∈ g.leastForest h) : t ∈ v := by
  let A : Handle → Set Tree := fun h => {t | ∀ r v, g.Leads h r → m.Finished r v → t ∈ v}
  -- The values that have been found satisfy the equations, so the least solution is below them.
  suffices hle : ∀ k ∈ (Set.univ : Set Handle), g.leastForest k ≤ A k from
    hle h trivial ht h v hl hv
  refine Meaning.value_le _ (fun _ _ _ _ => trivial) fun k _ t ht r v hl hv => ?_
  cases hl with
  | step hforward hrest =>
      rw [hforward] at ht
      exact ht r v hrest hv
  | here hend =>
      rw [Meaning.slot_of_end _ rfl hend] at ht
      have hyields : (ofNode fuel g (g.node k) ()).Yields m.Finished v := htraced k v hv
      exact mem_of_mem_equation (V := A) hyields (fun c _ r w hl hw s hs => hs r w hl hw) ht

/-- Forests are ordered by inclusion. -/
theorem ordered : Ordered (fun F F' : Forest => ∀ t ∈ F, t ∈ F') .empty where
  refl _ _ := id
  trans _ _ _ h h' t ht := h' t (h t ht)
  antisymm _ _ h h' := Forest.ext_mem fun t => ⟨h t, h' t⟩
  least _ t ht := absurd ht (Forest.not_mem_empty t)

/-- The trees of a forest follow by the equation of a key from those of other keys, and all of them
are in the least solution. -/
def Follows (g : Graph) (f : Handle → Forest) (k : Handle) (v : Forest) : Prop :=
  ∀ t ∈ v, t ∈ equation g (g.node k) (fun c => {t | t ∈ f (g.endOf c)}) ∧ t ∈ g.leastForest k

/-- The rules follow the equations, which are monotone. -/
theorem rising (fuel : Nat) (g : Graph) : Rising ((table fuel).rules g)
    (fun F F' => ∀ t ∈ F, t ∈ F') .empty (Follows g) (fun _ _ => True) where
  ordered := ordered
  bottom _ := rfl
  least _ _ t ht := absurd ht (Forest.not_mem_empty t)
  mono f f' k v hf hv t ht :=
    ⟨Node.forest_mono _ _ _ _ _ (fun c _ s hs => hf _ s hs) (hv t ht).1, (hv t ht).2⟩
  lower f k v w _ hyields hw t ht := by
    refine mem_of_mem_equation hyields (fun c _ r u hl hu s hs => hu s ?_) (hw t ht).1
    exact hl.endOf ▸ hs
  upper f k v hfollows _ hyields t ht := by
    refine ⟨mem_equation_of_yields hyields (fun c _ r u hl hu s hs => ?_) ht,
      (keeps_least fuel g).rule k v trivial (hyields.mono fun k w hw s hs => ?_) t ht⟩
    · have hs := hu s hs
      rwa [← hl.endOf] at hs
    · exact (hfollows k s (hw s hs)).2

end EmptyParses

namespace Forest

variable {F F' : Forest} {T : Set Tree}

theorem nodup (F : Forest) : F.trees.Nodup := by
  refine F.increasing.imp fun {a b} hab he => ?_
  rw [he] at hab
  exact Tree.Before.irrefl b hab

/-- A forest that has been enlarged has more trees. -/
theorem size_lt (hsub : ∀ t ∈ F, t ∈ F') (hne : F ≠ F') : F.size < F'.size := by
  have hsubperm : F.trees.Subperm F'.trees := F.nodup.subperm hsub
  refine lt_of_le_of_ne hsubperm.length_le fun he => hne (ext_mem fun t => ?_)
  exact (hsubperm.perm_of_length_le he.ge).mem_iff

/-- A forest within a finite set has no more trees than that. -/
theorem size_le_ncard (hT : T.Finite) (hsub : ∀ t ∈ F, t ∈ T) : F.size ≤ T.ncard := by
  classical
  have hcard : F.size = F.trees.toFinset.card := (List.toFinset_card_of_nodup F.nodup).symm
  rw [hcard, ← Set.ncard_coe_finset]
  exact Set.ncard_le_ncard (fun t ht => hsub t (List.mem_toFinset.1 ht)) hT

end Forest

open EmptyParses

namespace Graph

variable {g : Graph} {h r k : Handle} {fuel : Nat} {F : Forest} {t : Tree}

/-- An expression whose trees have been evaluated leads to a node. -/
theorem leads_of_emptyParses (hF : g.emptyParses fuel h = some F) : ∃ r, g.Leads h r := by
  unfold Graph.emptyParses Table.evaluate at hF
  obtain ⟨r, hr, -⟩ := Option.bind_eq_some_iff.1 hF
  exact ⟨r, resolve_eq_some.1 hr⟩

/-- The trees of a handle are made of those of another one, among others. -/
def Consults (g : Graph) : Handle → Handle → Prop :=
  Relation.ReflTransGen fun h k => g.slot? h = some (.forward k) ∨
    ∃ n, g.slot? h = some (.node n) ∧ k ∈ consulted g n

theorem Consults.reaches (hk : g.Consults h k) : g.Reaches h k := by
  refine hk.lift id ?_
  rintro h k (hs | ⟨n, hs, hk⟩)
  all_goals show k ∈ g.references h
  · simp [references_of_forward hs]
  · rw [references_of_node hs]
    exact consulted_subset hk

theorem Consults.leads (hk : g.Consults h k) (hl : g.Leads k r) : g.Consults h r := by
  induction hl with
  | here => exact hk
  | step hs _ ih => exact ih (hk.tail (.inl hs))

/-- What an evaluation of the trees of the empty word leaves: finished values, which the rules have
made of each other, and which are among the trees of the least solution. -/
theorem finished_of_emptyParses (hl : g.Leads h r) (hF : g.emptyParses fuel h = some F) :
    ∃ m : Memory Handle Forest, m.Finished r F ∧
      (∀ k v, m.Finished k v → (ofNode fuel g (g.node k) ()).Yields m.Finished v) ∧
        ∀ k v, m.Finished k v → ∀ t ∈ v, t ∈ g.leastForest k := by
  unfold Graph.emptyParses at hF
  rw [Table.evaluate_eq_some hl] at hF
  have hallowed : ∀ e, RunSettles ((table fuel).rules g) e (g.size + 1) r fuel .empty →
      (fun _ : Settlement Unit Handle Forest => True) e := fun _ _ => trivial
  obtain ⟨m₀, m₁, hm₀, -, hvisit, hstale⟩ := run_last_pass
    (J := Memory.Within fun k v => ∀ t ∈ v, t ∈ g.leastForest k)
    (fun m v m' hm _ hv =>
      visit_within (keeps_least fuel g) (m := m.nextPass) hm (fun _ _ => trivial) hv)
    Memory.within_empty hallowed hF
  obtain ⟨hfinished, htraced⟩ := visit_traced hvisit hstale
  have hwithin := visit_within (keeps_least fuel g) (m := m₀.nextPass) hm₀ (fun _ _ => trivial) hvisit
  exact ⟨m₁, hfinished, htraced, fun k v hv => hwithin k v hv.2⟩

/-- When the trees of the empty word have been evaluated, they are the least solution. -/
theorem mem_iff_of_emptyParses (hF : g.emptyParses fuel h = some F) :
    t ∈ F ↔ t ∈ g.leastForest h := by
  obtain ⟨r, hl⟩ := leads_of_emptyParses hF
  obtain ⟨m, hfinished, htraced, hwithin⟩ := finished_of_emptyParses hl hF
  have hleads : g.leastForest h = g.leastForest r := Meaning.value_leads _ hl
  rw [hleads]
  exact ⟨hwithin r F hfinished t, least_of_traced htraced hfinished hl.self_end⟩

/-- There can be room for the lists that the evaluation of a node makes.  A reducer that has no tree
to work on makes none. -/
def HasRoom (g : Graph) (n : Node) : Prop :=
  n.Fits ∨ ∃ operand f, n = .reduction operand f ∧ g.leastForest operand = ∅

/-- If the trees of the empty word have been evaluated, there has been room for the lists of all
nodes of whose trees they are made. -/
theorem hasRoom_of_emptyParses {n : Node} (hF : g.emptyParses fuel h = some F)
    (hk : g.Consults h k) (hs : g.slot? k = some (.node n)) : g.HasRoom n := by
  obtain ⟨r, hl⟩ := leads_of_emptyParses hF
  obtain ⟨m, hfinished, htraced, -⟩ := finished_of_emptyParses hl hF
  -- The rules of all handles that are consulted have been carried out.
  have hvalue : ∀ k, g.Consults h k → ∀ r, g.Leads k r → ∃ v, m.Finished r v := by
    intro k hk
    induction hk with
    | refl => exact fun r' hl' => ⟨F, hl.unique hl' ▸ hfinished⟩
    | tail _ hstep ih =>
        intro r' hl'
        rcases hstep with hforward | ⟨n, hs, hc⟩
        · exact ih r' (.step hforward hl')
        · obtain ⟨v, hv⟩ := ih _ (.of_node hs)
          obtain ⟨r'', w, hl'', hw⟩ := answered_of_yields (node_eq hs ▸ htraced _ v hv) hc
          exact ⟨w, hl'.unique hl'' ▸ hw⟩
  obtain ⟨v, hv⟩ := hvalue k hk k (.of_node hs)
  refine (fits_of_yields (node_eq hs ▸ htraced k v hv)).imp_right ?_
  rintro ⟨operand, f, rfl, r', hl', hr'⟩
  refine ⟨operand, f, rfl, Set.eq_empty_of_forall_notMem fun t ht => ?_⟩
  have hleads : g.leastForest operand = g.leastForest r' := Meaning.value_leads _ hl'
  exact Forest.not_mem_empty t (least_of_traced htraced hr' hl'.self_end (hleads ▸ ht))

open Classical in
/-- The trees of the empty word are evaluated within as many passes as there are trees in the least
solution, and one more. -/
theorem Ready.emptyParses_answers (hready : g.Ready h) (hg : g.WellFormed) (hh : h.index < g.size)
    (hfinite : ∀ k, g.Consults h k → (g.leastForest k).Finite)
    (hroom : ∀ k n, g.Consults h k → g.slot? k = some (.node n) → g.HasRoom n)
    (hnot : ∀ k c, g.Consults h k → g.slot? k = some (.node (.not c)) →
      ∃ b, g.nullable fuel c = some b)
    (hfuel : ∑ k ∈ g.region h, (g.leastForest k).ncard < fuel) :
    ∃ F, g.emptyParses fuel h = some F := by
  obtain ⟨r, n, hl, -⟩ := hready h .refl
  let keys := (g.region h).filter (g.Consults h)
  have hmem : ∀ k, k ∈ keys ↔ g.Consults h k := fun k => by
    rw [Finset.mem_filter, hg.mem_region hh]
    exact and_iff_right_of_imp Consults.reaches
  have htotal : ∀ k ∈ keys, ∀ f, (∀ k, Follows g f k (f k)) →
      (((table fuel).rules g).rule k ()).AsksWithin (· ∈ keys) f := fun k hk f hf => by
    have hk' := (hmem k).1 hk
    show (ofNode fuel g (g.node k) ()).AsksWithin _ f
    by_cases hnil : g.node k = .nil
    · rw [hnil]
      trivial
    have hs : g.slot? k = some (.node (g.node k)) := slot?_of_node_eq rfl hnil
    have hleads : ∀ c ∈ (g.node k).children, ∃ r, g.Leads c r := fun c hc => by
      obtain ⟨r, n, hl, -⟩ := hready c (hk'.reaches.tail (by rwa [references_of_node hs]))
      exact ⟨r, hl⟩
    have hkeys : ∀ c r, c ∈ consulted g (g.node k) → g.Leads c r → r ∈ keys := fun c r hc hl =>
      (hmem r).2 (Consults.leads (hk'.tail (.inr ⟨_, hs, hc⟩)) hl)
    rcases hroom k _ hk' hs with hfits | ⟨operand, reducer, hn, hblank⟩
    · refine (ofNode_asksOnly hleads hkeys hfits fun c hc => ?_).within f
      exact hnot k c hk' (hs.trans (by rw [hc]))
    · rw [hn] at hleads hkeys ⊢
      obtain ⟨r, hl⟩ := hleads operand (by simp [Node.children])
      refine ofNode_asksWithin_of_blank hl (hkeys operand r (by simp [consulted]) hl) ?_
      refine not_not.1 fun hne => ?_
      obtain ⟨t, ht⟩ := Forest.hasTree_iff.2 hne
      have hleast : g.leastForest operand = g.leastForest r := Meaning.value_leads _ hl
      exact (hblank ▸ hleast ▸ (hf r t ht).2 : t ∈ (∅ : Set Tree))
  have hlimit : ∀ k ∈ keys, ∀ v : Forest, (∀ t ∈ v, t ∈ g.leastForest k) →
      v.size ≤ (g.leastForest k).ncard := fun k hk v hv =>
    Forest.size_le_ncard (hfinite k ((hmem k).1 hk)) hv
  have hcard : keys.card ≤ g.size := (Finset.card_filter_le _ _).trans (g.card_region_le h)
  have hpasses : ∑ k ∈ keys, (g.leastForest k).ncard < fuel :=
    (Finset.sum_le_sum_of_subset (Finset.filter_subset _ _)).trans_lt hfuel
  obtain ⟨F, hrun⟩ := (rising fuel g).run_answers (keeps_least fuel g) htotal Forest.size
    (fun k => (g.leastForest k).ncard) (fun _ _ => Forest.size_lt) hlimit
    ((hmem r).2 (Consults.leads .refl hl)) (Nat.lt_succ_of_le hcard) hpasses fun _ _ => trivial
  exact ⟨F, (Table.evaluate_eq_some hl).2 hrun⟩

/-- With enough passes the trees of the empty word are the least solution. -/
theorem Ready.emptyParses_eventually (hready : g.Ready h) (hg : g.WellFormed)
    (hh : h.index < g.size) (hfinite : ∀ k, g.Consults h k → (g.leastForest k).Finite)
    (hroom : ∀ k n, g.Consults h k → g.slot? k = some (.node n) → g.HasRoom n)
    (hnot : ∀ k c, g.Consults h k → g.slot? k = some (.node (.not c)) →
      ∃ fuel b, g.nullable fuel c = some b) :
    ∃ n, ∀ fuel ≥ n, ∃ F, g.emptyParses fuel h = some F ∧ ∀ t, t ∈ F ↔ t ∈ g.leastForest h := by
  classical
  -- The queries for the operands of complements need passes of their own.
  let passes : Handle → Nat := fun c =>
    if hc : ∃ fuel b, g.nullable fuel c = some b then hc.choose else 0
  have hpasses {c : Handle} (hc : ∃ fuel b, g.nullable fuel c = some b) :
      ∃ b, g.nullable (passes c) c = some b := by
    simp only [passes, dif_pos hc]
    exact hc.choose_spec
  refine ⟨(g.region h).sup passes + ∑ k ∈ g.region h, (g.leastForest k).ncard + 1,
    fun fuel hfuel => ?_⟩
  have hqueries : ∀ k c, g.Consults h k → g.slot? k = some (.node (.not c)) →
      ∃ b, g.nullable fuel c = some b := fun k c hk hs => by
    obtain ⟨b, hb⟩ := hpasses (hnot k c hk hs)
    have hc : c ∈ g.region h :=
      (hg.mem_region hh).2 (hk.reaches.tail (by simp [references_of_node hs, Node.children]))
    have hle : passes c ≤ (g.region h).sup passes := Finset.le_sup hc
    exact ⟨b, nullable_mono hb (by omega)⟩
  obtain ⟨F, hF⟩ := hready.emptyParses_answers hg hh hfinite hroom hqueries (by omega)
  exact ⟨F, hF, fun t => mem_iff_of_emptyParses hF⟩

end Graph

/-! ## The action on a grammar -/

namespace Grammar

variable {g g₁ : Grammar} {root r : Handle}

/-- The parses of the empty word are the least solution of the forest equations, if that is finite,
there can be room for the lists of the nodes that are consulted, and the queries for the operands of
complements have results.  The room is needed (`Graph.hasRoom_of_emptyParses`). -/
theorem emptyParses_least (hg : g.WellFormed) (hroot : g.Has root)
    (hprepare : (prepare root).run.run g = (.ok r, g₁))
    (hnot : ∀ k c, g₁.graph.Reaches root k → g₁.graph.slot? k = some (.node (.not c)) →
      ∃ fuel b, g₁.graph.nullable fuel c = some b)
    (hroom : ∀ k n, g₁.graph.Consults root k → g₁.graph.slot? k = some (.node n) →
      g₁.graph.HasRoom n)
    (hfinite : ∀ k, g₁.graph.Reaches root k → (g₁.graph.leastForest k).Finite) :
    ∃ n, ∀ fuel ≥ n, ∃ F, (emptyParses fuel root).run.run g = (.ok F, g₁) ∧
      ∀ t, t ∈ F ↔ t ∈ g₁.graph.leastForest root := by
  have hsound := hg.prepare hroot
  obtain ⟨hl, hready⟩ := hsound.result r g₁ hprepare
  have hw := hsound.wellFormed
  have hgrows := hsound.change
  rw [hprepare] at hw hgrows
  obtain ⟨n, hn⟩ := hready.emptyParses_eventually hw.graph (Has.change hroot hgrows)
    (fun k hk => hfinite k hk.reaches) hroom fun k c hk => hnot k c hk.reaches
  refine ⟨n, fun fuel hfuel => ?_⟩
  obtain ⟨F, hF, hmem⟩ := hn fuel hfuel
  refine ⟨F, ?_, hmem⟩
  have hFr : g₁.graph.emptyParses fuel r = some F := by
    rw [Graph.emptyParses, Table.evaluate_eq_some hl.self_end]
    exact (Table.evaluate_eq_some hl).1 hF
  unfold emptyParses
  rw [run_bind, hprepare]
  exact run_answer.2 ⟨hFr, rfl⟩

namespace Cyclic

/-- The rule `x = (~'b' | ε ↦ 'a') | x`, and the repetition of `ε ↦ 'a'` once. -/
def grammar : Grammar :=
  ⟨⟨#[.node .nil, .node .empty, .node .any, .forward ⟨8⟩, .node (.char 'b'), .node (.not ⟨4⟩),
      .node (.emptyReduction (.singleton (.char 'a'))), .node (.alt ⟨5⟩ ⟨6⟩),
      .node (.alt ⟨7⟩ ⟨3⟩), .node (.rep ⟨6⟩ (.exactly 1))]⟩, [("x", ⟨3⟩)], [], 0⟩

/-- The handle of the rule. -/
def start : Handle := ⟨3⟩

/-- The handle of the repetition. -/
def once : Handle := ⟨9⟩

/-- The trees of the rule. -/
def trees : Set Tree := {.unit, .char 'a'}

theorem wellFormed_grammar : grammar.WellFormed where
  graph := .of_fits rfl rfl rfl (by decide)
  rules := by decide
  names := by decide

/-- The only complement is that of the character. -/
theorem eq_of_complement {k c : Handle} (hs : grammar.graph.slot? k = some (.node (.not c))) :
    c = ⟨4⟩ := by
  rcases k with ⟨_ | _ | _ | _ | _ | _ | _ | _ | _ | _ | k⟩ <;> cases hs
  rfl

/-- There can be room for a list of one tree. -/
theorem fits (k : Handle) (n : Node) (hs : grammar.graph.slot? k = some (.node n)) : n.Fits := by
  rcases k with ⟨_ | _ | _ | _ | _ | _ | _ | _ | _ | _ | k⟩ <;> cases hs
  any_goals trivial
  exact (by decide : 1 ≤ Tree.maxRoom)

/-- The trees of the rule satisfy all equations, so the least solution is within them. -/
theorem leastForest_subset {k : Handle} (hk : grammar.Has k) :
    grammar.graph.leastForest k ⊆ trees := by
  refine (forestMeaning _ _).value_le (A := fun _ => trees) wellFormed_grammar.graph.closed_lt
    (fun k hk => ?_) k hk
  have hunit : {Tree.unit} ⊆ trees := by simp [trees]
  rcases k with ⟨_ | _ | _ | _ | _ | _ | _ | _ | _ | _ | k⟩
  · exact Set.empty_subset _
  · exact hunit
  · exact Set.empty_subset _
  · exact Set.Subset.rfl
  · exact Set.empty_subset _
  · exact fun t ht => hunit ht.1
  · exact fun t ht => .inr (Forest.mem_singleton.1 ht)
  · exact Set.union_subset Set.Subset.rfl Set.Subset.rfl
  · exact Set.union_subset Set.Subset.rfl Set.Subset.rfl
  · exact Set.Subset.rfl
  · exact Set.empty_subset _

theorem finite_leastForest {k : Handle} (hk : grammar.Has k) :
    (grammar.graph.leastForest k).Finite :=
  ((Set.finite_singleton _).insert _).subset (leastForest_subset hk)

/-- The trees of a rule that refers to itself are found. -/
theorem emptyParses_least_start :
    grammar.WellFormed ∧ grammar.Has start ∧
      (∃ n, ∀ fuel ≥ n, ∃ F, (emptyParses fuel start).run.run grammar = (.ok F, grammar) ∧
        ∀ t, t ∈ F ↔ t ∈ grammar.graph.leastForest start) ∧
      ∃ F, (emptyParses 3 start).run.run grammar = (.ok F, grammar) ∧
        ∀ t, t ∈ F ↔ t ∈ trees := by
  have hroot : grammar.Has start := (by decide : 3 < 10)
  refine ⟨wellFormed_grammar, hroot,
    emptyParses_least (r := ⟨8⟩) wellFormed_grammar hroot rfl (fun k c _ hs => ?_)
      (fun k n _ hs => .inl (fits k n hs))
      fun k hk => finite_leastForest (wellFormed_grammar.graph.lt_of_reaches hroot hk), ?_⟩
  · rw [eq_of_complement hs]
    exact ⟨1, false, rfl⟩
  · refine ⟨_, rfl, fun t => ?_⟩
    simp [trees, EmptyParses.unit, table]

/-- What is repeated once is not put into a list. -/
theorem emptyParses_once :
    grammar.WellFormed ∧ grammar.Has once ∧ (prepare once).run.run grammar = (.ok once, grammar) ∧
      (emptyParses 2 once).run.run grammar = (.ok (.singleton (.char 'a')), grammar) ∧
      ∀ T : Handle → Set Tree, T ⟨6⟩ = {.char 'a'} →
        T once = {t | ∃ items : List Tree,
          items.length = 1 ∧ (∀ s ∈ items, s ∈ T ⟨6⟩) ∧ .list items = t} →
        .char 'a' ∉ T once ∧ .list [.char 'a'] ∈ T once := by
  refine ⟨wellFormed_grammar, (by decide : 9 < 10), rfl, rfl, fun T hx hT => ?_⟩
  rw [hT, hx]
  refine ⟨?_, [.char 'a'], rfl, by simp, rfl⟩
  rintro ⟨items, -, -, he⟩
  cases he

end Cyclic

end Grammar

end DerivativeParsing
