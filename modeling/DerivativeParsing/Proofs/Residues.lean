import DerivativeParsing.Proofs.EmptyTrees

/-!
# What a match of the empty word leaves

A match of the empty word leaves a tree.  A sequence pairs the trees of its operands, unless one of
them is `ε` itself, which leaves nothing in a sequence.  A *residue* is what is left: a tree, or
nothing.  The residues of the handles of a graph are the least solution of one equation for each
node, in which complements depend on the languages of their operands (`Graph.residues`).

Nothing is left by `ε` alone (`none_mem_residues`).  When the trees of the empty word have been
evaluated, they are the trees of the residues (`Workable.mem_emptyParses`).
-/

set_option autoImplicit false

namespace DerivativeParsing

open Fixpoint DerivativeParsing.Graph

/-! ## Residues -/

/-- What a match of the empty word leaves: a tree, or nothing. -/
abbrev Residue : Type := Option Tree

namespace Residue

/-- The tree of a match, where it has to have one. -/
def tree (x : Residue) : Tree := x.getD .unit

/-- The tree of a sequence of two matches. -/
def join : Residue → Residue → Tree
  | none, y => y.tree
  | x, none => x.tree
  | some a, some b => .pair a b

/-- The trees of matches. -/
def trees (X : Set Residue) : Set Tree := tree '' X

variable {x : Residue} {X Y : Set Residue} {T : Set Tree} {t : Tree}

@[simp] theorem tree_none : tree none = .unit := rfl

@[simp] theorem tree_some : tree (some t) = t := rfl

@[simp] theorem join_none_left : join none x = x.tree := rfl

@[simp] theorem join_none_right : join x none = x.tree := by cases x <;> rfl

@[simp] theorem join_some {a b : Tree} : join (some a) (some b) = .pair a b := rfl

theorem trees_mono (h : X ⊆ Y) : trees X ⊆ trees Y := Set.image_mono h

@[simp] theorem trees_empty : trees ∅ = ∅ := Set.image_empty _

@[simp] theorem trees_none : trees {none} = {.unit} := Set.image_singleton

@[simp] theorem trees_some : trees (some '' T) = T := by
  rw [trees, Set.image_image]
  exact Set.image_id' T

/-- Matches that all leave something are given by their trees. -/
theorem some_trees (h : none ∉ X) : some '' trees X = X := by
  ext x
  constructor
  · rintro ⟨-, ⟨y, hy, rfl⟩, rfl⟩
    cases y with
    | none => exact absurd hy h
    | some t => exact hy
  · intro hx
    cases x with
    | none => exact absurd hx h
    | some t => exact ⟨t, ⟨some t, hx, rfl⟩, rfl⟩

end Residue

open Residue

/-! ## What nodes leave -/

namespace Node

variable {matched matched' : Handle → Prop} {V W : Handle → Set Residue} {n m : Node}
  {R : Handle → Handle → Prop}

/-- The trees of a node for the empty word, given the residues of its operands.  A complement has a
tree if its operand does not match the empty word, which `matched` says. -/
def trees (matched : Handle → Prop) (V : Handle → Set Residue) : Node → Set Tree
  | .nil | .any | .char _ | .range _ _ | .token _ => ∅
  | .empty | .star _ => {.unit}
  | .emptyReduction f => {t | t ∈ f}
  | .alt left right => Residue.trees (V left) ∪ Residue.trees (V right)
  | .seq first second => Set.image2 join (V first) (V second)
  | .rep _ (.exactly 0) | .rep _ .unbounded => {.unit}
  | .rep operand (.exactly 1) => Residue.trees (V operand)
  | .rep operand (.exactly n) =>
    {t | ∃ items : List Tree, items.length = n ∧ (∀ s ∈ items, s ∈ Residue.trees (V operand)) ∧
      .list items = t}
  | .not operand => {t | t = .unit ∧ ¬ matched operand}
  | .nullability operand => Residue.trees (V operand)
  | .reduction operand reducer => reducer.apply '' Residue.trees (V operand)

/-- The residues of a node: `ε` leaves nothing, and any other node its trees. -/
def residues (matched : Handle → Prop) (V : Handle → Set Residue) : Node → Set Residue
  | .empty => {none}
  | n => some '' n.trees matched V

theorem residues_of_ne (hn : n ≠ .empty) : n.residues matched V = some '' n.trees matched V := by
  cases n with
  | empty => exact absurd rfl hn
  | _ => rfl

@[simp] theorem trees_residues : Residue.trees (n.residues matched V) = n.trees matched V := by
  by_cases hn : n = .empty
  · subst hn
    exact trees_none
  · rw [residues_of_ne hn, trees_some]

/-- A node that is related to another has no more trees than it, if that holds of the operands. -/
theorem Relates.trees_subset (h : n.Relates R m) (hVW : ∀ a b, R a b → V a ⊆ W b)
    (hmatched : ∀ a b, n = .not a → m = .not b → R a b → matched' b → matched a)
    (hreducer : ∀ a f b f', n = .reduction a f → m = .reduction b f' → f.name = f'.name →
      f.action = f'.action) : n.trees matched V ⊆ m.trees matched' W := by
  have htrees {a b : Handle} (hab : R a b) : Residue.trees (V a) ⊆ Residue.trees (W b) :=
    trees_mono (hVW a b hab)
  cases h with
  | nil => exact Set.Subset.rfl
  | empty => exact Set.Subset.rfl
  | any => exact Set.Subset.rfl
  | char c => exact Set.Subset.rfl
  | range first last => exact Set.Subset.rfl
  | token text => exact Set.Subset.rfl
  | alt h h' => exact Set.union_subset_union (htrees h) (htrees h')
  | seq h h' => exact Set.image2_subset (hVW _ _ h) (hVW _ _ h')
  | star h => exact Set.Subset.rfl
  | rep count h =>
      rcases count with (_ | _ | k) | _
      · exact Set.Subset.rfl
      · exact htrees h
      · rintro t ⟨items, hlength, hitems, rfl⟩
        exact ⟨items, hlength, fun s hs => htrees h (hitems s hs), rfl⟩
      · exact Set.Subset.rfl
  | not h => exact fun t ht => ⟨ht.1, fun hb => ht.2 (hmatched _ _ rfl rfl h hb)⟩
  | nullability h => exact htrees h
  | emptyReduction trees => exact Set.Subset.rfl
  | @reduction a b f f' hname h =>
      have happly : f.apply = f'.apply := hreducer _ _ _ _ rfl rfl hname
      show f.apply '' _ ⊆ f'.apply '' _
      rw [happly]
      exact Set.image_mono (htrees h)

theorem Relates.residues_subset (h : n.Relates R m) (hVW : ∀ a b, R a b → V a ⊆ W b)
    (hmatched : ∀ a b, n = .not a → m = .not b → R a b → matched' b → matched a)
    (hreducer : ∀ a f b f', n = .reduction a f → m = .reduction b f' → f.name = f'.name →
      f.action = f'.action) : n.residues matched V ⊆ m.residues matched' W := by
  by_cases hn : n = .empty
  · subst hn
    cases h
    exact Set.Subset.rfl
  · have hm : m ≠ .empty := fun he => by
      subst he
      cases h
      exact hn rfl
    rw [residues_of_ne hn, residues_of_ne hm]
    exact Set.image_mono (h.trees_subset hVW hmatched hreducer)

theorem residues_mono (hVW : ∀ c ∈ n.children, V c ⊆ W c)
    (hmatched : ∀ p, n = .not p → matched' p → matched p) :
    n.residues matched V ⊆ n.residues matched' W := by
  have hrelates : n.Relates (fun a b => a = b ∧ a ∈ n.children) n := .refl fun a ha => ⟨rfl, ha⟩
  refine hrelates.residues_subset ?_ ?_ ?_
  · rintro a _ ⟨rfl, ha⟩
    exact hVW a ha
  · rintro a _ hn - ⟨rfl, -⟩
    exact hmatched a hn
  · intro a f b f' hn hm _
    rw [hn] at hm
    cases hm
    rfl

/-- There is no list of trees without trees for its items. -/
theorem trees_rep_of_empty {operand : Handle} {k : Nat} (hV : V operand = ∅) :
    (Node.rep operand (.exactly (k + 2))).trees matched V = ∅ := by
  refine Set.eq_empty_of_forall_notMem ?_
  rintro t ⟨items, hlength, hitems, -⟩
  obtain ⟨s, rest, rfl⟩ := List.exists_cons_of_length_eq_add_one hlength
  have hs := hitems s (by simp)
  rw [hV, trees_empty] at hs
  exact hs

/-- A node with a tree for the empty word matches it. -/
theorem nil_mem_words_of_tree {outer A : Handle → WordSet} {t : Tree}
    (ht : t ∈ n.trees matched V) (hV : ∀ c ∈ n.children, (V c).Nonempty → [] ∈ A c)
    (hmatched : ∀ p, n = .not p → [] ∈ outer p → matched p) : [] ∈ n.words outer A := by
  have hoperand {c : Handle} {t : Tree} (hc : c ∈ n.children) (ht : t ∈ Residue.trees (V c)) :
      [] ∈ A c := hV c hc (Set.image_nonempty.1 ⟨t, ht⟩)
  cases n with
  | nil => exact ht.elim
  | any => exact ht.elim
  | char c => exact ht.elim
  | range first last => exact ht.elim
  | token text => exact ht.elim
  | empty => exact Language.nil_mem_one
  | star operand => exact Language.nil_mem_kstar _
  | emptyReduction f => exact Language.nil_mem_one
  | alt left right =>
      exact ht.imp (hoperand (by simp [children])) (hoperand (by simp [children]))
  | seq first second =>
      obtain ⟨x, hx, y, hy, -⟩ := ht
      exact nil_mem_mul.2 ⟨hV first (by simp [children]) ⟨x, hx⟩,
        hV second (by simp [children]) ⟨y, hy⟩⟩
  | rep operand count =>
      rcases count with (_ | _ | k) | _
      · show [] ∈ A operand ^ 0
        rw [pow_zero]
        exact Language.nil_mem_one
      · exact (nil_mem_pow_succ 0).2 (hoperand (by simp [children]) ht)
      · obtain ⟨items, hlength, hitems, -⟩ := ht
        obtain ⟨s, rest, rfl⟩ := List.exists_cons_of_length_eq_add_one hlength
        exact (nil_mem_pow_succ (k + 1)).2
          (hoperand (by simp [children]) (hitems s (by simp)))
      · exact Language.nil_mem_kstar _
  | not operand => exact fun hmem => ht.2 (hmatched operand rfl hmem)
  | nullability operand => exact ⟨hoperand (by simp [children]) ht, Language.nil_mem_one⟩
  | reduction operand reducer =>
      obtain ⟨s, hs, -⟩ := ht
      exact hoperand (by simp [children]) hs

end Node

/-- What a node leaves when complements depend on given operands that match the empty word. -/
def residueMeaning (matched : Handle → Prop) : Meaning (Set Residue) where
  node n V := n.residues matched V
  mono _ _ _ hVW := Node.residues_mono hVW fun _ _ => id

namespace Graph

variable {g g' : Graph} {D : Set Handle} {h k r t root : Handle} {n : Node} {x : Residue}

/-- What a handle leaves when it matches the empty word. -/
def residues (g : Graph) : Handle → Set Residue :=
  (residueMeaning fun p => [] ∈ g.language p).value g

/-- The trees of a handle for the empty word. -/
def emptyTrees (g : Graph) (h : Handle) : Set Tree := trees (g.residues h)

theorem residues_node (hs : g.slot? h = some (.node n)) :
    g.residues h = n.residues (fun p => [] ∈ g.language p) g.residues := Meaning.value_node _ hs

theorem residues_forward (hs : g.slot? h = some (.forward t)) : g.residues h = g.residues t :=
  Meaning.value_forward _ hs

theorem residues_leads (hl : g.Leads h r) : g.residues h = g.residues r := Meaning.value_leads _ hl

/-- An expression leaves what the node that it stands for leaves. -/
theorem residues_nodeAt (hn : g.nodeAt h = some n) :
    g.residues h = n.residues (fun p => [] ∈ g.language p) g.residues := by
  obtain ⟨r, hl, rfl⟩ := nodeAt_eq_some.1 hn
  rw [residues_leads hl, residues, Meaning.value_eq,
    Meaning.slot_of_end _ (Set.image_empty _) hl.end_ne_forward]
  rfl

theorem emptyTrees_nodeAt (hn : g.nodeAt h = some n) :
    g.emptyTrees h = n.trees (fun p => [] ∈ g.language p) g.residues := by
  rw [emptyTrees, residues_nodeAt hn, Node.trees_residues]

theorem emptyTrees_node (hs : g.slot? h = some (.node n)) :
    g.emptyTrees h = n.trees (fun p => [] ∈ g.language p) g.residues :=
  emptyTrees_nodeAt (nodeAt_of_slot hs)

theorem emptyTrees_leads (hl : g.Leads h r) : g.emptyTrees h = g.emptyTrees r :=
  congrArg trees (residues_leads hl)

/-! ### Matches that leave nothing -/

theorem residues_of_isEmpty (he : g.isEmpty h = some true) : g.residues h = {none} :=
  residues_nodeAt (nodeAt_of_isEmpty he)

theorem residues_of_isNil (hnil : g.isNil h = some true) : g.residues h = ∅ := by
  rw [residues_nodeAt (nodeAt_of_isNil hnil)]
  exact Set.image_empty _

/-- Nothing is left by what stands for `ε`, and by nothing else. -/
theorem none_mem_residues : none ∈ g.residues h ↔ g.isEmpty h = some true := by
  refine ⟨fun hx => ?_, fun he => residues_of_isEmpty he ▸ rfl⟩
  let A : Handle → Set Residue := fun h => {x | x = none → g.isEmpty h = some true}
  suffices hA : ∀ h ∈ (Set.univ : Set Handle), g.residues h ≤ A h from hA h trivial hx rfl
  refine Meaning.value_le _ (fun _ _ _ _ => trivial) fun k _ => ?_
  rintro x hx rfl
  rcases hs : g.slot? k with _ | (n | body | name | t)
  · rw [hs] at hx
    exact hx.elim
  · rw [hs] at hx
    by_cases hn : n = .empty
    · exact isEmpty_of_nodeAt (nodeAt_of_slot (hn ▸ hs))
    · have hx : none ∈ n.residues _ A := hx
      rw [Node.residues_of_ne hn] at hx
      obtain ⟨t, -, ht⟩ := hx
      cases ht
  · rw [hs] at hx
    exact hx.elim
  · rw [hs] at hx
    exact hx.elim
  · rw [hs] at hx
    obtain ⟨r, hl, hr⟩ := nodeAt_eq_some.1 (nodeAt_of_isEmpty (hx rfl))
    exact isEmpty_of_nodeAt (nodeAt_eq_some.2 ⟨r, .step hs hl, hr⟩)

theorem eq_none_iff_of_mem (hx : x ∈ g.residues h) : x = none ↔ g.isEmpty h = some true := by
  constructor
  · rintro rfl
    exact none_mem_residues.1 hx
  · intro he
    rwa [residues_of_isEmpty he] at hx

/-- What does not stand for `ε` is given by its trees. -/
theorem residues_of_not_isEmpty (he : g.isEmpty h ≠ some true) :
    g.residues h = some '' g.emptyTrees h :=
  (some_trees fun hx => he (none_mem_residues.1 hx)).symm

/-! ### Other graphs -/

/-- The residues of a closed set of slots depend on these slots only. -/
theorem residues_congr (hD : g.Closed D) (hslot : ∀ h ∈ D, g'.slot? h = g.slot? h) :
    ∀ h ∈ D, g'.residues h = g.residues h := by
  refine fun h hh => (Meaning.value_congr _ hD hslot (fun k hk n hs V => ?_) h hh).symm
  have hlanguage {p : Handle} (hp : n = .not p) : g'.language p = g.language p :=
    language_congr hD hslot p (hD k hk p (by simp [references_of_node hs, hp, Node.children]))
  refine Set.Subset.antisymm (Node.residues_mono (fun _ _ => Set.Subset.rfl) fun p hp h => ?_)
    (Node.residues_mono (fun _ _ => Set.Subset.rfl) fun p hp h => ?_)
  · rwa [hlanguage hp] at h
  · rwa [hlanguage hp]

/-- Slots that are added make no difference. -/
theorem residues_extends (hg : g.WellFormed) (hext : g'.Extends g) (hh : h.index < g.size) :
    g'.residues h = g.residues h := residues_congr hg.closed_lt hext.2 h hh

/-- What leaves something matches the empty word. -/
theorem Layered.nil_mem_of_residue (hh : g.Layered h) (hx : x ∈ g.residues h) :
    [] ∈ g.language h := by
  suffices hle : ∀ k ∈ {k | g.Reaches h k}, g.residues k ≤ {x | [] ∈ g.language k} from
    hle h .refl hx
  refine Meaning.value_le _ (closed_reaches g h) fun k hk x hx => ?_
  have hlayered := hh.reaches hk
  rcases hs : g.slot? k with _ | (n | body | name | t)
  · rw [hs] at hx
    exact hx.elim
  · rw [hs] at hx
    have htree : x.tree ∈ n.trees _ _ := Node.trees_residues.subset ⟨x, hx, rfl⟩
    rw [Set.mem_ofPred_eq, hlayered.language_node hs]
    exact Node.nil_mem_words_of_tree htree (fun c _ ⟨y, hy⟩ => hy) fun p _ => id
  · rw [hs] at hx
    exact hx.elim
  · rw [hs] at hx
    exact hx.elim
  · rw [hs] at hx
    exact (hlayered.language_forward hs).symm ▸ hx

/-! ### Equal expressions -/

/-- A reducer is applied in a node of a set of handles. -/
def Reduces (g : Graph) (D : Set Handle) (f : Reducer) : Prop :=
  ∃ k ∈ D, ∃ p, g.slot? k = some (.node (.reduction p f))

/-- In a set of handles, reducers of the same name do the same. -/
def NamesReducers (g : Graph) (D : Set Handle) : Prop :=
  ∀ f f', g.Reduces D f → g.Reduces D f' → f.name = f'.name → f.action = f'.action

theorem Reduces.of_node (hD : g.Closed D) (hh : h ∈ D) (hl : g.Leads h r) {p : Handle}
    {f : Reducer} (hn : g.node r = .reduction p f) : g.Reduces D f :=
  ⟨r, hD.of_reaches hh hl.reaches, p, slot?_of_node_eq hn (by simp)⟩

/-- No reducer is applied in the three fixed expressions. -/
theorem NamesReducers.scope (hg : g.WellFormed) (h : g.NamesReducers {k | g.Reaches root k}) :
    g.NamesReducers (g.scope root) := by
  have hreduces {f : Reducer} (hf : g.Reduces (g.scope root) f) :
      g.Reduces {k | g.Reaches root k} f := by
    obtain ⟨k, hk | hk, p, hs⟩ := hf
    · exact ⟨k, hk, p, hs⟩
    · obtain ⟨n, hn, hatomic⟩ := hg.exists_atomic hk
      rw [hn] at hs
      cases hs
      cases hatomic
  exact fun f f' hf hf' => h f f' (hreduces hf) (hreduces hf')

variable {R : Handle → Handle → Prop} {a b : Handle}

/-- A simulation is one in every closed set. -/
theorem Simulates.restrict (hR : g.Simulates R) (hD : g.Closed D) :
    g.Simulates fun a b => R a b ∧ a ∈ D ∧ b ∈ D := by
  rintro a b ⟨hab, ha, hb⟩
  obtain ⟨r, s, hr, hs, hrs⟩ := hR a b hab
  have hchild {h k c : Handle} (hh : h ∈ D) (hl : g.Leads h k) (hc : c ∈ (g.node k).children) :
      c ∈ D := hD.of_reaches hh (reaches_of_nodeAt (nodeAt_eq_some.2 ⟨k, hl, rfl⟩) hc)
  refine ⟨r, s, hr, hs, hrs.imp_right fun hrelates => ?_⟩
  exact hrelates.mono fun c hc d hd hcd => ⟨hcd, hchild ha hr hc, hchild hb hs hd⟩

theorem Simulates.residues_subset (hR : g.Simulates R) (hD : g.Closed D)
    (hRD : ∀ a b, R a b → a ∈ D ∧ b ∈ D) (hnames : g.NamesReducers D) (hab : R a b) :
    g.residues a ⊆ g.residues b := by
  refine hR.value_le (M := residueMeaning _) (fun _ => Set.image_empty _)
    (fun a b r s hab hr hs hrelates V W hVW => ?_) hab
  obtain ⟨ha, hb⟩ := hRD a b hab
  refine hrelates.residues_subset hVW (fun c d _ _ hcd hd => ?_) fun c f d f' hc hd hname => ?_
  · rwa [hR.language_eq hcd]
  · exact hnames f f' (.of_node hD ha hr hc) (.of_node hD hb hs hd) hname

/-- Expressions that are found to be equal leave the same. -/
theorem residues_eq_of_similar (hD : g.Closed D) (hnames : g.NamesReducers D) (ha : a ∈ D)
    (hb : b ∈ D) (h : g.similar a b = some true) : g.residues a = g.residues b := by
  obtain ⟨R, hR, hab⟩ := exists_simulates_of_similar h
  have hR := hR.restrict hD
  exact Set.Subset.antisymm
    (hR.residues_subset hD (fun _ _ h => h.2) hnames ⟨hab, ha, hb⟩)
    (hR.symm.residues_subset hD (fun _ _ h => h.2.symm) hnames ⟨hab, ha, hb⟩)

end Graph

/-! ## The evaluation -/

namespace EmptyParses

variable {g : Graph} {root h k r : Handle} {n : Node} {fuel : Nat} {F : Forest} {t : Tree}
  {answers : Handle → Forest → Prop} {matched : Handle → Prop} {V : Handle → Set Residue}

theorem Treeless.trees_eq (hn : Treeless n) : n.trees matched V = ∅ := by
  cases n with
  | nil => rfl
  | any => rfl
  | char c => rfl
  | range first last => rfl
  | token text => rfl
  | _ => exact hn.elim

theorem Unitary.trees_eq (hn : Unitary n) : n.trees matched V = {.unit} := by
  cases n with
  | empty => rfl
  | star operand => rfl
  | rep operand count =>
      rcases count with (_ | k) | _
      · rfl
      · exact hn.elim
      · rfl
  | _ => exact hn.elim

/-- From answers with trees of the operands, the rule of a node makes trees of the node. -/
theorem mem_trees_of_yields (h : (ofNode fuel g n ()).Yields answers F)
    (hanswers : ∀ c ∈ n.children, ∀ r v, g.Leads c r → answers r v → ∀ t ∈ v, t ∈ trees (V c))
    (hnone : ∀ c ∈ n.children, none ∈ V c ↔ g.isEmpty c = some true)
    (hnot : ∀ c, n = .not c → ∀ b, g.nullable fuel c = some b → (b = true ↔ matched c))
    (ht : t ∈ F) : t ∈ n.trees matched V := by
  have hsome {c : Handle} {s : Tree} (hc : c ∈ n.children) (he : g.isEmpty c = some false)
      (hs : s ∈ trees (V c)) : some s ∈ V c := by
    have hempty : none ∉ V c := fun hx => by simp [(hnone c hc).1 hx] at he
    rw [← some_trees hempty]
    exact ⟨s, hs, rfl⟩
  cases made_of_yields h with
  | nothing _ => exact absurd ht (Forest.not_mem_empty t)
  | unit hn =>
      rw [hn.trees_eq]
      exact Forest.mem_singleton.1 ht
  | forest f => exact ht
  | @union left right l r v w hl hv hr hw =>
      exact (Forest.mem_union.1 ht).imp (hanswers left (by simp [Node.children]) l v hl hv t)
        (hanswers right (by simp [Node.children]) r w hr hw t)
  | @second first second r v he hl hv =>
      obtain ⟨y, hy, rfl⟩ := hanswers second (by simp [Node.children]) r F hl hv t ht
      exact ⟨none, (hnone first (by simp [Node.children])).2 he, y, hy, join_none_left⟩
  | @first first second r v _ he hl hv =>
      obtain ⟨x, hx, rfl⟩ := hanswers first (by simp [Node.children]) r F hl hv t ht
      exact ⟨x, hx, none, (hnone second (by simp [Node.children])).2 he, join_none_right⟩
  | @product first second l r v w hfirst hsecond hl hv hr hw =>
      obtain ⟨a, ha, b, hb, rfl⟩ := Forest.mem_product.1 ht
      have ha := hanswers first (by simp [Node.children]) l v hl hv a ha
      have hb := hanswers second (by simp [Node.children]) r w hr hw b hb
      exact ⟨some a, hsome (by simp [Node.children]) hfirst ha,
        some b, hsome (by simp [Node.children]) hsecond hb, join_some⟩
  | @once operand r v hl hv => exact hanswers operand (by simp [Node.children]) r F hl hv t ht
  | @lists operand r k v hl hv =>
      obtain ⟨items, hlength, hitems, rfl⟩ := Forest.mem_power.1 ht
      exact ⟨items, hlength, fun s hs =>
        hanswers operand (by simp [Node.children]) r v hl hv s (hitems s hs), rfl⟩
  | matched _ => exact absurd ht (Forest.not_mem_empty t)
  | @unmatched operand hb =>
      exact ⟨Forest.mem_singleton.1 ht,
        fun hm => absurd ((hnot operand rfl false hb).2 hm) Bool.false_ne_true⟩
  | @copy operand r v hl hv => exact hanswers operand (by simp [Node.children]) r F hl hv t ht
  | @image operand r f v hl hv =>
      obtain ⟨s, hs, rfl⟩ := Forest.mem_map.1 ht
      exact ⟨s, hanswers operand (by simp [Node.children]) r v hl hv s hs, rfl⟩

/-- From answers with all trees of the operands, the rule of a node makes all trees of the node. -/
theorem mem_of_yields (h : (ofNode fuel g n ()).Yields answers F)
    (hanswers : ∀ c ∈ n.children, ∀ r v, g.Leads c r → answers r v → ∀ x ∈ V c, x.tree ∈ v)
    (hnone : ∀ c ∈ n.children, ∀ x ∈ V c, x = none ↔ g.isEmpty c = some true)
    (hnot : ∀ c, n = .not c → ∀ b, g.nullable fuel c = some b → (b = true ↔ matched c))
    (ht : t ∈ n.trees matched V) : t ∈ F := by
  have hoperand {c r : Handle} {v : Forest} {s : Tree} (hc : c ∈ n.children) (hl : g.Leads c r)
      (hv : answers r v) (hs : s ∈ trees (V c)) : s ∈ v := by
    obtain ⟨x, hx, rfl⟩ := hs
    exact hanswers c hc r v hl hv x hx
  have hsome {c : Handle} {x : Residue} (hc : c ∈ n.children) (he : g.isEmpty c = some false)
      (hx : x ∈ V c) : ∃ s, x = some s := by
    refine Option.ne_none_iff_exists'.1 fun hnil => ?_
    simp [(hnone c hc x hx).1 hnil] at he
  cases made_of_yields h with
  | nothing hn => exact (hn.trees_eq.subset ht).elim
  | unit hn => exact Forest.mem_singleton.2 (hn.trees_eq.subset ht)
  | forest f => exact ht
  | @union left right l r v w hl hv hr hw =>
      exact Forest.mem_union.2 (ht.imp (hoperand (by simp [Node.children]) hl hv)
        (hoperand (by simp [Node.children]) hr hw))
  | @second first second r v he hl hv =>
      obtain ⟨x, hx, y, hy, rfl⟩ := ht
      rw [(hnone first (by simp [Node.children]) x hx).2 he, join_none_left]
      exact hanswers second (by simp [Node.children]) r F hl hv y hy
  | @first first second r v _ he hl hv =>
      obtain ⟨x, hx, y, hy, rfl⟩ := ht
      rw [(hnone second (by simp [Node.children]) y hy).2 he, join_none_right]
      exact hanswers first (by simp [Node.children]) r F hl hv x hx
  | @product first second l r v w hfirst hsecond hl hv hr hw =>
      obtain ⟨x, hx, y, hy, rfl⟩ := ht
      have ha := hanswers first (by simp [Node.children]) l v hl hv x hx
      have hb := hanswers second (by simp [Node.children]) r w hr hw y hy
      obtain ⟨a, rfl⟩ := hsome (by simp [Node.children]) hfirst hx
      obtain ⟨b, rfl⟩ := hsome (by simp [Node.children]) hsecond hy
      exact Forest.mem_product.2 ⟨a, ha, b, hb, rfl⟩
  | once hl hv => exact hoperand (by simp [Node.children]) hl hv ht
  | lists hl hv =>
      obtain ⟨items, hlength, hitems, rfl⟩ := ht
      exact Forest.mem_power.2 ⟨items, hlength, fun s hs =>
        hoperand (by simp [Node.children]) hl hv (hitems s hs), rfl⟩
  | @matched operand hb => exact absurd ((hnot operand rfl true hb).1 rfl) ht.2
  | unmatched _ => exact Forest.mem_singleton.2 ht.1
  | copy hl hv => exact hoperand (by simp [Node.children]) hl hv ht
  | image hl hv =>
      obtain ⟨s, hs, rfl⟩ := ht
      exact Forest.mem_map.2 ⟨s, hoperand (by simp [Node.children]) hl hv hs, rfl⟩

/-- While the trees are evaluated, there are none but those of the residues. -/
theorem keeps_trees (hroot : g.Workable root) :
    Keeps ((table fuel).rules g) (fun k v => g.Reaches root k → ∀ t ∈ v, t ∈ g.emptyTrees k)
      (fun _ _ => True) where
  bottom k _ t ht := absurd ht (Forest.not_mem_empty t)
  rule k v _ hyields hk t ht := by
    have hyields : (ofNode fuel g (g.node k) ()).Yields _ v := hyields
    have hworkable := hroot.reaches hk
    by_cases hnil : g.node k = .nil
    · rw [hnil] at hyields
      exact absurd (eq_of_yields_pure hyields ▸ ht) (Forest.not_mem_empty t)
    have hs : g.slot? k = some (.node (g.node k)) := slot?_of_node_eq rfl hnil
    have hchild {c : Handle} (hc : c ∈ (g.node k).children) : g.Reaches k c :=
      .single (by rwa [references_of_node hs])
    rw [emptyTrees_node hs]
    refine mem_trees_of_yields hyields (fun c hc r w hl hw s hs => ?_)
      (fun c hc => none_mem_residues) (fun c hc b hb => ?_) ht
    · rw [residues_leads hl]
      exact hw (hk.trans ((hchild hc).trans hl.reaches)) s hs
    · exact (hworkable.reaches (hchild (by simp [hc, Node.children]))).nullable_iff hb

/-- No tree is missing once all values are what the rules make of each other. -/
theorem mem_of_traced (hroot : g.Workable root) {m : Memory Handle Forest}
    (htraced : ∀ k v, m.Finished k v → (((table fuel).rules g).rule k ()).Yields m.Finished v)
    (hh : g.Reaches root h) {v : Forest} (hv : m.Finished h v) (hl : g.Leads h h)
    (ht : t ∈ g.emptyTrees h) : t ∈ v := by
  let A : Handle → Set Residue := fun h =>
    {x | x ∈ g.residues h ∧ ∀ r v, g.Leads h r → m.Finished r v → x.tree ∈ v}
  suffices hle : ∀ k ∈ {k | g.Reaches root k}, g.residues k ≤ A k by
    obtain ⟨x, hx, rfl⟩ := ht
    exact (hle h hh hx).2 h v hl hv
  refine Meaning.value_le _ (closed_reaches g root) fun k hk x hx => ?_
  have hres : x ∈ g.residues k := by
    have hle : (residueMeaning _).slot A (g.slot? k) ≤
        (residueMeaning fun p => [] ∈ g.language p).slot g.residues (g.slot? k) :=
      Meaning.slot_mono _ fun _ _ _ hy => hy.1
    rw [residues, Meaning.value_eq]
    exact hle hx
  refine ⟨hres, fun r v hl hv => ?_⟩
  cases hl with
  | step hforward hrest =>
      rw [hforward] at hx
      exact hx.2 r v hrest hv
  | here hend =>
      rw [Meaning.slot_of_end _ (Set.image_empty _) hend] at hx
      have hyields : (ofNode fuel g (g.node k) ()).Yields m.Finished v := htraced k v hv
      have htree : x.tree ∈ (g.node k).trees _ A := Node.trees_residues.subset ⟨x, hx, rfl⟩
      refine mem_of_yields hyields (fun c _ r w hl hw y hy => hy.2 r w hl hw)
        (fun c _ y hy => eq_none_iff_of_mem hy.1) (fun c hc b hb => ?_) htree
      have hs := slot?_of_node_eq hc (by simp)
      have hkc : g.Reaches k c := .single (by simp [references_of_node hs, Node.children])
      exact ((hroot.reaches hk).reaches hkc).nullable_iff hb

end EmptyParses

open EmptyParses

/-- When the trees of the empty word have been evaluated, they are those of the residues. -/
theorem Graph.Workable.mem_emptyParses {g : Graph} {h : Handle} {fuel : Nat} {F : Forest} {t : Tree}
    (hh : g.Workable h) (hF : g.emptyParses fuel h = some F) : t ∈ F ↔ t ∈ g.emptyTrees h := by
  obtain ⟨r, n, hl, -⟩ := hh.ready h .refl
  have hr := hh.reaches hl.reaches
  have hrF : run ((table fuel).rules g) (g.size + 1) fuel r () = some (F, ()) := by
    rw [Graph.emptyParses, Table.evaluate_eq hl, ← Table.evaluate_eq hl.self_end] at hF
    exact (Table.evaluate_eq_some hl.self_end).1 hF
  have hallowed : ∀ e, RunSettles ((table fuel).rules g) e (g.size + 1) r fuel .empty →
      (fun _ : Settlement Unit Handle Forest => True) e := fun _ _ => trivial
  obtain ⟨m₀, m₁, hm₀, -, hvisit, hstale⟩ := run_last_pass
    (J := Memory.Within fun k v => g.Reaches r k → ∀ t ∈ v, t ∈ g.emptyTrees k)
    (fun m v m' hm _ hv =>
      visit_within (keeps_trees hr) (m := m.nextPass) hm (fun _ _ => trivial) hv)
    Memory.within_empty hallowed hrF
  obtain ⟨hfinished, htraced⟩ := visit_traced hvisit hstale
  rw [emptyTrees_leads hl]
  constructor
  · exact visit_within (keeps_trees hr) (m := m₀.nextPass) hm₀ (fun _ _ => trivial) hvisit r F
      hfinished.2 .refl t
  · exact mem_of_traced hr htraced .refl hfinished hl.self_end

end DerivativeParsing
