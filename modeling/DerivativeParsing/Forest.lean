import DerivativeParsing.Tree.Order

/-!
# Forests

A forest is the finite set of parse trees that an ambiguous expression assigns to one input.  It
lists its trees in increasing order and without repetition, so two forests with the same members
are equal (`ext_mem`).  Every operation is described by what it does to membership.
-/

set_option autoImplicit false

namespace DerivativeParsing

/-- The order in which a forest lists its trees. -/
def Tree.Before (a b : Tree) : Prop := a.compare b = .lt

/-- A finite set of trees, listed in increasing order. -/
structure Forest where
  trees : List Tree
  increasing : trees.Pairwise Tree.Before

namespace Tree

theorem Before.trans {a b c : Tree} (hab : a.Before b) (hbc : b.Before c) : a.Before c :=
  @Std.TransCmp.lt_trans Tree Ord.compare inferInstance a b c hab hbc

theorem Before.irrefl (a : Tree) : ¬ a.Before a := by
  simp [Before, compare_self]

theorem Before.asymm {a b : Tree} (hab : a.Before b) : ¬ b.Before a :=
  fun hba => Before.irrefl a (hab.trans hba)

end Tree

namespace Forest

instance : Membership Tree Forest := ⟨fun f t => t ∈ f.trees⟩

theorem mem_def {t : Tree} {f : Forest} : t ∈ f ↔ t ∈ f.trees := Iff.rfl

instance : DecidableEq Forest := fun f g =>
  decidable_of_iff (f.trees = g.trees) (by cases f; cases g; simp)

/-- The forest without trees. -/
def empty : Forest := ⟨[], .nil⟩

instance : Inhabited Forest := ⟨empty⟩

/-- The forest of one tree. -/
def singleton (t : Tree) : Forest := ⟨[t], .cons (by simp) .nil⟩

/-- How many trees a forest has. -/
def size (f : Forest) : Nat := f.trees.length

/-! ## Insertion -/

/-- Puts a tree in its place in an increasing list, unless it is there already. -/
def insertInOrder (t : Tree) : List Tree → List Tree
  | [] => [t]
  | u :: rest =>
    match t.compare u with
    | .lt => t :: u :: rest
    | .eq => u :: rest
    | .gt => u :: insertInOrder t rest

theorem mem_insertInOrder {s t : Tree} {trees : List Tree} :
    s ∈ insertInOrder t trees ↔ s = t ∨ s ∈ trees := by
  induction trees with
  | nil => simp [insertInOrder]
  | cons u rest ih =>
    rw [insertInOrder]
    split
    · simp
    · next h =>
      obtain rfl := Tree.eq_of_compare t u h
      simp
    · simp only [List.mem_cons, ih]
      exact or_left_comm

theorem increasing_insertInOrder {t : Tree} {trees : List Tree}
    (h : trees.Pairwise Tree.Before) : (insertInOrder t trees).Pairwise Tree.Before := by
  induction trees with
  | nil => simp [insertInOrder]
  | cons u rest ih =>
    rw [List.pairwise_cons] at h
    rw [insertInOrder]
    split
    · next hlt =>
      refine .cons (fun s hs => ?_) (.cons h.1 h.2)
      rcases List.mem_cons.1 hs with rfl | hs
      · exact hlt
      · exact Tree.Before.trans hlt (h.1 s hs)
    · exact .cons h.1 h.2
    · next hgt =>
      refine .cons (fun s hs => ?_) (ih h.2)
      rcases mem_insertInOrder.1 hs with rfl | hs
      · rw [Tree.compare_swap] at hgt
        exact Ordering.swap_eq_gt.1 hgt
      · exact h.1 s hs

/-- Adds a tree. -/
def insert (t : Tree) (f : Forest) : Forest :=
  ⟨insertInOrder t f.trees, increasing_insertInOrder f.increasing⟩

@[simp] theorem mem_insert {s t : Tree} {f : Forest} : s ∈ f.insert t ↔ s = t ∨ s ∈ f :=
  mem_insertInOrder

@[simp] theorem mem_singleton {s t : Tree} : s ∈ singleton t ↔ s = t := by
  simp [mem_def, singleton]

@[simp] theorem not_mem_empty (t : Tree) : t ∉ empty := by
  simp [mem_def, empty]

/-! ## Collecting -/

/-- The forest of all trees of a list. -/
def ofList (trees : List Tree) : Forest := trees.foldr insert empty

@[simp] theorem mem_ofList {t : Tree} {trees : List Tree} : t ∈ ofList trees ↔ t ∈ trees := by
  induction trees with
  | nil => simp [ofList]
  | cons u rest ih =>
    rw [ofList, List.foldr_cons, mem_insert, List.mem_cons]
    exact or_congr_right ih

/-- All trees of two forests. -/
def union (f g : Forest) : Forest := f.trees.foldr insert g

@[simp] theorem mem_union {t : Tree} {f g : Forest} : t ∈ f.union g ↔ t ∈ f ∨ t ∈ g := by
  rw [mem_def (f := f), union]
  induction f.trees with
  | nil => simp
  | cons u rest ih => rw [List.foldr_cons, mem_insert, ih, List.mem_cons, or_assoc]

/-- The image of a forest under a function on trees. -/
def map (action : Tree → Tree) (f : Forest) : Forest := ofList (f.trees.map action)

@[simp] theorem mem_map {t : Tree} {action : Tree → Tree} {f : Forest} :
    t ∈ f.map action ↔ ∃ s ∈ f, action s = t := by
  simp [map, mem_def (f := f)]

/-- The image of a forest under a function that need not have a result for every tree. -/
def mapM (action : Tree → Option Tree) (f : Forest) : Option Forest :=
  (f.trees.mapM action).map ofList

/-- The pairs of a tree of the first forest and a tree of the second. -/
def product (f g : Forest) : Forest :=
  ofList (f.trees.flatMap fun a => g.trees.map (Tree.pair a))

@[simp] theorem mem_product {t : Tree} {f g : Forest} :
    t ∈ f.product g ↔ ∃ a ∈ f, ∃ b ∈ g, Tree.pair a b = t := by
  simp [product, mem_def (f := f), mem_def (f := g)]

/-- Every list with every one of the items in front of it. -/
def extend (items : List Tree) (tuples : List (List Tree)) : List (List Tree) :=
  tuples.flatMap fun rest => items.map (· :: rest)

/-- The lists of `n` items, each taken from `items`. -/
def tuples (items : List Tree) (n : Nat) : List (List Tree) :=
  if items.isEmpty && n != 0 then [] else Nat.repeat (extend items) n [[]]

theorem mem_repeat_extend {items : List Tree} {n : Nat} {tuple : List Tree} :
    tuple ∈ Nat.repeat (extend items) n [[]] ↔ tuple.length = n ∧ ∀ t ∈ tuple, t ∈ items := by
  induction n generalizing tuple with
  | zero => simp +contextual [Nat.repeat]
  | succ n ih =>
    simp only [Nat.repeat, extend, List.mem_flatMap, List.mem_map]
    constructor
    · rintro ⟨rest, hrest, t, ht, rfl⟩
      obtain ⟨hlength, hall⟩ := ih.1 hrest
      exact ⟨by simp [hlength], List.forall_mem_cons.2 ⟨ht, hall⟩⟩
    · rintro ⟨hlength, hall⟩
      cases tuple with
      | nil => simp at hlength
      | cons t rest =>
        rw [List.forall_mem_cons] at hall
        exact ⟨rest, ih.2 ⟨by simpa using hlength, hall.2⟩, t, hall.1, rfl⟩

theorem mem_tuples {items : List Tree} {n : Nat} {tuple : List Tree} :
    tuple ∈ tuples items n ↔ tuple.length = n ∧ ∀ t ∈ tuple, t ∈ items := by
  rw [tuples]
  split
  · next h =>
    simp only [Bool.and_eq_true, List.isEmpty_iff, bne_iff_ne] at h
    obtain ⟨rfl, hn⟩ := h
    cases tuple with
    | nil => simpa using fun h => hn h.symm
    | cons t rest =>
      exact iff_of_false List.not_mem_nil fun h => List.not_mem_nil (h.2 t List.mem_cons_self)
  · exact mem_repeat_extend

/-- The lists of exactly `n` trees of a forest, as trees. -/
def power (f : Forest) (n : Nat) : Forest := ofList ((tuples f.trees n).map .list)

@[simp] theorem mem_power {t : Tree} {f : Forest} {n : Nat} :
    t ∈ f.power n ↔ ∃ items : List Tree, items.length = n ∧ (∀ s ∈ items, s ∈ f) ∧ .list items = t := by
  simp [power, mem_tuples, mem_def (f := f), and_assoc]

/-- The lists of exactly `n` trees of a forest, as trees.  Room for a list is made at the start,
whether the forest has trees or not; there is no result if there cannot be that much room. -/
def power? (f : Forest) (n : Nat) : Option Forest :=
  if n ≤ Tree.maxRoom then some (f.power n) else none

theorem power?_eq_some {f F : Forest} {n : Nat} :
    f.power? n = some F ↔ n ≤ Tree.maxRoom ∧ f.power n = F := by
  rw [power?]
  split
  · next h => simp [h]
  · next h => simp [h]

/-! ## Equality -/

theorem eq_of_mem_iff {as bs : List Tree} (ha : as.Pairwise Tree.Before)
    (hb : bs.Pairwise Tree.Before) (h : ∀ t, t ∈ as ↔ t ∈ bs) : as = bs := by
  induction as generalizing bs with
  | nil =>
    cases bs with
    | nil => rfl
    | cons b bs => exact absurd ((h b).2 List.mem_cons_self) List.not_mem_nil
  | cons a as ih =>
    cases bs with
    | nil => exact absurd ((h a).1 List.mem_cons_self) List.not_mem_nil
    | cons b bs =>
      rw [List.pairwise_cons] at ha hb
      have hab : a = b := by
        rcases List.mem_cons.1 ((h a).1 List.mem_cons_self) with hab | hab
        · exact hab
        · rcases List.mem_cons.1 ((h b).2 List.mem_cons_self) with hba | hba
          · exact hba.symm
          · exact absurd (hb.1 a hab) (ha.1 b hba).asymm
      subst hab
      congr 1
      refine ih ha.2 hb.2 fun t => ?_
      constructor
      · intro ht
        rcases List.mem_cons.1 ((h t).1 (List.mem_cons_of_mem a ht)) with rfl | ht'
        · exact absurd (ha.1 t ht) (Tree.Before.irrefl t)
        · exact ht'
      · intro ht
        rcases List.mem_cons.1 ((h t).2 (List.mem_cons_of_mem a ht)) with rfl | ht'
        · exact absurd (hb.1 t ht) (Tree.Before.irrefl t)
        · exact ht'

/-- Forests with the same trees are equal. -/
theorem ext_mem {f g : Forest} (h : ∀ t, t ∈ f ↔ t ∈ g) : f = g := by
  obtain ⟨trees, increasing⟩ := f
  obtain ⟨trees', increasing'⟩ := g
  obtain rfl := eq_of_mem_iff increasing increasing' h
  rfl

/-! ## Text -/

/-- The written forms of the trees, in order. -/
def renderEach (f : Forest) : List String := f.trees.map Tree.render

/-! ## Forests that are not empty -/

variable {f f' : Forest} {t : Tree}

/-- A forest is not empty. -/
def HasTree (f : Forest) : Prop := ∃ t, t ∈ f

theorem hasTree_iff : f.HasTree ↔ f ≠ .empty := by
  constructor
  · rintro ⟨t, ht⟩ rfl
    exact not_mem_empty t ht
  · intro hne
    rcases f with ⟨_ | ⟨t, rest⟩, hincreasing⟩
    · exact absurd rfl hne
    · exact ⟨t, List.mem_cons_self⟩

theorem not_hasTree_empty : ¬ (Forest.empty).HasTree := fun ⟨t, ht⟩ => not_mem_empty t ht

theorem hasTree_singleton : (Forest.singleton t).HasTree := ⟨t, mem_singleton.2 rfl⟩

theorem hasTree_union : (f.union f').HasTree ↔ f.HasTree ∨ f'.HasTree := by
  simp only [HasTree, mem_union, exists_or]

theorem hasTree_product : (f.product f').HasTree ↔ f.HasTree ∧ f'.HasTree := by
  constructor
  · rintro ⟨t, ht⟩
    obtain ⟨a, ha, b, hb, -⟩ := mem_product.1 ht
    exact ⟨⟨a, ha⟩, b, hb⟩
  · rintro ⟨⟨a, ha⟩, b, hb⟩
    exact ⟨_, mem_product.2 ⟨a, ha, b, hb, rfl⟩⟩

theorem hasTree_map {action : Tree → Tree} : (f.map action).HasTree ↔ f.HasTree := by
  constructor
  · rintro ⟨t, ht⟩
    obtain ⟨s, hs, -⟩ := mem_map.1 ht
    exact ⟨s, hs⟩
  · rintro ⟨s, hs⟩
    exact ⟨_, mem_map.2 ⟨s, hs, rfl⟩⟩

theorem hasTree_power {n : Nat} : (f.power (n + 1)).HasTree ↔ f.HasTree := by
  constructor
  · rintro ⟨t, ht⟩
    obtain ⟨items, hlength, hitems, -⟩ := mem_power.1 ht
    obtain ⟨s, rest, rfl⟩ := List.exists_cons_of_length_eq_add_one hlength
    exact ⟨s, hitems s (by simp)⟩
  · rintro ⟨s, hs⟩
    refine ⟨_, mem_power.2 ⟨List.replicate (n + 1) s, by simp, fun t ht => ?_, rfl⟩⟩
    exact List.eq_of_mem_replicate ht ▸ hs

end Forest

end DerivativeParsing
