import Std.Data.TreeMap.Basic
import DerivativeParsing.Tree.Basic

/-!
# The order of trees

Leaves come before lists, leaves are ordered by code point and lists lexicographically.  The
order is linear: `compare` tells two trees apart exactly when they differ (`compare_eq_iff`), is
antisymmetric (`compare_swap`) and transitive (`isLE_trans`).  Forests list their trees in this
order, so equality of trees is decided by it as well.
-/

set_option autoImplicit false

namespace DerivativeParsing.Tree

mutual

/-- Leaves before lists, leaves by code point, lists lexicographically. -/
def compare : Tree → Tree → Ordering
  | .char a, .char b => Ord.compare a b
  | .char _, .list _ => .lt
  | .list _, .char _ => .gt
  | .list as, .list bs => compareList as bs

/-- The lexicographic order of lists of trees. -/
def compareList : List Tree → List Tree → Ordering
  | [], [] => .eq
  | [], _ :: _ => .lt
  | _ :: _, [] => .gt
  | a :: as, b :: bs => (compare a b).then (compareList as bs)

end

instance : Ord Tree := ⟨compare⟩

/-! ## The order is linear -/

mutual

theorem compare_self : ∀ a : Tree, a.compare a = .eq
  | .char a => by simp [compare]
  | .list as => by rw [compare, compareList_self as]

theorem compareList_self : ∀ as : List Tree, compareList as as = .eq
  | [] => by rw [compareList]
  | a :: as => by rw [compareList, compare_self a, compareList_self as]; rfl

end

mutual

theorem eq_of_compare : ∀ a b : Tree, a.compare b = .eq → a = b
  | .char a, .char b, h => by
    rw [compare] at h
    rw [Std.LawfulEqOrd.eq_of_compare h]
  | .char _, .list _, h => by simp [compare] at h
  | .list _, .char _, h => by simp [compare] at h
  | .list as, .list bs, h => by
    rw [compare] at h
    rw [eq_of_compareList as bs h]

theorem eq_of_compareList : ∀ as bs : List Tree, compareList as bs = .eq → as = bs
  | [], [], _ => rfl
  | [], _ :: _, h => by simp [compareList] at h
  | _ :: _, [], h => by simp [compareList] at h
  | a :: as, b :: bs, h => by
    rw [compareList, Ordering.then_eq_eq] at h
    rw [eq_of_compare a b h.1, eq_of_compareList as bs h.2]

end

theorem compare_eq_iff {a b : Tree} : a.compare b = .eq ↔ a = b :=
  ⟨eq_of_compare a b, fun h => h ▸ compare_self a⟩

mutual

theorem compare_swap : ∀ a b : Tree, a.compare b = (b.compare a).swap
  | .char a, .char b => by
    rw [compare, compare]
    exact Std.OrientedOrd.eq_swap
  | .char _, .list _ => by simp [compare]
  | .list _, .char _ => by simp [compare]
  | .list as, .list bs => by rw [compare, compare, compareList_swap as bs]

theorem compareList_swap :
    ∀ as bs : List Tree, compareList as bs = (compareList bs as).swap
  | [], [] => by simp [compareList]
  | [], _ :: _ => by simp [compareList]
  | _ :: _, [] => by simp [compareList]
  | a :: as, b :: bs => by
    rw [compareList, compareList, compare_swap a b, compareList_swap as bs,
      Ordering.swap_then]

end

mutual

theorem isLE_trans : ∀ a b c : Tree,
    (a.compare b).isLE → (b.compare c).isLE → (a.compare c).isLE
  | .char a, .char b, .char c, hab, hbc => by
    rw [compare] at *
    exact Std.TransOrd.isLE_trans hab hbc
  | .char _, .char _, .list _, _, _ => by simp [compare]
  | .char _, .list _, .char _, _, hbc => by simp [compare] at hbc
  | .char _, .list _, .list _, _, _ => by simp [compare]
  | .list _, .char _, _, hab, _ => by simp [compare] at hab
  | .list _, .list _, .char _, _, hbc => by simp [compare] at hbc
  | .list as, .list bs, .list cs, hab, hbc => by
    rw [compare] at *
    exact isLE_trans_list as bs cs hab hbc

theorem isLE_trans_list : ∀ as bs cs : List Tree,
    (compareList as bs).isLE → (compareList bs cs).isLE → (compareList as cs).isLE
  | [], _, [], _, _ => by simp [compareList]
  | [], _, _ :: _, _, _ => by simp [compareList]
  | _ :: _, [], _, hab, _ => by simp [compareList] at hab
  | _ :: _, _ :: _, [], _, hbc => by simp [compareList] at hbc
  | a :: as, b :: bs, c :: cs, hab, hbc => by
    rw [compareList] at *
    have head_le : (a.compare b).isLE → (b.compare c).isLE → (a.compare c).isLE :=
      isLE_trans a b c
    have tail_le := isLE_trans_list as bs cs
    cases hAB : a.compare b with
    | gt => simp [hAB] at hab
    | eq =>
      obtain rfl := eq_of_compare a b hAB
      cases hBC : a.compare c with
      | gt => simp [hBC] at hbc
      | lt => simp
      | eq =>
        rw [hAB] at hab
        rw [hBC] at hbc
        simpa using tail_le (by simpa using hab) (by simpa using hbc)
    | lt =>
      cases hBC : b.compare c with
      | gt => simp [hBC] at hbc
      | eq =>
        obtain rfl := eq_of_compare b c hBC
        simp [hAB]
      | lt =>
        have hle : (a.compare c).isLE := head_le (by simp [hAB]) (by simp [hBC])
        cases hAC : a.compare c with
        | gt => simp [hAC] at hle
        | lt => simp
        | eq =>
          obtain rfl := eq_of_compare a c hAC
          rw [compare_swap, hAB] at hBC
          simp at hBC

end

instance : Std.TransOrd Tree where
  eq_swap := compare_swap _ _
  isLE_trans := isLE_trans _ _ _

instance : Std.LawfulEqOrd Tree where
  compare_self := compare_self _
  eq_of_compare := eq_of_compare _ _

/-- Two trees are equal when the order does not tell them apart. -/
instance : DecidableEq Tree := fun a b =>
  decidable_of_iff (a.compare b = .eq) compare_eq_iff

end DerivativeParsing.Tree
