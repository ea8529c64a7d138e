import DerivativeParsing.Analysis.Nullable
import DerivativeParsing.Proofs.Readings
import DerivativeParsing.Proofs.Words

/-!
# Nullability and the empty word

The rules of nullability follow the equation for the empty word in the language of each node.  The
evaluation of a complement is the exception: it uses the value that its operand has at the
moment, which need not be the final one.
-/

set_option autoImplicit false

namespace DerivativeParsing

open Fixpoint DerivativeParsing.Graph

/-! ## The equation of each node -/

/-- Whether a node is nullable, given which of its operands are. -/
def Node.nullable (f : Handle → Bool) : Node → Bool
  | .nil | .any | .char _ | .range _ _ | .token _ => false
  | .empty | .star _ | .emptyReduction _ => true
  | .alt left right => f left || f right
  | .seq first second => f first && f second
  | .rep _ (.exactly 0) | .rep _ .unbounded => true
  | .rep operand (.exactly (_ + 1)) => f operand
  | .not operand => !f operand
  | .nullability operand | .reduction operand _ => f operand

theorem nil_mem_mul {L M : WordSet} : [] ∈ L * M ↔ [] ∈ L ∧ [] ∈ M := by
  rw [Language.mem_mul]
  constructor
  · rintro ⟨a, ha, b, hb, hab⟩
    obtain ⟨rfl, rfl⟩ := List.append_eq_nil_iff.1 hab
    exact ⟨ha, hb⟩
  · rintro ⟨ha, hb⟩
    exact ⟨[], ha, [], hb, rfl⟩

theorem nil_mem_pow_succ {L : WordSet} (n : Nat) : [] ∈ L ^ (n + 1) ↔ [] ∈ L := by
  induction n with
  | zero => rw [zero_add, pow_one]
  | succ n ih => rw [pow_succ, nil_mem_mul, ih, and_self]

open Classical in
/-- The empty word is in the language of a node if the node is nullable. -/
theorem Node.nil_mem_words {n : Node} (htoken : n ≠ .token []) {outer V : Handle → WordSet}
    (hnot : ∀ p, n = .not p → outer p = V p) :
    [] ∈ n.words outer V ↔ n.nullable (fun c => decide ([] ∈ V c)) = true := by
  cases n with
  | nil => exact iff_of_false (Language.notMem_zero []) Bool.false_ne_true
  | empty => exact iff_of_true Language.nil_mem_one rfl
  | any => exact iff_of_false (fun ⟨c, hc⟩ => by cases hc) Bool.false_ne_true
  | char c => exact iff_of_false (fun h => by cases h) Bool.false_ne_true
  | range a b => exact iff_of_false (fun ⟨c, _, _, hc⟩ => by cases hc) Bool.false_ne_true
  | token text => exact iff_of_false (fun h => htoken (by rw [← h])) Bool.false_ne_true
  | alt left right => simp [words, nullable, Language.mem_add]
  | seq first second => simp [words, nullable, nil_mem_mul]
  | star operand => simp [words, nullable, Language.nil_mem_kstar]
  | rep operand count =>
      rcases count with (_ | n) | _
      · simp [words, nullable]
      · simp [words, nullable, nil_mem_pow_succ]
      · simp [words, nullable, Language.nil_mem_kstar]
  | not operand =>
      simp only [words, nullable, hnot operand rfl, Bool.not_eq_true', decide_eq_false_iff_not]
      rfl
  | nullability operand => simp [words, nullable, Language.mem_inf]
  | emptyReduction trees => simp [words, nullable]
  | reduction operand reducer => simp [words, nullable]

/-! ## What the rules ask and answer -/

namespace Nullable

variable {g : Graph} {n : Node} {f : Handle → Bool} {b : Bool}

theorem atMost_false {x y : Bool} : AtMost false x y ↔ (x = true → y = true) := by
  cases x <;> cases y <;> simp [AtMost]

/-- From answers that are not too small, the rule of a node computes no smaller value than its
equation does. -/
theorem le_of_yields (hnot : ∀ p, n ≠ .not p)
    (h : (ofNode g n ()).Yields (fun k v => AtMost false (f k) v) b) :
    AtMost false (n.nullable fun c => f (g.endOf c)) b := by
  simp only [atMost_false] at h ⊢
  cases n with
  | not p => exact absurd rfl (hnot p)
  | alt left right =>
      obtain ⟨l, v, hl, hv, h⟩ := Reading.yields_bind_ask.1 h
      cases v with
      | true => exact fun _ => h.symm
      | false =>
          obtain ⟨r, hr, hb⟩ := Reading.yields_ask.1 h
          simp only [Node.nullable, hl.endOf, hr.endOf, Bool.or_eq_true]
          rintro (h | h)
          · exact absurd (hv h) Bool.false_ne_true
          · exact hb h
  | seq first second =>
      obtain ⟨l, v, hl, hv, h⟩ := Reading.yields_bind_ask.1 h
      simp only [Node.nullable, hl.endOf, Bool.and_eq_true]
      rintro ⟨hfirst, hsecond⟩
      obtain rfl := hv hfirst
      obtain ⟨r, hr, hb⟩ := Reading.yields_ask.1 h
      rw [hr.endOf] at hsecond
      exact hb hsecond
  | rep operand count =>
      rcases count with (_ | n) | _
      · exact fun _ => h.symm
      · obtain ⟨r, hr, hb⟩ := Reading.yields_ask.1 h
        simpa only [Node.nullable, hr.endOf] using hb
      · exact fun _ => h.symm
  | nullability operand =>
      obtain ⟨r, hr, hb⟩ := Reading.yields_ask.1 h
      simpa only [Node.nullable, hr.endOf] using hb
  | reduction operand reducer =>
      obtain ⟨r, hr, hb⟩ := Reading.yields_ask.1 h
      simpa only [Node.nullable, hr.endOf] using hb
  | empty => exact fun _ => h.symm
  | star operand => exact fun _ => h.symm
  | emptyReduction trees => exact fun _ => h.symm
  | _ => exact fun h => absurd h Bool.false_ne_true

/-- From answers that are not too large, the rule of a node computes no larger value than its
equation does. -/
theorem ge_of_yields (hnot : ∀ p, n ≠ .not p)
    (h : (ofNode g n ()).Yields (fun k v => AtMost false v (f k)) b) :
    AtMost false b (n.nullable fun c => f (g.endOf c)) := by
  simp only [atMost_false] at h ⊢
  cases n with
  | not p => exact absurd rfl (hnot p)
  | alt left right =>
      obtain ⟨l, v, hl, hv, h⟩ := Reading.yields_bind_ask.1 h
      simp only [Node.nullable, hl.endOf, Bool.or_eq_true]
      cases v with
      | true => exact fun _ => .inl (hv rfl)
      | false =>
          obtain ⟨r, hr, hb⟩ := Reading.yields_ask.1 h
          rw [hr.endOf]
          exact fun h => .inr (hb h)
  | seq first second =>
      obtain ⟨l, v, hl, hv, h⟩ := Reading.yields_bind_ask.1 h
      simp only [Node.nullable, hl.endOf, Bool.and_eq_true]
      cases v with
      | false => exact fun hb => absurd (h.trans hb) Bool.false_ne_true
      | true =>
          obtain ⟨r, hr, hb⟩ := Reading.yields_ask.1 h
          rw [hr.endOf]
          exact fun h => ⟨hv rfl, hb h⟩
  | rep operand count =>
      rcases count with (_ | n) | _
      · exact fun _ => rfl
      · obtain ⟨r, hr, hb⟩ := Reading.yields_ask.1 h
        simpa only [Node.nullable, hr.endOf] using hb
      · exact fun _ => rfl
  | nullability operand =>
      obtain ⟨r, hr, hb⟩ := Reading.yields_ask.1 h
      simpa only [Node.nullable, hr.endOf] using hb
  | reduction operand reducer =>
      obtain ⟨r, hr, hb⟩ := Reading.yields_ask.1 h
      simpa only [Node.nullable, hr.endOf] using hb
  | empty => exact fun _ => rfl
  | star operand => exact fun _ => rfl
  | emptyReduction trees => exact fun _ => rfl
  | _ => exact fun hb => absurd (h.trans hb) Bool.false_ne_true

/-- The rule of a complement negates the answer for its operand. -/
theorem yields_not {p : Handle} {answers : Handle → Bool → Prop} :
    (ofNode g (.not p) ()).Yields answers b ↔ ∃ r, g.Leads p r ∧ answers r !b := by
  refine Reading.yields_bind_ask.trans ?_
  constructor
  · rintro ⟨r, v, hl, hv, rfl⟩
    exact ⟨r, hl, by rwa [Bool.not_not]⟩
  · rintro ⟨r, hl, hv⟩
    exact ⟨r, !b, hl, hv, Bool.not_not b⟩

/-- The rule of a node asks for the ends of its operands only. -/
theorem ofNode_asksOnly {K : Handle → Prop}
    (hK : ∀ c ∈ n.children, g.Leads c (g.endOf c) ∧ K (g.endOf c)) :
    (ofNode g n ()).AsksOnly K := by
  cases n with
  | alt left right =>
      obtain ⟨hl, hl'⟩ := hK left (by simp [Node.children])
      obtain ⟨hr, hr'⟩ := hK right (by simp [Node.children])
      refine Reading.asksOnly_bind_ask hl hl' fun v => ?_
      cases v with
      | true => trivial
      | false => exact Reading.asksOnly_ask hr hr'
  | seq first second =>
      obtain ⟨hl, hl'⟩ := hK first (by simp [Node.children])
      obtain ⟨hr, hr'⟩ := hK second (by simp [Node.children])
      refine Reading.asksOnly_bind_ask hl hl' fun v => ?_
      cases v with
      | true => exact Reading.asksOnly_ask hr hr'
      | false => trivial
  | rep operand count =>
      obtain ⟨hl, hl'⟩ := hK operand (by simp [Node.children])
      rcases count with (_ | n) | _
      · trivial
      · exact Reading.asksOnly_ask hl hl'
      · trivial
  | not operand =>
      obtain ⟨hl, hl'⟩ := hK operand (by simp [Node.children])
      exact Reading.asksOnly_bind_ask hl hl' fun v => trivial
  | nullability operand =>
      obtain ⟨hl, hl'⟩ := hK operand (by simp [Node.children])
      exact Reading.asksOnly_ask hl hl'
  | reduction operand reducer =>
      obtain ⟨hl, hl'⟩ := hK operand (by simp [Node.children])
      exact Reading.asksOnly_ask hl hl'
  | _ => trivial

end Nullable

end DerivativeParsing
