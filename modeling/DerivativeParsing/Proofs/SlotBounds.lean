import Mathlib.Algebra.BigOperators.Group.List.Basic
import Mathlib.Algebra.GroupWithZero.Nat
import DerivativeParsing.Proofs.Preparation

/-!
# How many slots there can be

The bound on the slots of a graph counts the slots that there are, and those that everything
suspended can take when it is built.  Building a description raises it by no more than the
description's own bound (`costs_build`), because a text that has not become an expression yet has a
place in reserve for it.  So building what is suspended lowers the bound, and can go on for so long
only.
-/

set_option autoImplicit false

namespace DerivativeParsing

open DerivativeParsing.Graph

/-! ## The bound of a graph -/

/-- How many slots a slot can come to. -/
def Slot.bound : Slot → Nat
  | .suspended body => body.slotBound + 2
  | _ => 1

namespace Graph

variable {g : Graph} {h t : Handle} {s : Slot} {body : Description} {n : Node}

theorem foldl_slotBound {f : Nat → Slot → Nat} (hf : ∀ bound s, f bound s = bound + Slot.bound s)
    (slots : List Slot) (bound : Nat) :
    slots.foldl f bound = bound + (slots.map Slot.bound).sum := by
  induction slots generalizing bound with
  | nil => rfl
  | cons s slots ih => rw [List.foldl_cons, ih, hf, List.map_cons, List.sum_cons, Nat.add_assoc]

theorem slotBound_eq_sum (g : Graph) : g.slotBound = (g.slots.toList.map Slot.bound).sum := by
  rw [slotBound, ← Array.foldl_toList, foldl_slotBound, Nat.zero_add]
  intro bound s
  cases s <;> rfl

@[simp] theorem slotBound_alloc : (g.alloc s).2.slotBound = g.slotBound + s.bound := by
  simp [slotBound_eq_sum, alloc]

theorem slotBound_make_le : (g.make n).2.slotBound ≤ g.slotBound + 1 := by
  rcases g.make_cases n with ⟨h, he, -⟩ | he <;> rw [he]
  · exact Nat.le_succ _
  · exact slotBound_alloc.le

/-- A slot that becomes a forward counts one. -/
theorem slotBound_setForward (hs : g.slot? h = some s) :
    (g.setForward h t).slotBound + s.bound = g.slotBound + 1 := by
  have hlt : h.index < g.slots.toList.length := slot?_lt hs
  have hget : g.slots.toList[h.index] = s := by
    have hget? : g.slots.toList[h.index]? = some s := by simpa [slot?] using hs
    exact (List.getElem?_eq_some_iff.1 hget?).2
  have hlt' : h.index < (g.slots.toList.map Slot.bound).length := by simpa using hlt
  have hold := List.sum_take_add_sum_drop (g.slots.toList.map Slot.bound) h.index
  rw [List.drop_eq_getElem_cons hlt', List.sum_cons, List.getElem_map, hget] at hold
  have hnew : (g.setForward h t).slotBound =
      ((g.slots.toList.map Slot.bound).set h.index 1).sum := by
    rw [slotBound_eq_sum, setForward, Array.toList_setIfInBounds, List.map_set]
    rfl
  rw [hnew, slotBound_eq_sum, List.sum_set, if_pos hlt']
  omega

end Graph

/-- A text has a slot in reserve, for the expression that it has yet to become. -/
def Operand.reserve : Operand → Nat
  | .handle _ => 0
  | .text _ => 1

namespace Grammar

variable {α β : Type} {x : GrammarM α} {a : α} {k k' l : Nat} {left : α → Nat} {left' : β → Nat}

/-! ## The cost of an action -/

/-- What is left in reserve when an action has come to an end. -/
def leftOf (left : α → Nat) : Except Failure α → Nat
  | .ok a => left a
  | .error _ => 0

theorem leftOf_ok : leftOf left (.ok a) = left a := rfl

theorem leftOf_error {e : Failure} : leftOf left (.error e) = 0 := rfl

/-- However it comes out, an action raises the bound on the slots by at most `k`, and what its
result has left in reserve is part of that. -/
def Costs (k : Nat) (left : α → Nat) (x : GrammarM α) : Prop :=
  ∀ g, (x.run.run g).2.graph.slotBound + leftOf left (x.run.run g).1 ≤ g.graph.slotBound + k

/-- A handle leaves nothing in reserve. -/
abbrev CostsAll (k : Nat) (x : GrammarM α) : Prop := Costs k (fun _ => 0) x

namespace Costs

theorem pure (h : left a ≤ k) : Costs k left (pure a) := fun _ => Nat.add_le_add_left h _

theorem throw (e : Failure) : Costs k left (throw e : GrammarM α) := fun _ => Nat.le_add_right _ _

theorem mono (h : Costs k left x) (hk : k ≤ k') : Costs k' left x := fun g =>
  (h g).trans (Nat.add_le_add_left hk _)

/-- The second action may use what the first one has left in reserve. -/
theorem bind {f : α → GrammarM β} (hx : Costs k left x)
    (hf : ∀ a, Costs (left a + l) left' (f a)) : Costs (k + l) left' (x >>= f) := by
  intro g
  have h := hx g
  rw [run_bind]
  rcases hrun : x.run.run g with ⟨e | a, g'⟩ <;> rw [hrun] at h <;> dsimp only at h ⊢
  · rw [leftOf_error] at h ⊢
    omega
  · rw [leftOf_ok] at h
    have hrest := hf a g'
    omega

/-- An action that looks at the grammar goes on with the grammar as it is. -/
theorem get {f : Grammar → GrammarM β} (hf : ∀ g, Costs k left' (f g)) :
    Costs k left' (get >>= f) := by
  intro g
  rw [run_bind, run_get]
  exact hf g g

theorem tryCatch {f : Failure → GrammarM α} (hx : CostsAll k x) (hf : ∀ e, CostsAll 0 (f e)) :
    CostsAll k (tryCatch x f) := by
  intro g
  have h := hx g
  rw [run_tryCatch]
  rcases hrun : x.run.run g with ⟨e | a, g'⟩ <;> rw [hrun] at h <;> dsimp only at h ⊢
  · have hrest := hf e g'
    omega
  · exact h

end Costs

theorem costs_modify {f : Grammar → Grammar} (hf : ∀ g, (f g).graph = g.graph) :
    CostsAll k (modify f : GrammarM Unit) := fun g => by
  rw [run_modify]
  dsimp only
  rw [hf g]
  exact Nat.le_add_right _ _

/-! ## Combinators -/

theorem costs_make (n : Node) : CostsAll 1 (make n) := fun _ => slotBound_make_le

theorem costs_alloc (s : Slot) : CostsAll s.bound (alloc s) := fun _ => slotBound_alloc.le

theorem costs_coerce (o : Operand) : CostsAll o.reserve (coerce o) := by
  cases o with
  | handle h => exact .pure le_rfl
  | text text => exact costs_make _

theorem costs_range (first last : Char) : CostsAll 1 (range first last) := by
  unfold range
  split
  · exact .throw _
  · split <;> exact costs_make _

theorem costs_token (text : String) : CostsAll 1 (token text) := by
  unfold token
  split
  · exact .throw _
  · exact costs_make _

/-- What several operands have in reserve, and one node for each. -/
def reserves (os : List Operand) : Nat := (os.map fun o => o.reserve + 1).sum

theorem reserves_cons (o : Operand) (os : List Operand) :
    reserves (o :: os) = o.reserve + 1 + reserves os := by
  rw [reserves, List.map_cons, List.sum_cons, reserves]

theorem costs_joinFrom (join : Handle → Handle → Node) (acc : Handle) (os : List Operand) :
    CostsAll (reserves os) (joinFrom join acc os) := by
  induction os generalizing acc with
  | nil => exact .pure le_rfl
  | cons o os ih =>
      refine .mono (.bind (costs_coerce o) (l := 1 + reserves os) fun h => ?_) ?_
      · refine .mono (.bind (costs_make _) (l := reserves os) fun acc => ?_) (by omega)
        exact (ih acc).mono (by omega)
      · rw [reserves_cons]
        omega

theorem costs_alternatives (os : List Operand) : CostsAll (reserves os) (alternatives os) := by
  cases os with
  | nil => exact .pure le_rfl
  | cons o os =>
      refine .mono (.bind (costs_coerce o) (l := reserves os) fun h => ?_) ?_
      · exact (costs_joinFrom _ _ _).mono (by omega)
      · rw [reserves_cons]
        omega

theorem costs_sequence (os : List Operand) : CostsAll (reserves os) (sequence os) := by
  cases os with
  | nil => exact .pure le_rfl
  | cons o os =>
      refine .mono (.bind (costs_coerce o) (l := reserves os) fun h => ?_) ?_
      · exact (costs_joinFrom _ _ _).mono (by omega)
      · rw [reserves_cons]
        omega

theorem costs_unary (node : Handle → Node) (o : Operand) :
    CostsAll (o.reserve + 1) (unary node o) :=
  .bind (costs_coerce o) fun _ => (costs_make _).mono (by omega)

theorem costs_plus (o : Operand) : CostsAll (o.reserve + 2) (plus o) :=
  .bind (costs_coerce o) fun h => .mono (k := 1 + 1)
    (.bind (costs_make _) fun _ => (costs_make _).mono (by omega)) (by omega)

theorem costs_rule (name : String) : CostsAll 1 (rule name) := by
  refine .get fun g => ?_
  rcases g.rules.lookup name with _ | h
  · refine .bind (costs_alloc _) (l := 0) fun h => ?_
    exact .bind (k := 0) (costs_modify fun _ => rfl) fun _ => .pure le_rfl
  · exact .pure (Nat.zero_le _)

theorem costs_named (name : String) : CostsAll 0 (named name) := by
  refine .get fun g => ?_
  rcases g.names.lookup name with _ | h
  · exact .throw _
  · exact .pure le_rfl

/-! ## Descriptions -/

theorem costs_asOperand {x : GrammarM Handle} (hx : CostsAll k x) :
    Costs k Operand.reserve (asOperand x) :=
  .bind (l := 0) hx fun _ => .pure le_rfl

theorem costs_iterate (name : String) {layer : GrammarM Operand}
    (hlayer : Costs k Operand.reserve layer) (times : Nat) (h : Handle) :
    CostsAll (times * (k + 1)) (iterate name layer times h) := by
  induction times generalizing h with
  | zero => exact .pure (Nat.zero_le _)
  | succ times ih =>
      refine .mono (.bind (k := 0) (l := k + times * (k + 1)) (costs_modify fun _ => rfl)
        fun _ => ?_) ?_
      · refine .mono (.bind hlayer (l := times * (k + 1)) fun o => ?_) (by omega)
        exact .bind (costs_coerce o) fun h => (ih h).mono (by omega)
      · rw [Nat.succ_mul]
        omega

/-- An operand of a bounded cost is used in one more expression. -/
theorem costs_compound {x : GrammarM Operand} {f : Operand → GrammarM Handle} {cost : Nat}
    (hx : Costs k Operand.reserve x) (hf : ∀ o : Operand, CostsAll (o.reserve + cost) (f o)) :
    Costs (k + cost) Operand.reserve (x >>= fun o => asOperand (f o)) :=
  hx.bind fun o => costs_asOperand (hf o)

mutual

/-- Building a description costs no more than its bound says. -/
theorem costs_build (p : Description) : Costs p.slotBound Operand.reserve (build p) := by
  have hunary {p : Description} (hp : Costs p.slotBound Operand.reserve (build p))
      (node : Handle → Node) :
      Costs (p.slotBound + 3) Operand.reserve (build p >>= fun o => asOperand (unary node o)) :=
    (costs_compound hp fun o => costs_unary node o).mono (by omega)
  cases p with
  | text text => exact .pure le_rfl
  | nil => exact .pure le_rfl
  | empty => exact .pure le_rfl
  | any => exact .pure le_rfl
  | char c => exact costs_asOperand (costs_make _)
  | range first last => exact costs_asOperand (costs_range first last)
  | token text => exact costs_asOperand (costs_token text)
  | lit text => exact costs_asOperand (costs_make _)
  | alternatives ps =>
      exact .bind (l := 0) (costs_buildEach ps) fun os => costs_asOperand (costs_alternatives os)
  | sequence ps =>
      exact .bind (l := 0) (costs_buildEach ps) fun os => costs_asOperand (costs_sequence os)
  | star p => exact hunary (costs_build p) _
  | rep p count => exact hunary (costs_build p) _
  | not p => exact hunary (costs_build p) _
  | plus p => exact (costs_compound (costs_build p) costs_plus).mono (by simp [Description.slotBound])
  | reduction p reducer => exact hunary (costs_build p) _
  | nullability p => exact hunary (costs_build p) _
  | emptyReduction trees => exact costs_asOperand (costs_make _)
  | rule name => exact costs_asOperand (costs_rule name)
  | named name => exact costs_asOperand (costs_named name)
  | suspended body => exact costs_asOperand (costs_alloc _)
  | nest times name layer seed =>
      rw [Description.slotBound, Nat.add_assoc]
      refine .bind (costs_build seed) fun o => ?_
      refine .bind (costs_coerce o) fun h => costs_asOperand ?_
      exact (costs_iterate name (costs_build layer) times h).mono (by omega)
  | malformed ps => exact .bind (l := 0) (costs_buildEach ps) fun _ => .throw _

theorem costs_buildEach (ps : List Description) :
    Costs (Description.slotBounds ps) reserves (buildEach ps) := by
  cases ps with
  | nil => exact .pure le_rfl
  | cons p ps =>
      rw [Description.slotBounds, Nat.add_assoc]
      refine .bind (costs_build p) fun o => ?_
      refine .mono (.bind (costs_buildEach ps) (l := o.reserve + 2) fun os => .pure ?_) (by omega)
      rw [reserves_cons]
      omega

end

/-- Building what a suspended reference stands for costs no more than the bound of its description.
-/
theorem costs_force (body : Description) : CostsAll body.slotBound (force body) := by
  have hexpress : CostsAll body.slotBound (express body) :=
    .bind (l := 0) (costs_build body) fun o => costs_coerce o
  have htry : CostsAll body.slotBound (tryCatch (express body) fun _ => pure .nil) :=
    hexpress.tryCatch fun _ => .pure le_rfl
  have hcount : CostsAll 0 (modify fun g => { g with forced := g.forced + 1 }) :=
    costs_modify fun _ => rfl
  exact (hcount.bind fun _ => htry.mono (Nat.zero_add _).ge).mono (Nat.zero_add _).le

end Grammar

end DerivativeParsing
