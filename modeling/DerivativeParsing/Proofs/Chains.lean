import Mathlib.Data.Finset.Card
import Mathlib.Logic.Relation
import DerivativeParsing.Grammar.Graph

/-!
# Slots and chains of forwards

What the operations on a graph do to its slots, and where chains of forwards lead:

* `Leads g h r` — the chain of forwards from `h` ends at `r`;
* `resolve_eq_some` — `resolve` finds the end of every chain that has one;
* `Graph.references` — what a slot refers to, and `Reaches`, its closure;
* `Graph.WellFormed` — what every operation on a grammar preserves.
-/

set_option autoImplicit false

namespace DerivativeParsing

theorem Handle.ext_index {a b : Handle} (h : a.index = b.index) : a = b := by
  cases a
  cases b
  exact congrArg Handle.mk h

/-- The handles that a slot refers to. -/
def Slot.references : Slot → List Handle
  | .node n => n.children
  | .forward target => [target]
  | _ => []

/-- Whether a slot refers to handles below a bound only, and holds no empty token. -/
def Slot.fits (size : Nat) : Slot → Bool
  | .node (.token []) => false
  | s => s.references.all fun k => decide (k.index < size)

theorem Slot.lt_of_fits {size : Nat} {s : Slot} (hs : s.fits size = true) {k : Handle}
    (hk : k ∈ s.references) : k.index < size := by
  unfold fits at hs
  split at hs
  · cases hk
  · exact of_decide_eq_true (List.all_eq_true.1 hs k hk)

namespace Graph

/-! ## Slots -/

variable {g g' : Graph} {h k p r t : Handle} {s : Slot} {n : Node}

theorem slot?_lt (hs : g.slot? h = some s) : h.index < g.size :=
  (Array.getElem?_eq_some_iff.1 hs).1

theorem slot?_eq_none : g.slot? h = none ↔ g.size ≤ h.index := Array.getElem?_eq_none_iff

@[simp] theorem alloc_fst : (g.alloc s).1 = ⟨g.size⟩ := rfl

@[simp] theorem size_alloc : (g.alloc s).2.size = g.size + 1 := Array.size_push ..

theorem slot?_alloc : (g.alloc s).2.slot? h = if h.index = g.size then some s else g.slot? h :=
  Array.getElem?_push

theorem slot?_alloc_new : (g.alloc s).2.slot? ⟨g.size⟩ = some s := by
  simp [slot?_alloc]

theorem slot?_alloc_old (hlt : h.index < g.size) : (g.alloc s).2.slot? h = g.slot? h := by
  rw [slot?_alloc, if_neg (by omega)]

@[simp] theorem size_setForward : (g.setForward p t).size = g.size := by
  simp [setForward, size]

theorem slot?_setForward_self (hlt : p.index < g.size) :
    (g.setForward p t).slot? p = some (.forward t) := by
  unfold size at hlt
  simp [setForward, slot?, hlt]

theorem slot?_setForward_of_ne (hne : h ≠ p) : (g.setForward p t).slot? h = g.slot? h := by
  have hindex : p.index ≠ h.index := fun he => hne (Handle.ext_index he.symm)
  simp [setForward, slot?, hindex]

@[simp] theorem size_redirect : (g.redirect p t).size = g.size := by
  unfold redirect
  split <;> simp

theorem slot?_redirect_of_ne (hne : h ≠ p) : (g.redirect p t).slot? h = g.slot? h := by
  unfold redirect
  split
  · rfl
  · exact slot?_setForward_of_ne hne

/-- The slots of a graph are still there in another one, and hold what they held. -/
def Extends (g' g : Graph) : Prop :=
  g.size ≤ g'.size ∧ ∀ h : Handle, h.index < g.size → g'.slot? h = g.slot? h

theorem Extends.refl (g : Graph) : g.Extends g := ⟨le_rfl, fun _ _ => rfl⟩

theorem Extends.trans {g'' : Graph} (h₁ : g''.Extends g') (h₂ : g'.Extends g) :
    g''.Extends g :=
  ⟨h₂.1.trans h₁.1, fun h hlt => (h₁.2 h (hlt.trans_le h₂.1)).trans (h₂.2 h hlt)⟩

theorem extends_alloc : (g.alloc s).2.Extends g :=
  ⟨by simp, fun _ => slot?_alloc_old⟩

/-- A node is made either without a new slot or with one. -/
theorem make_cases (g : Graph) (n : Node) :
    (∃ h, g.make n = (h, g) ∧ (h = .nil ∧ n = .nil ∨ h = .empty ∧ n = .empty ∨ h = .any ∧ n = .any)) ∨
      g.make n = g.alloc (.node n) := by
  cases n with
  | nil => exact .inl ⟨.nil, rfl, .inl ⟨rfl, rfl⟩⟩
  | empty => exact .inl ⟨.empty, rfl, .inr (.inl ⟨rfl, rfl⟩)⟩
  | any => exact .inl ⟨.any, rfl, .inr (.inr ⟨rfl, rfl⟩)⟩
  | _ => exact .inr rfl

theorem extends_make : (g.make n).2.Extends g := by
  rcases g.make_cases n with ⟨h, he, -⟩ | he <;> rw [he]
  · exact .refl g
  · exact extends_alloc

theorem stored?_eq_some : g.stored? h = some n ↔ g.slot? h = some (.node n) := by
  unfold stored?
  split <;> simp_all

theorem node_eq (hs : g.slot? h = some (.node n)) : g.node h = n := by
  simp [node, stored?, hs]

/-! ## References -/

/-- The handles that the slot of a handle refers to. -/
def references (g : Graph) (h : Handle) : List Handle :=
  match g.slot? h with
  | some s => s.references
  | none => []

theorem references_eq (hs : g.slot? h = some s) : g.references h = s.references := by
  simp [references, hs]

theorem references_of_node (hs : g.slot? h = some (.node n)) : g.references h = n.children := by
  simp [references, hs, Slot.references]

theorem references_of_forward (hs : g.slot? h = some (.forward t)) : g.references h = [t] := by
  simp [references, hs, Slot.references]

theorem slot?_of_mem_references (hk : k ∈ g.references h) : ∃ s, g.slot? h = some s := by
  unfold references at hk
  split at hk
  · next s hs => exact ⟨s, hs⟩
  · cases hk

/-- One handle can be reached from another through operands and forwards. -/
def Reaches (g : Graph) : Handle → Handle → Prop :=
  Relation.ReflTransGen fun h k => k ∈ g.references h

/-- A set of handles that contains whatever its handles refer to. -/
def Closed (g : Graph) (D : Set Handle) : Prop := ∀ h ∈ D, ∀ k ∈ g.references h, k ∈ D

theorem closed_reaches (g : Graph) (root : Handle) : g.Closed {h | g.Reaches root h} :=
  fun _ hh _ hk => hh.tail hk

theorem closed_of_list {l : List Handle} (hl : ∀ h ∈ l, ∀ k ∈ g.references h, k ∈ l) :
    g.Closed {h | h ∈ l} := hl

theorem Closed.of_reaches {D : Set Handle} (hD : g.Closed D) (hh : h ∈ D)
    (hk : g.Reaches h k) : k ∈ D := by
  induction hk with
  | refl => exact hh
  | tail _ hstep ih => exact hD _ ih _ hstep

/-- Nothing that can be reached from a handle can be reached from itself again. -/
def Tame (g : Graph) (h : Handle) : Prop :=
  ∀ k, g.Reaches h k → ¬ Relation.TransGen (fun h k => k ∈ g.references h) k k

theorem Tame.reaches (hh : g.Tame h) (hk : g.Reaches h k) : g.Tame k :=
  fun k' hk' => hh k' (hk.trans hk')

/-- No cycle can be reached where everything refers to handles of a lower rank. -/
theorem tame_of_rank {l : List Handle} (rank : Handle → Nat)
    (hl : ∀ h ∈ l, ∀ k ∈ g.references h, k ∈ l ∧ rank k < rank h) (hh : h ∈ l) : g.Tame h := by
  have hclosed : g.Closed {h | h ∈ l} := fun h hh k hk => (hl h hh k hk).1
  intro k hk hcycle
  have hkl : k ∈ l := hclosed.of_reaches hh hk
  have hlt : ∀ k', Relation.TransGen (fun h k => k ∈ g.references h) k k' →
      k' ∈ l ∧ rank k' < rank k := fun k' hk' => by
    induction hk' with
    | single hstep => exact hl k hkl _ hstep
    | tail _ hstep ih =>
        obtain ⟨hmem, hlt⟩ := hl _ ih.1 _ hstep
        exact ⟨hmem, hlt.trans ih.2⟩
  exact lt_irrefl _ (hlt k hcycle).2

/-- No cycle can be reached where everything refers to earlier slots. -/
theorem tame_of_list {l : List Handle}
    (hl : ∀ h ∈ l, ∀ k ∈ g.references h, k ∈ l ∧ k.index < h.index) (hh : h ∈ l) : g.Tame h :=
  tame_of_rank Handle.index hl hh

/-! ## Chains of forwards -/

/-- The chain of forwards from a handle ends at another. -/
inductive Leads (g : Graph) : Handle → Handle → Prop where
  | here {h : Handle} (hend : ∀ t, g.slot? h ≠ some (.forward t)) : Leads g h h
  | step {h t r : Handle} (hs : g.slot? h = some (.forward t)) (hrest : Leads g t r) : Leads g h r

namespace Leads

theorem end_ne_forward (hl : g.Leads h r) : ∀ t, g.slot? r ≠ some (.forward t) := by
  induction hl with
  | here hend => exact hend
  | step _ _ ih => exact ih

theorem self_end (hl : g.Leads h r) : g.Leads r r := .here hl.end_ne_forward

/-- A chain has one end. -/
theorem unique {r' : Handle} (hl : g.Leads h r) (hl' : g.Leads h r') : r = r' := by
  induction hl with
  | here hend =>
      cases hl' with
      | here => rfl
      | step hs => exact absurd hs (hend _)
  | step hs _ ih =>
      cases hl' with
      | here hend => exact absurd hs (hend _)
      | step hs' hrest' =>
          rw [hs] at hs'
          cases hs'
          exact ih hrest'

theorem of_node (hs : g.slot? h = some (.node n)) : g.Leads h h := .here fun t => by simp [hs]

theorem of_forward (hs : g.slot? h = some (.forward t)) (hl : g.Leads h r) : g.Leads t r := by
  cases hl with
  | here hend => exact absurd hs (hend t)
  | step hs' hrest =>
      rw [hs] at hs'
      cases hs'
      exact hrest

theorem reaches (hl : g.Leads h r) : g.Reaches h r := by
  induction hl with
  | here => exact .refl
  | step hs _ ih => exact .head (by simp [references_of_forward hs]) ih

/-- Where a chain leads depends on the forwards of the chain alone. -/
theorem congr {D : Set Handle} (hD : g.Closed D) (hg : ∀ h ∈ D, g'.slot? h = g.slot? h)
    (hl : g.Leads h r) (hh : h ∈ D) : g'.Leads h r := by
  induction hl with
  | here hend => exact .here fun t => by rw [hg _ hh]; exact hend t
  | step hs _ ih =>
      exact .step ((hg _ hh).trans hs) (ih (hD _ hh _ (by simp [references_of_forward hs])))

end Leads

theorem resolveWithin_succ_of_forward {steps : Nat} (hs : g.slot? h = some (.forward t)) :
    g.resolveWithin (steps + 1) h = g.resolveWithin steps t := by
  rw [resolveWithin, hs]

theorem resolveWithin_succ_of_end {steps : Nat} (hend : ∀ t, g.slot? h ≠ some (.forward t)) :
    g.resolveWithin (steps + 1) h = some h := by
  rw [resolveWithin]
  split
  · next t ht => exact absurd ht (hend t)
  · rfl

theorem leads_of_resolveWithin {steps : Nat} (hr : g.resolveWithin steps h = some r) :
    g.Leads h r := by
  induction steps generalizing h with
  | zero => cases hr
  | succ steps ih =>
      by_cases hf : ∃ t, g.slot? h = some (.forward t)
      · obtain ⟨t, ht⟩ := hf
        rw [resolveWithin_succ_of_forward ht] at hr
        exact .step ht (ih hr)
      · have hend : ∀ t, g.slot? h ≠ some (.forward t) := fun t ht => hf ⟨t, ht⟩
        rw [resolveWithin_succ_of_end hend] at hr
        cases hr
        exact .here hend

theorem resolveWithin_mono {steps steps' : Nat} (hr : g.resolveWithin steps h = some r)
    (hle : steps ≤ steps') : g.resolveWithin steps' h = some r := by
  induction steps generalizing h steps' with
  | zero => cases hr
  | succ steps ih =>
      obtain ⟨steps', rfl⟩ := Nat.exists_eq_add_of_le' (Nat.le_of_add_left_le hle)
      by_cases hf : ∃ t, g.slot? h = some (.forward t)
      · obtain ⟨t, ht⟩ := hf
        rw [resolveWithin_succ_of_forward ht] at hr ⊢
        exact ih hr (by omega)
      · have hend : ∀ t, g.slot? h ≠ some (.forward t) := fun t ht => hf ⟨t, ht⟩
        rw [resolveWithin_succ_of_end hend] at hr ⊢
        exact hr

/-- The forwards of a chain that ends are all different: each is closer to the end than the ones
before it. -/
theorem Leads.passed (hl : g.Leads h r) :
    ∃ passed : List Handle, passed.Nodup ∧ (∀ k ∈ passed, k.index < g.size) ∧
      g.resolveWithin (passed.length + 1) h = some r ∧
      g.resolveWithin passed.length h = none ∧
      ∀ k ∈ passed, g.resolveWithin (passed.length + 1) k ≠ none := by
  induction hl with
  | here hend => exact ⟨[], .nil, by simp, resolveWithin_succ_of_end hend, rfl, by simp⟩
  | @step h t r hs _ ih =>
      obtain ⟨passed, hnodup, hlt, hr, hnone, hclose⟩ := ih
      have hh : g.resolveWithin (passed.length + 1) h = none := by
        rw [resolveWithin_succ_of_forward hs, hnone]
      refine ⟨h :: passed, List.nodup_cons.2 ⟨fun hmem => hclose h hmem hh, hnodup⟩, ?_, ?_, hh, ?_⟩
      · simpa using ⟨slot?_lt hs, hlt⟩
      · rw [List.length_cons, resolveWithin_succ_of_forward hs, hr]
      · intro k hk
        rcases List.mem_cons.1 hk with rfl | hk
        · rw [List.length_cons, resolveWithin_succ_of_forward hs, hr]
          simp
        · obtain ⟨r', hr'⟩ := Option.ne_none_iff_exists'.1 (hclose k hk)
          rw [resolveWithin_mono hr' (by simp)]
          simp

/-- A list of different handles of a graph is no longer than the graph. -/
theorem length_le_size {passed : List Handle} (hnodup : passed.Nodup)
    (hlt : ∀ k ∈ passed, k.index < g.size) : passed.length ≤ g.size := by
  have hindex : (passed.map Handle.index).Nodup :=
    hnodup.map fun _ _ he => Handle.ext_index he
  have hsub : (passed.map Handle.index) ⊆ List.range g.size := fun i hi => by
    obtain ⟨k, hk, rfl⟩ := List.mem_map.1 hi
    exact List.mem_range.2 (hlt k hk)
  simpa using (hindex.subperm hsub).length_le

/-- `resolve` finds the end of every chain that has one. -/
theorem resolve_eq_some : g.resolve h = some r ↔ g.Leads h r := by
  refine ⟨leads_of_resolveWithin, fun hl => ?_⟩
  obtain ⟨passed, hnodup, hlt, hr, -, -⟩ := hl.passed
  exact resolveWithin_mono hr (Nat.succ_le_succ (length_le_size hnodup hlt))

theorem nodeAt_eq_some {m : Node} :
    g.nodeAt h = some m ↔ ∃ r, g.Leads h r ∧ g.node r = m := by
  simp [nodeAt, resolve_eq_some]

/-! ## Well-formed graphs -/

/-- The three fixed expressions stand where their handles say, references stay within the graph,
and tokens have at least one character. -/
structure WellFormed (g : Graph) : Prop where
  nil : g.slot? .nil = some (.node .nil)
  empty : g.slot? .empty = some (.node .empty)
  any : g.slot? .any = some (.node .any)
  inRange : ∀ h, ∀ k ∈ g.references h, k.index < g.size
  tokens : ∀ h, g.slot? h ≠ some (.node (.token []))

namespace WellFormed

theorem nil_lt (hg : g.WellFormed) : Handle.nil.index < g.size := slot?_lt hg.nil

theorem empty_lt (hg : g.WellFormed) : Handle.empty.index < g.size := slot?_lt hg.empty

theorem any_lt (hg : g.WellFormed) : Handle.any.index < g.size := slot?_lt hg.any

theorem closed_lt (hg : g.WellFormed) : g.Closed {h | h.index < g.size} :=
  fun h _ k hk => hg.inRange h k hk

theorem lt_of_reaches (hg : g.WellFormed) (hh : h.index < g.size) (hk : g.Reaches h k) :
    k.index < g.size := hg.closed_lt.of_reaches hh hk

theorem alloc (hg : g.WellFormed) (hs : ∀ k ∈ s.references, k.index ≤ g.size)
    (htoken : s ≠ .node (.token [])) : (g.alloc s).2.WellFormed where
  nil := (slot?_alloc_old hg.nil_lt).trans hg.nil
  empty := (slot?_alloc_old hg.empty_lt).trans hg.empty
  any := (slot?_alloc_old hg.any_lt).trans hg.any
  inRange h k hk := by
    obtain ⟨s', hs'⟩ := slot?_of_mem_references hk
    rw [references_eq hs'] at hk
    rw [slot?_alloc] at hs'
    rw [size_alloc]
    split at hs'
    · cases hs'
      exact Nat.lt_succ_of_le (hs k hk)
    · have hlt := hg.inRange h k (by rw [references_eq hs']; exact hk)
      omega
  tokens h ht := by
    rw [slot?_alloc] at ht
    split at ht
    · exact htoken (Option.some.inj ht)
    · exact hg.tokens h ht

theorem make (hg : g.WellFormed) (hn : ∀ k ∈ n.children, k.index < g.size)
    (htoken : n ≠ .token []) : (g.make n).2.WellFormed := by
  rcases g.make_cases n with ⟨h, he, -⟩ | he <;> rw [he]
  · exact hg
  · exact hg.alloc (fun k hk => (hn k hk).le) fun he => htoken (Slot.node.inj he)

/-- The slot of a made node. -/
theorem slot?_make (hg : g.WellFormed) : (g.make n).2.slot? (g.make n).1 = some (.node n) := by
  rcases g.make_cases n with ⟨h, he, ⟨rfl, rfl⟩ | ⟨rfl, rfl⟩ | ⟨rfl, rfl⟩⟩ | he <;> rw [he]
  · exact hg.nil
  · exact hg.empty
  · exact hg.any
  · exact slot?_alloc_new

/-- Turning a slot into a forward keeps a graph well-formed, unless the slot is one of the fixed
ones. -/
theorem setForward (hg : g.WellFormed) (ht : t.index < g.size)
    (hp : ∀ n, g.slot? p ≠ some (.node n)) : (g.setForward p t).WellFormed := by
  have hne {h : Handle} {n : Node} (hs : g.slot? h = some (.node n)) : h ≠ p :=
    fun he => hp n (he ▸ hs)
  constructor
  · rw [slot?_setForward_of_ne (hne hg.nil), hg.nil]
  · rw [slot?_setForward_of_ne (hne hg.empty), hg.empty]
  · rw [slot?_setForward_of_ne (hne hg.any), hg.any]
  · intro h k hk
    rw [size_setForward]
    rcases eq_or_ne h p with rfl | hhp
    · obtain ⟨s, hs⟩ := slot?_of_mem_references hk
      have hlt : h.index < g.size := by simpa using slot?_lt hs
      rw [references_of_forward (slot?_setForward_self hlt), List.mem_singleton] at hk
      exact hk ▸ ht
    · refine hg.inRange h k ?_
      unfold references at hk ⊢
      rwa [slot?_setForward_of_ne hhp] at hk
  · intro h hs
    rcases eq_or_ne h p with rfl | hhp
    · have hlt : h.index < g.size := by simpa using slot?_lt hs
      rw [slot?_setForward_self hlt] at hs
      cases hs
    · rw [slot?_setForward_of_ne hhp] at hs
      exact hg.tokens h hs

theorem redirect (hg : g.WellFormed) (ht : t.index < g.size)
    (hp : ∀ n, g.slot? p ≠ some (.node n)) : (g.redirect p t).WellFormed := by
  unfold Graph.redirect
  split
  · exact hg
  · exact hg.setForward ht hp

end WellFormed

/-- A graph whose slots fit is well-formed, which decides it for a given graph. -/
theorem WellFormed.of_fits (hnil : g.slot? .nil = some (.node .nil))
    (hempty : g.slot? .empty = some (.node .empty)) (hany : g.slot? .any = some (.node .any))
    (hfits : ∀ s ∈ g.slots.toList, s.fits g.size = true) : g.WellFormed where
  nil := hnil
  empty := hempty
  any := hany
  inRange h k hk := by
    obtain ⟨s, hs⟩ := slot?_of_mem_references hk
    rw [references_eq hs] at hk
    exact Slot.lt_of_fits (hfits s (Array.mem_toList_iff.2 (Array.mem_of_getElem? hs))) hk
  tokens h hs :=
    absurd (hfits _ (Array.mem_toList_iff.2 (Array.mem_of_getElem? hs))) (by simp [Slot.fits])

theorem wellFormed_initial : initial.WellFormed where
  nil := rfl
  empty := rfl
  any := rfl
  inRange h k hk := by
    obtain ⟨s, hs⟩ := slot?_of_mem_references hk
    rw [references_eq hs] at hk
    rcases h with ⟨_ | _ | _ | i⟩ <;> cases hs <;> cases hk
  tokens h hs := by
    rcases h with ⟨_ | _ | _ | i⟩ <;> cases hs

end Graph

end DerivativeParsing
