import DerivativeParsing.Transform.Derivative
import DerivativeParsing.Proofs.Tameness

/-!
# The graph of a derivative

The derivative of a node is a small piece of graph made of nodes that are new, operands of the node,
and what its operands were answered with (`Derived`).  An operand that was answered while its rule
was still running was answered with its placeholder, which leads to the derivative of the operand in
the end (`Stands`).

The derivative of a single repetition is the derivative of its operand, so that it may be a
placeholder itself.  `Source` says where such a chain of repetitions comes from.

`Differentiated` collects what the graph of a derivative looks like when nothing is left running,
and `derivative_differentiates` says that it comes to that.
-/

set_option autoImplicit false

namespace DerivativeParsing

open Fixpoint DerivativeParsing.Graph

/-! ## The derivative of a node -/

/-- No word of a node starts with a character, and the rule of the derivative knows that. -/
def Node.Dead (c : Char) : Node → Prop
  | .nil | .empty | .nullability _ | .emptyReduction _ | .token [] | .rep _ (.exactly 0) => True
  | .char v => v ≠ c
  | .range first last => ¬ (first ≤ c ∧ c ≤ last)
  | .token (first :: _) => first ≠ c
  | _ => False

/-- The node that stands for a character that was consumed. -/
def consumed (c : Char) : Node := .emptyReduction (.singleton (.char c))

theorem consumed_hasTree {c : Char} (f : Forest) (hf : consumed c = .emptyReduction f) :
    f.HasTree := by
  cases hf
  exact Forest.hasTree_singleton

/-- What the derivative of a node by `c` looks like, where `ans` says what operands were answered
with and `self` is the node's own handle. -/
inductive Derived (c : Char) (g : Graph) (ans : Handle → Handle → Prop) (self : Handle) :
    Node → Handle → Prop where
  | dead {n : Node} (hn : n.Dead c) : Derived c g ans self n .nil
  | any : Derived c g ans self .any .empty
  | char {v : Handle} (hv : g.slot? v = some (.node (consumed c))) :
      Derived c g ans self (.char c) v
  | range {first last : Char} {v : Handle} (hfirst : first ≤ c) (hlast : c ≤ last)
      (hv : g.slot? v = some (.node (consumed c))) : Derived c g ans self (.range first last) v
  | token {rest : List Char} {x y v : Handle} (hx : g.slot? x = some (.node (consumed c)))
      (hy : g.slot? y = some (.node (Grammar.literalNode rest)))
      (hv : g.slot? v = some (.node (.seq x y))) : Derived c g ans self (.token (c :: rest)) v
  | alt {left right a b v : Handle} (ha : ans left a) (hb : ans right b)
      (hv : g.slot? v = some (.node (.alt a b))) : Derived c g ans self (.alt left right) v
  | seq {first second a b x y z v : Handle} (ha : ans first a) (hb : ans second b)
      (hx : g.slot? x = some (.node (.seq a second)))
      (hy : g.slot? y = some (.node (.nullability first)))
      (hz : g.slot? z = some (.node (.seq y b))) (hv : g.slot? v = some (.node (.alt x z))) :
      Derived c g ans self (.seq first second) v
  | not {operand a v : Handle} (ha : ans operand a) (hv : g.slot? v = some (.node (.not a))) :
      Derived c g ans self (.not operand) v
  | star {operand a x v : Handle} (ha : ans operand a) (hx : g.slot? x = some (.node (.seq a self)))
      (hv : g.slot? v = some (.node (.reduction x .prepend))) :
      Derived c g ans self (.star operand) v
  | unbounded {operand a x v : Handle} (ha : ans operand a)
      (hx : g.slot? x = some (.node (.seq a self)))
      (hv : g.slot? v = some (.node (.reduction x .prepend))) :
      Derived c g ans self (.rep operand .unbounded) v
  | once {operand a : Handle} (ha : ans operand a) :
      Derived c g ans self (.rep operand (.exactly 1)) a
  | twice {operand a v : Handle} (ha : ans operand a)
      (hv : g.slot? v = some (.node (.seq a operand))) :
      Derived c g ans self (.rep operand (.exactly 2)) v
  | more {operand a x y v : Handle} {n : Nat} (ha : ans operand a)
      (hx : g.slot? x = some (.node (.rep operand (.exactly (n + 2)))))
      (hy : g.slot? y = some (.node (.seq a x)))
      (hv : g.slot? v = some (.node (.reduction y .prepend))) :
      Derived c g ans self (.rep operand (.exactly (n + 3))) v
  | reduction {operand a v : Handle} {reducer : Reducer} (ha : ans operand a)
      (hv : g.slot? v = some (.node (.reduction a reducer))) :
      Derived c g ans self (.reduction operand reducer) v

section Structure

variable {c : Char} {g₀ g₁ g g' : Graph} {S : Set Handle} {ans ans' : Handle → Handle → Prop}
  {m m' : Memory Handle Handle} {key self p r v a y z w : Handle} {n : Node}

/-- Nodes that stay keep a derivative as it is. -/
theorem Derived.mono (h : Derived c g ans self n v) (hg : g.Retains g')
    (hans : ∀ z a, ans z a → ans' z a) : Derived c g' ans' self n v := by
  cases h with
  | dead hn => exact .dead hn
  | any => exact .any
  | char hv => exact .char (hg.node _ _ hv)
  | range hfirst hlast hv => exact .range hfirst hlast (hg.node _ _ hv)
  | token hx hy hv => exact .token (hg.node _ _ hx) (hg.node _ _ hy) (hg.node _ _ hv)
  | alt ha hb hv => exact .alt (hans _ _ ha) (hans _ _ hb) (hg.node _ _ hv)
  | seq ha hb hx hy hz hv =>
      exact .seq (hans _ _ ha) (hans _ _ hb) (hg.node _ _ hx) (hg.node _ _ hy) (hg.node _ _ hz)
        (hg.node _ _ hv)
  | not ha hv => exact .not (hans _ _ ha) (hg.node _ _ hv)
  | star ha hx hv => exact .star (hans _ _ ha) (hg.node _ _ hx) (hg.node _ _ hv)
  | unbounded ha hx hv => exact .unbounded (hans _ _ ha) (hg.node _ _ hx) (hg.node _ _ hv)
  | once ha => exact .once (hans _ _ ha)
  | twice ha hv => exact .twice (hans _ _ ha) (hg.node _ _ hv)
  | more ha hx hy hv => exact .more (hans _ _ ha) (hg.node _ _ hx) (hg.node _ _ hy) (hg.node _ _ hv)
  | reduction ha hv => exact .reduction (hans _ _ ha) (hg.node _ _ hv)

/-! ## Answers and placeholders -/

/-- A handle was given for the derivative of a key: it is the derivative, or the placeholder. -/
def Stands (m : Memory Handle Handle) (g : Graph) (y a : Handle) : Prop :=
  m.Holds y a ∨ ∃ v, m.Finished y v ∧ g.slot? a = some (.forward v) ∧ ∀ z, ¬ m.Underway z a

/-- A handle was given for the derivative of an operand. -/
def StandsFor (g₀ : Graph) (m : Memory Handle Handle) (g : Graph) (z a : Handle) : Prop :=
  ∃ r, g₀.Leads z r ∧ Stands m g r a

/-- Where the derivative of a key comes from if single repetitions are followed. -/
inductive Source (c : Char) (g₀ : Graph) (m : Memory Handle Handle) (g : Graph) :
    Handle → Handle → Prop where
  /-- It was made. -/
  | made {y v : Handle} {n : Node} (hs : g₀.slot? y = some (.node n))
      (hn : ∀ z, n ≠ .rep z (.exactly 1)) (hv : Derived c g (StandsFor g₀ m g) y n v) :
      Source c g₀ m g y v
  /-- It is the derivative of the operand. -/
  | once {y z r v : Handle} (hs : g₀.slot? y = some (.node (.rep z (.exactly 1))))
      (hl : g₀.Leads z r) (hv : Source c g₀ m g r v) : Source c g₀ m g y v
  /-- It is the placeholder of a rule that is running. -/
  | held {y a : Handle} (h : m.Underway y a) : Source c g₀ m g y a
  /-- It is a placeholder that has been sent on to the derivative. -/
  | sent {y a v : Handle} (h : m.Finished y v) (hs : g.slot? a = some (.forward v))
      (ha : ∀ z, ¬ m.Underway z a) : Source c g₀ m g y a
  /-- It is a placeholder that has become its own result. -/
  | stuck {y a : Handle} (hs : g.slot? a = some (.forward .nil)) (ha : ∀ z, ¬ m.Underway z a) :
      Source c g₀ m g y a

/-- What is known of a derivative, where it is known what the operands were answered with. -/
structure Origin (c : Char) (g₀ : Graph) (m : Memory Handle Handle) (g : Graph) (y v : Handle) :
    Prop where
  derived : ∃ n, g₀.slot? y = some (.node n) ∧ Derived c g (StandsFor g₀ m g) y n v
  source : Source c g₀ m g y v

/-- It is known of all derivatives that are finished where they come from. -/
def OriginInv (c : Char) (g₀ : Graph) (m : Memory Handle Handle) (g : Graph) : Prop :=
  ∀ y v, m.Finished y v → Origin c g₀ m g y v

/-- What holds of the derivatives that are finished. -/
structure DerivedInv (c : Char) (g₀ : Graph) (S : Set Handle) (m : Memory Handle Handle)
    (g : Graph) : Prop where
  origins : OriginInv c g₀ m g
  firm : FirmInv g₀ S m g

theorem DerivedInv.derived (h : DerivedInv c g₀ S m g) (hv : m.Finished y v) :
    ∃ n, g₀.slot? y = some (.node n) ∧ Derived c g (StandsFor g₀ m g) y n v :=
  (h.origins y v hv).derived

theorem DerivedInv.source (h : DerivedInv c g₀ S m g) (hv : m.Finished y v) :
    Source c g₀ m g y v := (h.origins y v hv).source

/-! ## What happens to answers -/

theorem StandsFor.mono (hstands : ∀ y a, Stands m g y a → Stands m' g' y a)
    (h : StandsFor g₀ m g z a) : StandsFor g₀ m' g' z a :=
  h.imp fun _ => And.imp_right (hstands _ _)

theorem Source.mono (h : Source c g₀ m g y v) (hretains : g.Retains g')
    (hstands : ∀ y a, Stands m g y a → Stands m' g' y a)
    (hheld : ∀ y a, m.Underway y a → Source c g₀ m' g' y a)
    (hslot : ∀ a t, g.slot? a = some (.forward t) → (∀ z, ¬ m.Underway z a) →
      g'.slot? a = some (.forward t) ∧ ∀ z, ¬ m'.Underway z a)
    (hfinished : ∀ y v, m.Finished y v → m'.Finished y v) : Source c g₀ m' g' y v := by
  induction h with
  | made hs hn hv => exact .made hs hn (hv.mono hretains fun z a => StandsFor.mono hstands)
  | once hs hl _ ih => exact .once hs hl ih
  | held h => exact hheld _ _ h
  | sent h hs ha =>
      obtain ⟨hs', ha'⟩ := hslot _ _ hs ha
      exact .sent (hfinished _ _ h) hs' ha'
  | stuck hs ha =>
      obtain ⟨hs', ha'⟩ := hslot _ _ hs ha
      exact .stuck hs' ha'

/-- Adding slots and starting rules leaves answers what they are. -/
theorem Stands.extend (h : Stands m g y a) (hkept : g'.Extends g)
    (hfinished : ∀ y v, m.Finished y v → m'.Finished y v)
    (hunderway : ∀ y p, m.Underway y p → m'.Underway y p)
    (hnew : ∀ y p, m'.Underway y p → m.Underway y p ∨ g.size ≤ p.index) : Stands m' g' y a := by
  rcases h with h | ⟨v, hv, hs, ha⟩
  · rcases Memory.holds_iff.1 h with h | h
    · exact .inl (hfinished y a h).holds
    · exact .inl (hunderway y a h).holds
  · have hlt := slot?_lt hs
    refine .inr ⟨v, hfinished y v hv, (hkept.2 a hlt).trans hs, fun z hz => ?_⟩
    rcases hnew z a hz with hz | hle
    · exact ha z hz
    · omega

theorem OriginInv.extend (h : OriginInv c g₀ m g) (hkept : g'.Extends g)
    (hfinished : ∀ y v, m'.Finished y v ↔ m.Finished y v)
    (hunderway : ∀ y p, m.Underway y p → m'.Underway y p)
    (hnew : ∀ y p, m'.Underway y p → m.Underway y p ∨ g.size ≤ p.index) : OriginInv c g₀ m' g' := by
  have hstands : ∀ y a, Stands m g y a → Stands m' g' y a := fun y a ha =>
    ha.extend hkept (fun y v => (hfinished y v).2) hunderway hnew
  have hretains := Retains.of_extends hkept
  intro y v hv
  obtain ⟨⟨n, hs, hd⟩, hsource⟩ := h y v ((hfinished y v).1 hv)
  refine ⟨⟨n, hs, hd.mono hretains fun z a => StandsFor.mono hstands⟩, ?_⟩
  refine hsource.mono hretains hstands (fun y a ha => .held (hunderway y a ha))
    (fun a t hs ha => ?_) fun y v => (hfinished y v).2
  have hlt := slot?_lt hs
  refine ⟨(hkept.2 a hlt).trans hs, fun z hz => ?_⟩
  rcases hnew z a hz with hz | hle
  · exact ha z hz
  · omega

theorem DerivedInv.extend (h : DerivedInv c g₀ S m g) (hkept : g'.Extends g)
    (hfinished : ∀ y v, m'.Finished y v ↔ m.Finished y v)
    (hunderway : ∀ y p, m.Underway y p → m'.Underway y p)
    (hnew : ∀ y p, m'.Underway y p → m.Underway y p ∨ g.size ≤ p.index)
    (hfirm : FirmInv g₀ S m' g') : DerivedInv c g₀ S m' g' :=
  ⟨h.origins.extend hkept hfinished hunderway hnew, hfirm⟩

/-- The placeholder of a key that is settled stands for the key as before. -/
theorem Stands.settle (h : Stands m g y a) (hw : Working g₀ S (fun _ => .nil) m g)
    (hp : m.Underway key p) : Stands (m.finish key p v) (g.redirect p v) y a := by
  have hfinished {y w : Handle} (hy : m.Finished y w) : (m.finish key p v).Finished y w :=
    Memory.finished_finish_iff.2 (.inr ⟨fun he => hp.not_finished (he ▸ hy), hy⟩)
  rcases h with h | ⟨w, hw', hs, ha⟩
  · rcases Memory.holds_iff.1 h with h | h
    · exact .inl (hfinished h).holds
    · rcases eq_or_ne y key with rfl | hne
      · obtain rfl := h.unique hp
        have hslot := hw.slot?_placeholder (v := v) hp
        split at hslot
        · next he =>
            subst he
            exact .inl (Memory.Finished.holds Memory.finished_finish)
        · refine .inr ⟨v, Memory.finished_finish, hslot, fun z hz => ?_⟩
          obtain ⟨hzne, hz⟩ := Memory.underway_finish_iff.1 hz
          exact hzne (hw.distinct z y a hz hp)
      · exact .inl (Memory.underway_finish_iff.2 ⟨hne, h⟩).holds
  · have hap : a ≠ p := fun he => ha key (he ▸ hp)
    exact .inr ⟨w, hfinished hw', (slot?_redirect_of_ne hap).trans hs,
      fun z hz => ha z (Memory.underway_finish_iff.1 hz).2⟩

/-- When a rule ends with a derivative, it is known of that derivative too where it comes from. -/
theorem OriginInv.settle (h : OriginInv c g₀ m g) (hw : Working g₀ S (fun _ => .nil) m g)
    (hp : m.Underway key p) (hresult : Origin c g₀ m g key v) :
    OriginInv c g₀ (m.finish key p v) (g.redirect p v) := by
  have hretains : g.Retains (g.redirect p v) := .of_redirect (hw.placeholder key p hp).2
  have hstands : ∀ y a, Stands m g y a → Stands (m.finish key p v) (g.redirect p v) y a :=
    fun y a ha => ha.settle hw hp
  have hsource {y w : Handle} (hs : Source c g₀ m g y w) :
      Source c g₀ (m.finish key p v) (g.redirect p v) y w := by
    refine hs.mono hretains hstands (fun y a ha => ?_) (fun a t hs ha => ?_) fun y w hy => ?_
    · rcases eq_or_ne y key with rfl | hne
      · obtain rfl := ha.unique hp
        have hslot := hw.slot?_placeholder (v := v) hp
        have hnone : ∀ z, ¬ (m.finish y a v).Underway z a := fun z hz => by
          obtain ⟨hzne, hz⟩ := Memory.underway_finish_iff.1 hz
          exact hzne (hw.distinct z y a hz hp)
        split at hslot
        · exact .stuck hslot hnone
        · exact .sent Memory.finished_finish hslot hnone
      · exact .held (Memory.underway_finish_iff.2 ⟨hne, ha⟩)
    · have hap : a ≠ p := fun he => ha key (he ▸ hp)
      exact ⟨(slot?_redirect_of_ne hap).trans hs,
        fun z hz => ha z (Memory.underway_finish_iff.1 hz).2⟩
    · exact Memory.finished_finish_iff.2 (.inr ⟨fun he => hp.not_finished (he ▸ hy), hy⟩)
  intro y w hy
  have horigin : Origin c g₀ m g y w := by
    rcases Memory.finished_finish_iff.1 hy with ⟨rfl, rfl⟩ | ⟨-, hy⟩
    · exact hresult
    · exact h y w hy
  obtain ⟨⟨n, hs, hd⟩, hw⟩ := horigin
  exact ⟨⟨n, hs, hd.mono hretains fun z a => StandsFor.mono hstands⟩, hsource hw⟩

/-- What is known of the derivative of a key when its rule ends. -/
structure DerivedResult (c : Char) (g₀ : Graph) (m : Memory Handle Handle) (g : Graph)
    (key v : Handle) : Prop where
  origin : Origin c g₀ m g key v
  firm : g₀.Tame key → g.Firm g₀.size v

theorem DerivedInv.settle (h : DerivedInv c g₀ S m g) (hw : Working g₀ S (fun _ => .nil) m g)
    (hp : m.Underway key p) (hv : v ∈ grown g₀ S g) (hresult : DerivedResult c g₀ m g key v) :
    DerivedInv c g₀ S (m.finish key p v) (g.redirect p v) :=
  ⟨h.origins.settle hw hp hresult.origin, h.firm.settle hw hp hv hresult.firm⟩

/-! ## What the rules make -/

section Rule

variable {Inv : Memory Handle Handle → Graph → Prop} {t : Node}

theorem AnswerFor.standsFor (h : AnswerFor g₀ m z a) : StandsFor g₀ m g z a := by
  obtain ⟨r, hl, ha⟩ := h
  exact ⟨r, hl, .inl ha.holds⟩

/-- The rule of a derivative, which keeps `DerivedInv`. -/
abbrev Deriving (c : Char) (g₀ : Graph) (S : Set Handle) :=
  Running g₀ S (fun _ => .nil) (DerivedInv c g₀ S)

namespace Deriving

/-- A rule makes a node. -/
theorem make (h : Deriving c g₀ S key p n g₁ m g) (hn : ∀ k ∈ t.children, k ∈ grown g₀ S g)
    (htoken : t ≠ .token []) (hnot : ∀ q, t = .not q → g.Firm g₀.size q)
    (htrees : ∀ f, t = .emptyReduction f → f.HasTree) (hfits : g₀.Fits S → t.Fits) :
    Deriving c g₀ S key p n g₁ m (g.make t).2 := by
  have hbuilds : Builds (grown g₀ S g) (· = t) g (g.make t).2 := .make hn rfl
  have htoken' : ¬ (Node.token [] = t) := fun he => htoken he.symm
  refine h.build hbuilds htoken' (h.inv.extend extends_make (fun _ _ => .rfl) (fun _ _ => id)
    (fun _ _ => .inl) ?_)
  refine h.inv.firm.build h.working hbuilds htoken' (fun q hq => ?_)
    (fun f hf _ => htrees f hf.symm) fun _ hn hS => hn ▸ hfits hS
  exact (hnot q hq.symm).retained
    (fun k hlt => extends_make.2 k (hlt.trans_le h.working.kept.1)) (.of_extends extends_make)

theorem slot?_make (h : Deriving c g₀ S key p n g₁ m g) :
    (g.make t).2.slot? (g.make t).1 = some (.node t) := h.working.wellFormed.slot?_make

/-- What has to be shown of the result of a rule. -/
abbrev Post (c : Char) (g₀ : Graph) (S : Set Handle) (key : Handle) (g₁ : Graph) :
    Handle → Memory Handle Handle → Graph → Prop := fun v m' g' =>
  g₁.Retains g' ∧ Working g₀ S (fun _ => .nil) m' g' ∧ DerivedInv c g₀ S m' g' ∧
    v ∈ grown g₀ S g' ∧ DerivedResult c g₀ m' g' key v

theorem post (h : Deriving c g₀ S key p n g₁ m g) (hn : ∀ z, n ≠ .rep z (.exactly 1))
    (hv : Usable g₀ S key g v) (hd : Derived c g (StandsFor g₀ m g) key n v) :
    Post c g₀ S key g₁ v m g :=
  ⟨h.since, h.working, h.inv, hv.mem, ⟨⟨n, h.node, hd⟩, .made h.node hn hd⟩, hv.firm⟩

/-- The answer for the operand of a single repetition is the result. -/
theorem post_once (h : Deriving c g₀ S key p (.rep z (.exactly 1)) g₁ m g) (hl : g₀.Leads z r)
    (ha : Answered g₀ m r a) : Post c g₀ S key g₁ a m g := by
  have hv := h.usable_answer h.inv.firm (by simp [Node.children]) hl ha
  have hsource : Source c g₀ m g r a := by
    rcases ha with ha | ⟨ha, -⟩
    · exact h.inv.source ha
    · exact .held ha
  exact ⟨h.since, h.working, h.inv, hv.mem,
    ⟨⟨_, h.node, .once (AnswerFor.standsFor ⟨r, hl, ha⟩)⟩, .once h.node hl hsource⟩, hv.firm⟩

variable {mayStop : Prop} {next : Handle → TransformM Handle}

/-- A rule makes a node and goes on with it. -/
theorem ensures_make (h : Deriving c g₀ S key p n g₁ m g)
    (hn : ∀ k ∈ t.children, Usable g₀ S key g k) (htoken : t ≠ .token [])
    (hnot : ∀ q, t = .not q → g.Firm g₀.size q)
    (hnext : ∀ x g', Deriving c g₀ S key p n g₁ m g' → g.Retains g' → Usable g₀ S key g' x →
      g'.slot? x = some (.node t) →
        (next x g').Ensures (keeping g₀ S (fun _ => .nil) (DerivedInv c g₀ S)) mayStop
          (Post c g₀ S key g₁) m)
    (htrees : ∀ f, t = .emptyReduction f → f.HasTree := by simp)
    (hfits : g₀.Fits S → t.Fits := by simp [Node.Fits]) :
    ((Transform.make t >>= next) g).Ensures (keeping g₀ S (fun _ => .nil) (DerivedInv c g₀ S))
      mayStop (Post c g₀ S key g₁) m :=
  DerivativeParsing.ensures_make (hnext _ _ (h.make (fun k hk => (hn k hk).mem) htoken hnot htrees hfits)
    (.of_extends extends_make) (h.usable_make hn) h.slot?_make)

/-- A rule makes a node, which is the result. -/
theorem ensures_made (h : Deriving c g₀ S key p n g₁ m g)
    (hn : ∀ k ∈ t.children, Usable g₀ S key g k) (htoken : t ≠ .token [])
    (hnot : ∀ q, t = .not q → g.Firm g₀.size q) (honce : ∀ z, n ≠ .rep z (.exactly 1))
    (hd : ∀ v g', g.Retains g' → g'.slot? v = some (.node t) →
      Derived c g' (StandsFor g₀ m g') key n v)
    (htrees : ∀ f, t = .emptyReduction f → f.HasTree := by simp)
    (hfits : g₀.Fits S → t.Fits := by simp [Node.Fits]) :
    (Transform.make t g).Ensures (keeping g₀ S (fun _ => .nil) (DerivedInv c g₀ S)) mayStop
      (Post c g₀ S key g₁) m :=
  (h.make (fun k hk => (hn k hk).mem) htoken hnot htrees hfits).post honce (h.usable_make hn)
    (hd _ _ (.of_extends extends_make) h.slot?_make)

/-- One more match of a repetition is made. -/
theorem ensures_another (h : Deriving c g₀ S key p n g₁ m g) (honce : ∀ z, n ≠ .rep z (.exactly 1))
    (ha : Usable g₀ S key g a) (hy : Usable g₀ S key g y)
    (hd : ∀ x v g', g.Retains g' → g'.slot? x = some (.node (.seq a y)) →
      g'.slot? v = some (.node (.reduction x .prepend)) → Derived c g' (StandsFor g₀ m g') key n v) :
    (Derivative.another a y g).Ensures (keeping g₀ S (fun _ => .nil) (DerivedInv c g₀ S)) mayStop
      (Post c g₀ S key g₁) m := by
  refine h.ensures_make (t := .seq a y) (by simpa [Node.children] using ⟨ha, hy⟩) (by simp)
    (by simp) fun x g' h' hretains hx hxs => ?_
  refine h'.ensures_made (by simpa [Node.children] using hx) (by simp) (by simp) honce
    fun v g'' hretains' hvs => ?_
  exact hd x v g'' (hretains.trans hretains') (hretains'.node x _ hxs) hvs

/-- A rule asks for an operand. -/
theorem ensures_ask (h : Deriving c g₀ S key p n g₁ m g) (hz : z ∈ n.children)
    (hnext : ∀ a m' g', Deriving c g₀ S key p n g₁ m' g' → m.Frame m' → g.Retains g' →
      AnswerFor g₀ m' z a → Usable g₀ S key g' a →
        (next a g').Ensures (keeping g₀ S (fun _ => .nil) (DerivedInv c g₀ S)) mayStop
          (Post c g₀ S key g₁) m') :
    ((Transform.ask z >>= next) g).Ensures (keeping g₀ S (fun _ => .nil) (DerivedInv c g₀ S))
      mayStop (Post c g₀ S key g₁) m :=
  Running.ensures_ask h hz fun r a m' g' hl hframe hretains h' ha =>
    hnext a m' g' h' hframe hretains ⟨r, hl, ha⟩ (h'.usable_answer h'.inv.firm hz hl ha)

theorem ensures_consumed (h : Deriving c g₀ S key p n g₁ m g)
    (honce : ∀ z, n ≠ .rep z (.exactly 1))
    (hd : ∀ v g', g'.slot? v = some (.node (consumed c)) →
      Derived c g' (StandsFor g₀ m g') key n v) :
    (Derivative.matched c g).Ensures (keeping g₀ S (fun _ => .nil) (DerivedInv c g₀ S)) mayStop
      (Post c g₀ S key g₁) m :=
  h.ensures_made (t := consumed c) (by simp [consumed, Node.children]) (by simp [consumed])
    (by simp [consumed]) honce (fun v g' _ hvs => hd v g' hvs) consumed_hasTree
    fun _ => trivial

/-- A rule whose node no word starts with `c` comes to `∅`. -/
theorem post_dead (h : Deriving c g₀ S key p n g₁ m g) (hn : n.Dead c) :
    Post c g₀ S key g₁ .nil m g :=
  h.post (fun z he => by subst he; exact hn) h.usable_nil (.dead hn)

/-- The rule of each kind of node makes a derivative of the node. -/
theorem ensures (htame : g₀.TameComplements S) (h : Deriving c g₀ S key p n g₁ m g) :
    (Derivative.ofNode c key n g).Ensures (keeping g₀ S (fun _ => .nil) (DerivedInv c g₀ S))
      mayStop (Post c g₀ S key g₁) m := by
  cases n with
  | nil => exact h.post_dead trivial
  | empty => exact h.post_dead trivial
  | any => exact h.post (by simp) h.usable_empty .any
  | char v =>
      change ((if v = c then Derivative.matched c else pure .nil : TransformM Handle) g).Ensures _ _ _ _
      split
      · next hv =>
          subst hv
          exact h.ensures_consumed (by simp) fun v g' hvs => .char hvs
      · next hv => exact h.post_dead hv
  | range first last =>
      change ((if first ≤ c && c ≤ last then Derivative.matched c else pure .nil :
        TransformM Handle) g).Ensures _ _ _ _
      split
      · next hrange =>
          rw [Bool.and_eq_true, decide_eq_true_eq, decide_eq_true_eq] at hrange
          exact h.ensures_consumed (by simp) fun v g' hvs => .range hrange.1 hrange.2 hvs
      · next hrange =>
          rw [Bool.and_eq_true, decide_eq_true_eq, decide_eq_true_eq] at hrange
          exact h.post_dead hrange
  | token text =>
      cases text with
      | nil => exact h.post_dead trivial
      | cons first rest =>
          change ((if first = c then _ else pure .nil : TransformM Handle) g).Ensures _ _ _ _
          split
          · next hfirst =>
              subst hfirst
              have hchildren : (Grammar.literalNode rest).children = [] := by
                unfold Grammar.literalNode
                split <;> rfl
              have htoken : Grammar.literalNode rest ≠ .token [] := by
                unfold Grammar.literalNode
                split <;> simp_all
              refine h.ensures_make (by simp [hchildren]) htoken
                (by unfold Grammar.literalNode; split <;> simp) (fun y g' h' _ hy hys => ?_)
                (by unfold Grammar.literalNode; split <;> simp)
                (by unfold Grammar.literalNode; split <;> simp [Node.Fits])
              refine h'.ensures_make (t := consumed first) (by simp [consumed, Node.children])
                (by simp [consumed]) (by simp [consumed]) (fun x g'' h'' hretains hx hxs => ?_)
                consumed_hasTree fun _ => trivial
              have hy'' := hy.retained h'.working h''.working hretains
              refine h''.ensures_made (by simpa [Node.children] using ⟨hx, hy''⟩) (by simp)
                (by simp) (by simp) fun v g₃ hretains' hvs => ?_
              exact .token (hretains'.node _ _ hxs)
                (hretains'.node _ _ (hretains.node _ _ hys)) hvs
          · next hfirst => exact h.post_dead hfirst
  | alt left right =>
      refine h.ensures_ask (by simp [Node.children]) fun a m' g' h' _ _ ha hau => ?_
      refine h'.ensures_ask (by simp [Node.children]) fun b m'' g'' h'' hframe hret hb hbu => ?_
      have hau := hau.retained h'.working h''.working hret
      exact h''.ensures_made (by simpa [Node.children] using ⟨hau, hbu⟩) (by simp) (by simp)
        (by simp) fun v g₃ _ hvs => .alt (ha.frame hframe).standsFor hb.standsFor hvs
  | seq first second =>
      refine h.ensures_ask (by simp [Node.children]) fun a m' g' h' _ _ ha hau => ?_
      have hsecond := h'.usable_operand (c := second) (by simp [Node.children])
      refine h'.ensures_make (by simpa [Node.children] using ⟨hau, hsecond⟩) (by simp) (by simp)
        fun x g₂ h₂ _ hx hxs => ?_
      refine h₂.ensures_ask (by simp [Node.children]) fun b m₃ g₃ h₃ hframe hret₃ hb hbu => ?_
      have hfirst := h₃.usable_operand (c := first) (by simp [Node.children])
      refine h₃.ensures_make (by simpa [Node.children] using hfirst) (by simp) (by simp)
        fun y g₄ h₄ hret₄ hy hys => ?_
      have hbu := hbu.retained h₃.working h₄.working hret₄
      refine h₄.ensures_make (by simpa [Node.children] using ⟨hy, hbu⟩) (by simp) (by simp)
        fun z g₅ h₅ hret₅ hz hzs => ?_
      have hx₅ := hx.retained h₂.working h₅.working (hret₃.trans (hret₄.trans hret₅))
      refine h₅.ensures_made (by simpa [Node.children] using ⟨hx₅, hz⟩) (by simp) (by simp)
        (by simp) fun v g₆ hret₆ hvs => ?_
      have hret : g₂.Retains g₆ := hret₃.trans (hret₄.trans (hret₅.trans hret₆))
      exact .seq (ha.frame hframe).standsFor hb.standsFor (hret.node _ _ hxs)
        ((hret₅.trans hret₆).node _ _ hys) (hret₆.node _ _ hzs) hvs
  | not operand =>
      refine h.ensures_ask (by simp [Node.children]) fun a m' g' h' _ _ ha hau => ?_
      refine h'.ensures_made (by simpa [Node.children] using hau) (by simp) (fun q hq => ?_)
        (by simp) fun v g'' _ hvs => .not ha.standsFor hvs
      cases hq
      obtain ⟨r, hl, ha⟩ := ha
      exact h'.inv.firm.answer (htame key h'.mem operand h'.node) hl ha
  | star operand =>
      refine h.ensures_ask (by simp [Node.children]) fun a m' g' h' _ _ ha hau => ?_
      exact h'.ensures_another (by simp) hau h'.usable_self
        fun x v g'' _ hxs hvs => .star ha.standsFor hxs hvs
  | rep operand count =>
      rcases count with (_ | _ | _ | k) | _
      · exact h.post_dead trivial
      · change (Transform.ask operand g).Ensures _ _ _ _
        rw [← Running.ask_bind_pure]
        refine Running.ensures_ask h (by simp [Node.children]) fun r a m' g' hl _ _ h' ha => ?_
        exact post_once h' hl ha
      · refine h.ensures_ask (z := operand) (by simp [Node.children]) fun a m' g' h' _ _ ha hau => ?_
        have hoperand := h'.usable_operand (c := operand) (by simp [Node.children])
        exact h'.ensures_made (by simpa [Node.children] using ⟨hau, hoperand⟩) (by simp) (by simp)
          (by simp) fun v g'' _ hvs => .twice ha.standsFor hvs
      · refine h.ensures_ask (z := operand) (by simp [Node.children]) fun a m' g' h' _ _ ha hau => ?_
        have hoperand := h'.usable_operand (c := operand) (by simp [Node.children])
        refine h'.ensures_make (t := .rep operand (.exactly (k + 2)))
          (by simpa [Node.children] using hoperand) (by simp) (by simp)
          (fun x g₂ h₂ hret₂ hx hxs => ?_) (by simp) fun hS => Nat.le_of_succ_le (h'.fits_self hS)
        have hau := hau.retained h'.working h₂.working hret₂
        exact h₂.ensures_another (by simp) hau hx fun y v g₃ hret₃ hys hvs =>
          .more ha.standsFor (hret₃.node _ _ hxs) hys hvs
      · refine h.ensures_ask (z := operand) (by simp [Node.children]) fun a m' g' h' _ _ ha hau => ?_
        exact h'.ensures_another (by simp) hau h'.usable_self
          fun x v g'' _ hxs hvs => .unbounded ha.standsFor hxs hvs
  | nullability operand => exact h.post_dead trivial
  | emptyReduction trees => exact h.post_dead trivial
  | reduction operand reducer =>
      refine h.ensures_ask (by simp [Node.children]) fun a m' g' h' _ _ ha hau => ?_
      exact h'.ensures_made (by simpa [Node.children] using hau) (by simp) (by simp)
        (by simp) (fun v g'' _ hvs => .reduction ha.standsFor hvs) (by simp) h'.fits_self

end Deriving

end Rule

/-! ## The whole derivative -/

/-- The rule of the derivative of a handle. -/
abbrev Derivative.rule (c : Char) (h : Handle) : TransformM Handle := do
  let n ← Transform.look fun g => some (g.node h)
  Derivative.ofNode c h n

theorem OriginInv.initial : OriginInv c g₀ .empty g := fun y v hv => by
  simp [Memory.Finished, Memory.empty] at hv

theorem DerivedInv.initial (hS : g₀.Part S) (htame : g₀.TameComplements S) :
    DerivedInv c g₀ S .empty g₀ where
  origins := .initial
  firm := .initial hS htame

theorem upholds_derivative (hS : g₀.Part S) (htame : g₀.TameComplements S) :
    Upholds g₀ S (fun _ => .nil) (Derivative.rule c) (DerivedInv c g₀ S) (DerivedResult c g₀)
      False (fun _ => True) where
  congr m m' g hfinished hunderway h :=
    h.extend (.refl g) hfinished (fun y p => (hunderway y p).2)
      (fun y p hp => .inl ((hunderway y p).1 hp)) (h.firm.congr hfinished)
  start key m g hasks hfresh := by
    obtain ⟨hkey, -, hw, hinv, -⟩ := hasks
    refine hinv.extend extends_alloc (fun y v => Memory.finished_start hfresh)
      (fun y p hp => (Memory.underway_start_iff hfresh).2 (.inr hp))
      (fun y p hp => ?_) (hinv.firm.start hw hS hS.nil hkey hfresh)
    rcases (Memory.underway_start_iff hfresh).1 hp with ⟨-, rfl⟩ | hp
    · exact .inr le_rfl
    · exact .inl hp
  rule key p n m g h := h.ensures_node (Deriving.ensures htame h)
  settle key p v m g hw hinv hp hv hresult _ := hinv.settle hw hp hv hresult

/-- What the graph of a derivative looks like when nothing is left running. -/
structure Differentiated (c : Char) (g₀ : Graph) (S : Set Handle) (m : Memory Handle Handle)
    (g : Graph) : Prop where
  part : g₀.Part S
  tame : g₀.TameComplements S
  working : Working g₀ S (fun _ => .nil) m g
  inv : DerivedInv c g₀ S m g
  idle : ∀ y p, ¬ m.Underway y p

/-- The derivative of an expression has a result. -/
theorem derivative_differentiates (hS : g₀.Part S) (htame : g₀.TameComplements S) (hz : z ∈ S)
    (hl : g₀.Leads z r) :
    ∃ v g m, g₀.derivative c z = some (v, g) ∧ Differentiated c g₀ S m g ∧ m.Finished r v := by
  have hinit := DerivedInv.initial (c := c) hS htame
  obtain ⟨v, g, happly⟩ := apply_answers (upholds_derivative hS htame) hS (fun _ _ => hS.nil) hinit
    hz hl fun _ _ => trivial
  obtain ⟨m, hw, hinv, hv, hidle⟩ := apply_upholds (upholds_derivative hS htame) hS
    (fun _ _ => hS.nil) hinit hz hl (fun _ _ => trivial) happly
  exact ⟨v, g, m, happly, ⟨hS, htame, hw, hinv, hidle⟩, hv⟩

end Structure

end DerivativeParsing
