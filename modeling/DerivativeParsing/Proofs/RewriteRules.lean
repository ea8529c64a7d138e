import DerivativeParsing.Proofs.Alternatives
import DerivativeParsing.Proofs.Tameness

/-!
# What the rules of simplification do

A rule of simplification asks for the simplified forms of the operands and looks at the nodes that
they stand for.  Then it gives an expression back that is there, makes a node, or puts alternatives
together.  `Rewrites` lists all that a rule can come to.

`Hosts` says what it takes to run a rule: whatever is kept while it runs, operands may be asked for,
and the answers belong to a closed set of handles.  Under any such contract a rule comes to what is
listed (`Hosts.ensures`), so that a property of the results is shown by going through the list.
-/

set_option autoImplicit false

namespace DerivativeParsing

open Fixpoint DerivativeParsing.Graph

namespace Simplify

/-! ## Results -/

/-- A node has been made of another one by putting the answers for its operands in. -/
inductive Refits (ans : Handle → Handle → Prop) : Node → Node → Prop where
  | seq {first second a b : Handle} (ha : ans first a) (hb : ans second b) :
      Refits ans (.seq first second) (.seq a b)
  | star {z a : Handle} (ha : ans z a) : Refits ans (.star z) (.star a)
  | rep {z a : Handle} (count : Count) (ha : ans z a) : Refits ans (.rep z count) (.rep a count)
  | not {z a : Handle} (ha : ans z a) : Refits ans (.not z) (.not a)
  | nullability {z a : Handle} (ha : ans z a) : Refits ans (.nullability z) (.nullability a)
  | reduction {z a : Handle} (f : Reducer) (ha : ans z a) :
      Refits ans (.reduction z f) (.reduction a f)

/-- What a rule does in the end. -/
inductive Outcome where
  /-- It gives an expression back that is there. -/
  | give (u : Handle)
  /-- It makes a node. -/
  | make (t : Node)
  /-- It puts alternatives together. -/
  | join (items : List Handle)

/-- What the rule of a node comes to in a graph, where `ans` says what operands were answered with
and `self` is the node's own handle. -/
inductive Rewrites (fuel : Nat) (g : Graph) (ans : Handle → Handle → Prop) (self : Handle) :
    Node → Outcome → Prop where
  | keep (n : Node) : Rewrites fuel g ans self n (.give self)
  | refit {n t : Node} (ht : Refits ans n t) : Rewrites fuel g ans self n (.make t)
  | range (c : Char) : Rewrites fuel g ans self (.range c c) (.make (.char c))
  | alt {left right a b : Handle} {items : List Handle} (ha : ans left a) (hb : ans right b)
      (hitems : joined g a b = some items) :
      Rewrites fuel g ans self (.alt left right) (.join items)
  | nilFirst {first second a b : Handle} (ha : ans first a) (hb : ans second b)
      (hnil : g.nodeAt a = some .nil) : Rewrites fuel g ans self (.seq first second) (.give .nil)
  | nilSecond {first second a b : Handle} (ha : ans first a) (hb : ans second b)
      (hnil : g.nodeAt b = some .nil) : Rewrites fuel g ans self (.seq first second) (.give .nil)
  | emptyFirst {first second a b : Handle} (ha : ans first a) (hb : ans second b)
      (hempty : g.nodeAt a = some .empty) : Rewrites fuel g ans self (.seq first second) (.give b)
  | emptySecond {first second a b : Handle} (ha : ans first a) (hb : ans second b)
      (hempty : g.nodeAt b = some .empty) : Rewrites fuel g ans self (.seq first second) (.give a)
  /-- `∅* = ε* = ε` -/
  | starEmpty {n t : Node} {z a : Handle} (hn : n = .star z ∨ n = .rep z .unbounded) (ha : ans z a)
      (ht : g.nodeAt a = some t) (hempty : t = .nil ∨ t = .empty) :
      Rewrites fuel g ans self n (.give .empty)
  /-- `p** = p*` -/
  | starStar {n : Node} {z a q : Handle} (hn : n = .star z ∨ n = .rep z .unbounded) (ha : ans z a)
      (ht : g.nodeAt a = some (.star q)) : Rewrites fuel g ans self n (.give a)
  | unbounded {z a : Handle} (ha : ans z a) :
      Rewrites fuel g ans self (.rep z .unbounded) (.make (.star a))
  | never (z : Handle) : Rewrites fuel g ans self (.rep z (.exactly 0)) (.give .empty)
  | once {z a : Handle} (ha : ans z a) : Rewrites fuel g ans self (.rep z (.exactly 1)) (.give a)
  | repNil {z a : Handle} {k : Nat} (ha : ans z a) (hnil : g.nodeAt a = some .nil) :
      Rewrites fuel g ans self (.rep z (.exactly (k + 2))) (.give .nil)
  | repEmpty {z a : Handle} {k : Nat} (ha : ans z a) (hempty : g.nodeAt a = some .empty) :
      Rewrites fuel g ans self (.rep z (.exactly (k + 2))) (.give .empty)
  | notNot {z a inner : Handle} (ha : ans z a) (ht : g.nodeAt a = some (.not inner)) :
      Rewrites fuel g ans self (.not z) (.give inner)
  | notNullable {z : Handle} (hb : g.nullable fuel z = some false) :
      Rewrites fuel g ans self (.nullability z) (.give .nil)
  | nullable {z a : Handle} {t : Node} (ha : ans z a) (ht : g.nodeAt a = some t)
      (hdone : t = .empty ∨ (∃ trees, t = .emptyReduction trees) ∨ ∃ q, t = .nullability q) :
      Rewrites fuel g ans self (.nullability z) (.give a)
  | reductionNil {z a : Handle} (f : Reducer) (ha : ans z a) (hnil : g.nodeAt a = some .nil) :
      Rewrites fuel g ans self (.reduction z f) (.give .nil)
  | reductionDone {z a : Handle} {trees : Forest} (f : Reducer) (ha : ans z a)
      (ht : g.nodeAt a = some (.emptyReduction trees)) :
      Rewrites fuel g ans self (.reduction z f) (.make (.emptyReduction (trees.map f.apply)))

section Outcome

variable {fuel : Nat} {g g' : Graph} {ans : Handle → Handle → Prop} {self u v : Handle}
  {n t : Node} {o : Outcome} {D : Set Handle}

theorem Refits.relates (h : Refits ans n t) :
    n.Relates (fun z a => z ∈ n.children ∧ ans z a) t := by
  cases h with
  | seq ha hb => exact .seq ⟨by simp [Node.children], ha⟩ ⟨by simp [Node.children], hb⟩
  | star ha => exact .star ⟨by simp [Node.children], ha⟩
  | rep count ha => exact .rep count ⟨by simp [Node.children], ha⟩
  | not ha => exact .not ⟨by simp [Node.children], ha⟩
  | nullability ha => exact .nullability ⟨by simp [Node.children], ha⟩
  | reduction f ha => exact .reduction rfl ⟨by simp [Node.children], ha⟩

/-- The operands of a node that was made are answers. -/
theorem Refits.answered (h : Refits ans n t) {c : Handle} (hc : c ∈ t.children) :
    ∃ z ∈ n.children, ans z c := by
  cases h with
  | @seq first second a b ha hb =>
      rcases List.mem_pair.1 hc with rfl | rfl
      · exact ⟨first, by simp [Node.children], ha⟩
      · exact ⟨second, by simp [Node.children], hb⟩
  | star ha => exact ⟨_, by simp [Node.children], List.mem_singleton.1 hc ▸ ha⟩
  | rep count ha => exact ⟨_, by simp [Node.children], List.mem_singleton.1 hc ▸ ha⟩
  | not ha => exact ⟨_, by simp [Node.children], List.mem_singleton.1 hc ▸ ha⟩
  | nullability ha => exact ⟨_, by simp [Node.children], List.mem_singleton.1 hc ▸ ha⟩
  | reduction f ha => exact ⟨_, by simp [Node.children], List.mem_singleton.1 hc ▸ ha⟩

namespace Outcome

/-- The nodes that are added. -/
def Adds : Outcome → Node → Prop
  | .give _, _ => False
  | .make t, n => n = t
  | .join _, n => IsAlternative n

/-- What the result is, where `g'` has been made of `g`. -/
def Gives (g g' : Graph) (v : Handle) : Outcome → Prop
  | .give u => v = u ∧ g' = g
  | .make t => g'.slot? v = some (.node t)
  | .join items => Joins g' items v

/-- A rule has come to a result, with operands from a set of handles. -/
structure Realized (o : Outcome) (D : Set Handle) (g g' : Graph) (v : Handle) : Prop where
  builds : Builds D o.Adds g g'
  built : Built D g g' v
  gives : o.Gives g g' v

end Outcome

namespace Rewrites

/-- What is given back belongs to every closed set with the answers. -/
theorem give_mem (h : Rewrites fuel g ans self n (.give u)) (hD : g.Closed D) (hself : self ∈ D)
    (hnil : .nil ∈ D) (hempty : .empty ∈ D) (hans : ∀ z ∈ n.children, ∀ a, ans z a → a ∈ D) :
    u ∈ D := by
  cases h with
  | keep n => exact hself
  | nilFirst => exact hnil
  | nilSecond => exact hnil
  | emptyFirst ha hb => exact hans _ (by simp [Node.children]) _ hb
  | emptySecond ha => exact hans _ (by simp [Node.children]) _ ha
  | starEmpty => exact hempty
  | starStar hn ha =>
      exact hans _ (by rcases hn with rfl | rfl <;> simp [Node.children]) _ ha
  | never => exact hempty
  | once ha => exact hans _ (by simp [Node.children]) _ ha
  | repNil => exact hnil
  | repEmpty => exact hempty
  | notNot ha ht =>
      exact hD.of_reaches (hans _ (by simp [Node.children]) _ ha)
        (reaches_of_nodeAt ht (by simp [Node.children]))
  | notNullable => exact hnil
  | nullable ha => exact hans _ (by simp [Node.children]) _ ha
  | reductionNil => exact hnil

/-- The operands of a node that is made are answers. -/
theorem make_mem (h : Rewrites fuel g ans self n (.make t))
    (hans : ∀ z ∈ n.children, ∀ a, ans z a → a ∈ D) : ∀ c ∈ t.children, c ∈ D := by
  intro c hc
  cases h with
  | refit ht =>
      obtain ⟨z, hz, ha⟩ := ht.answered hc
      exact hans z hz c ha
  | range => simp [Node.children] at hc
  | unbounded ha => exact hans _ (by simp [Node.children]) _ (List.mem_singleton.1 hc ▸ ha)
  | reductionDone => simp [Node.children] at hc

/-- What is added is made of the node, or is of one of three other kinds. -/
theorem adds_cases (h : Rewrites fuel g ans self n o) (ht : o.Adds t) :
    Refits ans n t ∨ (IsAlternative t ∨ (∃ c, t = .char c) ∨ ∃ a, t = .star a) ∨
      ∃ z a f trees, n = .reduction z f ∧ ans z a ∧ g.nodeAt a = some (.emptyReduction trees) ∧
        t = .emptyReduction (trees.map f.apply) := by
  cases h with
  | refit hrefits => exact .inl ((ht : t = _) ▸ hrefits)
  | alt => exact .inr (.inl (.inl ht))
  | range c => exact .inr (.inl (.inr (.inl ⟨c, ht⟩)))
  | unbounded => exact .inr (.inl (.inr (.inr ⟨_, ht⟩)))
  | reductionDone f ha hnode => exact .inr (.inr ⟨_, _, f, _, rfl, ha, hnode, ht⟩)
  | _ => exact ht.elim

/-- No token is made. -/
theorem adds_token (h : Rewrites fuel g ans self n o) : ¬ o.Adds (.token []) := by
  intro ht
  rcases h.adds_cases ht with ht | (⟨_, _, ht⟩ | ⟨_, ht⟩ | ⟨_, ht⟩) | ⟨_, _, _, _, -, -, -, ht⟩ <;>
    cases ht

/-- Complements are made of complements. -/
theorem adds_not (h : Rewrites fuel g ans self n o) {q : Handle} (ht : o.Adds (.not q)) :
    ∃ z, n = .not z ∧ ans z q := by
  rcases h.adds_cases ht with ht | (⟨_, _, ht⟩ | ⟨_, ht⟩ | ⟨_, ht⟩) | ⟨_, _, _, _, -, -, -, ht⟩ <;>
    cases ht
  next ha => exact ⟨_, rfl, ha⟩

/-- Finished trees are made of finished trees. -/
theorem adds_emptyReduction (h : Rewrites fuel g ans self n o) {F : Forest}
    (ht : o.Adds (.emptyReduction F)) : ∃ z a f trees, n = .reduction z f ∧ ans z a ∧
      g.nodeAt a = some (.emptyReduction trees) ∧ F = trees.map f.apply := by
  rcases h.adds_cases ht with ht | (⟨_, _, ht⟩ | ⟨_, ht⟩ | ⟨_, ht⟩) | ⟨z, a, f, trees, hn, ha, hs, ht⟩ <;>
    cases ht
  exact ⟨z, a, f, trees, hn, ha, hs, rfl⟩

/-- There can be room for the lists of what is added if there can be for those of the node. -/
theorem adds_fits (h : Rewrites fuel g ans self n o) (ht : o.Adds t) (hn : n.Fits) : t.Fits := by
  rcases h.adds_cases ht with ht | (⟨_, _, rfl⟩ | ⟨_, rfl⟩ | ⟨_, rfl⟩) | ⟨_, _, _, _, -, -, -, rfl⟩
  · cases ht <;> exact hn
  all_goals trivial

end Rewrites

end Outcome

/-! ## The rules -/

/-- What it takes to run the rule of a node.  While the rule runs, `R` holds of the memory and of
the graph; operands may be asked for, and what `ans` says they are answered with belongs to `D`. -/
structure Hosts (C : Contract Graph Handle Handle) (key : Handle) (n : Node)
    (R : Memory Handle Handle → Graph → Prop) (D : Graph → Set Handle)
    (ans : Memory Handle Handle → Handle → Handle → Prop) : Prop where
  wellFormed : ∀ m g, R m g → g.WellFormed
  closed : ∀ m g, R m g → g.Closed (D g)
  inRange : ∀ m g, R m g → ∀ k ∈ D g, k.index < g.size
  fixed : ∀ m g, R m g → .nil ∈ D g ∧ .empty ∈ D g ∧ .any ∈ D g
  self : ∀ m g, R m g → key ∈ D g
  answer : ∀ m g, R m g → ∀ z ∈ n.children, ∀ a, ans m z a → a ∈ D g
  frame : ∀ m m' z a, m.Frame m' → ans m z a → ans m' z a
  ask : ∀ m g, R m g → ∀ z ∈ n.children, ∀ r, g.Leads z r → C.asks r m g ∧
    ∀ a m' g', m.Frame m' → m'.Holds r a → C.answers r m g a m' g' → R m' g' ∧ ans m' z a

namespace Hosts

variable {C : Contract Graph Handle Handle} {key : Handle} {n t : Node}
  {R : Memory Handle Handle → Graph → Prop} {D : Graph → Set Handle}
  {ans : Memory Handle Handle → Handle → Handle → Prop} {m : Memory Handle Handle} {g : Graph}
  {fuel : Nat} {u z a : Handle}

/-- A rule has come to what it can come to. -/
abbrev Post (key : Handle) (n : Node) (R : Memory Handle Handle → Graph → Prop)
    (D : Graph → Set Handle) (ans : Memory Handle Handle → Handle → Handle → Prop) (fuel : Nat) :
    Handle → Memory Handle Handle → Graph → Prop := fun v m' g' =>
  ∃ g o, R m' g ∧ Rewrites fuel g (ans m') key n o ∧ o.Realized (D g) g g' v

section

variable (H : Hosts C key n R D ans) (h : R m g)

include H h

theorem give (ho : Rewrites fuel g (ans m) key n (.give u)) : Post key n R D ans fuel u m g := by
  obtain ⟨hnil, hempty, -⟩ := H.fixed m g h
  have hu := ho.give_mem (H.closed m g h) (H.self m g h) hnil hempty (H.answer m g h)
  exact ⟨g, .give u, h, ho, .refl _ _ g, .inl hu, rfl, rfl⟩

theorem keep : Post key n R D ans fuel key m g := H.give h (.keep n)

theorem ensures_made (ho : Rewrites fuel g (ans m) key n (.make t)) :
    (Transform.make t g).Ensures C True (Post key n R D ans fuel) m := by
  obtain ⟨hnil, hempty, hany⟩ := H.fixed m g h
  exact ⟨g, .make t, h, ho, .make (ho.make_mem (H.answer m g h)) rfl, .make hnil hempty hany,
    (H.wellFormed m g h).slot?_make⟩

theorem ensures_keepOrMake (ht : Refits (ans m) n t) :
    (keepOrMake key a z t g).Ensures C True (Post key n R D ans fuel) m := by
  unfold keepOrMake
  refine ensures_look (fun _ => trivial) fun same _ => ?_
  cases same with
  | true => exact H.keep h
  | false => exact H.ensures_made h (.refit ht)

theorem ensures_ask {next : Handle → TransformM Handle}
    {Q : Handle → Memory Handle Handle → Graph → Prop} (hz : z ∈ n.children)
    (hnext : ∀ a m' g', R m' g' → m.Frame m' → ans m' z a → (next a g').Ensures C True Q m') :
    ((Transform.ask z >>= next) g).Ensures C True Q m := by
  rw [Rule.bind_apply, Transform.ask]
  rcases hr : g.resolve z with _ | r
  · trivial
  · obtain ⟨hasks, hanswers⟩ := H.ask m g h z hz r (resolve_eq_some.1 hr)
    refine ⟨hasks, fun a m' g' hframe hholds ha => ?_⟩
    obtain ⟨h', ha⟩ := hanswers a m' g' hframe hholds ha
    exact hnext a m' g' h' hframe ha

/-! ### The nodes -/

/-- Operands that match nothing, or `ε` only, are left out of a sequence. -/
theorem ensures_seq {first second : Handle} (hn : n = .seq first second) :
    (ofNode fuel key (.seq first second) g).Ensures C True (Post key n R D ans fuel) m := by
  subst hn
  refine H.ensures_ask h (by simp [Node.children]) fun a m₁ g₁ h₁ _ ha => ?_
  refine H.ensures_ask h₁ (by simp [Node.children]) fun b m₂ g₂ h₂ hframe hb => ?_
  replace ha := H.frame _ _ _ _ hframe ha
  refine ensures_look (fun _ => trivial) fun firstNil hfirstNil => ?_
  cases firstNil with
  | true => exact H.give h₂ (.nilFirst ha hb (nodeAt_of_isNil hfirstNil))
  | false =>
  refine ensures_look (fun _ => trivial) fun secondNil hsecondNil => ?_
  cases secondNil with
  | true => exact H.give h₂ (.nilSecond ha hb (nodeAt_of_isNil hsecondNil))
  | false =>
  refine ensures_look (fun _ => trivial) fun firstEmpty hfirstEmpty => ?_
  cases firstEmpty with
  | true => exact H.give h₂ (.emptyFirst ha hb (nodeAt_of_isEmpty hfirstEmpty))
  | false =>
  refine ensures_look (fun _ => trivial) fun secondEmpty hsecondEmpty => ?_
  cases secondEmpty with
  | true => exact H.give h₂ (.emptySecond ha hb (nodeAt_of_isEmpty hsecondEmpty))
  | false =>
  refine ensures_look (fun _ => trivial) fun same _ => ?_
  cases same with
  | true => exact H.keep h₂
  | false => exact H.ensures_made h₂ (.refit (.seq ha hb))

/-- Alternatives are put together from their branches. -/
theorem ensures_alt {left right : Handle} (hn : n = .alt left right) :
    (ofNode fuel key (.alt left right) g).Ensures C True (Post key n R D ans fuel) m := by
  subst hn
  refine H.ensures_ask h (by simp [Node.children]) fun a m₁ g₁ h₁ _ ha => ?_
  refine H.ensures_ask h₁ (by simp [Node.children]) fun b m₂ g₂ h₂ hframe hb => ?_
  replace ha := H.frame _ _ _ _ hframe ha
  refine (ensures_alternatives (H.wellFormed _ _ h₂) (H.closed _ _ h₂) (H.inRange _ _ h₂)
    (H.fixed _ _ h₂).1 (H.self _ _ h₂) (H.answer _ _ h₂ _ (by simp [Node.children]) _ ha)
    (H.answer _ _ h₂ _ (by simp [Node.children]) _ hb)).mono ?_
  rintro v m' g' - ⟨items, hitems, rfl, hbuilds, hv, hjoins⟩
  exact ⟨g₂, .join items, h₂, .alt ha hb hitems, hbuilds, hv, hjoins⟩

/-- A repetition without a bound. -/
theorem give_starred {v : Handle} (hn : n = .star z ∨ n = .rep z .unbounded) (ha : ans m z a)
    (ht : g.nodeAt a = some t) (hv : starred? a t = some v) : Post key n R D ans fuel v m g := by
  rcases starred?_eq_some hv with ⟨rfl, hempty⟩ | ⟨rfl, q, rfl⟩
  · exact H.give h (.starEmpty hn ha ht hempty)
  · exact H.give h (.starStar hn ha ht)

/-- A number of repetitions becomes what it comes to. -/
theorem ensures_rep {count : Count} (hn : n = .rep z count) :
    (ofNode fuel key (.rep z count) g).Ensures C True (Post key n R D ans fuel) m := by
  subst hn
  rcases count with (_ | _ | k) | _
  · exact H.give h (.never z)
  · change (Transform.ask z g).Ensures _ _ _ _
    rw [← Running.ask_bind_pure]
    refine H.ensures_ask h (by simp [Node.children]) fun a m₁ g₁ h₁ _ ha => ?_
    exact H.give h₁ (.once ha)
  · refine H.ensures_ask h (z := z) (by simp [Node.children]) fun a m₁ g₁ h₁ _ ha => ?_
    refine ensures_look (fun _ => trivial) fun t ht => ?_
    cases t with
    | nil => exact H.give h₁ (.repNil ha ht)
    | empty => exact H.give h₁ (.repEmpty ha ht)
    | _ => exact H.ensures_keepOrMake h₁ (.rep _ ha)
  · refine H.ensures_ask h (z := z) (by simp [Node.children]) fun a m₁ g₁ h₁ _ ha => ?_
    refine ensures_look (fun _ => trivial) fun t ht => ?_
    rcases hv : starred? a t with _ | v
    · exact H.ensures_made h₁ (.unbounded ha)
    · exact H.give_starred h₁ (.inr rfl) ha ht hv

/-- A rule comes to what is listed. -/
theorem ensures : (ofNode fuel key n g).Ensures C True (Post key n R D ans fuel) m := by
  cases n with
  | nil => exact H.keep h
  | empty => exact H.keep h
  | any => exact H.keep h
  | char c => exact H.keep h
  | token text => exact H.keep h
  | emptyReduction trees => exact H.keep h
  | range first last =>
      change ((if first = last then Transform.make (.char first) else pure key : TransformM Handle)
        g).Ensures _ _ _ _
      split
      · next he => exact H.ensures_made h (he ▸ .range first)
      · exact H.keep h
  | alt left right => exact H.ensures_alt h rfl
  | seq first second => exact H.ensures_seq h rfl
  | star z =>
      refine H.ensures_ask h (by simp [Node.children]) fun a m₁ g₁ h₁ _ ha => ?_
      refine ensures_look (fun _ => trivial) fun t ht => ?_
      rcases hv : starred? a t with _ | v
      · exact H.ensures_keepOrMake h₁ (.star ha)
      · exact H.give_starred h₁ (.inl rfl) ha ht hv
  | rep z count => exact H.ensures_rep h rfl
  | not z =>
      refine H.ensures_ask h (by simp [Node.children]) fun a m₁ g₁ h₁ _ ha => ?_
      refine ensures_look (fun _ => trivial) fun t ht => ?_
      cases t with
      | not inner => exact H.give h₁ (.notNot ha ht)
      | _ => exact H.ensures_keepOrMake h₁ (.not ha)
  | nullability z =>
      refine ensures_look (fun _ => trivial) fun b hb => ?_
      cases b with
      | false => exact H.give h (.notNullable hb)
      | true =>
          refine H.ensures_ask h (by simp [Node.children]) fun a m₁ g₁ h₁ _ ha => ?_
          refine ensures_look (fun _ => trivial) fun t ht => ?_
          cases t with
          | empty => exact H.give h₁ (.nullable ha ht (.inl rfl))
          | emptyReduction trees => exact H.give h₁ (.nullable ha ht (.inr (.inl ⟨trees, rfl⟩)))
          | nullability q => exact H.give h₁ (.nullable ha ht (.inr (.inr ⟨q, rfl⟩)))
          | _ => exact H.ensures_keepOrMake h₁ (.nullability ha)
  | reduction z f =>
      refine H.ensures_ask h (by simp [Node.children]) fun a m₁ g₁ h₁ _ ha => ?_
      refine ensures_look (fun _ => trivial) fun t ht => ?_
      cases t with
      | nil => exact H.give h₁ (.reductionNil f ha ht)
      | emptyReduction trees =>
          refine ensures_look (fun _ => trivial) fun reduced hreduced => ?_
          obtain ⟨-, rfl⟩ := Reducer.reduce?_eq_some.1 hreduced
          exact H.ensures_made h₁ (.reductionDone f ha ht)
      | _ => exact H.ensures_keepOrMake h₁ (.reduction f ha)

end

end Hosts

end Simplify

/-- A rule that runs in a part of a graph makes its result of handles that may be used. -/
theorem Running.hosts {g₀ g₁ : Graph} {S : Set Handle} {standIn : Handle → Handle}
    {Inv : Memory Handle Handle → Graph → Prop} {key p : Handle} {n : Node}
    (hfirm : ∀ m g, Inv m g → FirmInv g₀ S m g) :
    Simplify.Hosts (keeping g₀ S standIn Inv) key n (Running g₀ S standIn Inv key p n g₁)
      (fun g => {k | Usable g₀ S key g k}) (AnswerFor g₀) where
  wellFormed _ _ h := h.working.wellFormed
  closed _ _ h := h.closed_usable
  inRange _ _ _ _ hk := hk.mem.1
  fixed _ _ h := ⟨h.usable_nil, h.usable_empty, h.usable_any⟩
  self _ _ h := h.usable_self
  answer m g h _ hz a ha := by
    obtain ⟨r, hl, ha⟩ := ha
    exact h.usable_answer (hfirm m g h.inv) hz hl ha
  frame _ _ _ _ hframe ha := ha.frame hframe
  ask m g h z hz r hl := by
    have hl := (h.leads_iff (h.operand_mem hz)).1 hl
    refine ⟨h.asks_operand hz hl, fun a m' g' hframe _ ⟨hsince, hw, hinv, ha⟩ => ?_⟩
    exact ⟨h.frame hframe hsince hw hinv, r, hl, ha⟩

end DerivativeParsing
