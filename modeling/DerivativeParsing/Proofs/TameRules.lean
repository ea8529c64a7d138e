import DerivativeParsing.Proofs.Simplification
import DerivativeParsing.Proofs.SpreadAlternatives

/-!
# The rules of simplification where no cycle can be reached

Where no cycle can be reached, the answers for the operands are finished when a rule looks at them,
and no rule is stuck.  `Simplify.Reduces` lists what the rule of a node comes to if the node is not
an alternative (`Running.ensures_reduced`): the node itself, if no rule applies to it and its
operands stay what they are, a node like it that has changed operands, or something that is smaller.
-/

set_option autoImplicit false

namespace DerivativeParsing

open Fixpoint DerivativeParsing.Graph

namespace Simplify

variable {g : Graph} {ans ans' : Handle → Handle → Prop} {n t : Node} {c a b z : Handle}

/-- An operand of a node that was made of another one has been answered. -/
theorem Refits.asked (h : Refits ans n t) (hc : c ∈ n.children) : ∃ a ∈ t.children, ans c a := by
  cases h with
  | @seq first second a b ha hb =>
      rcases List.mem_pair.1 hc with rfl | rfl
      · exact ⟨a, by simp [Node.children], ha⟩
      · exact ⟨b, by simp [Node.children], hb⟩
  | star ha => exact ⟨_, by simp [Node.children], List.mem_singleton.1 hc ▸ ha⟩
  | rep count ha => exact ⟨_, by simp [Node.children], List.mem_singleton.1 hc ▸ ha⟩
  | not ha => exact ⟨_, by simp [Node.children], List.mem_singleton.1 hc ▸ ha⟩
  | nullability ha => exact ⟨_, by simp [Node.children], List.mem_singleton.1 hc ▸ ha⟩
  | reduction f ha => exact ⟨_, by simp [Node.children], List.mem_singleton.1 hc ▸ ha⟩

theorem Refits.mono (h : Refits ans n t) (hle : ∀ z a, ans z a → ans' z a) : Refits ans' n t := by
  cases h with
  | seq ha hb => exact .seq (hle _ _ ha) (hle _ _ hb)
  | star ha => exact .star (hle _ _ ha)
  | rep count ha => exact .rep count (hle _ _ ha)
  | not ha => exact .not (hle _ _ ha)
  | nullability ha => exact .nullability (hle _ _ ha)
  | reduction f ha => exact .reduction f (hle _ _ ha)

/-- No alternative is made of another node. -/
theorem Refits.not_isAlternative (h : Refits ans n t) : ¬ IsAlternative t := by
  rintro ⟨left, right, rfl⟩
  cases h

/-! ## What rules come to -/

/-- What the rule of a node comes to that is not an alternative, if the answers for the operands are
finished.  What is given back instead of the node is smaller. -/
inductive Reduces (g : Graph) (ans : Handle → Handle → Prop) (self : Handle) :
    Node → Outcome → Prop where
  | keep {n : Node} (hn : n.Polished g)
      (hc : ∀ c ∈ n.children, ∃ a, ans c a ∧ (a = c ∨ g.Leads c a)) :
      Reduces g ans self n (.give self)
  | refit {n t : Node} (ht : Refits ans n t) (hn : t.Polished g)
      (hnew : ¬ Refits (fun z a => a = z ∨ g.Leads z a) n t) : Reduces g ans self n (.make t)
  | range (c : Char) : Reduces g ans self (.range c c) (.make (.char c))
  | unbounded {z a : Handle} (ha : ans z a) (hn : (Node.star a).Polished g) :
      Reduces g ans self (.rep z .unbounded) (.make (.star a))
  | fixed {n : Node} {u : Handle} (hn : n.children ≠ []) (hu : u = .nil ∨ u = .empty) :
      Reduces g ans self n (.give u)
  | operand {n : Node} {z a : Handle} (hz : z ∈ n.children) (ha : ans z a) :
      Reduces g ans self n (.give a)
  | inner {z a q : Handle} (ha : ans z a) (ht : g.nodeAt a = some (.not q)) :
      Reduces g ans self (.not z) (.give q)
  | trees {z : Handle} (f : Reducer) (trees : Forest) :
      Reduces g ans self (.reduction z f) (.make (.emptyReduction trees))

/-- The operands of a sequence have changed unless both are what they were. -/
theorem not_refits_of_bothUnchanged {first second : Handle}
    (h : bothUnchanged g a first b second = some false) :
    ¬ Refits (fun z a => a = z ∨ g.Leads z a) (.seq first second) (.seq a b) := by
  intro hrefits
  cases hrefits with
  | seq ha hb =>
      rw [bothUnchanged_eq_true.2 ⟨unchanged_of_leads ha, unchanged_of_leads hb⟩] at h
      cases h

end Simplify

/-! ## Rules that run -/

/-- A part of a graph from which no cycle can be reached, and an invariant of its simplification
that says what words results match. -/
structure Simplify.Tames (g₀ : Graph) (S : Set Handle)
    (Inv : Memory Handle Handle → Graph → Prop) : Prop where
  tame : ∀ k ∈ S, g₀.Tame k
  words : ∀ m g, Inv m g → SimplifyInv False False g₀ S m g

section Reducing

variable {g₀ g₁ g g' : Graph} {S : Set Handle} {Inv : Memory Handle Handle → Graph → Prop}
  {m m' : Memory Handle Handle} {key p v u a b z : Handle} {n t : Node} {fuel : Nat}

/-- The operands of complements in such a part are tame. -/
theorem Graph.Part.tameComplements (hS : g₀.Part S) (htame : ∀ k ∈ S, g₀.Tame k) :
    g₀.TameComplements S := fun k hk q hs =>
  htame q (hS.closed k hk q (by simp [references_of_node hs, Node.children]))

namespace Running

theorem simplifying {E F : Prop} (h : Running g₀ S id Inv key p n g₁ m g)
    (hwords : SimplifyInv E F g₀ S m g) : Simplifying E F g₀ S key p n g₁ m g where
  part := h.part
  since := h.since
  working := h.working
  inv := hwords
  mem := h.mem
  node := h.node
  underway := h.underway
  others := h.others

/-- What the rule of a node has come to. -/
abbrev Reduced (g₀ : Graph) (S : Set Handle) (Inv : Memory Handle Handle → Graph → Prop)
    (key p : Handle) (n : Node) (g₁ : Graph) : Handle → Memory Handle Handle → Graph → Prop :=
  fun v m' g' => ∃ g o, Running g₀ S id Inv key p n g₁ m' g ∧
    Simplify.Reduces g (AnswerFor g₀ m') key n o ∧
      o.Realized {k | Usable g₀ S key g k} g g' v

section

variable (h : Running g₀ S id Inv key p n g₁ m g) (hI : Simplify.Tames g₀ S Inv)

include h hI

theorem usable_of_answer (hz : z ∈ n.children) (ha : AnswerFor g₀ m z a) : Usable g₀ S key g a :=
  (h.simplifying (hI.words m g h.inv)).usable_of_answer hz ha

/-- The answer for an operand is finished: a placeholder is given only where a node refers to
itself. -/
theorem finished_of_answer (hz : z ∈ n.children) (ha : AnswerFor g₀ m z a) :
    ∃ r, g₀.Leads z r ∧ m.Finished r a := by
  obtain ⟨r, hl, ha | ⟨-, hcycle⟩⟩ := ha
  · exact ⟨r, hl, ha⟩
  · exact absurd hcycle ((hI.tame z (h.operand_mem hz)).reaches hl.reaches r .refl)

/-- Nothing can be reached from what may be used that a rule could get stuck at. -/
theorem ready_of_usable (ha : Usable g₀ S key g a) : g.Ready a ∧ g.Tame a :=
  have hfirm := ha.firm (hI.tame key h.mem)
  ⟨h.working.ready_of_firm h.part ha.mem hfirm, hfirm.tame⟩

theorem exists_nodeAt (hz : z ∈ n.children) (ha : AnswerFor g₀ m z a) : ∃ t, g.nodeAt a = some t :=
  (h.ready_of_usable hI (h.usable_of_answer hI hz ha)).1.exists_nodeAt

theorem layered_operand (hz : z ∈ n.children) : g.Layered z :=
  (h.workable_operand (h.part.tameComplements hI.tame) hz).layered

omit hI in
theorem give (ho : Simplify.Reduces g (AnswerFor g₀ m) key n (.give u)) (hu : Usable g₀ S key g u) :
    Reduced g₀ S Inv key p n g₁ u m g :=
  ⟨g, .give u, h, ho, .refl _ _ g, .inl hu, rfl, rfl⟩

omit hI in
/-- Where no operand is left, `∅` or `ε` is. -/
theorem give_fixed (hn : n.children ≠ []) (hu : u = .nil ∨ u = .empty) :
    Reduced g₀ S Inv key p n g₁ u m g :=
  h.give (.fixed hn hu) (hu.elim (fun he => he ▸ h.usable_nil) fun he => he ▸ h.usable_empty)

theorem give_answer (hz : z ∈ n.children) (ha : AnswerFor g₀ m z a) :
    Reduced g₀ S Inv key p n g₁ a m g :=
  h.give (.operand hz ha) (h.usable_of_answer hI hz ha)

omit hI in
theorem ensures_made (ho : Simplify.Reduces g (AnswerFor g₀ m) key n (.make t))
    (hc : ∀ c ∈ t.children, Usable g₀ S key g c) :
    (Transform.make t g).Ensures (keeping g₀ S id Inv) True (Reduced g₀ S Inv key p n g₁) m :=
  ⟨g, .make t, h, ho, .make hc rfl, .make h.usable_nil h.usable_empty h.usable_any,
    h.working.wellFormed.slot?_make⟩

/-- A node like another one is made of the answers for its operands. -/
theorem ensures_refitted (ht : Simplify.Refits (AnswerFor g₀ m) n t) (hn : t.Polished g)
    (hnew : ¬ Simplify.Refits (fun z a => a = z ∨ g.Leads z a) n t) :
    (Transform.make t g).Ensures (keeping g₀ S id Inv) True (Reduced g₀ S Inv key p n g₁) m := by
  refine h.ensures_made (.refit ht hn hnew) fun c hc => ?_
  obtain ⟨z, hz, ha⟩ := ht.answered hc
  exact h.usable_of_answer hI hz ha

/-- A polished node is given back if its operands are what they were. -/
theorem give_self (hn : t.Polished g)
    (hsame : Simplify.Refits (fun z a => a = z ∨ g.Leads z a) n t)
    (hboth : ∀ c ∈ n.children, ∃ a, AnswerFor g₀ m c a ∧ (a = c ∨ g.Leads c a)) :
    Reduced g₀ S Inv key p n g₁ key m g :=
  h.give (.keep ((Node.polished_iff_of_refits hsame fun _ hz => h.layered_operand hI hz).2 hn) hboth)
    h.usable_self

/-- A node with one operand is given back, or made with the answer for the operand. -/
theorem ensures_keepOrMake
    (hrefits : ∀ ans : Handle → Handle → Prop, ans z a → Simplify.Refits ans n t)
    (hz : z ∈ n.children) (ha : AnswerFor g₀ m z a) (ht : t.Polished g) :
    (Simplify.keepOrMake key a z t g).Ensures (keeping g₀ S id Inv) True
      (Reduced g₀ S Inv key p n g₁) m := by
  have honly : Simplify.Refits (fun z' a' => z' = z ∧ a' = a) n t := hrefits _ ⟨rfl, rfl⟩
  refine ensures_look (fun _ => trivial) fun same hsame => ?_
  cases same with
  | true =>
      have hl := Simplify.leads_of_unchanged hsame
      refine h.give_self hI ht (hrefits _ hl) fun c hc => ?_
      obtain ⟨_, -, rfl, rfl⟩ := honly.asked hc
      exact ⟨_, ha, hl⟩
  | false =>
      refine h.ensures_refitted hI (hrefits _ ha) ht fun hunchanged => ?_
      obtain ⟨_, ha', hl⟩ := hunchanged.asked hz
      obtain ⟨_, -, rfl, rfl⟩ := honly.answered ha'
      rw [Simplify.unchanged_of_leads hl] at hsame
      cases hsame

end

variable {next : Handle → TransformM Handle}
  {Q : Handle → Memory Handle Handle → Graph → Prop} {mayStop : Prop}

/-- A rule asks for an operand. -/
theorem ensures_answer (h : Running g₀ S id Inv key p n g₁ m g) (hz : z ∈ n.children)
    (hnext : ∀ a m' g', Running g₀ S id Inv key p n g₁ m' g' → m.Frame m' → AnswerFor g₀ m' z a →
      (next a g').Ensures (keeping g₀ S id Inv) mayStop Q m') :
    ((Transform.ask z >>= next) g).Ensures (keeping g₀ S id Inv) mayStop Q m :=
  h.ensures_ask hz fun r a m' g' hl hframe _ h' ha => hnext a m' g' h' hframe ⟨r, hl, ha⟩

/-! ### The nodes -/

/-- No operand that matches nothing, or `ε` only, is left in a sequence. -/
theorem ensures_seq {first second : Handle} (h : Running g₀ S id Inv key p (.seq first second) g₁ m g)
    (hI : Simplify.Tames g₀ S Inv) :
    (Simplify.ofNode fuel key (.seq first second) g).Ensures (keeping g₀ S id Inv) True
      (Reduced g₀ S Inv key p (.seq first second) g₁) m := by
  refine h.ensures_answer (by simp [Node.children]) fun a m₁ g₁ h₁ _ ha => ?_
  refine h₁.ensures_answer (by simp [Node.children]) fun b m₂ g₂ h₂ hframe hb => ?_
  replace ha := ha.frame hframe
  have hfirst : first ∈ (Node.seq first second).children := by simp [Node.children]
  have hsecond : second ∈ (Node.seq first second).children := by simp [Node.children]
  have hnil := h₂.give_fixed (u := .nil) (List.ne_nil_of_mem hfirst) (.inl rfl)
  obtain ⟨t, ht⟩ := h₂.exists_nodeAt hI hfirst ha
  obtain ⟨u, hu⟩ := h₂.exists_nodeAt hI hsecond hb
  by_cases htnil : t = .nil
  · exact ensures_look_of_eq (isNil_of_nodeAt (htnil ▸ ht)) hnil
  refine ensures_look_of_eq (isNil_eq_false ht htnil) ?_
  by_cases hunil : u = .nil
  · exact ensures_look_of_eq (isNil_of_nodeAt (hunil ▸ hu)) hnil
  refine ensures_look_of_eq (isNil_eq_false hu hunil) ?_
  by_cases htempty : t = .empty
  · exact ensures_look_of_eq (isEmpty_of_nodeAt (htempty ▸ ht)) (h₂.give_answer hI hsecond hb)
  refine ensures_look_of_eq (isEmpty_eq_false ht htempty) ?_
  by_cases huempty : u = .empty
  · exact ensures_look_of_eq (isEmpty_of_nodeAt (huempty ▸ hu)) (h₂.give_answer hI hfirst ha)
  refine ensures_look_of_eq (isEmpty_eq_false hu huempty) ?_
  have hpolished : (Node.seq a b).Polished g₂ := by
    simpa [Node.Polished, ht, hu] using ⟨⟨htnil, htempty⟩, hunil, huempty⟩
  refine ensures_look (fun _ => trivial) fun same hsame => ?_
  cases same with
  | true =>
      obtain ⟨hla, hlb⟩ := Simplify.bothUnchanged_eq_true.1 hsame
      replace hla := Simplify.leads_of_unchanged hla
      replace hlb := Simplify.leads_of_unchanged hlb
      refine h₂.give_self hI hpolished (.seq hla hlb) fun c hc => ?_
      rcases List.mem_pair.1 hc with rfl | rfl
      · exact ⟨a, ha, hla⟩
      · exact ⟨b, hb, hlb⟩
  | false =>
      exact h₂.ensures_refitted hI (.seq ha hb) hpolished
        (Simplify.not_refits_of_bothUnchanged hsame)

/-- A repetition that needs no new node is smaller. -/
theorem give_starred (h : Running g₀ S id Inv key p n g₁ m g) (hI : Simplify.Tames g₀ S Inv)
    (hz : z ∈ n.children) (ha : AnswerFor g₀ m z a) (hv : Simplify.starred? a t = some v) :
    Reduced g₀ S Inv key p n g₁ v m g := by
  rcases Simplify.starred?_eq_some hv with ⟨rfl, -⟩ | ⟨rfl, -⟩
  · exact h.give_fixed (List.ne_nil_of_mem hz) (.inr rfl)
  · exact h.give_answer hI hz ha

theorem polished_star (ht : g.nodeAt a = some t) (hv : Simplify.starred? a t = none) :
    (Node.star a).Polished g := by
  simpa [Node.Polished, ht] using Simplify.starred?_eq_none.1 hv

/-- Repetitions are not nested. -/
theorem ensures_star {operand : Handle} (h : Running g₀ S id Inv key p (.star operand) g₁ m g)
    (hI : Simplify.Tames g₀ S Inv) :
    (Simplify.ofNode fuel key (.star operand) g).Ensures (keeping g₀ S id Inv) True
      (Reduced g₀ S Inv key p (.star operand) g₁) m := by
  refine h.ensures_answer (by simp [Node.children]) fun a m₁ g₁ h₁ _ ha => ?_
  obtain ⟨t, ht⟩ := h₁.exists_nodeAt hI (by simp [Node.children]) ha
  refine ensures_look_of_eq ht ?_
  rcases hv : Simplify.starred? a t with _ | v
  · exact h₁.ensures_keepOrMake hI (fun _ => .star) (by simp [Node.children]) ha
      (polished_star ht hv)
  · exact h₁.give_starred hI (by simp [Node.children]) ha hv

/-- A number of repetitions becomes what it comes to. -/
theorem ensures_rep {operand : Handle} {count : Count}
    (h : Running g₀ S id Inv key p (.rep operand count) g₁ m g) (hI : Simplify.Tames g₀ S Inv) :
    (Simplify.ofNode fuel key (.rep operand count) g).Ensures (keeping g₀ S id Inv) True
      (Reduced g₀ S Inv key p (.rep operand count) g₁) m := by
  have hz {count : Count} : operand ∈ (Node.rep operand count).children := by simp [Node.children]
  rcases count with (_ | _ | k) | _
  · exact h.give_fixed (List.ne_nil_of_mem hz) (.inr rfl)
  · change (Transform.ask operand g).Ensures _ _ _ _
    rw [← Running.ask_bind_pure]
    exact h.ensures_answer hz fun a m₁ g₁ h₁ _ ha => h₁.give_answer hI hz ha
  · refine h.ensures_answer (z := operand) hz fun a m₁ g₁ h₁ _ ha => ?_
    obtain ⟨t, ht⟩ := h₁.exists_nodeAt hI hz ha
    refine ensures_look_of_eq ht ?_
    have hother (hnil : t ≠ .nil) (hempty : t ≠ .empty) :=
      h₁.ensures_keepOrMake (t := .rep a (.exactly (k + 2))) hI (fun _ => .rep _) hz ha
        ⟨⟨k, rfl⟩, by simpa [ht] using hnil, by simpa [ht] using hempty⟩
    cases t with
    | nil => exact h₁.give_fixed (List.ne_nil_of_mem hz) (.inl rfl)
    | empty => exact h₁.give_fixed (List.ne_nil_of_mem hz) (.inr rfl)
    | _ => exact hother (by simp) (by simp)
  · refine h.ensures_answer (z := operand) hz fun a m₁ g₁ h₁ _ ha => ?_
    obtain ⟨t, ht⟩ := h₁.exists_nodeAt hI hz ha
    refine ensures_look_of_eq ht ?_
    rcases hv : Simplify.starred? a t with _ | v
    · refine h₁.ensures_made (.unbounded ha (polished_star ht hv)) fun c hc => ?_
      rw [List.mem_singleton.1 hc]
      exact h₁.usable_of_answer hI hz ha
    · exact h₁.give_starred hI hz ha hv

/-- Complements are not nested. -/
theorem ensures_not {operand : Handle} (h : Running g₀ S id Inv key p (.not operand) g₁ m g)
    (hI : Simplify.Tames g₀ S Inv) :
    (Simplify.ofNode fuel key (.not operand) g).Ensures (keeping g₀ S id Inv) True
      (Reduced g₀ S Inv key p (.not operand) g₁) m := by
  have hz : operand ∈ (Node.not operand).children := by simp [Node.children]
  refine h.ensures_answer hz fun a m₁ g₁ h₁ _ ha => ?_
  obtain ⟨t, ht⟩ := h₁.exists_nodeAt hI hz ha
  refine ensures_look_of_eq ht ?_
  have hother (hnot : ∀ inner, t ≠ .not inner) :=
    h₁.ensures_keepOrMake (t := .not a) hI (fun _ => .not) hz ha fun inner => by
      simpa [ht] using hnot inner
  cases t with
  | not inner =>
      exact h₁.give (.inner ha ht) (h₁.closed_usable.of_reaches (h₁.usable_of_answer hI hz ha)
        (reaches_of_nodeAt ht (by simp [Node.children])))
  | _ => exact hother (by simp)

/-- The nullability that is left is one of an operand that matches the empty word, among others. -/
theorem ensures_nullability {operand : Handle}
    (h : Running g₀ S id Inv key p (.nullability operand) g₁ m g) (hI : Simplify.Tames g₀ S Inv)
    (hfuel : 0 < fuel) :
    (Simplify.ofNode fuel key (.nullability operand) g).Ensures (keeping g₀ S id Inv) True
      (Reduced g₀ S Inv key p (.nullability operand) g₁) m := by
  have hz : operand ∈ (Node.nullability operand).children := by simp [Node.children]
  have htame := h.part.tameComplements hI.tame
  obtain ⟨nullable, hnullable, -⟩ := (h.workable_operand htame hz).nullable_of_tame
    (h.ready_of_usable hI (h.usable_operand hz)).2 hfuel
  have hiff := (h.simplifying (hI.words m g h.inv)).nullable_operand htame hz hnullable
  refine ensures_look_of_eq hnullable ?_
  cases nullable with
  | false => exact h.give_fixed (List.ne_nil_of_mem hz) (.inl rfl)
  | true =>
      refine h.ensures_answer hz fun a m₁ g₁ h₁ _ ha => ?_
      obtain ⟨t, ht⟩ := h₁.exists_nodeAt hI hz ha
      refine ensures_look_of_eq ht ?_
      have hmeets := (hI.words m₁ g₁ h₁.inv).answer h₁.working h₁.part htame (h.operand_mem hz) ha
      have hmem : [] ∈ g₁.language a := by
        rw [hmeets.eq (.inr (hI.tame operand (h.operand_mem hz)))]
        exact hiff.1 rfl
      have hdone := h₁.give_answer hI hz ha
      have hother (hempty : t ≠ .empty) (htrees : ∀ trees, t ≠ .emptyReduction trees)
          (hinner : ∀ inner, t ≠ .nullability inner) :=
        h₁.ensures_keepOrMake (t := .nullability a) hI (fun _ => .nullability) hz ha
          ⟨hmem, by simpa [ht] using hempty, fun trees => by simpa [ht] using htrees trees,
            fun inner => by simpa [ht] using hinner inner⟩
      cases t with
      | empty => exact hdone
      | emptyReduction trees => exact hdone
      | nullability inner => exact hdone
      | _ => exact hother (by simp) (by simp) (by simp)

/-- The reduction that is left has an operand without known trees. -/
theorem ensures_reduction {operand : Handle} {reducer : Reducer}
    (h : Running g₀ S id Inv key p (.reduction operand reducer) g₁ m g)
    (hI : Simplify.Tames g₀ S Inv) :
    (Simplify.ofNode fuel key (.reduction operand reducer) g).Ensures (keeping g₀ S id Inv) True
      (Reduced g₀ S Inv key p (.reduction operand reducer) g₁) m := by
  have hz : operand ∈ (Node.reduction operand reducer).children := by simp [Node.children]
  refine h.ensures_answer hz fun a m₁ g₁ h₁ _ ha => ?_
  obtain ⟨t, ht⟩ := h₁.exists_nodeAt hI hz ha
  refine ensures_look_of_eq ht ?_
  have hother (hnil : t ≠ .nil) (htrees : ∀ trees, t ≠ .emptyReduction trees) :=
    h₁.ensures_keepOrMake (t := .reduction a reducer) hI (fun _ => .reduction reducer) hz ha
      ⟨by simpa [ht] using hnil, fun trees => by simpa [ht] using htrees trees⟩
  cases t with
  | nil => exact h₁.give_fixed (List.ne_nil_of_mem hz) (.inl rfl)
  | emptyReduction trees =>
      refine ensures_look (fun _ => trivial) fun reduced _ => ?_
      exact h₁.ensures_made (.trees reducer reduced) (by simp [Node.children])
  | _ => exact hother (by simp) (by simp)

/-- The rule of a node that is not an alternative comes to what is listed. -/
theorem ensures_reduced (h : Running g₀ S id Inv key p n g₁ m g) (hI : Simplify.Tames g₀ S Inv)
    (hn : ¬ Simplify.IsAlternative n) (hfuel : 0 < fuel) :
    (Simplify.ofNode fuel key n g).Ensures (keeping g₀ S id Inv) True
      (Reduced g₀ S Inv key p n g₁) m := by
  have hleaf (hc : n.children = []) (hpolished : n.Polished g) :
      Reduced g₀ S Inv key p n g₁ key m g :=
    h.give (.keep hpolished (by simp [hc])) h.usable_self
  cases n with
  | nil => exact hleaf rfl trivial
  | empty => exact hleaf rfl trivial
  | any => exact hleaf rfl trivial
  | char c => exact hleaf rfl trivial
  | token text => exact hleaf rfl trivial
  | emptyReduction trees => exact hleaf rfl trivial
  | range first last =>
      change ((if first = last then Transform.make (.char first) else pure key : TransformM Handle)
        g).Ensures _ _ _ _
      split
      · next he => exact h.ensures_made (he ▸ .range first) (by simp [Node.children])
      · next hne => exact hleaf rfl hne
  | alt left right => exact absurd ⟨left, right, rfl⟩ hn
  | seq first second => exact h.ensures_seq hI
  | star operand => exact h.ensures_star hI
  | rep operand count => exact h.ensures_rep hI
  | not operand => exact h.ensures_not hI
  | nullability operand => exact h.ensures_nullability hI hfuel
  | reduction operand reducer => exact h.ensures_reduction hI

end Running

end Reducing

end DerivativeParsing
