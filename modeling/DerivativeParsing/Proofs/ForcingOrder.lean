import DerivativeParsing.Proofs.Drafts

/-!
# The order in which references are built

It does not matter in which order suspended references are built, if their descriptions give no
names.  Handles of two grammars in which everything has been built are `Twins` if they realise one
draft.  Twins hold a node, a forward or a rule without a body together, and they refer to twins
(`Twins.cases`), so that chains of references start and end alike in both grammars.

What a preparation reports can therefore be read off any grammar in which everything has been built,
and not only one that continues it.
-/

set_option autoImplicit false

namespace DerivativeParsing.Grammar

open DerivativeParsing.Graph

variable {g a a' b : Grammar} {S T : Handle → Description → Prop} {root h k p q r : Handle}
  {body : Description}

/-! ## Grammars in which something has been built -/

/-- Suspended references of `g`, and of what they were built into, have been built, whatever the
order.  What slots have been suspended with, `S` tells. -/
structure Develops (g : Grammar) (S : Handle → Description → Prop) (a : Grammar) : Prop
    extends Stems g a where
  undefined : ∀ h name, g.graph.slot? h = some (.undefined name) →
    a.graph.slot? h = some (.undefined name)
  known : ∀ name h, g.rules.lookup name = some h → a.rules.lookup name = some h
  fresh : ∀ name h, g.rules.lookup name = none → a.rules.lookup name = some h →
    a.graph.slot? h = some (.undefined name)
  bindsNothing : ∀ h body, a.Suspends h body → body.BindsNothing
  origin : ∀ h body, g.Suspends h body → S h body
  current : ∀ h body, a.Suspends h body → S h body
  settled : ∀ h body, S h body → a.Suspends h body ∨
    ∃ t, a.graph.slot? h = some (.forward t) ∧
      Realises g S a ((body.draft g.names).getD .leaf) t

/-- No suspended description of a grammar gives a name to a handle. -/
def Pure (g : Grammar) : Prop := ∀ h body, g.Suspends h body → body.BindsNothing

theorem Develops.refl (hg : g.WellFormed) (hpure : g.Pure) : Develops g g.Suspends g where
  wellFormed := hg
  grows := .refl _
  names := rfl
  undefined _ _ := id
  known _ _ := id
  fresh name h hnone hsome := by rw [hnone] at hsome; cases hsome
  bindsNothing := hpure
  origin _ _ := id
  current _ _ := id
  settled _ _ := .inl

/-- Building one more suspended reference keeps to the drafts. -/
theorem Develops.forced (hdev : Develops g S a) (hforced : Forced p a a') :
    ∃ S', Develops g S' a' := by
  obtain ⟨body, t, a₁, hs, hrun, rfl⟩ := hforced
  obtain ⟨hw, ht⟩ := widens_force hdev.toStems (hdev.bindsNothing p body hs) hrun
  have hs₁ : a₁.graph.slot? p = some (.suspended body) := hw.suspends hs
  let a' : Grammar := { a₁ with graph := a₁.graph.setForward p t }
  have hself : a'.graph.slot? p = some (.forward t) := slot?_setForward_self (slot?_lt hs₁)
  have hother {h : Handle} (hne : h ≠ p) : a'.graph.slot? h = a₁.graph.slot? h :=
    slot?_setForward_of_ne hne
  have hgrows : a₁.graph.Grows a'.graph :=
    .of_setForward (fun n => by simp [hs₁]) fun t => by simp [hs₁]
  have hundefined {h : Handle} {name : String} (hh : a₁.graph.slot? h = some (.undefined name)) :
      a'.graph.slot? h = some (.undefined name) := by
    rw [hother fun he => by rw [he, hs₁] at hh; cases hh]
    exact hh
  have hsuspends {h : Handle} {body : Description} (hh : a'.Suspends h body) :
      a₁.Suspends h body := by
    have hne : h ≠ p := fun he => by
      rw [Suspends, he, hself] at hh
      cases hh
    rwa [Suspends, hother hne] at hh
  -- What was suspended before stays on record when its slot is a forward.
  let S' (h : Handle) (body : Description) : Prop := S h body ∨ a₁.Suspends h body
  have hnow {d : Draft} {h : Handle} (hr : Realises g a₁.Suspends a₁ d h) :
      Realises g S' a' d h := hr.mono (fun _ _ => .inr) hgrows fun _ _ => id
  have hstill {h : Handle} {body' : Description} (hh : a₁.Suspends h body') :
      a'.Suspends h body' ∨ ∃ t, a'.graph.slot? h = some (.forward t) ∧
        Realises g S' a' ((body'.draft g.names).getD .leaf) t := by
    rcases eq_or_ne h p with rfl | hne
    · obtain rfl : body = body' := by simpa [Suspends, hs₁] using hh
      exact .inr ⟨t, hself, hnow ht⟩
    · exact .inl ((hother hne).trans hh)
  refine ⟨S', ⟨hdev.wellFormed, ?_, hw.names.trans hdev.names⟩, ?_, ?_, ?_, ?_, ?_, ?_, ?_⟩
  · exact (hdev.grows.trans (.of_extends hw.kept)).trans hgrows
  · intro h name hh
    have hh := hdev.undefined h name hh
    exact hundefined ((hw.kept.2 h (slot?_lt hh)).trans hh)
  · exact fun name h hl => hw.lookup name h (hdev.known name h hl)
  · intro name h hnone hsome
    refine hundefined ?_
    rcases hl : a.rules.lookup name with _ | k
    · exact hw.fresh name h hl hsome
    · obtain rfl : k = h := by
        have := (hw.lookup name k hl).symm.trans hsome
        simpa using this
      have hh := hdev.fresh name k hnone hl
      exact (hw.kept.2 k (slot?_lt hh)).trans hh
  · intro h body hh
    rcases hw.bindsNothing h body (hsuspends hh) with hh | hp
    · exact hdev.bindsNothing h body hh
    · exact hp
  · exact fun h body hh => .inl (hdev.origin h body hh)
  · exact fun h body hh => .inr (hsuspends hh)
  · rintro h body (hh | hh)
    · rcases hdev.settled h body hh with hh | ⟨t, hh, hr⟩
      · exact hstill (hw.suspends hh)
      · have hh₁ := (Graph.Grows.of_extends hw.kept).forward h t hh
        refine .inr ⟨t, hgrows.forward h t hh₁, ?_⟩
        exact hr.mono (fun _ _ => .inl) ((Graph.Grows.of_extends hw.kept).trans hgrows) hw.lookup
    · exact hstill hh

/-- Any number of suspended references may have been built. -/
theorem Forcing.develops (h : Forcing g a) (hg : g.WellFormed) (hpure : g.Pure) :
    ∃ S, Develops g S a :=
  h.keeps (P := fun a => ∃ S, Develops g S a) ⟨_, .refl hg hpure⟩
    fun _ _ _ ha hforced => ha.elim fun _ hdev => hdev.forced hforced

/-! ## Twins -/

/-- Everything has been built. -/
structure Developed (g : Grammar) (S : Handle → Description → Prop) (a : Grammar) : Prop
    extends Develops g S a where
  unsuspended : Unsuspended a

/-- Two handles realise one draft. -/
def Twins (g : Grammar) (S T : Handle → Description → Prop) (a b : Grammar) (h k : Handle) : Prop :=
  ∃ d, Realises g S a d h ∧ Realises g T b d k

namespace Twins

theorem symm (htwins : Twins g S T a b h k) : Twins g T S b a k h := by
  obtain ⟨d, hr, hr'⟩ := htwins
  exact ⟨d, hr', hr⟩

theorem of_has (hh : g.Has h) : Twins g S T a b h h := ⟨.handle h, .handle hh, .handle hh⟩

theorem exists_twin {hs ks : List Handle} (htwins : List.Forall₂ (Twins g S T a b) hs ks)
    (hh : h ∈ hs) : ∃ k ∈ ks, Twins g S T a b h k := by
  induction htwins with
  | nil => cases hh
  | @cons h' k' _ _ hk _ ih =>
      rcases List.mem_cons.1 hh with rfl | hh
      · exact ⟨k', by simp, hk⟩
      · obtain ⟨k, hk, htwins⟩ := ih hh
        exact ⟨k, by simp [hk], htwins⟩

variable (ha : Developed g S a) (hb : Developed g T b)

include ha hb

/-- Where a slot was suspended in both grammars, both have built the same. -/
theorem of_suspended (hs : S h body) (ht : T k body) :
    ∃ t u, a.graph.slot? h = some (.forward t) ∧ b.graph.slot? k = some (.forward u) ∧
      Twins g S T a b t u := by
  rcases ha.settled h body hs with hh | ⟨t, hh, hr⟩
  · exact absurd hh (ha.unsuspended h body)
  rcases hb.settled k body ht with hk | ⟨u, hk, hr'⟩
  · exact absurd hk (hb.unsuspended k body)
  exact ⟨t, u, hh, hk, _, hr, hr'⟩

/-- What a slot of two grammars in which everything is built has in common. -/
theorem cases_of_has (hh : g.Has h) :
    (∃ t u, a.graph.slot? h = some (.forward t) ∧ b.graph.slot? h = some (.forward u) ∧
        Twins g S T a b t u) ∨
      (∃ n m, a.graph.slot? h = some (.node n) ∧ b.graph.slot? h = some (.node m) ∧
        List.Forall₂ (Twins g S T a b) n.children m.children) ∨
      ∃ name, a.graph.slot? h = some (.undefined name) ∧ b.graph.slot? h = some (.undefined name) := by
  have htwins {k : Handle} (hk : k ∈ g.graph.references h) : Twins g S T a b k k := by
    have hhas : g.Has k := ha.wellFormed.graph.inRange h k hk
    exact .of_has hhas
  rcases hs : g.graph.slot? h with _ | (n | body | name | t)
  · exact absurd (slot?_eq_none.1 hs) (Nat.not_le.2 hh)
  · refine .inr (.inl ⟨n, n, ha.grows.node h n hs, hb.grows.node h n hs, ?_⟩)
    rw [List.forall₂_same]
    exact fun k hk => htwins (by rwa [references_of_node hs])
  · exact .inl (of_suspended ha hb (ha.origin h body hs) (hb.origin h body hs))
  · exact .inr (.inr ⟨name, ha.undefined h name hs, hb.undefined h name hs⟩)
  · refine .inl ⟨t, t, ha.grows.forward h t hs, hb.grows.forward h t hs, htwins ?_⟩
    rw [references_of_forward hs]
    exact List.mem_singleton_self t

/-- Twins hold forwards, nodes or rules without a body together, and refer to twins. -/
theorem cases (htwins : Twins g S T a b h k) :
    (∃ t u, a.graph.slot? h = some (.forward t) ∧ b.graph.slot? k = some (.forward u) ∧
        Twins g S T a b t u) ∨
      (∃ n m, a.graph.slot? h = some (.node n) ∧ b.graph.slot? k = some (.node m) ∧
        List.Forall₂ (Twins g S T a b) n.children m.children) ∨
      ∃ name, a.graph.slot? h = some (.undefined name) ∧ b.graph.slot? k = some (.undefined name) := by
  obtain ⟨d, hr, hr'⟩ := htwins
  cases hr with
  | handle hh =>
      cases hr'
      exact cases_of_has ha hb hh
  | @rule name h hl =>
      obtain _ | hl' := hr'
      rcases hlookup : g.rules.lookup name with _ | q
      · exact .inr (.inr ⟨name, ha.fresh name h hlookup hl, hb.fresh name k hlookup hl'⟩)
      · have hq : some q = some h := (ha.known name q hlookup).symm.trans hl
        have hq' : some q = some k := (hb.known name q hlookup).symm.trans hl'
        cases hq
        cases hq'
        exact cases_of_has ha hb (WellFormed.lookup_has ha.wellFormed.rules hlookup)
  | suspended hs =>
      obtain _ | _ | ht := hr'
      exact .inl (of_suspended ha hb hs ht)
  | leaf hs hn =>
      obtain _ | _ | _ | ⟨hs', hn'⟩ := hr'
      exact .inr (.inl ⟨_, _, hs, hs', by rw [hn, hn']; exact .nil⟩)
  | one hs hn hk =>
      obtain _ | _ | _ | _ | ⟨hs', hn', hk'⟩ := hr'
      exact .inr (.inl ⟨_, _, hs, hs', by rw [hn, hn']; exact .cons ⟨_, hk, hk'⟩ .nil⟩)
  | two hs hn hk hl =>
      obtain _ | _ | _ | _ | _ | ⟨hs', hn', hk', hl'⟩ := hr'
      exact .inr (.inl ⟨_, _, hs, hs', by
        rw [hn, hn']
        exact .cons ⟨_, hk, hk'⟩ (.cons ⟨_, hl, hl'⟩ .nil)⟩)

/-- The chains of twins end at twins. -/
theorem leads {r : Handle} (hl : a.graph.Leads h r) (htwins : Twins g S T a b h k) :
    ∃ q, b.graph.Leads k q ∧ Twins g S T a b r q := by
  induction hl generalizing k with
  | here hend =>
      refine ⟨k, .here fun u hk => ?_, htwins⟩
      rcases cases ha hb htwins with
        ⟨t, -, hs, -, -⟩ | ⟨-, m, -, hs, -⟩ | ⟨name, -, hs⟩
      · exact hend t hs
      · rw [hs] at hk
        cases hk
      · rw [hs] at hk
        cases hk
  | @step h t r hs _ ih =>
      rcases cases ha hb htwins with
        ⟨t', u, hs', hk, hrest⟩ | ⟨n, -, hs', -, -⟩ | ⟨name, hs', -⟩ <;> rw [hs] at hs' <;> cases hs'
      obtain ⟨q, hl, hq⟩ := ih hrest
      exact ⟨q, .step hk hl, hq⟩

/-- What twins reach are twins. -/
theorem reaches {q : Handle} (hq : a.graph.Reaches h q) (htwins : Twins g S T a b h k) :
    ∃ l, b.graph.Reaches k l ∧ Twins g S T a b q l := by
  induction hq with
  | refl => exact ⟨k, .refl, htwins⟩
  | @tail q c _ hc ih =>
      obtain ⟨l, hl, htwins⟩ := ih
      rcases cases ha hb htwins with
        ⟨t, u, hs, hs', hrest⟩ | ⟨n, m, hs, hs', hrest⟩ | ⟨name, hs, -⟩
      · rw [references_of_forward hs] at hc
        obtain rfl := List.mem_singleton.1 hc
        exact ⟨u, hl.tail (by rw [references_of_forward hs']; exact List.mem_singleton_self u), hrest⟩
      · rw [references_of_node hs] at hc
        obtain ⟨i, hi, rfl⟩ := List.getElem_of_mem hc
        have hi' : i < m.children.length := hrest.length_eq ▸ hi
        refine ⟨m.children[i], hl.tail ?_, hrest.get hi hi'⟩
        rw [references_of_node hs']
        exact List.getElem_mem hi'
      · rw [references_eq hs] at hc
        cases hc

/-- Chains of references start at twins. -/
theorem starts {q : Handle} (hq : a.graph.Starts h q) (htwins : Twins g S T a b h k) :
    ∃ l, b.graph.Starts k l ∧ Twins g S T a b q l := by
  cases hq with
  | root => exact ⟨k, .root, htwins⟩
  | @operand p c n hp hs hc =>
      obtain ⟨l, hl, htwins⟩ := reaches ha hb hp htwins
      rcases cases ha hb htwins with
        ⟨t, -, hs', -, -⟩ | ⟨n', m, hs', hm, hrest⟩ | ⟨name, hs', -⟩ <;> rw [hs] at hs' <;> cases hs'
      obtain ⟨e, he, hrest⟩ := exists_twin hrest hc
      exact ⟨e, .operand hl hm he, hrest⟩

end Twins

/-! ## What a preparation reports -/

/-- Once everything has been built, nothing is left to build. -/
theorem Forcing.eq_of_unsuspended (h : Forcing a b) (ha : Unsuspended a) : b = a := by
  rcases Relation.ReflTransGen.cases_head h with rfl | ⟨c, ⟨p, body, t, c', hs, -⟩, -⟩
  · rfl
  · exact absurd hs (ha p body)

/-- Where everything has been built, a chain of references ends or runs in a circle. -/
theorem WellFormed.meets (ha : a.WellFormed) (hdone : Unsuspended a) (hh : a.Has h) :
    ∃ d, Meets a.graph h d := by
  have hsteps : a.graph.slotBound < a.graph.slotBound + 1 + ([] : List Handle).length := by simp
  obtain ⟨d, a', -, hforcing, hd⟩ := ha.trace_ends hh (.nil a.graph h) hsteps
  obtain rfl := hforcing.eq_of_unsuspended hdone
  exact ⟨d, hd⟩

/-- A chain with a fault does not end at a node. -/
theorem Faulty.not_leadsToNode {graph : Graph} {e : Failure} (he : Faulty graph h e) :
    ¬ graph.LeadsToNode h := by
  rintro ⟨r, n, hl, hs⟩
  unfold Faulty at he
  split at he
  · obtain ⟨q, hl', hs'⟩ := he
    obtain rfl := hl.unique hl'
    rw [hs] at hs'
    cases hs'
  · exact he.not_leads hl
  · exact he

/-- Twins have the same fault. -/
theorem Twins.faulty {e : Failure} (ha : Developed g S a) (hb : Developed g T b) (hwf : b.WellFormed)
    (hk : b.Has k) (htwins : Twins g S T a b h k) (he : Faulty a.graph h e) :
    Faulty b.graph k e := by
  unfold Faulty at he ⊢
  split at he
  · obtain ⟨r, hl, hs⟩ := he
    obtain ⟨q, hl', hrest⟩ := leads ha hb hl htwins
    rcases cases ha hb hrest with ⟨t, -, hs', -, -⟩ | ⟨n, -, hs', -, -⟩ | ⟨name, hs', hq⟩ <;>
      rw [hs] at hs' <;> cases hs'
    exact ⟨q, hl', hq⟩
  · have hendless {q : Handle} (hl : b.graph.Leads k q) : False := by
      obtain ⟨r, hl', -⟩ := leads hb ha hl htwins.symm
      exact he.not_leads hl'
    obtain ⟨d, hd⟩ := hwf.meets hb.unsuspended hk
    cases d with
    | node q =>
        obtain ⟨n, hl, -⟩ := hd
        exact (hendless hl).elim
    | undefined q name => exact (hendless hd.1).elim
    | circular => exact hd
  · exact he

/-- Twins lead to nodes together. -/
theorem Twins.leadsToNode (ha : Developed g S a) (hb : Developed g T b)
    (htwins : Twins g S T a b h k) (hh : a.graph.LeadsToNode h) : b.graph.LeadsToNode k := by
  obtain ⟨r, n, hl, hs⟩ := hh
  obtain ⟨q, hl', hrest⟩ := leads ha hb hl htwins
  rcases cases ha hb hrest with ⟨t, -, hs', -, -⟩ | ⟨n, m, hs', hm, -⟩ | ⟨name, hs', -⟩ <;>
    rw [hs] at hs' <;> cases hs'
  exact ⟨q, m, hl', hm⟩

/-- All chains of references that start at an expression, or at an operand of a node that can be
reached, end at nodes. -/
def Grounded (graph : Graph) (root : Handle) : Prop := ∀ h, graph.Starts root h → graph.LeadsToNode h

/-- Something that can be reached is on a chain with a fault. -/
def Fails (graph : Graph) (root : Handle) (e : Failure) : Prop :=
  ∃ h, graph.Starts root h ∧ Faulty graph h e

theorem Fails.not_grounded {graph : Graph} {e : Failure} (he : Fails graph root e) :
    ¬ Grounded graph root := fun hgrounded => by
  obtain ⟨h, hh, he⟩ := he
  exact he.not_leadsToNode (hgrounded h hh)

section Order

variable (hg : g.WellFormed) (hpure : g.Pure) (hroot : g.Has root) (ha : Forcing g a)
  (hdoneA : Unsuspended a) (hb : Forcing g b) (hdoneB : Unsuspended b)

include hg hpure hroot ha hdoneA hb hdoneB

/-- Whether all chains end at nodes does not depend on the order in which references are built. -/
theorem grounded_of_forcing (hgrounded : Grounded a.graph root) : Grounded b.graph root := by
  obtain ⟨S, hdevA⟩ := ha.develops hg hpure
  obtain ⟨T, hdevB⟩ := hb.develops hg hpure
  intro k hk
  obtain ⟨h, hh, htwins⟩ := Twins.starts ⟨hdevB, hdoneB⟩ ⟨hdevA, hdoneA⟩ hk (.of_has hroot)
  exact htwins.symm.leadsToNode ⟨hdevA, hdoneA⟩ ⟨hdevB, hdoneB⟩ (hgrounded h hh)

/-- The faults of chains do not depend on the order in which references are built. -/
theorem fails_of_forcing {e : Failure} (he : Fails a.graph root e) : Fails b.graph root e := by
  obtain ⟨S, hdevA⟩ := ha.develops hg hpure
  obtain ⟨T, hdevB⟩ := hb.develops hg hpure
  obtain ⟨h, hh, he⟩ := he
  obtain ⟨k, hk, htwins⟩ := Twins.starts ⟨hdevA, hdoneA⟩ ⟨hdevB, hdoneB⟩ hh (.of_has hroot)
  have hwf := hb.wellFormed hg
  have hhas : b.Has k :=
    hwf.graph.lt_of_reaches (hroot.change (hb.grows hg)) hk.reaches
  exact ⟨k, hk, htwins.faulty ⟨hdevA, hdoneA⟩ ⟨hdevB, hdoneB⟩ hwf hhas he⟩

end Order

/-- A fault stays when more is built. -/
theorem Forcing.fails {e : Failure} (h : Forcing g a) (hg : g.WellFormed) (hpure : g.Pure)
    (he : Fails g.graph root e) : Fails a.graph root e := by
  have hgrows := h.grows hg
  obtain ⟨S, hdev⟩ := h.develops hg hpure
  obtain ⟨k, hk, he⟩ := he
  refine ⟨k, ?_, ?_⟩
  · cases hk with
    | root => exact .root
    | operand hp hs hc => exact .operand (hgrows.reached hp) (hgrows.node _ _ hs) hc
  · unfold Faulty at he ⊢
    split at he
    · obtain ⟨r, hl, hs⟩ := he
      have hs' := hdev.undefined r _ hs
      exact ⟨r, hgrows.leads_of_end hl fun t => by simp [hs'], hs'⟩
    · exact hgrows.circles he
    · exact he

end DerivativeParsing.Grammar
