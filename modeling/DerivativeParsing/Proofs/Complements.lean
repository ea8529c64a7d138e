import DerivativeParsing.Proofs.Nullability
import DerivativeParsing.Proofs.Preparation

/-!
# Nullability and complements

Nullability is evaluated in passes that hand their values on.  The rules of all nodes but the
complement are monotone, so that values only grow towards the least solution.  A complement that
is evaluated while its operand still has a provisional value may get a value that is too large, and
later passes keep what depends on it.

`nullable_exact_iff` says what that amounts to: the evaluation never holds a value that is too
large, and comes to the right result, exactly if every complement that is evaluated reads the final
value of its operand.  Without cycles below complements it does (`complementsFinal_of_tame`).
-/

set_option autoImplicit false

namespace DerivativeParsing

open Fixpoint

namespace Graph

variable {g : Graph} {root h k p r t : Handle} {n : Node}

/-- A handle is the complement of something. -/
def IsComplement (g : Graph) (k : Handle) : Prop := ∃ p, g.node k = .not p

open Classical in
/-- The value that the nullability of a handle has to come to. -/
noncomputable def finalNullable (g : Graph) (k : Handle) : Bool := decide ([] ∈ g.language k)

theorem finalNullable_eq_true : g.finalNullable k = true ↔ [] ∈ g.language k := by
  classical exact decide_eq_true_iff

/-- In the evaluation of the nullability of `root` with at most `fuel` passes, the rule of `k` comes
to the value `v`. -/
def NullableSettles (g : Graph) (root : Handle) (fuel : Nat) (k : Handle) (v : Bool) : Prop :=
  ∃ p, RunSettles (Nullable.table.rules g) ⟨k, p, v, ()⟩ (g.size + 1) root fuel .empty

/-- Every complement whose rule is evaluated reads the final value of its operand, so that it comes
to its own final value. -/
def ComplementsFinal (g : Graph) (root : Handle) : Prop :=
  ∀ fuel k v, g.NullableSettles root fuel k v → g.IsComplement k → v = g.finalNullable k

theorem slot?_of_node_eq (hn : g.node k = n) (hne : n ≠ .nil) :
    g.slot? k = some (.node n) := by
  unfold node at hn
  rcases hs : g.stored? k with _ | n'
  · exact absurd (by rw [← hn, hs]; rfl) hne
  · rw [hs] at hn
    obtain rfl : n' = n := hn
    exact stored?_eq_some.1 hs

end Graph

open DerivativeParsing.Graph

namespace Nullable

/-! ## The equations of a graph -/

open Classical in
/-- The right-hand side of the equation of a handle.  A complement has its final value. -/
noncomputable def equation (g : Graph) (f : Handle → Bool) (k : Handle) : Bool :=
  if g.IsComplement k then g.finalNullable k
  else (g.node k).nullable fun c => f (g.endOf c)

/-- A computed value is allowed if it is not that of a complement, or final. -/
def Allowed (g : Graph) (k : Handle) (v : Bool) : Prop :=
  g.IsComplement k → v = g.finalNullable k

variable {g : Graph} {root h k p r : Handle} {n : Node}

theorem nullable_mono {f f' : Handle → Bool} (hnot : ∀ p, n ≠ .not p)
    (hf : ∀ c ∈ n.children, AtMost false (f c) (f' c)) :
    AtMost false (n.nullable f) (n.nullable f') := by
  simp only [atMost_false] at hf ⊢
  cases n with
  | not p => exact absurd rfl (hnot p)
  | alt left right =>
      simp only [Node.nullable, Bool.or_eq_true]
      exact Or.imp (hf left (by simp [Node.children])) (hf right (by simp [Node.children]))
  | seq first second =>
      simp only [Node.nullable, Bool.and_eq_true]
      exact And.imp (hf first (by simp [Node.children])) (hf second (by simp [Node.children]))
  | rep operand count =>
      rcases count with (_ | n) | _
      · exact id
      · exact hf operand (by simp [Node.children])
      · exact id
  | nullability operand => exact hf operand (by simp [Node.children])
  | reduction operand reducer => exact hf operand (by simp [Node.children])
  | _ => exact id

theorem ascent (g : Graph) :
    Ascent (table.rules g) false (equation g) (Allowed g) where
  bottom _ := rfl
  mono f f' hf k := by
    unfold equation
    split
    · exact .refl _ _
    · next hk => exact nullable_mono (fun p hp => hk ⟨p, hp⟩) fun c _ => hf (g.endOf c)
  lower f k v hallowed h := by
    unfold equation
    split
    · next hk =>
        rw [hallowed hk]
        exact .refl _ _
    · next hk => exact le_of_yields (fun p hp => hk ⟨p, hp⟩) h
  upper f k v hallowed h := by
    unfold equation
    split
    · next hk =>
        rw [hallowed hk]
        exact .refl _ _
    · next hk => exact ge_of_yields (fun p hp => hk ⟨p, hp⟩) h

/-- What is at the end of an operand's chain has the final value of the operand. -/
theorem final_endOf (hready : g.Ready k) (hlayered : g.Layered k) (hk : h ∈ g.references k) :
    g.finalNullable (g.endOf h) = g.finalNullable h := by
  obtain ⟨m, hl, -⟩ := hready.leads_endOf (.single hk)
  unfold finalNullable
  rw [(hlayered.of_mem_references hk).language_leads hl]

/-- The final value of a complement negates the final value of its operand. -/
theorem final_not (hlayered : g.Layered k) (hs : g.slot? k = some (.node (.not p)))
    (hl : g.Leads p r) : g.finalNullable k = !g.finalNullable r := by
  have hk : [] ∈ g.language k ↔ [] ∉ g.language r := by
    rw [hlayered.language_node hs, ← (hlayered.of_mem_references
      (by simp [references_of_node hs, Node.children])).language_leads hl]
    rfl
  rw [Bool.eq_iff_iff, Bool.not_eq_true', ← Bool.not_eq_true, finalNullable_eq_true,
    finalNullable_eq_true, hk]

/-- The final values solve the equations. -/
theorem equation_final (hg : g.WellFormed) (hready : g.Ready k) (hlayered : g.Layered k)
    (hs : g.slot? k = some (.node n)) : equation g g.finalNullable k = g.finalNullable k := by
  unfold equation
  split
  · rfl
  · next hk =>
      have hnot : ∀ p, n ≠ .not p := fun p hp => hk ⟨p, (node_eq hs).trans hp⟩
      have hend : ∀ c ∈ n.children, g.finalNullable (g.endOf c) = g.finalNullable c :=
        fun c hc => final_endOf hready hlayered (by rwa [references_of_node hs])
      rw [node_eq hs]
      calc n.nullable (fun c => g.finalNullable (g.endOf c))
          = n.nullable g.finalNullable :=
            AtMost.antisymm (nullable_mono hnot fun c hc => by rw [hend c hc]; exact .refl _ _)
              (nullable_mono hnot fun c hc => by rw [hend c hc]; exact .refl _ _)
        _ = g.finalNullable k := by
            have hnil : [] ∈ n.words g.language g.language ↔ _ :=
              Node.nil_mem_words (fun he => hg.tokens k (he ▸ hs)) fun p hp => absurd hp (hnot p)
            rw [← hlayered.language_node hs] at hnil
            exact Bool.eq_iff_iff.2 (hnil.symm.trans finalNullable_eq_true.symm)

end Nullable

/-! ## Evaluations in which complements are final -/

section Evaluation

open Nullable

variable {g : Graph} {root : Handle}

/-- A graph in which a handle is ready and no cycle passes through a complement. -/
structure Graph.Stratifies (g : Graph) (root : Handle) : Prop where
  wellFormed : g.WellFormed
  inRange : root.index < g.size
  ready : g.Ready root
  stratified : g.Stratified root

namespace Graph.Stratifies

variable {h k p r : Handle} {n : Node} {fuel : Nat}

theorem layered (hg : g.Stratifies root) (hk : g.Reaches root k) : g.Layered k :=
  hg.stratified.layered.reaches hk

/-- The ends of the operands of a node can be reached. -/
theorem reaches_endOf (hg : g.Stratifies root) (hk : g.Reaches root k) {c : Handle}
    (hc : c ∈ (g.node k).children) : g.Leads c (g.endOf c) ∧ g.Reaches k (g.endOf c) := by
  have hs : g.slot? k = some (.node (g.node k)) :=
    slot?_of_node_eq rfl fun he => by rw [he] at hc; cases hc
  have hkc : c ∈ g.references k := by rwa [references_of_node hs]
  obtain ⟨m, hl, -⟩ := (hg.ready.reaches hk).leads_endOf (.single hkc)
  exact ⟨hl, (Relation.ReflTransGen.single hkc).trans hl.reaches⟩

theorem equation_final (hg : g.Stratifies root) (hk : g.Reaches root k) :
    equation g g.finalNullable k = g.finalNullable k ∨ ∀ n, g.slot? k ≠ some (.node n) := by
  by_cases hs : ∃ n, g.slot? k = some (.node n)
  · obtain ⟨n, hs⟩ := hs
    exact .inl (Nullable.equation_final hg.wellFormed (hg.ready.reaches hk) (hg.layered hk) hs)
  · exact .inr fun n hn => hs ⟨n, hn⟩

open Classical in
/-- The final values of the handles that can be reached. -/
noncomputable def bound (g : Graph) (root k : Handle) : Bool :=
  if g.Reaches root k then g.finalNullable k else true

theorem keeps_bound (hg : g.Stratifies root) :
    Keeps (table.rules g) (fun k v => AtMost false v (bound g root k)) (Allowed g) where
  bottom _ := .inl rfl
  rule k v hallowed h := by
    have hle : AtMost false v (equation g (bound g root) k) := (ascent g).upper _ k v hallowed h
    refine hle.trans ?_
    by_cases hk : g.Reaches root k
    · have hbound : ∀ k', g.Reaches root k' → bound g root k' = g.finalNullable k' :=
        fun k' hk' => if_pos hk'
      have hequation : equation g (bound g root) k = equation g g.finalNullable k := by
        unfold equation
        split
        · rfl
        · next hnot =>
            have hnot' : ∀ p, g.node k ≠ .not p := fun p hp => hnot ⟨p, hp⟩
            have hend : ∀ c ∈ (g.node k).children,
                bound g root (g.endOf c) = g.finalNullable (g.endOf c) :=
              fun c hc => hbound _ (hk.trans (hg.reaches_endOf hk hc).2)
            exact AtMost.antisymm
              (nullable_mono hnot' fun c hc => by rw [hend c hc]; exact .refl _ _)
              (nullable_mono hnot' fun c hc => by rw [hend c hc]; exact .refl _ _)
      rw [hequation, hbound k hk]
      rcases hg.equation_final hk with he | he
      · rw [he]
        exact .refl _ _
      · refine .inl ?_
        have hnil : g.node k = .nil := by
          by_contra hne
          exact he _ (slot?_of_node_eq rfl hne)
        unfold equation
        rw [if_neg (by rintro ⟨p, hp⟩; rw [hnil] at hp; cases hp), hnil]
        rfl
    · have htrue : bound g root k = true := if_neg hk
      rw [htrue, atMost_false]
      exact fun _ => rfl

/-- Only handles that can be reached are evaluated. -/
theorem reaches_of_settles (hg : g.Stratifies root) {v : Bool}
    (h : g.NullableSettles root fuel k v) : g.Reaches root k := by
  obtain ⟨q, he⟩ := h
  have hL : Leading (table.rules g) (g.Reaches root) g.Reaches
      (fun k _ => g.Reaches root k) (fun _ _ => True) :=
    { refl := fun _ => .refl
      trans := fun _ _ _ => .trans
      asks := fun k hk => ofNode_asksOnly fun c hc =>
        have hend := hg.reaches_endOf hk hc
        ⟨hend.1, hk.trans hend.2, hend.2⟩
      rule := fun k _ _ hk _ _ _ _ => hk }
  exact settles_reaching hL .refl (fun _ _ => trivial) _ he

/-- If complements are final, no value is too large. -/
theorem sound_of_final (hg : g.Stratifies root)
    (hfinal : ∀ k v, g.NullableSettles root fuel k v → Allowed g k v) {v : Bool}
    (hk : g.Reaches root k) (h : g.NullableSettles root fuel k v) (hv : v = true) :
    [] ∈ g.language k := by
  obtain ⟨p, he⟩ := h
  have hle : AtMost false v (bound g root k) :=
    settles_within hg.keeps_bound Memory.within_empty
      (fun e he => hfinal e.key e.computed ⟨e.provisional, he⟩) _ he
  rw [bound, if_pos hk, atMost_false] at hle
  exact finalNullable_eq_true.1 (hle hv)

/-- If no value is too large, complements are final: the operand of a complement does not lead
back to the complement, so it is finished when the complement reads it. -/
theorem final_of_sound (hg : g.Stratifies root)
    (hsound : ∀ k v, g.NullableSettles root fuel k v → v = true → [] ∈ g.language k)
    {v : Bool} (h : g.NullableSettles root fuel k v) : Allowed g k v := by
  obtain ⟨q, he⟩ := h
  have hL : Leading (table.rules g) (g.Reaches root) g.Reaches
      (fun k v => (v = true → [] ∈ g.language k) ∧ Allowed g k v)
      (fun k v => v = true → [] ∈ g.language k) :=
    { refl := fun _ => .refl
      trans := fun _ _ _ => .trans
      asks := fun k hk => ofNode_asksOnly fun c hc =>
        have hend := hg.reaches_endOf hk hc
        ⟨hend.1, hk.trans hend.2, hend.2⟩
      rule := ?_ }
  · have hsettled : ∀ e, RunSettles (table.rules g) e (g.size + 1) root fuel .empty →
        e.computed = true → [] ∈ g.language e.key :=
      fun e he => hsound e.key e.computed ⟨e.provisional, he⟩
    exact (settles_reaching hL .refl hsettled _ he).2
  · intro k v m hk hunderway hfinished hyields hv
    refine ⟨hv, ?_⟩
    rintro ⟨p, hp⟩
    have hs : g.slot? k = some (.node (.not p)) := slot?_of_node_eq hp (by simp)
    rw [show (table.rules g).rule k = ofNode g (g.node k) from rfl, hp, yields_not] at hyields
    obtain ⟨r, hl, hr⟩ := hyields
    rcases Memory.holds_iff.1 hr with hr | hr
    · have hnot := final_not (hg.layered hk) hs hl
      cases v with
      | true => exact (finalNullable_eq_true.2 (hv rfl)).symm
      | false =>
          have hmem : [] ∈ g.language r := (hfinished r _ hr).1 rfl
          rw [hnot, finalNullable_eq_true.2 hmem, Bool.not_true]
    · exact absurd (hl.reaches.trans (hunderway r _ hr)) (hg.stratified k p hk hs)

/-- Values that solve the equations of the nodes that have been evaluated are not too small: a
handle whose language has the empty word is evaluated to true if it is evaluated at all. -/
theorem language_le_of_traced (hg : g.Stratifies root) {m : Memory Handle Bool}
    (htraced : ∀ k w, m.Finished k w → ((table.rules g).rule k ()).Yields m.Finished w)
    (hallowed : ∀ k w, m.Finished k w → Allowed g k w) (h : Handle) (hh : g.Reaches root h)
    {w : List Char} (hw : w ∈ g.language h) (hnil : w = []) :
    ∀ b, m.Finished (g.endOf h) b → b = true := by
  classical
  let f : Handle → Bool := fun k => decide (∀ b, m.Finished k b → b = true)
  let A : Handle → WordSet := fun h => {w | w = [] → f (g.endOf h) = true}
  suffices hle : (wordMeaning g.language).value g h ≤ A h by
    rw [(hg.layered hh).language_eq] at hw
    simpa [f] using hle hw hnil
  refine Meaning.value_le _ (closed_reaches g root) (fun k hk => ?_) h hh
  obtain ⟨r, n, hl, hs⟩ := hg.ready k hk
  cases hl with
  | step hforward hrest =>
      rw [hforward]
      have hend : g.endOf k = g.endOf _ := (Leads.step hforward hrest).endOf.trans hrest.endOf.symm
      intro w hw hnil
      rw [hend]
      exact hw hnil
  | here =>
      rw [hs]
      rintro w hw rfl
      rw [show f (g.endOf k) = true ↔ _ from by rw [(Leads.of_node hs).endOf]]
      simp only [f, decide_eq_true_eq]
      intro b hb
      have hlower : AtMost false (equation g f k) b :=
        (ascent g).lower f k b (hallowed k b hb) ((htraced k b hb).mono fun k' v hv => by
          rw [atMost_false]
          exact fun hf => of_decide_eq_true hf v hv)
      rw [atMost_false] at hlower
      refine hlower ?_
      unfold equation
      split
      · next hcomplement =>
          obtain ⟨p, hp⟩ := hcomplement
          rw [node_eq hs] at hp
          subst hp
          unfold finalNullable
          rw [(hg.layered hk).language_node hs]
          exact decide_eq_true hw
      · next hcomplement =>
          have hnot : ∀ p, n ≠ .not p := fun p hp => hcomplement ⟨p, (node_eq hs).trans hp⟩
          have hmem := (Node.nil_mem_words (fun he => hg.wellFormed.tokens k (he ▸ hs))
            fun p hp => absurd hp (hnot p)).1 hw
          have hA : ∀ c, decide ([] ∈ A c) = f (g.endOf c) := fun c =>
            Bool.eq_iff_iff.2 (decide_eq_true_iff.trans ⟨fun h => h rfl, fun h _ => h⟩)
          simp only [hA] at hmem
          rw [node_eq hs]
          exact hmem

/-- If complements are final, an evaluation with a result has the right one. -/
theorem result_of_final (hg : g.Stratifies root)
    (hfinal : ∀ k v, g.NullableSettles root fuel k v → Allowed g k v) {v : Bool}
    (hroot : g.Leads root root) (h : g.nullable fuel root = some v) :
    v = g.finalNullable root := by
  rw [Graph.nullable, Table.evaluate_eq_some hroot] at h
  have hfine₀ : ∀ e, RunSettles (table.rules g) e (g.size + 1) root fuel .empty →
      Allowed g e.key e.computed := fun e he => hfinal e.key e.computed ⟨e.provisional, he⟩
  obtain ⟨m₀, m₁, hm₀, hfine, hvisit, hstale⟩ := run_last_pass
    (J := Memory.Within fun k v => AtMost false v (bound g root k))
    (fun m v m' hm hfine hv => visit_within hg.keeps_bound (m := m.nextPass) hm hfine hv)
    Memory.within_empty hfine₀ h
  obtain ⟨hfinished, htraced⟩ := visit_traced hvisit hstale
  have hallowed : ∀ k w, m₁.Finished k w → Allowed g k w := fun k w hk => by
    rcases visit_finished (P := Allowed g) hfine hvisit k w hk with hold | hnew
    · simp [Memory.Finished, Memory.nextPass] at hold
    · exact hnew
  refine AtMost.antisymm (b := false) ?_ ?_
  · have hle : AtMost false v (bound g root root) :=
      visit_within hg.keeps_bound (m := m₀.nextPass) hm₀ hfine hvisit root v hfinished.2
    rwa [bound, if_pos .refl] at hle
  · rw [atMost_false]
    intro htrue
    have hmem : [] ∈ g.language root := finalNullable_eq_true.1 htrue
    have hle := hg.language_le_of_traced htraced hallowed root .refl hmem rfl
    rw [hroot.endOf] at hle
    exact hle v hfinished

/-- If complements are final, more passes than there are slots to be reached have a result. -/
theorem answers_of_final (hg : g.Stratifies root)
    (hfinal : ∀ k v, g.NullableSettles root fuel k v → Allowed g k v)
    (hroot : g.Leads root root) (hfuel : (g.region root).card < fuel) :
    ∃ v, g.nullable fuel root = some v := by
  have hcard := g.card_region_le root
  have hmem : ∀ k, k ∈ g.region root ↔ g.Reaches root k := fun _ =>
    hg.wellFormed.mem_region hg.inRange
  have htotal : ∀ k ∈ g.region root,
      ((table.rules g).rule k ()).AsksOnly (· ∈ g.region root) := fun k hk => by
    have hk' := (hmem k).1 hk
    refine ofNode_asksOnly fun c hc => ?_
    have hend := hg.reaches_endOf hk' hc
    exact ⟨hend.1, (hmem _).2 (hk'.trans hend.2)⟩
  have hallowed : ∀ e, RunSettles (table.rules g) e (g.size + 1) root fuel .empty →
      Allowed g e.key e.computed := fun e he => hfinal e.key e.computed ⟨e.provisional, he⟩
  obtain ⟨v, hrun⟩ := (ascent g).run_answers htotal ((hmem root).2 .refl)
    (by omega) hfuel hallowed
  exact ⟨v, (Table.evaluate_eq_some hroot).2 hrun⟩

end Graph.Stratifies

/-- The evaluation of nullability never holds a value that is too large, and comes to the right
result within finitely many passes, exactly if every complement that is evaluated reads the final
value of its operand. -/
theorem Graph.Stratifies.exact_iff (hg : g.Stratifies root) (hroot : g.Leads root root) :
    g.ComplementsFinal root ↔
      (∀ fuel k v, g.NullableSettles root fuel k v → v = true → [] ∈ g.language k) ∧
        ∃ n, ∀ fuel ≥ n, g.nullable fuel root = some (g.finalNullable root) := by
  constructor
  · intro hfinal
    refine ⟨fun fuel k v h hv => ?_, g.size + 1, fun fuel hfuel => ?_⟩
    · exact hg.sound_of_final (hfinal fuel) (hg.reaches_of_settles h) h hv
    · obtain ⟨v, hv⟩ := hg.answers_of_final (hfinal fuel) hroot
        ((g.card_region_le root).trans_lt hfuel)
      rw [hv, hg.result_of_final (hfinal fuel) hroot hv]
  · rintro ⟨hsound, -⟩ fuel k v h
    exact hg.final_of_sound (hsound fuel) h

/-! ## Complements of acyclic expressions -/

/-- No cycle can be reached from the operand of a complement. -/
def Graph.ComplementsTame (g : Graph) (root : Handle) : Prop :=
  ∀ k p, g.Reaches root k → g.slot? k = some (.node (.not p)) → g.Tame p

/-- A complement whose operand is tame is tame itself. -/
theorem Graph.ComplementsTame.tame {k p : Handle} (h : g.ComplementsTame root)
    (hk : g.Reaches root k) (hs : g.slot? k = some (.node (.not p))) : g.Tame k := by
  intro x hx hcycle
  have hsingle : g.references k = [p] := by rw [references_of_node hs, Node.children]
  rcases Relation.ReflTransGen.cases_head hx with rfl | ⟨q, hq, hqx⟩
  · obtain ⟨q, hq, hqx⟩ := (Relation.TransGen.head'_iff).1 hcycle
    rw [hsingle, List.mem_singleton] at hq
    subst hq
    exact h k q hk hs k hqx hcycle
  · rw [hsingle, List.mem_singleton] at hq
    subst hq
    exact h k q hk hs x hqx hcycle

theorem Graph.ComplementsTame.stratified (h : g.ComplementsTame root) : g.Stratified root := by
  intro k p hk hs hpk
  have hkp : p ∈ g.references k := by simp [references_of_node hs, Node.children]
  exact h.tame hk hs k .refl (.head' hkp hpk)

/-- The rule of a tame handle comes to the final value: what it asks for is never still running. -/
theorem Graph.Stratifies.final_of_tame (hg : g.Stratifies root) (hroot : g.Leads root root)
    {fuel : Nat} {k : Handle} {v : Bool} (h : g.NullableSettles root fuel k v)
    (htame : g.Tame k) : v = g.finalNullable k := by
  obtain ⟨q, he⟩ := h
  have hasks : ∀ k, g.Reaches root k → (ofNode g (g.node k) ()).AsksOnly fun k' =>
      (∃ n, g.slot? k' = some (.node n)) ∧
        Relation.TransGen (fun h k => k ∈ g.references h) k k' := fun k hk =>
    ofNode_asksOnly fun c hc => by
      have hs : g.slot? k = some (.node (g.node k)) :=
        slot?_of_node_eq rfl fun he => by rw [he] at hc; cases hc
      have hkc : c ∈ g.references k := by rwa [references_of_node hs]
      obtain ⟨m, hl, hm⟩ := (hg.ready.reaches hk).leads_endOf (.single hkc)
      exact ⟨hl, ⟨m, hm⟩, .head' hkc hl.reaches⟩
  have hL : Leading (table.rules g) (fun k => g.Reaches root k ∧ ∃ n, g.slot? k = some (.node n))
      g.Reaches (fun k v => g.Tame k → v = g.finalNullable k) (fun _ _ => True) :=
    { refl := fun _ => .refl
      trans := fun _ _ _ => .trans
      asks := fun k hk => (hasks k hk.1).mono fun k' hk' =>
        ⟨⟨hk.1.trans hk'.2.to_reflTransGen, hk'.1⟩, hk'.2.to_reflTransGen⟩
      rule := ?_ }
  · obtain ⟨r, n, hl, hs⟩ := hg.ready root .refl
    obtain rfl := hroot.unique hl
    exact settles_reaching hL ⟨.refl, n, hs⟩ (fun _ _ => trivial) _ he htame
  · rintro k v m ⟨hk, n, hs⟩ hunderway hfinished hyields - htame
    have hfinal : (ofNode g (g.node k) ()).Yields (fun k v => v = g.finalNullable k) v := by
      refine ((hasks k hk).yields hyields).mono ?_
      rintro k' v' ⟨⟨-, hkk'⟩, hv'⟩
      rcases Memory.holds_iff.1 hv' with hv' | hv'
      · exact hfinished k' v' hv' (htame.reaches hkk'.to_reflTransGen)
      · exact absurd (hkk'.trans_left (hunderway k' v' hv')) (htame k .refl)
    have hlayered := hg.layered hk
    by_cases hcomplement : g.IsComplement k
    · obtain ⟨p, hp⟩ := hcomplement
      rw [hp, yields_not] at hfinal
      obtain ⟨r, hl, hr⟩ := hfinal
      rw [final_not hlayered (slot?_of_node_eq hp (by simp)) hl, ← hr, Bool.not_not]
    · have hnot : ∀ p, g.node k ≠ .not p := fun p hp => hcomplement ⟨p, hp⟩
      rw [← Nullable.equation_final hg.wellFormed (hg.ready.reaches hk) hlayered hs]
      unfold equation
      rw [if_neg hcomplement]
      exact AtMost.antisymm (ge_of_yields hnot (hfinal.mono fun _ _ he => .inr he))
        (le_of_yields hnot (hfinal.mono fun _ _ he => .inr he.symm))

/-- Without cycles below complements, every complement reads the final value of its operand. -/
theorem Graph.Stratifies.complementsFinal_of_tame (hg : g.Stratifies root)
    (hroot : g.Leads root root) (htame : g.ComplementsTame root) : g.ComplementsFinal root := by
  rintro fuel k v h ⟨p, hp⟩
  have hk := hg.reaches_of_settles h
  exact hg.final_of_tame hroot h (htame.tame hk (slot?_of_node_eq hp (by simp)))

end Evaluation

/-! ## The action on a grammar -/

namespace Grammar

variable {g g₁ : Grammar} {root r : Handle}

/-- What the preparation of an expression gives if no cycle passes through a complement. -/
theorem stratifies_of_prepare (hg : g.WellFormed) (hroot : g.Has root)
    (hprepare : (prepare root).run.run g = (.ok r, g₁)) (hstratified : g₁.graph.Stratified root) :
    g₁.graph.Leads root r ∧ g₁.graph.Stratifies r := by
  have hsound := hg.prepare hroot
  obtain ⟨hl, hready⟩ := hsound.result r g₁ hprepare
  have hw := hsound.wellFormed
  rw [hprepare] at hw
  obtain ⟨r', n, hl', hs⟩ := hready root .refl
  obtain rfl := hl.unique hl'
  exact ⟨hl, hw.graph, Graph.slot?_lt hs, hready.reaches hl.reaches,
    fun k p hk => hstratified k p (hl.reaches.trans hk)⟩

theorem run_answer {α : Type} {f : Graph → Option α} {a : α} {g g' : Grammar} :
    (answer f).run.run g = (.ok a, g') ↔ f g.graph = some a ∧ g' = g := by
  unfold answer
  rw [run_bind, run_get]
  dsimp only
  rcases f g.graph with _ | b
  · exact iff_of_false (fun h => by cases h) (fun h => by cases h.1)
  · constructor
    · intro h
      cases h
      exact ⟨rfl, rfl⟩
    · rintro ⟨h, rfl⟩
      cases h
      rfl

/-- The nullability of an expression in which no cycle passes through a complement is never held to
be larger than it is, and comes out right within finitely many passes, exactly if every complement
that is evaluated reads the final value of its operand. -/
theorem nullable_exact_iff (hg : g.WellFormed) (hroot : g.Has root)
    (hprepare : (prepare root).run.run g = (.ok r, g₁)) (hstratified : g₁.graph.Stratified root) :
    g₁.graph.ComplementsFinal r ↔
      (∀ fuel k v, g₁.graph.NullableSettles r fuel k v → v = true → [] ∈ g₁.graph.language k) ∧
        ∃ n, ∀ fuel ≥ n, ∃ b, (Grammar.nullable fuel root).run.run g = (.ok b, g₁) ∧
          (b = true ↔ [] ∈ g₁.graph.language root) := by
  obtain ⟨hl, hr⟩ := stratifies_of_prepare hg hroot hprepare hstratified
  have hlanguage : g₁.graph.language root = g₁.graph.language r :=
    hstratified.layered.language_leads hl
  have hrun : ∀ fuel b, (Grammar.nullable fuel root).run.run g = (.ok b, g₁) ↔
      g₁.graph.nullable fuel r = some b := fun fuel b => by
    unfold Grammar.nullable
    rw [run_bind, hprepare]
    exact run_answer.trans (and_iff_left rfl)
  rw [hr.exact_iff hl.self_end]
  refine and_congr_right fun _ => exists_congr fun n => forall₂_congr fun fuel _ => ?_
  simp only [hrun, hlanguage]
  constructor
  · exact fun h => ⟨_, h, Graph.finalNullable_eq_true⟩
  · rintro ⟨b, hb, hiff⟩
    rw [hb, Bool.eq_iff_iff.2 (hiff.trans Graph.finalNullable_eq_true.symm)]

/-! ## A complement that reads a provisional value

In `x = y | ε`, `y = x ε`, `z = z | ~y`, all of `x` and `y` is nullable and `z` is not.  The
nullability of `x z` evaluates `y` for the first time while `x` is evaluated, when `y` still refers
to the provisional value of `x`.  The complement in `z` finds `y` not nullable, and `z` keeps the
value that it gets from there through the reference to itself. -/

namespace SelfReference

/-- The grammar `x = y | ε`, `y = x ε`, `z = z | ~y`, and the expression `x z`. -/
def grammar : Grammar :=
  ⟨⟨#[.node .nil, .node .empty, .node .any, .forward ⟨6⟩, .node (.alt ⟨3⟩ .empty), .forward ⟨4⟩,
      .node (.seq ⟨5⟩ .empty), .forward ⟨9⟩, .node (.not ⟨3⟩), .node (.alt ⟨7⟩ ⟨8⟩),
      .node (.seq ⟨5⟩ ⟨7⟩)]⟩,
    [("y", ⟨3⟩), ("x", ⟨5⟩), ("z", ⟨7⟩)], [], 0⟩

/-- The handle of `x z`. -/
def start : Handle := ⟨10⟩

theorem wellFormed_grammar : grammar.WellFormed where
  graph := .of_fits rfl rfl rfl (by decide)
  rules := by decide
  names := by decide

theorem stratified (h : Handle) : grammar.graph.Stratified h := by
  -- The complement is the only one, and is not among what its operand refers to.
  intro k p _ hs hpk
  have hk : k = ⟨8⟩ ∧ p = ⟨3⟩ := by
    rcases k with ⟨_ | _ | _ | _ | _ | _ | _ | _ | _ | _ | _ | k⟩ <;> cases hs
    exact ⟨rfl, rfl⟩
  obtain ⟨rfl, rfl⟩ := hk
  have hclosed : grammar.graph.Closed {h | h ∈ ([⟨1⟩, ⟨3⟩, ⟨4⟩, ⟨5⟩, ⟨6⟩] : List Handle)} :=
    Graph.closed_of_list (by decide)
  exact absurd (hclosed.of_reaches (by decide) hpk) (by decide)

theorem layered (h : Handle) : grammar.graph.Layered h := (stratified h).layered

theorem nil_mem_empty : [] ∈ grammar.graph.language .empty := by
  rw [(layered _).language_node (n := .empty) rfl]
  exact Language.nil_mem_one

theorem nil_mem_x : [] ∈ grammar.graph.language ⟨5⟩ := by
  rw [(layered _).language_forward (t := ⟨4⟩) rfl,
    (layered _).language_node (n := .alt ⟨3⟩ .empty) rfl]
  exact .inr nil_mem_empty

theorem nil_mem_y : [] ∈ grammar.graph.language ⟨3⟩ := by
  rw [(layered _).language_forward (t := ⟨6⟩) rfl,
    (layered _).language_node (n := .seq ⟨5⟩ .empty) rfl]
  exact nil_mem_mul.2 ⟨nil_mem_x, nil_mem_empty⟩

/-- No equation of `z` gives it the empty word unless it has it already. -/
theorem nil_not_mem_z : [] ∉ grammar.graph.language ⟨7⟩ := by
  let A : Handle → WordSet := fun h => {w | h ∈ ([⟨7⟩, ⟨8⟩, ⟨9⟩] : List Handle) → w ≠ []}
  suffices hA : ∀ h, (wordMeaning grammar.graph.language).slot A (grammar.graph.slot? h) ≤ A h by
    have hle := Meaning.value_le (wordMeaning grammar.graph.language) (g := grammar.graph)
      (D := Set.univ) (fun _ _ _ _ => trivial) (fun h _ => hA h) ⟨7⟩ trivial
    rw [← (layered _).language_eq] at hle
    exact fun hmem => hle hmem (by decide) rfl
  rintro h w hw hh rfl
  obtain rfl | rfl | rfl : h = ⟨7⟩ ∨ h = ⟨8⟩ ∨ h = ⟨9⟩ := by simpa using hh
  · exact hw (by decide) rfl
  · exact hw nil_mem_y
  · rcases hw with hw | hw <;> exact hw (by decide) rfl

theorem nil_not_mem_start : [] ∉ grammar.graph.language start := by
  rw [(layered _).language_node (n := .seq ⟨5⟩ ⟨7⟩) rfl]
  exact fun hmem => nil_not_mem_z (nil_mem_mul.1 hmem).2

theorem has_start : grammar.Has start := (by decide : 10 < 11)

theorem prepare_start : (prepare start).run.run grammar = (.ok start, grammar) := rfl

theorem run_nullable (fuel : Nat) :
    (Grammar.nullable (fuel + 2) start).run.run grammar = (.ok true, grammar) := rfl

/-- The expression `x z` does not match the empty word, and its nullability is evaluated to
true. -/
theorem nullable_start :
    grammar.WellFormed ∧ (prepare start).run.run grammar = (.ok start, grammar) ∧
      grammar.graph.Stratified start ∧
      (∀ fuel, (Grammar.nullable (fuel + 2) start).run.run grammar = (.ok true, grammar)) ∧
      [] ∉ grammar.graph.language start :=
  ⟨wellFormed_grammar, prepare_start, stratified start, run_nullable, nil_not_mem_start⟩

end SelfReference

/-! ### A complement that reads a final value

In `x = ~'a' x | ε` the complement is part of a cycle, but its operand is not. -/

namespace Unbroken

/-- The grammar `x = ~'a' x | ε`. -/
def grammar : Grammar :=
  ⟨⟨#[.node .nil, .node .empty, .node .any, .node (.char 'a'), .node (.not ⟨3⟩), .forward ⟨7⟩,
      .node (.seq ⟨4⟩ ⟨5⟩), .node (.alt ⟨6⟩ .empty)]⟩, [("x", ⟨5⟩)], [], 0⟩

/-- The handle of `x`. -/
def start : Handle := ⟨5⟩

/-- The alternative that `x` stands for. -/
def body : Handle := ⟨7⟩

theorem wellFormed_grammar : grammar.WellFormed where
  graph := .of_fits rfl rfl rfl (by decide)
  rules := by decide
  names := by decide

theorem has_start : grammar.Has start := (by decide : 5 < 8)

theorem prepare_start : (prepare start).run.run grammar = (.ok body, grammar) := rfl

theorem complementsTame (h : Handle) : grammar.graph.ComplementsTame h := by
  intro k p _ hs
  obtain rfl : p = ⟨3⟩ := by
    rcases k with ⟨_ | _ | _ | _ | _ | _ | _ | _ | k⟩ <;> cases hs
    rfl
  exact Graph.tame_of_list (l := [⟨3⟩]) (by decide) (by decide)

theorem nil_mem_start : [] ∈ grammar.graph.language start := by
  have hlayered : ∀ h, grammar.graph.Layered h := fun h => (complementsTame h).stratified.layered
  rw [(hlayered _).language_forward (t := body) rfl,
    (hlayered _).language_node (n := .alt ⟨6⟩ .empty) rfl]
  right
  rw [(hlayered _).language_node (n := .empty) rfl]
  exact Language.nil_mem_one

/-- The nullability of `x` comes out right, as the complement reads a final value.  The one in `x z`
before does not read one, as the nullability of `x z` does not come out right. -/
theorem nullable_exact_iff_start :
    ((grammar.WellFormed ∧ grammar.Has start ∧
        (prepare start).run.run grammar = (.ok body, grammar) ∧
        grammar.graph.Stratified start) ∧
      grammar.graph.ComplementsFinal body ∧
        (∀ fuel k v, grammar.graph.NullableSettles body fuel k v → v = true →
          [] ∈ grammar.graph.language k) ∧
        [] ∈ grammar.graph.language start ∧
        ∃ n, ∀ fuel ≥ n, (Grammar.nullable fuel start).run.run grammar = (.ok true, grammar)) ∧
    (SelfReference.grammar.WellFormed ∧ SelfReference.grammar.Has SelfReference.start ∧
        (prepare SelfReference.start).run.run SelfReference.grammar =
          (.ok SelfReference.start, SelfReference.grammar) ∧
        SelfReference.grammar.graph.Stratified SelfReference.start) ∧
      ¬ SelfReference.grammar.graph.ComplementsFinal SelfReference.start := by
  constructor
  · have hstratified := (complementsTame start).stratified
    obtain ⟨hl, hbody⟩ :=
      stratifies_of_prepare wellFormed_grammar has_start prepare_start hstratified
    have hfinal := hbody.complementsFinal_of_tame hl.self_end (complementsTame body)
    obtain ⟨hsound, n, hn⟩ :=
      (nullable_exact_iff wellFormed_grammar has_start prepare_start hstratified).1 hfinal
    refine ⟨⟨wellFormed_grammar, has_start, prepare_start, hstratified⟩, hfinal, hsound,
      nil_mem_start, n, fun fuel hfuel => ?_⟩
    obtain ⟨b, hb, hiff⟩ := hn fuel hfuel
    rw [hb, hiff.2 nil_mem_start]
  · have hstratified := SelfReference.stratified SelfReference.start
    refine ⟨⟨SelfReference.wellFormed_grammar, SelfReference.has_start,
      SelfReference.prepare_start, hstratified⟩, fun hfinal => ?_⟩
    obtain ⟨-, n, hn⟩ := (nullable_exact_iff SelfReference.wellFormed_grammar
      SelfReference.has_start SelfReference.prepare_start hstratified).1 hfinal
    obtain ⟨b, hb, hiff⟩ := hn (n + 2) (Nat.le_add_right _ _)
    rw [SelfReference.run_nullable n] at hb
    cases hb
    exact SelfReference.nil_not_mem_start (hiff.1 rfl)

end Unbroken

end Grammar

end DerivativeParsing
