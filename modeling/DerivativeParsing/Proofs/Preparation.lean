import DerivativeParsing.Proofs.Actions
import DerivativeParsing.Proofs.Readings

/-!
# Preparing an expression

Preparing an expression follows every reference that can be reached from it.  It adds slots and
builds suspended references that can be reached from the expression, and changes nothing else
(`WellFormed.preparing`).  If it succeeds, the graph is ready at the expression
(`WellFormed.prepare`), and if the graph is ready already, it succeeds and changes nothing
(`prepare_of_ready`): the bounds on the number of steps are large enough.
-/

set_option autoImplicit false

namespace DerivativeParsing

namespace Graph

variable {g g' g'' : Graph} {S : Set Handle} {h root k p t : Handle} {body : Description}

/-- What can be reached can still be reached when the graph grows. -/
theorem Grows.reached (hg : g.Grows g') (hk : g.Reaches root k) : g'.Reaches root k := by
  refine Relation.ReflTransGen.mono (fun h k hstep => ?_) _ _ hk
  obtain ⟨s, hs⟩ := slot?_of_mem_references hstep
  rw [references_eq hs] at hstep
  cases s with
  | node n => rwa [references_of_node (hg.node h n hs)]
  | forward t => rwa [references_of_forward (hg.forward h t hs)]
  | suspended body => cases hstep
  | undefined name => cases hstep

/-- A handle can be reached from one of several roots. -/
def ReachedFrom (S : Set Handle) (g : Graph) (h : Handle) : Prop := ∃ root ∈ S, g.Reaches root h

theorem ReachedFrom.tail (hh : g.ReachedFrom S h) (hk : g.Reaches h k) : g.ReachedFrom S k := by
  obtain ⟨root, hroot, hreach⟩ := hh
  exact ⟨root, hroot, hreach.trans hk⟩

theorem ReachedFrom.grows (hh : g.ReachedFrom S h) (hg : g.Grows g') : g'.ReachedFrom S h := by
  obtain ⟨root, hroot, hreach⟩ := hh
  exact ⟨root, hroot, hg.reached hreach⟩

/-- The slots of a graph are what they were, except that suspended references that can be reached
from given roots may have been built. -/
structure Forces (S : Set Handle) (g g' : Graph) : Prop where
  size_le : g.size ≤ g'.size
  slot : ∀ h : Handle, h.index < g.size → g'.slot? h = g.slot? h ∨
    g'.ReachedFrom S h ∧ ∃ body t, g.slot? h = some (.suspended body) ∧
      g'.slot? h = some (.forward t)

namespace Forces

theorem of_extends (h : g'.Extends g) : g.Forces S g' := ⟨h.1, fun k hk => .inl (h.2 k hk)⟩

theorem grows (h : g.Forces S g') : g.Grows g' where
  size_le := h.size_le
  node k n hs := by
    rcases h.slot k (slot?_lt hs) with he | ⟨-, body, t, hs', -⟩
    · exact he.trans hs
    · rw [hs] at hs'
      cases hs'
  forward k t hs := by
    rcases h.slot k (slot?_lt hs) with he | ⟨-, body, t, hs', -⟩
    · exact he.trans hs
    · rw [hs] at hs'
      cases hs'

theorem trans (h : g.Forces S g') (h' : g'.Forces S g'') : g.Forces S g'' where
  size_le := h.size_le.trans h'.size_le
  slot k hk := by
    rcases h.slot k hk with he | ⟨hreach, body, t, hs, ht⟩
    · rw [← he]
      exact h'.slot k (hk.trans_le h.size_le)
    · exact .inr ⟨hreach.grows h'.grows, body, t, hs, h'.grows.forward k t ht⟩

/-- A suspended reference is built. -/
theorem of_setForward (hs : g.slot? p = some (.suspended body)) (hp : g.ReachedFrom S p) :
    g.Forces S (g.setForward p t) where
  size_le := size_setForward.ge
  slot k hk := by
    rcases eq_or_ne k p with rfl | hne
    · have hgrows : g.Grows (g.setForward k t) :=
        .of_setForward (fun n => by simp [hs]) fun t => by simp [hs]
      exact .inr ⟨hp.grows hgrows, body, t, hs, slot?_setForward_self hk⟩
    · exact .inl (slot?_setForward_of_ne hne)

theorem mono {T : Set Handle} (h : g.Forces S g') (hST : S ⊆ T) : g.Forces T g' where
  size_le := h.size_le
  slot k hk := (h.slot k hk).imp_right <| And.imp_left fun ⟨root, hroot, hreach⟩ =>
    ⟨root, hST hroot, hreach⟩

end Forces

instance : Change (Forces S) := ⟨fun g => .of_extends (.refl g), .trans, Forces.size_le⟩

/-- Where a graph is ready, growing adds nothing that can be reached. -/
theorem Grows.reaches (hg : g.Grows g') (hready : g.Ready root) (hk : g'.Reaches root k) :
    g.Reaches root k := by
  induction hk with
  | refl => exact .refl
  | @tail h k _ hstep ih =>
      refine ih.tail ?_
      obtain ⟨r, n, hl, hs⟩ := hready h ih
      cases hl with
      | here =>
          rw [references_of_node (hg.node h n hs)] at hstep
          rwa [references_of_node hs]
      | step hf _ =>
          rw [references_of_forward (hg.forward h _ hf)] at hstep
          rwa [references_of_forward hf]

/-- A graph that is ready stays ready when it grows. -/
theorem Grows.ready (hg : g.Grows g') (hready : g.Ready root) : g'.Ready root := fun h hh => by
  obtain ⟨r, n, hl, hs⟩ := hready h (hg.reaches hready hh)
  exact ⟨r, n, hg.leads hl hs, hg.node r n hs⟩

/-- A node whose operands are ready is ready. -/
theorem Ready.make {n : Node} (hg : g.WellFormed) (hn : ∀ k ∈ n.children, g.Ready k) :
    (g.make n).2.Ready (g.make n).1 := by
  have hs := hg.slot?_make (n := n)
  intro k hk
  rcases Relation.ReflTransGen.cases_head hk with rfl | ⟨q, hq, hqk⟩
  · exact ⟨_, n, .of_node hs, hs⟩
  · rw [references_of_node hs] at hq
    exact (Grows.of_extends extends_make).ready (hn q hq) k hqk

end Graph

namespace Grammar

variable {g : Grammar} {S : Set Handle} {h r root : Handle}

/-! ## What preparation leaves -/

/-- An action that adds slots forces nothing. -/
theorem Sound.forces {α : Type} {x : GrammarM α} {Q : α → Grammar → Prop}
    (h : Sound Graph.Prefix x Q g) : Sound (Graph.Forces S) x Q g :=
  ⟨h.wellFormed, .of_extends h.change, h.result⟩

/-- A destination that is a node is at the end of the chain. -/
def Arrives (h : Handle) (d : Destination) (g : Grammar) : Prop :=
  ∀ r, d = .node r → ∃ n, g.graph.Leads h r ∧ g.graph.slot? r = some (.node n)

theorem Arrives.of_forward {t : Handle} {d : Destination}
    (hs : g.graph.slot? h = some (.forward t)) (hd : Arrives t d g) : Arrives h d g := by
  intro r he
  obtain ⟨n, hl, hn⟩ := hd r he
  exact ⟨n, .step hs hl, hn⟩

namespace WellFormed

theorem traceWithin (hg : g.WellFormed) (hh : g.Has h) (hreached : g.graph.ReachedFrom S h)
    (steps : Nat) (passed : List Handle) :
    Sound (Graph.Forces S) (traceWithin steps passed h) (Arrives h) g := by
  induction steps generalizing g h passed with
  | zero => exact .throw hg
  | succ steps ih =>
      unfold Grammar.traceWithin
      split
      · exact .pure hg fun r he => by cases he
      · refine (Sound.get hg).bind ?_
        rintro _ _ - - ⟨rfl, rfl⟩
        split
        · next target hs =>
            have hmem : target ∈ g.graph.references h := by simp [Graph.references_of_forward hs]
            have ht : g.Has target := hg.graph.inRange h target hmem
            refine (ih hg ht (hreached.tail (.single hmem)) (h :: passed)).mono
              fun d g' hforces hd => ?_
            exact hd.of_forward (hforces.grows.forward h target hs)
        · next body hs =>
            have hforce : Sound (Graph.Forces S) (Grammar.force body)
                (fun t g' => g'.Has t ∧ g.graph.Prefix g'.graph) g :=
              ((hg.force body).mono fun t g' hchange ht => ⟨ht, hchange⟩).forces
            refine hforce.bind fun target g₁ hg₁ hforces₁ ⟨ht, hkept⟩ => ?_
            have hs₁ : g₁.graph.slot? h = some (.suspended body) := (hkept.2 h hh).trans hs
            have hreached₁ := hreached.grows hforces₁.grows
            refine Sound.bind (.onGraph hg₁ (hg₁.graph.setForward ht fun n => by simp [hs₁])
              (.of_setForward hs₁ hreached₁)
              (Q := fun _ g => g.graph.slot? h = some (.forward target)) ?_) ?_
            · exact Graph.slot?_setForward_self (Graph.slot?_lt hs₁)
            · intro _ g₂ hg₂ hforces₂ hs₂
              have hmem : target ∈ g₂.graph.references h := by
                simp [Graph.references_of_forward hs₂]
              have ht₂ : g₂.Has target := hg₂.graph.inRange h target hmem
              have hreached₂ := (hreached₁.grows hforces₂.grows).tail (.single hmem)
              refine (ih hg₂ ht₂ hreached₂ (h :: passed)).mono fun d g' hforces hd => ?_
              exact hd.of_forward (hforces.grows.forward h target hs₂)
        · exact .pure hg fun r he => by cases he
        · next hforward hsuspended hundefined =>
            refine .pure hg fun r he => ?_
            cases he
            rcases hs : g.graph.slot? h with _ | (n | body | name | t)
            · exact absurd (Graph.slot?_eq_none.1 hs) (Nat.not_le.2 hh)
            · exact ⟨n, .of_node hs, rfl⟩
            · exact absurd hs (hsuspended body)
            · exact absurd hs (hundefined name)
            · exact absurd hs (hforward t)

theorem settleWithin (hg : g.WellFormed) (hh : g.Has h) (hreached : g.graph.ReachedFrom S h)
    (steps : Nat) :
    Sound (Graph.Forces S) (settleWithin steps h)
      (fun r g => ∃ n, g.graph.Leads h r ∧ g.graph.slot? r = some (.node n)) g := by
  refine (hg.traceWithin hh hreached steps []).bind fun d g₁ hg₁ _ hd => ?_
  cases d with
  | node r => exact .pure hg₁ (hd r rfl)
  | undefined h name => exact .throw hg₁
  | circular => exact .throw hg₁

/-- Handles from which every reference leads back into the set. -/
def Explored (S : Set Handle) (g : Graph) : Prop :=
  ∀ r ∈ S, ∃ n, g.slot? r = some (.node n) ∧ ∀ c ∈ n.children, ∃ r' ∈ S, g.Leads c r'

theorem exploreWithin (hg : g.WellFormed) {reach steps : Nat} {seen : Std.TreeSet Handle}
    {todo : List Handle} (htodo : ∀ h ∈ todo, g.Has h ∧ g.graph.ReachedFrom S h)
    (hseen : ∀ r ∈ seen, ∃ n, g.graph.slot? r = some (.node n) ∧
      ∀ c ∈ n.children, c ∈ todo ∨ ∃ r' ∈ seen, g.graph.Leads c r') :
    Sound (Graph.Forces S) (exploreWithin reach steps seen todo)
      (fun _ g => ∃ E : Set Handle, Explored E g.graph ∧ (∀ r ∈ seen, r ∈ E) ∧
        ∀ h ∈ todo, ∃ r ∈ E, g.graph.Leads h r) g := by
  induction steps generalizing g seen todo with
  | zero =>
      cases todo with
      | nil =>
          unfold Grammar.exploreWithin
          refine .pure hg ⟨{r | r ∈ seen}, fun r hr => ?_, fun _ => id, by simp⟩
          obtain ⟨n, hs, hc⟩ := hseen r hr
          exact ⟨n, hs, fun c hc' => by simpa using hc c hc'⟩
      | cons h todo =>
          unfold Grammar.exploreWithin
          exact .throw hg
  | succ steps ih =>
      cases todo with
      | nil =>
          unfold Grammar.exploreWithin
          refine .pure hg ⟨{r | r ∈ seen}, fun r hr => ?_, fun _ => id, by simp⟩
          obtain ⟨n, hs, hc⟩ := hseen r hr
          exact ⟨n, hs, fun c hc' => by simpa using hc c hc'⟩
      | cons h todo =>
          unfold Grammar.exploreWithin
          obtain ⟨hh, hreached⟩ := htodo h (by simp)
          refine (hg.settleWithin hh hreached reach).bind fun r g₁ hg₁ hforces ⟨n, hl, hs⟩ => ?_
          have hgrows := hforces.grows
          have htodo₁ : ∀ h ∈ todo, g₁.Has h ∧ g₁.graph.ReachedFrom S h := fun k hk => by
            obtain ⟨hk, hreached⟩ := htodo k (by simp [hk])
            exact ⟨hk.change hgrows, hreached.grows hgrows⟩
          have hseen₁ : ∀ r ∈ seen, ∃ n, g₁.graph.slot? r = some (.node n) ∧
              ∀ c ∈ n.children, c = h ∨ c ∈ todo ∨ ∃ r' ∈ seen, g₁.graph.Leads c r' := by
            intro r' hr'
            obtain ⟨n', hs', hc⟩ := hseen r' hr'
            refine ⟨n', hgrows.node r' n' hs', fun c hc' => ?_⟩
            rcases hc c hc' with hmem | ⟨r'', hr'', hl''⟩
            · rcases List.mem_cons.1 hmem with rfl | hmem
              · exact .inl rfl
              · exact .inr (.inl hmem)
            · obtain ⟨n'', hs'', -⟩ := hseen r'' hr''
              exact .inr (.inr ⟨r'', hr'', hgrows.leads hl'' hs''⟩)
          split
          · next hmem =>
              have hmem : r ∈ seen := hmem
              refine (ih hg₁ htodo₁ fun r' hr' => ?_).mono ?_
              · obtain ⟨n', hs', hc⟩ := hseen₁ r' hr'
                refine ⟨n', hs', fun c hc' => ?_⟩
                rcases hc c hc' with rfl | hrest
                · exact .inr ⟨r, hmem, hl⟩
                · exact hrest
              · rintro - g₂ hforces₂ ⟨E, hE, hsub, htodo₂⟩
                refine ⟨E, hE, hsub, List.forall_mem_cons.2 ⟨?_, htodo₂⟩⟩
                exact ⟨r, hsub r hmem, hforces₂.grows.leads hl hs⟩
          · refine (Sound.get hg₁).bind ?_
            rintro _ _ - - ⟨rfl, rfl⟩
            rw [Graph.node_eq hs]
            have htodo₂ : ∀ k ∈ n.children.reverse ++ todo,
                g₁.Has k ∧ g₁.graph.ReachedFrom S k := fun k hk => by
              rcases List.mem_append.1 hk with hk | hk
              · have hmem : k ∈ g₁.graph.references r := by
                  rw [Graph.references_of_node hs]
                  exact List.mem_reverse.1 hk
                have hr := (hreached.grows hgrows).tail hl.reaches
                exact ⟨hg₁.graph.inRange r k hmem, hr.tail (.single hmem)⟩
              · exact htodo₁ k hk
            refine (ih hg₁ htodo₂ fun r' hr' => ?_).mono ?_
            · rcases Std.TreeSet.mem_insert.1 hr' with hr' | hr'
              · obtain rfl := Std.LawfulEqOrd.eq_of_compare hr'
                exact ⟨n, hs, fun c hc => .inl (by simp [hc])⟩
              · obtain ⟨n', hs', hc⟩ := hseen₁ r' hr'
                refine ⟨n', hs', fun c hc' => ?_⟩
                rcases hc c hc' with rfl | hmem | ⟨r'', hr'', hl''⟩
                · exact .inr ⟨r, by simp, hl⟩
                · exact .inl (by simp [hmem])
                · exact .inr ⟨r'', by simp [hr''], hl''⟩
            · rintro - g₂ hforces₂ ⟨E, hE, hsub, htodo₂⟩
              refine ⟨E, hE, fun k hk => hsub k (by simp [hk]), List.forall_mem_cons.2 ⟨?_, ?_⟩⟩
              · exact ⟨r, hsub r (by simp), hforces₂.grows.leads hl hs⟩
              · exact fun k hk => htodo₂ k (by simp [hk])

/-- Where every reference leads back into a set of nodes, the graph is ready. -/
theorem Explored.ready {graph : Graph} (hS : Explored S graph) (hr : r ∈ S)
    (hl : graph.Leads root r) : graph.Ready root := by
  have hreach : ∀ h, graph.Reaches root h → ∃ r ∈ S, graph.Leads h r := by
    intro h hh
    induction hh with
    | refl => exact ⟨r, hr, hl⟩
    | @tail h k _ hk ih =>
        obtain ⟨r', hr', hl'⟩ := ih
        cases hl' with
        | here =>
            obtain ⟨n, hs, hc⟩ := hS h hr'
            rw [Graph.references_of_node hs] at hk
            exact hc k hk
        | step hs hrest =>
            rw [Graph.references_of_forward hs, List.mem_singleton] at hk
            subst hk
            exact ⟨r', hr', hrest⟩
  intro h hh
  obtain ⟨r', hr', hl'⟩ := hreach h hh
  obtain ⟨n, hs, -⟩ := hS r' hr'
  exact ⟨r', n, hl', hs⟩

/-- Preparing an expression adds slots and builds suspended references that can be reached from it.
If it succeeds, the graph is ready at the expression. -/
theorem preparing (hg : g.WellFormed) (hroot : g.Has root) :
    Sound (Graph.Forces {root}) (Grammar.prepare root)
      (fun r g => g.graph.Leads root r ∧ g.graph.Ready root) g := by
  have hreached : g.graph.ReachedFrom {root} root := ⟨root, rfl, .refl⟩
  refine (Sound.get hg).bind ?_
  rintro _ _ - - ⟨rfl, rfl⟩
  refine (hg.settleWithin hroot hreached _).bind fun r g₁ hg₁ hforces ⟨n, hl, hs⟩ => ?_
  have hr : g₁.Has r ∧ g₁.graph.ReachedFrom {root} r :=
    ⟨Graph.slot?_lt hs, (hreached.grows hforces.grows).tail hl.reaches⟩
  have hexplore : Sound (Graph.Forces {root})
      (Grammar.exploreWithin (reachBound g) (2 * reachBound g) ∅ [r])
      (fun _ g => g.graph.Leads root r ∧ g.graph.Ready root) g₁ := by
    refine (hg₁.exploreWithin (by simpa using hr) (by simp)).mono ?_
    rintro - g₂ hforces ⟨E, hE, -, htodo⟩
    have hl₂ := hforces.grows.leads hl hs
    obtain ⟨r', hr', hl'⟩ := htodo r (by simp)
    obtain rfl := hl'.unique hl₂.self_end
    exact ⟨hl₂, hE.ready hr' hl₂⟩
  exact hexplore.bind fun _ g₂ hg₂ _ h => .pure hg₂ h

/-- After an expression has been prepared, the graph is ready at it. -/
theorem prepare (hg : g.WellFormed) (hroot : g.Has root) :
    Sound Graph.Grows (prepare root)
      (fun r g => g.graph.Leads root r ∧ g.graph.Ready root) g :=
  have hsound := hg.preparing hroot
  ⟨hsound.wellFormed, hsound.change.grows, hsound.result⟩

/-- What is known when the preparation of an expression has succeeded. -/
theorem of_prepare {g₁ : Grammar} (hg : g.WellFormed) (hroot : g.Has root)
    (hprepare : (Grammar.prepare root).run.run g = (.ok r, g₁)) :
    g₁.WellFormed ∧ g.graph.Grows g₁.graph ∧ g₁.graph.Leads root r ∧ g₁.graph.Ready root := by
  have hsound := hg.prepare hroot
  have hg₁ := hsound.wellFormed
  have hgrows := hsound.change
  rw [hprepare] at hg₁ hgrows
  exact ⟨hg₁, hgrows, hsound.result r g₁ hprepare⟩

end WellFormed

/-! ## Preparing what is ready -/

/-- A chain that ends at a node is traced to its end. -/
theorem run_traceWithin {steps m : Nat} {passed : List Handle} {n : Node}
    (hr : g.graph.resolveWithin (m + 1) h = some r) (hm : g.graph.resolveWithin m h = none)
    (hs : g.graph.slot? r = some (.node n)) (hsteps : m < steps)
    (hpassed : ∀ k ∈ passed, g.graph.resolveWithin (m + 1) k = none) :
    (traceWithin steps passed h).run.run g = (.ok (.node r), g) := by
  induction m generalizing h steps passed with
  | zero =>
      obtain ⟨steps, rfl⟩ := Nat.exists_eq_add_of_lt hsteps
      have hnot : passed.contains h = false := by
        by_contra hmem
        have := hpassed h (by simpa using hmem)
        rw [hr] at this
        cases this
      obtain rfl : h = r := by
        by_cases hf : ∃ t, g.graph.slot? h = some (.forward t)
        · obtain ⟨t, ht⟩ := hf
          rw [Graph.resolveWithin_succ_of_forward ht] at hr
          cases hr
        · rw [Graph.resolveWithin_succ_of_end fun t ht => hf ⟨t, ht⟩] at hr
          exact Option.some.inj hr
      rw [traceWithin]
      simp only [hnot, Bool.false_eq_true, if_false]
      rw [run_bind, run_get]
      simp only [hs]
      rfl
  | succ m ih =>
      obtain ⟨steps, rfl⟩ := Nat.exists_eq_add_of_lt hsteps
      have hnot : passed.contains h = false := by
        by_contra hmem
        have := hpassed h (by simpa using hmem)
        rw [hr] at this
        cases this
      have hf : ∃ t, g.graph.slot? h = some (.forward t) := by
        by_contra hf
        rw [Graph.resolveWithin_succ_of_end fun t ht => hf ⟨t, ht⟩] at hm
        cases hm
      obtain ⟨t, ht⟩ := hf
      have hmono {k : Handle} (hk : g.graph.resolveWithin (m + 1 + 1) k = none) :
          g.graph.resolveWithin (m + 1) k = none := by
        by_contra hne
        obtain ⟨r', hr'⟩ := Option.ne_none_iff_exists'.1 hne
        rw [Graph.resolveWithin_mono hr' (Nat.le_succ _)] at hk
        cases hk
      rw [traceWithin]
      simp only [hnot, Bool.false_eq_true, if_false]
      rw [run_bind, run_get]
      simp only [ht]
      refine ih ?_ ?_ (by omega) (List.forall_mem_cons.2 ⟨hm, fun k hk => hmono (hpassed k hk)⟩)
      · rwa [Graph.resolveWithin_succ_of_forward ht] at hr
      · rwa [Graph.resolveWithin_succ_of_forward ht] at hm

theorem run_settleWithin {steps : Nat} {n : Node} (hl : g.graph.Leads h r)
    (hs : g.graph.slot? r = some (.node n)) (hsteps : g.graph.size < steps) :
    (settleWithin steps h).run.run g = (.ok r, g) := by
  obtain ⟨passed, hnodup, hlt, hr, hnone, -⟩ := hl.passed
  have hlength := Graph.length_le_size hnodup hlt
  have htrace : (traceWithin steps [] h).run.run g = (.ok (.node r), g) :=
    run_traceWithin hr hnone hs (by omega : passed.length < steps) (by simp)
  rw [settleWithin, run_bind, htrace]
  rfl

theorem length_children_le (n : Node) : n.children.length ≤ 2 := by
  cases n <;> simp [Node.children]

open Classical in
/-- Exploring needs one step for each handle on the stack, and two for each node of the region that
has not been seen yet. -/
theorem run_exploreWithin (hg : g.graph.WellFormed) (hroot : g.Has root)
    (hready : g.graph.Ready root) {reach : Nat} (hreach : g.graph.size < reach) {steps : Nat}
    {seen : Std.TreeSet Handle} {todo : List Handle}
    (htodo : ∀ h ∈ todo, g.graph.Reaches root h)
    (hsteps : todo.length + 2 * ((g.graph.region root).filter (· ∉ seen)).card ≤ steps) :
    (exploreWithin reach steps seen todo).run.run g = (.ok (), g) := by
  induction steps generalizing seen todo with
  | zero =>
      cases todo with
      | nil => rw [exploreWithin]; rfl
      | cons h todo => simp at hsteps
  | succ steps ih =>
      cases todo with
      | nil => rw [exploreWithin]; rfl
      | cons h todo =>
          have hh := htodo h (by simp)
          have htodo' : ∀ k ∈ todo, g.graph.Reaches root k := fun k hk => htodo k (by simp [hk])
          obtain ⟨r, n, hl, hs⟩ := hready h hh
          have hr : g.graph.Reaches root r := hh.trans hl.reaches
          rw [List.length_cons] at hsteps
          rw [exploreWithin, run_bind, run_settleWithin hl hs hreach]
          dsimp only
          split
          · exact ih htodo' (by omega)
          · next hseen =>
              rw [run_bind, run_get]
              dsimp only
              rw [Graph.node_eq hs]
              have hmem : r ∈ (g.graph.region root).filter (· ∉ seen) :=
                Finset.mem_filter.2 ⟨(hg.mem_region hroot).2 hr, hseen⟩
              have hsub : (g.graph.region root).filter (· ∉ seen.insert r) ⊆
                  ((g.graph.region root).filter (· ∉ seen)).erase r := fun k hk => by
                obtain ⟨hk, hk'⟩ := Finset.mem_filter.1 hk
                rw [Std.TreeSet.mem_insert, not_or] at hk'
                refine Finset.mem_erase.2 ⟨fun he => hk'.1 ?_, Finset.mem_filter.2 ⟨hk, hk'.2⟩⟩
                rw [he]
                exact Std.ReflOrd.compare_self
              have hcard := Finset.card_le_card hsub
              rw [Finset.card_erase_of_mem hmem] at hcard
              have hpos := Finset.card_pos.2 ⟨r, hmem⟩
              have hchildren := length_children_le n
              refine ih (fun k hk => ?_) ?_
              · rcases List.mem_append.1 hk with hk | hk
                · refine hr.tail ?_
                  rw [Graph.references_of_node hs]
                  exact List.mem_reverse.1 hk
                · exact htodo' k hk
              · rw [List.length_append, List.length_reverse]
                omega

theorem add_length_le_foldl {f : Nat → Slot → Nat} (hf : ∀ bound s, bound + 1 ≤ f bound s)
    (slots : List Slot) (bound : Nat) : bound + slots.length ≤ slots.foldl f bound := by
  induction slots generalizing bound with
  | nil => exact le_rfl
  | cons s slots ih =>
      have hs := hf bound s
      rw [List.foldl_cons, List.length_cons]
      exact le_trans (by omega) (ih _)

theorem size_le_slotBound (g : Graph) : g.size ≤ g.slotBound := by
  unfold Graph.slotBound
  rw [← Array.foldl_toList]
  refine le_trans (by simp [Graph.size]) (add_length_le_foldl (fun bound s => ?_) _ 0)
  split <;> omega

/-- Where the graph is ready, preparing succeeds and changes nothing. -/
theorem prepare_of_ready (hg : g.graph.WellFormed) (hready : g.graph.Ready root) :
    ∃ r, g.graph.Leads root r ∧ (prepare root).run.run g = (.ok r, g) := by
  classical
  obtain ⟨r, n, hl, hs⟩ := hready root .refl
  have hbound := size_le_slotBound g.graph
  have hr : g.Has r := Graph.slot?_lt hs
  refine ⟨r, hl, ?_⟩
  have hexplore : (exploreWithin (reachBound g) (2 * reachBound g) ∅ [r]).run.run g = (.ok (), g) := by
    refine run_exploreWithin hg hr (hready.reaches hl.reaches) ?_ ?_ ?_
    · unfold reachBound
      omega
    · simp [Relation.ReflTransGen.refl, Graph.Reaches]
    · have hcard := (Finset.card_filter_le (g.graph.region r) (· ∉ (∅ : Std.TreeSet Handle))).trans
        (g.graph.card_region_le r)
      unfold reachBound
      simp only [List.length_singleton]
      omega
  rw [prepare, run_bind, run_get]
  dsimp only
  rw [run_bind, run_settleWithin hl hs (by unfold reachBound; omega)]
  dsimp only
  rw [run_bind, hexplore]
  rfl

end Grammar

end DerivativeParsing
