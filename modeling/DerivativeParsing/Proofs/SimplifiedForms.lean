import DerivativeParsing.Proofs.TameRules

/-!
# Simplified expressions are neat

The rules of simplification give back what no rule applies to any more, if the answers for the
operands are such: `Neatening.ensures`.  This takes an expression from which no cycle can be
reached, because only then the answers are finished when a rule looks at them, and one that opens,
because alternatives are kept whole where a reference hides them.

So the simplified form of such an expression is neat (`Graph.Workable.neat_simplify`).
-/

set_option autoImplicit false

namespace DerivativeParsing

open Fixpoint DerivativeParsing.Graph

section Neatening

variable {g₀ g₁ g g' : Graph} {S : Set Handle} {m m' : Memory Handle Handle}
  {key y p v a b z r : Handle} {n t : Node} {fuel : Nat}

/-! ## What simplification keeps -/

/-- From no handle of a part of a graph a cycle can be reached, or a reference that hides an
alternative. -/
structure Graph.Orderly (g : Graph) (S : Set Handle) : Prop where
  tame : ∀ k ∈ S, g.Tame k
  opens : ∀ k ∈ S, g.Opens k

/-- What has been simplified is neat. -/
structure NeatInv (g₀ : Graph) (S : Set Handle) (m : Memory Handle Handle) (g : Graph) : Prop where
  words : SimplifyInv False False g₀ S m g
  neat : ∀ y v, m.Finished y v → g.Neat v

theorem Graph.Orderly.tames (h : g₀.Orderly S) : Simplify.Tames g₀ S (NeatInv g₀ S) :=
  ⟨h.tame, fun _ _ h => h.words⟩

/-- As long as the nodes stay, firm handles stay neat. -/
theorem Graph.Neat.retained {base : Nat} (hv : g.Neat v) (hfirm : g.Firm base v)
    (hkept : ∀ h : Handle, h.index < base → g'.slot? h = g.slot? h) (hretains : g.Retains g') :
    g'.Neat v :=
  hv.congr (Firm.closed base g) (Firm.slot?_eq hkept hretains) hfirm

/-- A node other than an alternative opens if its operands hide nothing. -/
theorem Node.Opens.of_exposed {self : Handle} (hc : ∀ c ∈ n.children, g.Exposed c)
    (hn : ¬ Simplify.IsAlternative n) : n.Opens g self := by
  cases n with
  | alt left right => exact absurd ⟨left, right, rfl⟩ hn
  | not operand => exact hc operand (by simp [Node.children])
  | _ => trivial

/-! ## The rules -/

/-- A rule of simplification, which keeps `NeatInv`. -/
abbrev Neatening (g₀ : Graph) (S : Set Handle) := Running g₀ S id (NeatInv g₀ S)

namespace Neatening

/-- What has to be shown of the result of a rule. -/
abbrev Post : Handle → Memory Handle Handle → Graph → Prop := fun v m' g' =>
  (∀ y a, m'.Finished y a → g'.Neat a) ∧ g'.Neat v

/-- A rule comes to a neat result. -/
abbrev Comes (g₀ : Graph) (S : Set Handle) (plan : Plan Graph Handle Handle Handle)
    (m : Memory Handle Handle) : Prop :=
  plan.Ensures (keeping g₀ S id (NeatInv g₀ S)) True Post m

theorem post (h : Neatening g₀ S key p n g₁ m g) (hv : g.Neat v) : Post v m g := ⟨h.inv.neat, hv⟩

/-- What has been simplified stays neat when nodes are added. -/
theorem extend (h : Neatening g₀ S key p n g₁ m g) (hext : g'.Extends g) :
    ∀ y a, m.Finished y a → g'.Neat a := fun y a hy =>
  (h.inv.neat y a hy).extend h.working.wellFormed hext (h.working.asked y a hy.holds).2.1

section

variable (h : Neatening g₀ S key p n g₁ m g) (hS : g₀.Orderly S)

include h hS

/-- The answer for an operand is finished, and so it is neat. -/
theorem neat_answer (hz : z ∈ n.children) (ha : AnswerFor g₀ m z a) :
    g.Neat a ∧ a.index < g.size := by
  obtain ⟨r, -, ha⟩ := h.finished_of_answer hS.tames hz ha
  exact ⟨h.inv.neat r a ha, (h.working.asked r a ha.holds).2.1⟩

theorem opens_self : g.Opens key :=
  (hS.opens key h.mem).congr h.part.closed h.slot?_eq h.mem fun _ _ _ hc hn =>
    hn.congr h.part.closed h.slot?_eq hc

/-- A polished node is given back if its operands are what they were. -/
theorem post_self (hn : n.Polished g)
    (hc : ∀ c ∈ n.children, ∃ a, AnswerFor g₀ m c a ∧ (a = c ∨ g.Leads c a)) : Post key m g := by
  have hs := h.slot?_key
  refine h.post (.of_node hs ⟨h.opens_self hS key n .refl hs, hn⟩ fun c hc' => ?_)
  obtain ⟨a, ha, hl⟩ := hc c hc'
  have hneat := (h.neat_answer hS hc' ha).1.nodes
  rcases hl with rfl | hl
  · exact hneat
  · exact .of_leads hl hneat

omit hS in
/-- A polished node is made. -/
theorem post_made {D : Set Handle} (ht : t.Polished g) (hnot : ¬ Simplify.IsAlternative t)
    (hc : ∀ c ∈ t.children, g.Neat c ∧ c.index < g.size)
    (hr : (Simplify.Outcome.make t).Realized D g g' v) : Post v m g' := by
  have hg := h.working.wellFormed
  have hext := hr.builds.kept
  have hc' : ∀ c ∈ t.children, g'.Neat c := fun c hct => (hc c hct).1.extend hg hext (hc c hct).2
  refine ⟨h.extend hext, .of_node hr.gives ⟨?_, ?_⟩ fun c hct => (hc' c hct).nodes⟩
  · exact .of_exposed (fun c hct => (hc' c hct).exposed) hnot
  · exact ht.congr hg.closed_lt hext.2 fun c hct => (hc c hct).2

/-- What the rule of a node comes to that is not an alternative is neat. -/
theorem post_reduced {o : Simplify.Outcome} {D : Set Handle}
    (ho : Simplify.Reduces g (AnswerFor g₀ m) key n o) (hr : o.Realized D g g' v) :
    Post v m g' := by
  have hg := h.working.wellFormed
  cases ho with
  | keep hn hc =>
      obtain ⟨rfl, rfl⟩ := hr.gives
      exact h.post_self hS hn hc
  | refit ht hn =>
      refine h.post_made hn ht.not_isAlternative (fun c hc => ?_) hr
      obtain ⟨z, hz, ha⟩ := ht.answered hc
      exact h.neat_answer hS hz ha
  | range c =>
      exact h.post_made (t := .char c) trivial (by rintro ⟨_, _, he⟩; cases he)
        (by simp [Node.children]) hr
  | unbounded ha hn =>
      refine h.post_made hn (by rintro ⟨_, _, he⟩; cases he) (fun c hc => ?_) hr
      rw [List.mem_singleton.1 hc]
      exact h.neat_answer hS (by simp [Node.children]) ha
  | fixed hn hu =>
      obtain ⟨rfl, rfl⟩ := hr.gives
      exact h.post (hu.elim (fun he => he ▸ .nil hg) fun he => he ▸ .empty hg)
  | operand hz ha =>
      obtain ⟨rfl, rfl⟩ := hr.gives
      exact h.post (h.neat_answer hS hz ha).1
  | inner ha ht =>
      obtain ⟨rfl, rfl⟩ := hr.gives
      exact h.post ((h.neat_answer hS (by simp [Node.children]) ha).1.inner ht)
  | trees f trees =>
      exact h.post_made (t := .emptyReduction trees) trivial (by rintro ⟨_, _, he⟩; cases he)
        (by simp [Node.children]) hr

end

/-- Alternatives are put together from spread branches. -/
theorem ensures_alternatives {left right : Handle}
    (h : Neatening g₀ S key p (.alt left right) g₁ m g) (hS : g₀.Orderly S)
    (ha : AnswerFor g₀ m left a) (hb : AnswerFor g₀ m right b) :
    Comes g₀ S (Simplify.alternatives key a b g) m := by
  have hg := h.working.wellFormed
  obtain ⟨hneata, -⟩ := h.neat_answer hS (by simp [Node.children]) ha
  obtain ⟨hneatb, -⟩ := h.neat_answer hS (by simp [Node.children]) hb
  -- What the branches are taken from.
  let D : Set Handle := {k | Usable g₀ S key g k ∧ g.Opens k}
  have hD : g.Closed D := fun k hk c hc =>
    ⟨h.closed_usable k hk.1 c hc, hk.2.reaches (.single hc)⟩
  have hself : key ∈ D := ⟨h.usable_self, h.opens_self hS⟩
  have hnil : .nil ∈ D := ⟨h.usable_nil, (Neat.nil hg).opens⟩
  have haD : a ∈ D := ⟨h.usable_of_answer hS.tames (by simp [Node.children]) ha, hneata.opens⟩
  have hbD : b ∈ D := ⟨h.usable_of_answer hS.tames (by simp [Node.children]) hb, hneatb.opens⟩
  have hready : ∀ k ∈ D, g.Ready k ∧ g.Tame k := fun k hk => h.ready_of_usable hS.tames hk.1
  refine (Simplify.ensures_nested hg hD (fun k hk => hk.1.mem.1) (fun _ _ _ => trivial)
    (fun _ => trivial) hnil hself haD hbD).mono ?_
  rintro v m' g' - ⟨items, hitems, rfl, hbuilds, -, hnests⟩
  have hext := hbuilds.kept
  have hitemsD := Simplify.closed_joined hD haD hbD hitems
  have hlt : ∀ k ∈ items, k.index < g.size := fun k hk => (hitemsD k hk).1.mem.1
  have hspread : g.Spread items :=
    Simplify.spread_of_joined hg (fun k hk => hready k (hitemsD k hk)) hitems
  refine ⟨h.extend hext, ?_⟩
  rcases hnests with ⟨-, rfl⟩ | hnests
  · exact (Neat.nil hg).extend hg hext hg.nil_lt
  · refine (hnests.neat (fun k hk => ?_) (fun k hk => ?_)
      (hspread.congr hg.closed_lt hext.2 hlt)).1
    · exact hk.2.congr hg.closed_lt hext.2 hk.1.mem.1 fun _ _ _ hc hn =>
        hn.congr hg.closed_lt hext.2 hc
    · -- A branch comes from one of the answers, which are neat.
      obtain ⟨hneat, hself⟩ : g.Neat k ∧ Simplify.branches g k = [k] :=
        (Simplify.mem_branches_of_joined hitems hk).elim hneata.of_mem_branches
          hneatb.of_mem_branches
      rw [branches_congr hg.closed_lt hext.2 (hlt k hk)]
      exact ⟨hneat.extend hg hext (hlt k hk), hself⟩

/-- Every rule of simplification comes to a neat result, if the answers for the operands are neat.
-/
theorem ensures (h : Neatening g₀ S key p n g₁ m g) (hS : g₀.Orderly S) (hfuel : 0 < fuel) :
    Comes g₀ S (Simplify.ofNode fuel key n g) m := by
  by_cases hn : Simplify.IsAlternative n
  · obtain ⟨left, right, rfl⟩ := hn
    refine h.ensures_answer (by simp [Node.children]) fun a m₁ g₁ h₁ _ ha => ?_
    refine h₁.ensures_answer (by simp [Node.children]) fun b m₂ g₂ h₂ hframe hb => ?_
    exact ensures_alternatives h₂ hS (ha.frame hframe) hb
  · refine (h.ensures_reduced hS.tames hn hfuel).mono ?_
    rintro v m' g' - ⟨g, o, h', ho, hr⟩
    exact post_reduced h' hS ho hr

end Neatening

/-! ## The whole simplification -/

theorem upholds_neat (hS : g₀.Part S) (horderly : g₀.Orderly S) (hfuel : 0 < fuel) :
    Upholds g₀ S id (Simplify.rule fuel) (NeatInv g₀ S)
      (fun _ g key v => SimplifyResult False g₀ g key v ∧ g.Neat v) True fun _ => True := by
  -- That results are firm, and what words they match, has been shown for any expression.
  have hwords : Upholds g₀ S id (Simplify.rule fuel) (SimplifyInv False False g₀ S)
      (fun _ g key v => SimplifyResult False g₀ g key v) True _ :=
    upholds_simplify hS (hS.tameComplements horderly.tame)
  refine ⟨fun m m' g hfinished hunderway h => ?_, fun key m g hasks hfresh => ?_,
    fun key p n m g h => ?_, fun key p v m g hw hinv hp hv hresult _ => ?_⟩
  · exact ⟨hwords.congr m m' g hfinished hunderway h.words,
      fun y v hv => h.neat y v ((hfinished y v).1 hv)⟩
  · obtain ⟨hkey, hnode, hw, hinv, hothers⟩ := hasks
    refine ⟨hwords.start key m g ⟨hkey, hnode, hw, hinv.words, hothers⟩ hfresh, fun y v hv => ?_⟩
    have hv := (Memory.finished_start hfresh).1 hv
    exact (hinv.neat y v hv).extend hw.wellFormed extends_alloc (hw.asked y v hv.holds).2.1
  · have hrule : Neatening.Comes g₀ S (Simplify.rule fuel key g) m :=
      h.ensures_node (Neatening.ensures h horderly hfuel)
    refine ((hwords.rule key p n m g (h.simplifying h.inv.words)).and hrule ?_).mono ?_
    · rintro key m g v m' g' ⟨hsince, hw, hinv, hanswer⟩
      exact ⟨hsince, hw, hinv.words, hanswer⟩
    · rintro v m' g' - ⟨⟨hsince, hw, hinv, hv, hresult⟩, hfinished, hneat⟩
      exact ⟨hsince, hw, ⟨hinv, hfinished⟩, hv, hresult, hneat⟩
  · have hw' := hw.settle hp hv
    refine ⟨hinv.words.settle hw hS hp hv hresult.1 False.elim False.elim, fun y a hy => ?_⟩
    obtain ⟨ha, hfirm⟩ : g.Neat a ∧ g.Firm g₀.size a := by
      rcases Memory.finished_finish_iff.1 hy with ⟨rfl, rfl⟩ | ⟨-, hy⟩
      · exact ⟨hresult.2, hresult.1.firm (horderly.tame y (hw.asked y p hp.holds).1)⟩
      · exact ⟨hinv.neat y a hy,
          hinv.words.firm.results y a hy (horderly.tame y (hw.asked y a hy.holds).1)⟩
    exact ha.retained hfirm (fun k hlt => by rw [hw'.kept.2 k hlt, hw.kept.2 k hlt])
      (.of_redirect (hw.placeholder key p hp).2)

/-- What can be reached from an expression is orderly, together with the three fixed expressions. -/
theorem Graph.Orderly.scope {h : Handle} (hg : g.WellFormed) (htame : g.Tame h) (hopens : g.Opens h) :
    g.Orderly (g.scope h) := by
  refine ⟨htame.scope hg, ?_⟩
  rintro k (hk | hk)
  · exact hopens.reaches hk
  · obtain ⟨n, hs, hn⟩ := hg.exists_atomic hk
    refine .of_node hs ?_ (by simp [hn])
    exact .of_exposed (by simp [hn]) (by rintro ⟨left, right, rfl⟩; cases hn)

/-- What simplification leaves of an expression from which no cycle can be reached and which opens:
the result belongs to the part that was simplified or is new, is firm, and is neat. -/
structure LeavesNeat (g₀ : Graph) (h : Handle) (g : Graph) (s : Handle) : Prop where
  wellFormed : g.WellFormed
  kept : g.Extends g₀
  mem : s ∈ grown g₀ (g₀.scope h) g
  ready : g.Ready s
  firm : g.Firm g₀.size s
  neat : g.Neat s

/-- The simplified form of an expression is neat if no cycle can be reached from the expression and
no reference hides an alternative in it. -/
theorem Graph.Workable.neat_simplify {h s : Handle} (hh : g.Workable h) (htame : g.Tame h)
    (hopens : g.Opens h) (hfuel : 0 < fuel) (hs : g.simplify fuel h = some (s, g')) :
    LeavesNeat g h g' s := by
  obtain ⟨r, n, hl, -⟩ := hh.ready h .refl
  have horderly : g.Orderly (g.scope h) := .scope hh.wellFormed htame hopens
  have hU := upholds_neat hh.part horderly hfuel
  have hinit : NeatInv g (g.scope h) .empty g :=
    ⟨.initial hh.part hh.tameComplements, fun y v hv => by simp [Memory.Finished, Memory.empty] at hv⟩
  obtain ⟨m, hw, hinv, hv, -⟩ := apply_upholds hU hh.part (fun _ hy => hy) hinit (.inl .refl) hl
    (fun _ _ => trivial) hs
  have hmem := (hw.asked r s hv.holds).2
  have hfirm := hinv.words.firm.results r s hv (htame.reaches hl.reaches)
  exact ⟨hw.wellFormed, hw.kept, hmem, hw.ready_of_firm hh.part hmem hfirm, hfirm,
    hinv.neat r s hv⟩

end Neatening

end DerivativeParsing
