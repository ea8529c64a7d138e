import DerivativeParsing.Proofs.Lightening

/-!
# Simplified expressions are lighter

Every rule of simplification makes the shape of its node lighter, or it gives the node back and all
nodes of it rest, if the answers for the operands are such: `Lightening.ensures`.  So this holds of
the whole expression, if no cycle can be reached from it (`Graph.Workable.lightens`).
-/

set_option autoImplicit false

namespace DerivativeParsing

open Fixpoint DerivativeParsing.Graph

section Lightening

variable {g₀ g₁ g g' : Graph} {S D : Set Handle} {m m' : Memory Handle Handle}
  {key y p v a b z r : Handle} {n t : Node} {f f' : Handle → Shape} {fuel : Nat}

/-! ## Nodes with lighter operands -/

theorem Node.size_lt (hz : z ∈ n.children) : (f z).size < (n.shape f).size := by
  cases n <;> simp only [children, List.mem_cons, List.not_mem_nil, or_false] at hz <;>
    simp only [shape, Shape.size]
  case alt left right => rcases hz with rfl | rfl <;> omega
  case seq first second => rcases hz with rfl | rfl <;> omega
  all_goals subst hz; omega

theorem Shape.size_pos (s : Shape) : 0 < s.size := by
  cases s <;> simp [size]

/-- A node like another one is lighter if the operands are, or are the same, and not all are the
same. -/
theorem Simplify.Refits.lighter {ans same : Handle → Handle → Prop} (h : Refits ans n t)
    (hans : ∀ z ∈ n.children, ∀ a, ans z a → (f' a).Lighter (f z) ∨ f' a = f z ∧ same z a)
    (hnew : ¬ Refits same n t) :
    (t.shape f').size < (n.shape f).size ∨
      (t.shape f').size = (n.shape f).size ∧ (t.shape f').work < (n.shape f).work := by
  have honly {z a : Handle} (hz : z ∈ n.children) (ha : ans z a) (hchanged : ¬ same z a) :
      (f' a).size + 1 < (f z).size + 1 ∨
        (f' a).size + 1 = (f z).size + 1 ∧ (f' a).effort < (f z).effort := by
    rcases (hans z hz a ha).resolve_right fun h => hchanged h.2 with hlt | ⟨he, hlt⟩
    · exact .inl (Nat.succ_lt_succ hlt)
    · exact .inr ⟨congrArg (· + 1) he, hlt⟩
  cases h with
  | @seq first second a b ha hb =>
      have hfirst := hans first (by simp [Node.children]) a ha
      have hsecond := hans second (by simp [Node.children]) b hb
      simp only [Node.shape, Shape.size, Shape.work]
      change _ ∨ _ ∧ (f' a).effort + (f' b).effort < (f first).effort + (f second).effort
      rcases hfirst with hfirst | ⟨hfirst, hsame⟩
      · rcases hsecond with hsecond | ⟨hsecond, -⟩
        · unfold Shape.Lighter at hfirst hsecond
          omega
        · rw [hsecond]
          unfold Shape.Lighter at hfirst
          omega
      · rcases hsecond with hsecond | ⟨-, hsame'⟩
        · rw [hfirst]
          unfold Shape.Lighter at hsecond
          omega
        · exact absurd (.seq hsame hsame') hnew
  | star ha => exact honly (by simp [Node.children]) ha fun h => hnew (.star h)
  | rep count ha =>
      have h := honly (by simp [Node.children]) ha fun h => hnew (.rep count h)
      cases count with
      | exactly k => exact h
      | unbounded => exact h.imp_right (And.imp_right Nat.succ_lt_succ)
  | not ha => exact honly (by simp [Node.children]) ha fun h => hnew (.not h)
  | nullability ha => exact honly (by simp [Node.children]) ha fun h => hnew (.nullability h)
  | reduction reducer ha => exact honly (by simp [Node.children]) ha fun h => hnew (.reduction reducer h)

/-! ## What simplification keeps -/

/-- What has been simplified is lighter, or rests. -/
structure LightInv (g₀ : Graph) (S : Set Handle) (m : Memory Handle Handle) (g : Graph) : Prop where
  words : SimplifyInv False False g₀ S m g
  bottomUp : g.BottomUp
  lightens : ∀ y v, m.Finished y v → Lightens g₀ g y v

theorem LightInv.tames (htame : ∀ k ∈ S, g₀.Tame k) : Simplify.Tames g₀ S (LightInv g₀ S) :=
  ⟨htame, fun _ _ h => h.words⟩

theorem Graph.Part.hasShape (hS : g₀.Part S) (htame : ∀ k ∈ S, g₀.Tame k) (hy : y ∈ S) :
    g₀.HasShape y :=
  (htame y hy).hasShape hS.wellFormed fun k hk => hS.ready k (hS.closed.of_reaches hy hk)

section

variable (h : LightInv g₀ S m g) (hw : Working g₀ S id m g) (hS : g₀.Part S)
  (htame : ∀ k ∈ S, g₀.Tame k) (hy : m.Finished y a)

include h hw hS htame hy

/-- What has been simplified can be written out. -/
theorem LightInv.firm_hasShape : g.Firm g₀.size a ∧ g.HasShape a := by
  obtain ⟨hmem, ha⟩ := hw.asked y a hy.holds
  have hfirm := h.words.firm.results y a hy (htame y hmem)
  exact ⟨hfirm, hfirm.tame.hasShape hw.wellFormed (hw.ready_of_firm hS ha hfirm)⟩

/-- What has been simplified stays as light when slots are added. -/
theorem LightInv.extend (hext : g'.Extends g) : Lightens g₀ g' y a :=
  (h.lightens y a hy).congr (h.firm_hasShape hw hS htame hy).2 hw.wellFormed.closed_lt hext.2
    (hw.asked y a hy.holds).2.1

end

/-! ## The rules -/

/-- A rule of simplification, which keeps `LightInv`. -/
abbrev Lightening (g₀ : Graph) (S : Set Handle) := Running g₀ S id (LightInv g₀ S)

namespace Lightening

/-- What has to be shown of the result of a rule. -/
abbrev Post (g₀ : Graph) (key : Handle) : Handle → Memory Handle Handle → Graph → Prop :=
  fun v m' g' => g'.BottomUp ∧ (∀ y a, m'.Finished y a → Lightens g₀ g' y a) ∧ Lightens g₀ g' key v

/-- A rule comes to a lighter result. -/
abbrev Comes (g₀ : Graph) (S : Set Handle) (key : Handle)
    (plan : Plan Graph Handle Handle Handle) (m : Memory Handle Handle) : Prop :=
  plan.Ensures (keeping g₀ S id (LightInv g₀ S)) True (Post g₀ key) m

section

variable (h : Lightening g₀ S key p n g₁ m g) (hS : ∀ k ∈ S, g₀.Tame k)

include h

theorem post (hv : Lightens g₀ g key v) : Post g₀ key v m g := ⟨h.inv.bottomUp, h.inv.lightens, hv⟩

include hS

theorem hasShape_of_usable (ha : Usable g₀ S key g a) : g.HasShape a :=
  have hready := h.ready_of_usable (LightInv.tames hS) ha
  hready.2.hasShape h.working.wellFormed hready.1

/-- Nothing has changed in the part that is simplified. -/
theorem shapeOf_eq (hy : y ∈ S) : g.HasShape y ∧ g.shapeOf y = g₀.shapeOf y :=
  (h.part.hasShape hS hy).congr h.part.closed h.slot?_eq hy

/-- The shape of the node, by the shapes of its operands. -/
theorem shapeOf_key : g₀.shapeOf key = n.shape g₀.shapeOf :=
  ((h.part.hasShape hS h.mem).of_node h.node).1

/-- The answer for an operand is finished. -/
theorem lightens_answer (hz : z ∈ n.children) (ha : AnswerFor g₀ m z a) :
    ∃ r, g₀.Leads z r ∧ r ∈ S ∧ g₀.shapeOf z = g₀.shapeOf r ∧ Lightens g₀ g r a := by
  obtain ⟨r, hl, ha⟩ := h.finished_of_answer (LightInv.tames hS) hz ha
  have hzS := h.operand_mem hz
  exact ⟨r, hl, h.part.closed.of_reaches hzS hl.reaches, ((h.part.hasShape hS hzS).leads hl).2,
    h.inv.lightens r a ha⟩

theorem size_answer_le (hz : z ∈ n.children) (ha : AnswerFor g₀ m z a) :
    (g.shapeOf a).size ≤ (g₀.shapeOf z).size := by
  obtain ⟨r, -, -, hshape, hlightens⟩ := h.lightens_answer hS hz ha
  rw [hshape]
  exact hlightens.size

/-- The answer for an operand is lighter, or the operand is unchanged and rests. -/
theorem lighter_or (hz : z ∈ n.children) (ha : AnswerFor g₀ m z a) :
    (g.shapeOf a).Lighter (g₀.shapeOf z) ∨ g.shapeOf a = g₀.shapeOf z ∧ (a = z ∨ g.Leads z a) ∧
      g.AllNodes (fun k n => n.Rests g k) z := by
  obtain ⟨r, hl, hr, hshape, hlightens⟩ := h.lightens_answer hS hz ha
  have hl' : g.Leads z r := (h.leads_iff (h.operand_mem hz)).2 hl
  rw [hshape]
  refine hlightens.lighter_or.imp_right ?_
  rintro ⟨rfl, hrests⟩
  exact ⟨(h.shapeOf_eq hS hr).2, .inr hl', .of_leads hl' hrests⟩

/-- A polished node is given back if its operands are what they were. -/
theorem post_self (hnot : ¬ Simplify.IsAlternative n) (hn : n.Polished g)
    (hc : ∀ c ∈ n.children, ∃ a, AnswerFor g₀ m c a ∧ (a = c ∨ g.Leads c a)) :
    Post g₀ key key m g := by
  have hs := h.slot?_key
  obtain ⟨hkey, hsame⟩ := h.shapeOf_eq hS h.mem
  refine h.post (.of_rests hsame (.of_not_isAlt hkey hs (hkey.not_isAlt hs hnot)) ?_)
  refine .of_node hs ((Node.rests_iff hnot).2 hn) fun c hct => ?_
  obtain ⟨a, ha, hl⟩ := hc c hct
  refine ((h.lighter_or hS hct ha).resolve_left fun hlighter => ?_).2.2
  obtain ⟨hshape, hsame⟩ := h.shapeOf_eq hS (h.operand_mem hct)
  have hac : g.shapeOf a = g₀.shapeOf c := by
    rw [← hsame]
    exact hl.elim (fun he => he ▸ rfl) fun hl => (hshape.leads hl).2.symm
  exact Shape.Lighter.irrefl (hac ▸ hlighter)

/-- What is there after a rule has added nodes. -/
theorem post_built {P : Node → Prop} (hbuilds : Builds {k | Usable g₀ S key g k} P g g')
    (hv : Lightens g₀ g' key v) : Post g₀ key v m g' :=
  ⟨h.inv.bottomUp.builds hbuilds fun _ hk => hk.mem.1,
    fun _ _ hy => h.inv.extend h.working h.part hS hy hbuilds.kept, hv⟩

/-- A rule makes a node that is lighter. -/
theorem post_made (hn : ¬ Simplify.IsAlternative n) (ht : ¬ Simplify.IsAlternative t)
    (hc : ∀ c ∈ t.children, Usable g₀ S key g c)
    (hr : (Simplify.Outcome.make t).Realized {k | Usable g₀ S key g k} g g' v)
    (hlt : (t.shape g.shapeOf).size < (n.shape g₀.shapeOf).size ∨
      (t.shape g.shapeOf).size = (n.shape g₀.shapeOf).size ∧
        (t.shape g.shapeOf).work < (n.shape g₀.shapeOf).work) : Post g₀ key v m g' := by
  have hext := hr.builds.kept
  have hc' : ∀ c ∈ t.children, g'.HasShape c ∧ g'.shapeOf c = g.shapeOf c := fun c hct =>
    (h.hasShape_of_usable hS (hc c hct)).congr h.working.wellFormed.closed_lt hext.2
      (hc c hct).mem.1
  have hv : g'.HasShape v := .of_operands hr.gives fun c hct => (hc' c hct).1
  have hshape : g'.shapeOf v = t.shape g.shapeOf :=
    (hv.of_node hr.gives).1.trans (Node.shape_congr fun c hct => (hc' c hct).2)
  refine h.post_built hS hr.builds (.of_lighter hv hr.gives (hv.not_isAlt hr.gives ht) ?_ ?_)
  · exact (h.part.hasShape hS h.mem).not_isAlt h.node hn
  · rw [hshape, h.shapeOf_key hS]
    exact hlt

/-- What the rule of a node comes to that is not an alternative is lighter, or rests. -/
theorem post_reduced {o : Simplify.Outcome} (hn : ¬ Simplify.IsAlternative n)
    (ho : Simplify.Reduces g (AnswerFor g₀ m) key n o)
    (hr : o.Realized {k | Usable g₀ S key g k} g g' v) : Post g₀ key v m g' := by
  have husable {z a : Handle} (hz : z ∈ n.children) (ha : AnswerFor g₀ m z a) :
      Usable g₀ S key g a := h.usable_of_answer (LightInv.tames hS) hz ha
  have hkey := h.shapeOf_key hS
  -- A result that is not larger than an operand is smaller than the node.
  have hgive (hlt : (g.shapeOf v).size < (n.shape g₀.shapeOf).size) : Post g₀ key v m g :=
    h.post (.of_smaller (hkey ▸ hlt))
  cases ho with
  | keep hpolished hc =>
      obtain ⟨rfl, rfl⟩ := hr.gives
      exact h.post_self hS hn hpolished hc
  | refit ht hpolished hnew =>
      refine h.post_made hS hn ht.not_isAlternative (fun c hc => ?_) hr ?_
      · obtain ⟨z, hz, ha⟩ := ht.answered hc
        exact husable hz ha
      · exact ht.lighter
          (fun z hz a ha => (h.lighter_or hS hz ha).imp_right (And.imp_right And.left)) hnew
  | range c =>
      refine h.post_made hS hn (t := .char c) (by rintro ⟨_, _, he⟩; cases he)
        (by simp [Node.children]) hr (.inr ⟨rfl, ?_⟩)
      simp [Node.shape, Shape.work]
  | @unbounded z a ha hpolished =>
      have hz : z ∈ (Node.rep z .unbounded).children := by simp [Node.children]
      refine h.post_made hS hn (t := .star a) (by rintro ⟨_, _, he⟩; cases he) (fun c hc => ?_) hr ?_
      · rw [List.mem_singleton.1 hc]
        exact husable hz ha
      · rcases h.lighter_or hS hz ha with (hlt | ⟨he, hlt⟩) | ⟨he, -⟩
        · exact .inl (Nat.succ_lt_succ hlt)
        · exact .inr ⟨congrArg (· + 1) he, hlt.trans (Nat.lt_succ_self _)⟩
        · exact .inr ⟨by simp [Node.shape, Shape.size, he], by simp [Node.shape, Shape.work, he]⟩
  | @fixed n u hchildren hu =>
      obtain ⟨z, hz⟩ := List.exists_mem_of_ne_nil _ hchildren
      have hlt : (g₀.shapeOf z).size < (n.shape g₀.shapeOf).size := Node.size_lt hz
      have hone : (g.shapeOf u).size = 1 := by
        have hg := h.working.wellFormed
        rcases hu with rfl | rfl
        · rw [((h.hasShape_of_usable hS h.usable_nil).of_node hg.nil).1]
          rfl
        · rw [((h.hasShape_of_usable hS h.usable_empty).of_node hg.empty).1]
          rfl
      obtain ⟨rfl, rfl⟩ := hr.gives
      exact hgive (hone ▸ Nat.lt_of_le_of_lt (Shape.size_pos _) hlt)
  | operand hz ha =>
      obtain ⟨rfl, rfl⟩ := hr.gives
      exact hgive ((h.size_answer_le hS hz ha).trans_lt (Node.size_lt hz))
  | @inner z a q ha ht =>
      have hz : z ∈ (Node.not z).children := by simp [Node.children]
      obtain ⟨r, hl, hinner⟩ := nodeAt_eq_some.1 ht
      have hs : g.slot? r = some (.node (.not q)) := slot?_of_node_eq hinner (by simp)
      have hlt : (g.shapeOf q).size < (g.shapeOf a).size := by
        rw [((h.hasShape_of_usable hS (husable hz ha)).of_leads hl hs).1]
        exact Node.size_lt (by simp [Node.children])
      obtain ⟨rfl, rfl⟩ := hr.gives
      exact hgive (hlt.trans ((h.size_answer_le hS hz ha).trans_lt (Node.size_lt hz)))
  | trees reducer trees =>
      refine h.post_made hS hn (t := .emptyReduction trees) (by rintro ⟨_, _, he⟩; cases he)
        (by simp [Node.children]) hr (.inl ?_)
      exact Nat.succ_lt_succ (Shape.size_pos _)

end

/-! ### Alternatives -/

variable {left right : Handle} {items : List Handle}

/-- Alternatives rest that are spread and stand in the order of their heights. -/
theorem rests_alt (h : Lightening g₀ S key p (.alt left right) g₁ m g) (hS : ∀ k ∈ S, g₀.Tame k)
    (ha : g.Leads left a) (hb : g.Leads right b) (hnot : ¬ (g.shapeOf a).IsAlt)
    (hspread : g.Spread (a :: Simplify.branches g b)) (hra : g.AllNodes (fun k n => n.Rests g k) a)
    (hrb : g.AllNodes (fun k n => n.Rests g k) b) : g.AllNodes (fun k n => n.Rests g k) key := by
  have hleft := (h.shapeOf_eq hS (h.operand_mem (c := left) (by simp [Node.children]))).1
  refine .of_node h.slot?_key ⟨h.inv.bottomUp.alt h.slot?_key, fun x y hn => hnot ?_, ?_⟩ ?_
  · rw [← (hleft.leads ha).2]
    exact hleft.isAlt_of_nodeAt hn
  · have hends : (a :: Simplify.branches g b).map g.endOf =
        (left :: Simplify.branches g (g.endOf right)).map g.endOf := by
      rw [hb.endOf, List.map_cons, List.map_cons, endOf_leads ha]
    exact spread_map_endOf.1 (hends ▸ spread_map_endOf.2 hspread)
  · intro c hc
    rcases List.mem_pair.1 hc with rfl | rfl
    · exact .of_leads ha hra
    · exact .of_leads hb hrb

section

variable (h : Lightening g₀ S key p n g₁ m g) (hS : ∀ k ∈ S, g₀.Tame k)
  (ha : Usable g₀ S key g a) (hb : Usable g₀ S key g b)

include h hS ha hb

omit hS in
theorem branches_usable : ∀ k ∈ Simplify.branches g a ++ Simplify.branches g b, Usable g₀ S key g k :=
  fun k hk => (List.mem_append.1 hk).elim (Simplify.closed_branches h.closed_usable ha k)
    (Simplify.closed_branches h.closed_usable hb k)

omit hS in
/-- Two operands are put together from their branches. -/
theorem ensures_nested (hself : Usable g₀ S key g v) :
    (Simplify.alternatives v a b g).Ensures (keeping g₀ S id (LightInv g₀ S)) True
      (fun u m' g' => ∃ items, Simplify.joined g a b = some items ∧
        Simplify.NestsAs {k | Usable g₀ S key g k} g m items u m' g') m :=
  Simplify.ensures_nested h.working.wellFormed h.closed_usable (fun _ hk => hk.mem.1)
    (fun _ _ _ => trivial) (fun _ => trivial) h.usable_nil hself ha hb

/-- What two operands are put together as is joined from their branches. -/
theorem joined (hitems : Simplify.joined g a b = some items)
    (hbuilds : Builds {k | Usable g₀ S key g k} Simplify.IsAlternative g g')
    (hnests : Simplify.Nests g' {k | Usable g₀ S key g k} items v) :
    ∃ dropped, g'.Joined a b items dropped v := by
  have hg := h.working.wellFormed
  have hext := hbuilds.kept
  have hbottom : g'.BottomUp := h.inv.bottomUp.builds hbuilds fun _ hk => hk.mem.1
  have hsame : ∀ k, Usable g₀ S key g k → g'.HasShape k ∧ g'.shapeOf k = g.shapeOf k := fun k hk =>
    (h.hasShape_of_usable hS hk).congr hg.closed_lt hext.2 hk.mem.1
  have hbranches : ∀ k, Usable g₀ S key g k → Simplify.branches g' k = Simplify.branches g k :=
    fun k hk => branches_congr hg.closed_lt hext.2 hk.mem.1
  have husable := h.branches_usable ha hb
  obtain ⟨dropped, horders⟩ := Simplify.orders_of_joined hg
    (fun k hk => h.ready_of_usable (LightInv.tames hS) (husable k hk)) hitems
  have horders' := horders.congr fun k hk => (hsame k (husable k hk)).2
  have hshapes : ∀ k ∈ items, g'.HasShape k := fun k hk => (hsame k (husable k (horders.mem hk))).1
  have hself : ∀ k ∈ items, Simplify.branches g' k = [k] := fun k hk => by
    rw [hbranches k (husable k (horders.mem hk))]
    exact (List.mem_append.1 (horders.mem hk)).elim (Simplify.branches_self h.inv.bottomUp)
      (Simplify.branches_self h.inv.bottomUp)
  have hv : g'.HasShape v := hnests.hasShape hshapes fun k hk => (hsame k hk).1
  refine ⟨dropped, (hsame a ha).1, (hsame b hb).1, ?_, hnests.stands hbottom hv hself horders'.inOrder⟩
  rw [hbranches a ha, hbranches b hb]
  exact horders'

end

/-- Alternatives that are given back stand in line. -/
theorem post_kept (h : Lightening g₀ S key p n g₁ m g) (hS : ∀ k ∈ S, g₀.Tame k) (ha : a ∈ S)
    (hb : b ∈ S) (hkey : g₀.shapeOf key = .alt (g₀.shapeOf a) (g₀.shapeOf b))
    (hlightensa : Lightens g₀ g a a) (hlightensb : Lightens g₀ g b b)
    (hrests : g.AllNodes (fun k n => n.Rests g k) key) {dropped : List Handle}
    (hjoined : g.Joined a b items dropped key) : Post g₀ key key m g := by
  have hsame := (h.shapeOf_eq hS h.mem).2
  have hsamea := (h.shapeOf_eq hS ha).2
  have hsameb := (h.shapeOf_eq hS hb).2
  have hsize : (g.shapeOf key).size = (g.shapeOf a).size + (g.shapeOf b).size + 1 := by
    rw [hsame, hkey, hsamea, hsameb, Shape.size]
  obtain ⟨-, rfl⟩ := hjoined.size.resolve_left (by omega)
  have hlineda := (hlightensa.level (congrArg Shape.size hsamea)).lined
  have hlinedb := (hlightensb.level (congrArg Shape.size hsameb)).lined
  exact h.post (.of_rests hsame (hjoined.lined hlineda hlinedb ⟨n, h.slot?_key⟩) hrests)

/-- Alternatives are put together from lighter ones, or given back. -/
theorem ensures_alternatives (h : Lightening g₀ S key p (.alt left right) g₁ m g)
    (hS : ∀ k ∈ S, g₀.Tame k) (ha : AnswerFor g₀ m left a) (hb : AnswerFor g₀ m right b) :
    Comes g₀ S key (Simplify.alternatives key a b g) m := by
  have hg := h.working.wellFormed
  have hleft : left ∈ (Node.alt left right).children := by simp [Node.children]
  have hright : right ∈ (Node.alt left right).children := by simp [Node.children]
  have husablea := h.usable_of_answer (LightInv.tames hS) hleft ha
  have husableb := h.usable_of_answer (LightInv.tames hS) hright hb
  obtain ⟨r, hl, hr, hshape, hlightensa⟩ := h.lightens_answer hS hleft ha
  obtain ⟨r', hl', hr', hshape', hlightensb⟩ := h.lightens_answer hS hright hb
  have hla : g.Leads left r := (h.leads_iff (h.operand_mem hleft)).2 hl
  have hlb : g.Leads right r' := (h.leads_iff (h.operand_mem hright)).2 hl'
  have hkey : g₀.shapeOf key = .alt (g₀.shapeOf r) (g₀.shapeOf r') := by
    rw [h.shapeOf_key hS, Node.shape, hshape, hshape']
  have hens := h.ensures_nested husablea husableb h.usable_self
  by_cases hrest : a = r ∧ b = r' ∧ g.AllNodes (fun k n => n.Rests g k) key
  · -- There is nothing to do, and the alternative is found again.
    obtain ⟨rfl, rfl, hrests⟩ := hrest
    have hready := h.ready_of_usable (LightInv.tames hS) h.usable_self
    rw [Simplify.alternatives_of_rests hg h.slot?_key hready.1 hready.2 hrests hla hlb] at hens ⊢
    obtain ⟨items, hitems, -, hbuilds, -, ⟨-, rfl⟩ | hnests⟩ := hens
    · have hnil := h.slot?_key.symm.trans hg.nil
      cases hnil
    · obtain ⟨dropped, hjoined⟩ := h.joined hS husablea husableb hitems hbuilds hnests
      exact h.post_kept hS hr hr' hkey hlightensa hlightensb hrests hjoined
  · refine hens.mono ?_
    rintro v m' g' - ⟨items, hitems, rfl, hbuilds, -, hnests⟩
    have hext := hbuilds.kept
    refine h.post_built hS hbuilds ?_
    rcases hnests with ⟨-, rfl⟩ | hnests
    · -- Everything matches nothing.
      have hnil := (h.hasShape_of_usable hS h.usable_nil).congr hg.closed_lt hext.2 hg.nil_lt
      refine .of_smaller ?_
      rw [hnil.2, ((h.hasShape_of_usable hS h.usable_nil).of_node hg.nil).1, hkey]
      have hpos := Shape.size_pos (g₀.shapeOf r)
      simp only [Node.shape, Shape.size]
      omega
    obtain ⟨dropped, hjoined⟩ := h.joined hS husablea husableb hitems hbuilds hnests
    have hclosed := hg.closed_lt.congr hext.2
    have hsame : ∀ k, Usable g₀ S key g k → g'.shapeOf k = g.shapeOf k := fun k hk =>
      ((h.hasShape_of_usable hS hk).congr hg.closed_lt hext.2 hk.mem.1).2
    have hlightens : ∀ y k, Usable g₀ S key g k → Lightens g₀ g y k → Lightens g₀ g' y k :=
      fun y k hk hlightens =>
        hlightens.congr (h.hasShape_of_usable hS hk) hg.closed_lt hext.2 hk.mem.1
    have hback : ∀ k, Usable g₀ S key g k → g'.AllNodes (fun k n => n.Rests g' k) k →
        g.AllNodes (fun k n => n.Rests g k) k := fun k hk hrests =>
      hrests.congr hclosed (fun k hk => (hext.2 k hk).symm) hk.mem.1 fun _ _ _ hc hn =>
        hn.congr hclosed (fun k hk => (hext.2 k hk).symm) hc
    have hr : g'.shapeOf r = g₀.shapeOf r :=
      (hsame r (h.closed_usable.of_reaches (h.usable_operand hleft) hla.reaches)).trans
        (h.shapeOf_eq hS hr).2
    refine .of_joined hjoined hnests.stored hkey hr (hlightens r a husablea hlightensa)
      (hlightens r' b husableb hlightensb) ?_
    rintro hitems' rfl rfl hnot hra hrb
    rw [branches_congr hg.closed_lt hext.2 husableb.mem.1] at hitems'
    have hspread := Simplify.spread_of_joined hg (fun k hk => h.ready_of_usable (LightInv.tames hS)
      (Simplify.closed_joined h.closed_usable husablea husableb hitems k hk)) hitems
    exact hrest ⟨rfl, rfl, h.rests_alt hS hla hlb (hsame a husablea ▸ hnot) (hitems' ▸ hspread)
      (hback a husablea hra) (hback b husableb hrb)⟩

/-- Every rule of simplification comes to a result that is lighter, or gives its node back, if the
answers for the operands are such. -/
theorem ensures (h : Lightening g₀ S key p n g₁ m g) (hS : ∀ k ∈ S, g₀.Tame k) (hfuel : 0 < fuel) :
    Comes g₀ S key (Simplify.ofNode fuel key n g) m := by
  by_cases hn : Simplify.IsAlternative n
  · obtain ⟨left, right, rfl⟩ := hn
    refine h.ensures_answer (by simp [Node.children]) fun a m₁ g₁ h₁ _ ha => ?_
    refine h₁.ensures_answer (by simp [Node.children]) fun b m₂ g₂ h₂ hframe hb => ?_
    exact ensures_alternatives h₂ hS (ha.frame hframe) hb
  · refine (h.ensures_reduced (LightInv.tames hS) hn hfuel).mono ?_
    rintro v m' g' - ⟨g, o, h', ho, hr⟩
    exact post_reduced h' hS hn ho hr

end Lightening

/-! ## The whole simplification -/

theorem upholds_light (hS : g₀.Part S) (htame : ∀ k ∈ S, g₀.Tame k) (hfuel : 0 < fuel) :
    Upholds g₀ S id (Simplify.rule fuel) (LightInv g₀ S)
      (fun _ g key v => SimplifyResult False g₀ g key v ∧ Lightens g₀ g key v) True
      fun _ => True := by
  -- That results are firm, and what words they match, has been shown for any expression.
  have hwords : Upholds g₀ S id (Simplify.rule fuel) (SimplifyInv False False g₀ S)
      (fun _ g key v => SimplifyResult False g₀ g key v) True _ :=
    upholds_simplify hS (hS.tameComplements htame)
  refine ⟨fun m m' g hfinished hunderway h => ?_, fun key m g hasks hfresh => ?_,
    fun key p n m g h => ?_, fun key p v m g hw hinv hp hv hresult _ => ?_⟩
  · exact ⟨hwords.congr m m' g hfinished hunderway h.words, h.bottomUp,
      fun y v hv => h.lightens y v ((hfinished y v).1 hv)⟩
  · obtain ⟨hkey, hnode, hw, hinv, hothers⟩ := hasks
    exact ⟨hwords.start key m g ⟨hkey, hnode, hw, hinv.words, hothers⟩ hfresh,
      hinv.bottomUp.alloc (by simp),
      fun y v hv => hinv.extend hw hS htame ((Memory.finished_start hfresh).1 hv) extends_alloc⟩
  · have hrule : Lightening.Comes g₀ S key (Simplify.rule fuel key g) m :=
      h.ensures_node (Lightening.ensures h htame hfuel)
    refine ((hwords.rule key p n m g (h.simplifying h.inv.words)).and hrule ?_).mono ?_
    · rintro key m g v m' g' ⟨hsince, hw, hinv, hanswer⟩
      exact ⟨hsince, hw, hinv.words, hanswer⟩
    · rintro v m' g' - ⟨⟨hsince, hw, hinv, hv, hresult⟩, hbottom, hfinished, hlightens⟩
      exact ⟨hsince, hw, ⟨hinv, hbottom, hfinished⟩, hv, hresult, hlightens⟩
  · have hw' := hw.settle hp hv
    refine ⟨hinv.words.settle hw hS hp hv hresult.1 False.elim False.elim,
      fun k n hs => hinv.bottomUp k n (hw.node_of_redirect hp hs), fun y a hy => ?_⟩
    obtain ⟨hlightens, hfirm, hshape⟩ :
        Lightens g₀ g y a ∧ g.Firm g₀.size a ∧ g.HasShape a := by
      rcases Memory.finished_finish_iff.1 hy with ⟨rfl, rfl⟩ | ⟨-, hy⟩
      · have hfirm := hresult.1.firm (htame y (hw.asked y p hp.holds).1)
        exact ⟨hresult.2, hfirm, hfirm.tame.hasShape hw.wellFormed (hw.ready_of_firm hS hv hfirm)⟩
      · exact ⟨hinv.lightens y a hy, hinv.firm_hasShape hw hS htame hy⟩
    refine hlightens.congr hshape (Firm.closed g₀.size g) (Firm.slot?_eq (fun k hlt => ?_) ?_) hfirm
    · rw [hw'.kept.2 k hlt, hw.kept.2 k hlt]
    · exact .of_redirect (hw.placeholder key p hp).2

/-- What simplification leaves of an expression from which no cycle can be reached, where `r` is the
node that the expression leads to. -/
structure LeavesLighter (g₀ : Graph) (r : Handle) (g : Graph) (s : Handle) : Prop where
  kept : g.Extends g₀
  bottomUp : g.BottomUp
  workable : g.Workable s
  tame : g.Tame s
  shape : g.HasShape s
  lightens : Lightens g₀ g r s

/-- The simplified form of an expression from which no cycle can be reached is lighter, or it is the
node that the expression leads to, and rests. -/
theorem Graph.Workable.lightens {h s : Handle} (hh : g.Workable h) (htame : g.Tame h)
    (hbottom : g.BottomUp) (hl : g.Leads h r) (hfuel : 0 < fuel)
    (hs : g.simplify fuel h = some (s, g')) : LeavesLighter g r g' s := by
  have hU := upholds_light hh.part (htame.scope hh.wellFormed) hfuel
  have hinit : LightInv g (g.scope h) .empty g :=
    ⟨.initial hh.part hh.tameComplements, hbottom, fun y v hv => by
      simp [Memory.Finished, Memory.empty] at hv⟩
  obtain ⟨m, hw, hinv, hv, -⟩ := apply_upholds hU hh.part (fun _ hy => hy) hinit (.inl .refl) hl
    (fun _ _ => trivial) hs
  have hmem := (hw.asked r s hv.holds).2
  obtain ⟨hfirm, hshape⟩ := hinv.firm_hasShape hw hh.part (htame.scope hh.wellFormed) hv
  exact ⟨hw.kept, hinv.bottomUp,
    ⟨hw.wellFormed, hmem.1, hw.ready_of_firm hh.part hmem hfirm, hfirm.tame.complementsTame⟩,
    hfirm.tame, hshape, hinv.lightens r s hv⟩

end Lightening

end DerivativeParsing
