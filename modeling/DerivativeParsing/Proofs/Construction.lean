import DerivativeParsing.Proofs.RuleTable
import DerivativeParsing.Proofs.DerivativeChains
import DerivativeParsing.Proofs.Releasing

/-!
# Building a grammar call by call

A grammar is built by calls that make expressions, refer to rules and define them, in any order, and
derivatives may be taken in between (`Call`).  Some calls fail.  What the calls rely on is that
every chain of forwards has an end: `define` only guards against a rule whose body is the rule
itself, and a derivative may leave chains of placeholders.

`Plain` is what every call preserves: no chain is circular, nothing is suspended, and a rule of the
table has an open slot or a forward.  Given that, a definition that fails changes nothing at all
(`Plain.run_define`), and a body that is accepted never leads back to its rule.
-/

set_option autoImplicit false

namespace DerivativeParsing

open DerivativeParsing.Graph

/-- A forward out of an open slot closes no circle if its target does not lead back to the slot. -/
theorem Graph.ChainsEnd.setForward {g : Graph} {h t r : Handle} {name : String}
    (hchains : g.ChainsEnd) (hs : g.slot? h = some (.undefined name)) (hl : g.Leads t r)
    (hne : r ≠ h) : (g.setForward h t).ChainsEnd := by
  have hself : (g.setForward h t).slot? h = some (.forward t) := slot?_setForward_self (slot?_lt hs)
  -- A chain that ended elsewhere does not come through `h`, which was the end of its chain.
  have hother {k e : Handle} (hk : g.Leads k e) (he : e ≠ h) : (g.setForward h t).Leads k e := by
    induction hk with
    | here hend =>
        refine .here fun t' ht' => hend t' ?_
        rwa [slot?_setForward_of_ne he] at ht'
    | @step k t' e hs' _ ih =>
        have hkh : k ≠ h := fun hkh => by
          rw [hkh, hs] at hs'
          cases hs'
        exact .step ((slot?_setForward_of_ne hkh).trans hs') (ih he)
  have hthrough {k e : Handle} (hk : g.Leads k e) (he : e = h) : (g.setForward h t).Leads k r := by
    induction hk with
    | here =>
        rw [he]
        exact .step hself (hother hl hne)
    | @step k t' e hs' _ ih =>
        have hkh : k ≠ h := fun hkh => by
          rw [hkh, hs] at hs'
          cases hs'
        exact .step ((slot?_setForward_of_ne hkh).trans hs') (ih he)
  intro k hk
  obtain ⟨e, he⟩ := hchains k (by simpa using hk)
  by_cases heh : e = h
  · exact ⟨r, hthrough he heh⟩
  · exact ⟨e, hother he heh⟩

namespace Grammar

/-! ## Calls -/

/-- A call that makes an expression or refers to a rule. -/
inductive Constructor where
  | char (c : Char)
  | range (first last : Char)
  | token (text : String)
  | lit (text : String)
  | alternatives (ps : List Operand)
  | sequence (ps : List Operand)
  | star (p : Operand)
  | rep (p : Operand) (count : Count)
  | not (p : Operand)
  | plus (p : Operand)
  | reduction (p : Operand) (reducer : Reducer)
  | nullability (p : Operand)
  | emptyReduction (trees : List Tree)
  | rule (name : String)

namespace Constructor

/-- The operands of a call. -/
def operands : Constructor → List Operand
  | .alternatives ps | .sequence ps => ps
  | .star p | .rep p _ | .not p | .plus p | .reduction p _ | .nullability p => [p]
  | _ => []

/-- What a call does. -/
def perform : Constructor → GrammarM Handle
  | .char c => Grammar.char c
  | .range first last => Grammar.range first last
  | .token text => Grammar.token text
  | .lit text => Grammar.lit text
  | .alternatives ps => Grammar.alternatives ps
  | .sequence ps => Grammar.sequence ps
  | .star p => unary .star p
  | .rep p count => unary (.rep · count) p
  | .not p => unary .not p
  | .plus p => Grammar.plus p
  | .reduction p reducer => unary (.reduction · reducer) p
  | .nullability p => unary .nullability p
  | .emptyReduction trees => make (.emptyReduction (Forest.ofList trees))
  | .rule name => Grammar.rule name

end Constructor

/-- A call on a grammar that is being built. -/
inductive Call where
  | construct (k : Constructor)
  | define (name : String) (body : Operand)
  | derivative (h : Handle) (c : Char)

namespace Call

/-- What a call does. -/
def perform : Call → GrammarM Handle
  | .construct k => k.perform
  | .define name body => Grammar.define name body
  | .derivative h c => Grammar.derivative h c

/-- The operands of a call are texts and expressions of the grammar. -/
def Fits (g : Grammar) : Call → Prop
  | .construct k => ∀ o ∈ k.operands, HasOperand o g
  | .define _ body => HasOperand body g
  | .derivative h _ => g.Has h

end Call

/-- A call has led from one grammar to the next, whether it has succeeded or failed. -/
def Step (g g' : Grammar) : Prop := ∃ call : Call, call.Fits g ∧ g' = (call.perform.run.run g).2

/-- A grammar has become another one by any number of calls. -/
def Later : Grammar → Grammar → Prop := Relation.ReflTransGen Step

/-- A grammar that has been built from nothing. -/
def Constructed (g : Grammar) : Prop := Later initial g

/-! ## What making expressions changes -/

/-- Nodes and open rules have been added, the rules with new entries at the end of the table. -/
structure Enlarges (g g' : Grammar) : Prop where
  kept : g'.graph.Extends g.graph
  new : ∀ h : Handle, g.graph.size ≤ h.index → h.index < g'.graph.size →
    (∃ n, g'.graph.slot? h = some (.node n)) ∨ ∃ name, g'.graph.slot? h = some (.undefined name)
  rules : g.rules <+: g'.rules
  entries : ∀ entry ∈ g'.rules, entry ∈ g.rules ∨
    ∃ name, g'.graph.slot? entry.2 = some (.undefined name)

variable {g g' g₁ g₂ : Grammar} {name : String} {body : Operand} {h t r : Handle}

namespace Enlarges

theorem refl (g : Grammar) : Enlarges g g where
  kept := .refl _
  new _ hle hlt := absurd hlt (Nat.not_lt.2 hle)
  rules := List.prefix_rfl
  entries _ := .inl

theorem trans (h : Enlarges g g₁) (h' : Enlarges g₁ g₂) : Enlarges g g₂ where
  kept := h'.kept.trans h.kept
  new k hle hlt := by
    by_cases hk : k.index < g₁.graph.size
    · rw [h'.kept.2 k hk]
      exact h.new k hle hk
    · exact h'.new k (Nat.not_lt.1 hk) hlt
  rules := h.rules.trans h'.rules
  entries entry he := by
    rcases h'.entries entry he with he | he
    · rcases h.entries entry he with he | ⟨name, hs⟩
      · exact .inl he
      · exact .inr ⟨name, (h'.kept.2 _ (slot?_lt hs)).trans hs⟩
    · exact .inr he

instance : Course Enlarges := ⟨refl, trans⟩

/-- Taking a slot for a node or an open rule. -/
theorem alloc {s : Slot} {rest : List (String × Handle)}
    (hs : (∃ n, s = .node n) ∨ ∃ name, s = .undefined name)
    (hrest : ∀ entry ∈ rest, entry.2 = ⟨g.graph.size⟩ ∧ ∃ name, s = .undefined name) :
    Enlarges g { g with graph := (g.graph.alloc s).2, rules := g.rules ++ rest } where
  kept := extends_alloc
  new h hle hlt := by
    have hh : h.index = g.graph.size := by
      rw [size_alloc] at hlt
      omega
    simpa [slot?_alloc, hh] using hs
  rules := List.prefix_append ..
  entries entry he := by
    rcases List.mem_append.1 he with he | he
    · exact .inl he
    · obtain ⟨hslot, name, rfl⟩ := hrest entry he
      exact .inr ⟨name, hslot ▸ slot?_alloc_new⟩

end Enlarges

theorem moves_make (n : Node) : Moves Enlarges (make n) := by
  intro g
  show Enlarges g { g with graph := (g.graph.make n).2 }
  rcases g.graph.make_cases n with ⟨h, he, -⟩ | he <;> rw [he]
  · exact .refl g
  · have halloc : Enlarges g { g with graph := (g.graph.alloc (.node n)).2, rules := g.rules ++ [] } :=
      .alloc (.inl ⟨n, rfl⟩) (by simp)
    rwa [List.append_nil] at halloc

theorem moves_rule (name : String) : Moves Enlarges (rule name) := by
  intro g
  rcases hlookup : g.rules.lookup name with _ | h
  · rw [run_rule_of_new hlookup]
    exact .alloc (.inr ⟨name, rfl⟩) (by simp)
  · rw [run_rule_of_lookup hlookup]
    exact .refl g

/-- Making an expression makes nodes and looks rules up. -/
theorem moves_perform {R : Grammar → Grammar → Prop} [Course R] (hmake : ∀ n, Moves R (make n))
    (hrule : ∀ name, Moves R (rule name)) (k : Constructor) : Moves R k.perform := by
  cases k with
  | char c => exact hmake _
  | range first last => exact moves_range hmake first last
  | token text => exact moves_token hmake text
  | lit text => exact hmake _
  | alternatives ps => exact moves_alternatives hmake ps
  | sequence ps => exact moves_sequence hmake ps
  | star p => exact moves_unary hmake _ p
  | rep p count => exact moves_unary hmake _ p
  | not p => exact moves_unary hmake _ p
  | plus p => exact moves_plus hmake p
  | reduction p reducer => exact moves_unary hmake _ p
  | nullability p => exact moves_unary hmake _ p
  | emptyReduction trees => exact hmake _
  | rule name => exact hrule name

/-- Making an expression adds nodes and open rules. -/
theorem moves_construct (k : Constructor) : Moves Enlarges k.perform :=
  moves_perform moves_make moves_rule k

/-- Making an expression of expressions of the grammar is sound. -/
theorem WellFormed.construct {Rel : Graph → Graph → Prop} [Graph.Adds Rel] (hg : g.WellFormed)
    {k : Constructor} (hk : ∀ o ∈ k.operands, HasOperand o g) : Sound Rel k.perform Has g := by
  have hoperand {p : Operand} (hp : k.operands = [p]) : HasOperand p g := hk p (by simp [hp])
  cases k with
  | char c => exact hg.char c
  | range first last => exact hg.range first last
  | token text => exact hg.token text
  | lit text => exact hg.lit text
  | alternatives ps => exact hg.alternatives hk
  | sequence ps => exact hg.sequence hk
  | star p => exact hg.unary (fun _ => rfl) (hoperand rfl)
  | rep p count => exact hg.unary (fun _ => rfl) (hoperand rfl)
  | not p => exact hg.unary (fun _ => rfl) (hoperand rfl)
  | plus p => exact hg.plus (hoperand rfl)
  | reduction p reducer => exact hg.unary (fun _ => rfl) (hoperand rfl)
  | nullability p => exact hg.unary (fun _ => rfl) (hoperand rfl)
  | emptyReduction trees => exact hg.make (by simp [Node.children]) (by simp)
  | rule name => exact hg.rule name

/-! ## The invariant -/

/-- What holds of a grammar that is built call by call. -/
structure Plain (g : Grammar) : Prop where
  wellFormed : g.WellFormed
  chains : g.graph.ChainsEnd
  unsuspended : ∀ h body, g.graph.slot? h ≠ some (.suspended body)
  entries : ∀ entry ∈ g.rules, (∃ name, g.graph.slot? entry.2 = some (.undefined name)) ∨
    ∃ t, g.graph.slot? entry.2 = some (.forward t)

theorem plain_initial : Plain initial where
  wellFormed := wellFormed_initial
  chains := by
    rintro ⟨i⟩ hi
    refine ⟨⟨i⟩, .here fun t ht => ?_⟩
    rcases i with _ | _ | _ | i <;> cases ht
  unsuspended := by
    rintro ⟨i⟩ body hs
    rcases i with _ | _ | _ | i <;> cases hs
  entries entry he := by cases he

/-- Nothing happens to a grammar in which nothing is suspended. -/
def Rests (g g' : Grammar) : Prop := (∀ h body, g.graph.slot? h ≠ some (.suspended body)) → g' = g

instance : Course Rests where
  refl _ _ := rfl
  trans h h' hg := by
    obtain rfl := h hg
    exact h' hg

theorem rests_traceWithin (steps : Nat) (passed : List Handle) (h : Handle) :
    Moves Rests (traceWithin steps passed h) := by
  induction steps generalizing passed h with
  | zero => exact .throw _
  | succ steps ih =>
      unfold traceWithin
      refine .ite (.pure _) (.get_bind fun g hg => ?_)
      split
      · exact ih _ _ g hg
      · next body hs => exact absurd hs (hg h body)
      · rfl
      · rfl

/-- Where there is no answer, the graph is not changed. -/
theorem run_onGraph?_none {α : Type} {f : Graph → Option (α × Graph)} (hf : f g.graph = none) :
    (onGraph? f).run.run g = (.error .exhausted, g) := by
  unfold onGraph?
  rw [run_bind, run_get]
  dsimp only
  rw [hf]
  rfl

namespace Plain

/-- Preparing an expression of a plain grammar changes nothing. -/
theorem run_prepare (hg : Plain g) (root : Handle) : ((prepare root).run.run g).2 = g :=
  moves_prepare rests_traceWithin root g hg.unsuspended

theorem leads (hg : Plain g) (hh : g.Has h) : ∃ r, g.graph.Leads h r ∧ g.graph.resolve h = some r := by
  obtain ⟨r, hl⟩ := hg.chains h hh
  exact ⟨r, hl, resolve_eq_some.2 hl⟩

/-- The end of a chain is a node or a rule without a body. -/
theorem resolves (hg : Plain g) (hh : g.Has h) : ∃ r, g.graph.resolve h = some r ∧
    ((∃ n, g.graph.slot? r = some (.node n)) ∨
      ∃ name, g.graph.slot? r = some (.undefined name)) := by
  obtain ⟨r, hl, hr⟩ := hg.leads hh
  have hlt : r.index < g.graph.size := hg.wellFormed.graph.lt_of_reaches hh hl.reaches
  refine ⟨r, hr, ?_⟩
  rcases hs : g.graph.slot? r with _ | (n | body | name | t)
  · exact absurd (slot?_eq_none.1 hs) (Nat.not_le.2 hlt)
  · exact .inl ⟨n, rfl⟩
  · exact absurd hs (hg.unsuspended r body)
  · exact .inr ⟨name, rfl⟩
  · exact absurd hs (hl.end_ne_forward t)

/-- Adding nodes and open rules keeps a grammar plain. -/
theorem enlarge (hg : Plain g) (hg' : g'.WellFormed) (h : Enlarges g g') : Plain g' where
  wellFormed := hg'
  chains k hk := by
    by_cases hlt : k.index < g.graph.size
    · obtain ⟨r, hl⟩ := hg.chains k hlt
      exact ⟨r, hl.congr hg.wellFormed.graph.closed_lt h.kept.2 hlt⟩
    · refine ⟨k, .here fun t ht => ?_⟩
      rcases h.new k (Nat.not_lt.1 hlt) hk with ⟨n, hs⟩ | ⟨name, hs⟩
      · rw [hs] at ht
        cases ht
      · rw [hs] at ht
        cases ht
  unsuspended k body hs := by
    by_cases hlt : k.index < g.graph.size
    · rw [h.kept.2 k hlt] at hs
      exact hg.unsuspended k body hs
    · rcases h.new k (Nat.not_lt.1 hlt) (slot?_lt hs) with ⟨n, hs'⟩ | ⟨name, hs'⟩
      · rw [hs] at hs'
        cases hs'
      · rw [hs] at hs'
        cases hs'
  entries entry he := by
    rcases h.entries entry he with he | hopen
    · rw [h.kept.2 entry.2 (hg.wellFormed.rules entry he)]
      exact hg.entries entry he
    · exact .inl hopen

theorem construct (hg : Plain g) {k : Constructor} (hk : ∀ o ∈ k.operands, HasOperand o g) :
    Plain (k.perform.run.run g).2 := by
  have hsound : Sound Graph.Prefix k.perform Has g := hg.wellFormed.construct hk
  exact hg.enlarge hsound.wellFormed (moves_construct k g)

/-- Taking a derivative adds nodes and forwards, or changes nothing if it fails. -/
theorem derivative (hg : Plain g) (hh : g.Has h) (c : Char) :
    Plain ((Grammar.derivative h c).run.run g).2 ∧
      ((Grammar.derivative h c).run.run g).2.rules = g.rules ∧
      ((Grammar.derivative h c).run.run g).2.graph.Extends g.graph := by
  have hsame := hg.run_prepare h
  have hsound := hg.wellFormed.prepare hh
  unfold Grammar.derivative
  rw [run_bind]
  rcases hprepare : (prepare h).run.run g with ⟨e | r, g₁⟩
  · rw [hprepare] at hsame
    obtain rfl : g₁ = g := hsame
    exact ⟨hg, rfl, .refl _⟩
  · rw [hprepare] at hsame
    obtain rfl : g₁ = g := hsame
    have hr : r.index < g₁.graph.size :=
      hg.wellFormed.graph.lt_of_reaches hh (hsound.result r g₁ hprepare).1.reaches
    dsimp only
    rcases hrun : g₁.graph.derivative c r with _ | ⟨v, graph⟩
    · rw [run_onGraph?_none hrun]
      exact ⟨hg, rfl, .refl _⟩
    · rw [run_onGraph? hrun]
      obtain ⟨hw, hkept, hchains, -, hnew⟩ :=
        derivative_chainsEnd hg.wellFormed.graph hg.chains hr hrun
      refine ⟨⟨hg.wellFormed.withGraph hw hkept.1, hchains, fun k body hs => ?_, fun e he => ?_⟩,
        rfl, hkept⟩
      · by_cases hlt : k.index < g₁.graph.size
        · exact hg.unsuspended k body ((hkept.2 k hlt).symm.trans hs)
        · rcases hnew k (Nat.not_lt.1 hlt) (slot?_lt hs) with ⟨n, hs'⟩ | ⟨t, hs'⟩
          · cases hs'.symm.trans hs
          · cases hs'.symm.trans hs
      · show (∃ name, graph.slot? e.2 = _) ∨ ∃ t, graph.slot? e.2 = _
        rw [hkept.2 e.2 (hg.wellFormed.rules e he)]
        exact hg.entries e he

end Plain

/-! ## Definitions -/

/-- A handle is the expression that an operand becomes. -/
def Expresses : Operand → Handle → Grammar → Prop
  | .handle h, t, _ => t = h
  | .text text, t, g => g.graph.slot? t = some (.node (literalNode text.toList))

/-- An operand becomes an expression, for which nodes may be added. -/
theorem run_coerce (hg : g.graph.WellFormed) (o : Operand) :
    ∃ t g', (coerce o).run.run g = (.ok t, g') ∧ Expresses o t g' := by
  cases o with
  | handle h => exact ⟨h, g, rfl, rfl⟩
  | text text => exact ⟨_, _, rfl, hg.slot?_make⟩

/-- What a definition comes to: it fails and changes nothing, or the open slot of the rule becomes a
forward to the body. -/
inductive Defines (g : Grammar) (name : String) (body : Operand) :
    Except Failure Handle → Grammar → Prop where
  | duplicate {h t : Handle} (hlookup : g.rules.lookup name = some h)
      (hs : g.graph.slot? h = some (.forward t)) :
      Defines g name body (.error (.grammar (.duplicateRule name))) g
  | cyclic {h b : Handle} (hbody : body = .handle b) (hlookup : g.rules.lookup name = some h)
      (hresolve : g.graph.resolve b = some h) :
      Defines g name body (.error (.grammar (.cyclicRule name))) g
  | accepted {h t r : Handle} {g' : Grammar} {name' : String} (hg' : Plain g')
      (henlarges : Enlarges g g') (hlookup : g'.rules.lookup name = some h)
      (hopen : g'.graph.slot? h = some (.undefined name')) (ht : g'.Has t)
      (hexpresses : Expresses body t g') (hl : g'.graph.Leads t r) (hne : r ≠ h) :
      Defines g name body (.ok h) { g' with graph := g'.graph.setForward h t }

theorem mem_of_lookup {entries : List (String × Handle)} (h' : entries.lookup name = some h) :
    (name, h) ∈ entries := by
  obtain ⟨before, after, rfl, -⟩ := List.lookup_eq_some_iff.1 h'
  simp

namespace Plain

/-- The body of a new rule does not lead to the slot that the rule gets: the slot is new. -/
theorem lookup_of_leads {b : Handle} (hg : Plain g) (hb : g.Has b)
    (hrule : (rule name).run.run g = (.ok h, g₁)) (hl : g₁.graph.Leads b h) :
    g.rules.lookup name = some h ∧ g₁ = g := by
  rcases hlookup : g.rules.lookup name with _ | h'
  · have hkept : g₁.graph.Extends g.graph := by
      have := (moves_rule name g).kept
      rwa [hrule] at this
    rw [run_rule_of_new hlookup] at hrule
    cases hrule
    obtain ⟨r, hr⟩ := hg.chains b hb
    have hlt := hg.wellFormed.graph.lt_of_reaches hb hr.reaches
    have hr' := hr.congr hg.wellFormed.graph.closed_lt hkept.2 hb
    rw [hr'.unique hl] at hlt
    exact absurd hlt (Nat.lt_irrefl _)
  · rw [run_rule_of_lookup hlookup] at hrule
    cases hrule
    exact ⟨rfl, rfl⟩

theorem run_define {res : Except Failure Handle} (hg : Plain g) (hbody : HasOperand body g)
    (hrun : (define name body).run.run g = (res, g')) : Defines g name body res g' := by
  obtain ⟨h, g₁, hrule, hlookup⟩ := run_rule name g
  have henlarges₁ : Enlarges g g₁ := by
    have := moves_rule name g
    rwa [hrule] at this
  have hg₁ : Plain g₁ := by
    have := hg.construct (k := .rule name) (by simp [Constructor.operands])
    rwa [show (Constructor.rule name).perform = rule name from rfl, hrule] at this
  have hprefix : Graph.Prefix g.graph g₁.graph := henlarges₁.kept
  have hbody₁ : HasOperand body g₁ := hbody.change hprefix
  unfold define at hrun
  rw [run_bind, hrule] at hrun
  dsimp only at hrun
  rw [run_bind, run_get] at hrun
  dsimp only at hrun
  rcases hg₁.entries _ (mem_of_lookup hlookup) with ⟨name', hopen⟩ | ⟨t, hs⟩
  · have hisOpen : isOpen g₁.graph h = true := by simp [isOpen, hopen]
    rw [hisOpen] at hrun
    obtain ⟨t, g₂, hcoerce, hexpresses⟩ := run_coerce hg₁.wellFormed.graph body
    have henlarges₂ : Enlarges g₁ g₂ := by
      have := moves_coerce moves_make body g₁
      rwa [hcoerce] at this
    have hsound : Sound Graph.Prefix (coerce body) Has g₁ := hg₁.wellFormed.coerce hbody₁
    have ht : g₂.Has t := hsound.result t g₂ hcoerce
    have hg₂ : Plain g₂ := by
      have hw := hsound.wellFormed
      rw [hcoerce] at hw
      exact hg₁.enlarge hw henlarges₂
    have hopen₂ := (henlarges₂.kept.2 h (slot?_lt hopen)).trans hopen
    obtain ⟨r, hl, hresolve⟩ := hg₂.leads ht
    change (coerce body >>= _).run.run g₁ = (res, g') at hrun
    rw [run_bind, hcoerce] at hrun
    dsimp only at hrun
    rw [run_bind, run_get] at hrun
    dsimp only at hrun
    rw [hresolve] at hrun
    by_cases hr : r = h
    · subst hr
      cases body with
      | handle b =>
          cases hcoerce
          obtain ⟨hlookup', rfl⟩ := hg.lookup_of_leads hbody hrule hl
          simp only [BEq.rfl, if_true] at hrun
          cases hrun
          exact .cyclic rfl hlookup' (resolve_eq_some.2 hl)
      | text text =>
          -- A text becomes a node, and the slot of the rule is none.
          obtain rfl := hl.unique (.of_node hexpresses)
          cases hopen₂.symm.trans hexpresses
    · have hbeq : (some r == some h) = false := by simpa using hr
      rw [hbeq] at hrun
      cases hrun
      exact .accepted hg₂ (henlarges₁.trans henlarges₂)
        (lookup_lengthened henlarges₂.rules hlookup) hopen₂ ht hexpresses hl hr
  · have hisOpen : isOpen g₁.graph h = false := by simp [isOpen, hs]
    rw [hisOpen] at hrun
    cases hrun
    rcases hold : g.rules.lookup name with _ | h'
    · rw [run_rule_of_new hold] at hrule
      cases hrule
      cases slot?_alloc_new.symm.trans hs
    · rw [run_rule_of_lookup hold] at hrule
      cases hrule
      exact .duplicate hold hs

/-- The accepted body of a rule keeps the grammar plain. -/
theorem setForward (hg : Plain g) (hopen : g.graph.slot? h = some (.undefined name)) (ht : g.Has t)
    (hl : g.graph.Leads t r) (hne : r ≠ h) :
    Plain { g with graph := g.graph.setForward h t } where
  wellFormed :=
    { graph := hg.wellFormed.graph.setForward ht fun n => by simp [hopen]
      rules := fun e he => by simpa using hg.wellFormed.rules e he
      names := fun e he => by simpa using hg.wellFormed.names e he }
  chains := hg.chains.setForward hopen hl hne
  unsuspended k body hs := by
    by_cases hk : k = h
    · rw [hk, slot?_setForward_self (slot?_lt hopen)] at hs
      cases hs
    · rw [slot?_setForward_of_ne hk] at hs
      exact hg.unsuspended k body hs
  entries e he := by
    show (∃ name, (g.graph.setForward h t).slot? e.2 = _) ∨ ∃ t', (g.graph.setForward h t).slot? e.2 = _
    by_cases hk : e.2 = h
    · rw [hk]
      exact .inr ⟨t, slot?_setForward_self (slot?_lt hopen)⟩
    · rw [slot?_setForward_of_ne hk]
      exact hg.entries e he

/-! ## Every call -/

/-- A call keeps the grammar plain, the entries of the table, and the nodes and forwards. -/
theorem step (hg : Plain g) (h : Step g g') :
    Plain g' ∧ g.rules <+: g'.rules ∧ g.graph.Grows g'.graph := by
  obtain ⟨call, hfits, rfl⟩ := h
  cases call with
  | construct k =>
      have henlarges := moves_construct k g
      exact ⟨hg.construct hfits, henlarges.rules, .of_extends henlarges.kept⟩
  | define name body =>
      have hgrows := (hg.wellFormed.define name hfits).change
      have hrules := appends_define name body g
      refine ⟨?_, hrules, hgrows⟩
      show Plain ((Grammar.define name body).run.run g).2
      rcases hrun : (Grammar.define name body).run.run g with ⟨res, g'⟩
      cases hg.run_define hfits hrun with
      | duplicate => exact hg
      | cyclic => exact hg
      | accepted hg' _ _ hopen ht _ hl hne => exact hg'.setForward hopen ht hl hne
  | derivative h c =>
      obtain ⟨hplain, hrules, hkept⟩ := hg.derivative hfits c
      exact ⟨hplain, hrules.symm ▸ List.prefix_rfl, .of_extends hkept⟩

/-- So do any number of calls. -/
theorem later (hg : Plain g) (h : Later g g') :
    Plain g' ∧ g.rules <+: g'.rules ∧ g.graph.Grows g'.graph := by
  induction h with
  | refl => exact ⟨hg, List.prefix_rfl, .refl _⟩
  | tail _ hstep ih =>
      obtain ⟨hplain, hrules, hgrows⟩ := ih
      obtain ⟨hplain', hrules', hgrows'⟩ := hplain.step hstep
      exact ⟨hplain', hrules.trans hrules', hgrows.trans hgrows'⟩

/-- A rule with a body resolves as the body does, now and later. -/
theorem resolve_of_forward (hg : Plain g) (hs : g.graph.slot? h = some (.forward t)) :
    g.graph.resolve h = g.graph.resolve t := by
  obtain ⟨r, hl, hr⟩ := hg.leads (slot?_lt hs)
  rw [hr, resolve_eq_some.2 (hl.of_forward hs)]

/-! ## Rules -/

/-- A rule keeps its handle. -/
theorem rule_keeps (hg : Plain g) (hrun : (Grammar.rule name).run.run g = (.ok h, g₁))
    (hlater : Later g₁ g') : (Grammar.rule name).run.run g' = (.ok h, g') := by
  have hplain : Plain g₁ := by
    have := hg.construct (k := .rule name) (by simp [Constructor.operands])
    rwa [show (Constructor.rule name).perform = Grammar.rule name from rfl, hrun] at this
  exact run_rule_again hrun (hplain.later hlater).2.1

theorem isDefined_of_forward (hlookup : g.rules.lookup name = some h)
    (hs : g.graph.slot? h = some (.forward t)) : g.isDefined name = true := by
  simp [isDefined, isOpen, hlookup, hs]

/-- A rule that has been given a body keeps it. -/
theorem define_keeps (hg : Plain g) (hbody : HasOperand body g)
    (hrun : (Grammar.define name body).run.run g = (.ok h, g₁)) :
    ∃ t, Expresses body t g₁ ∧ ∀ g', Later g₁ g' →
      (Grammar.rule name).run.run g' = (.ok h, g') ∧ g'.isDefined name = true ∧
        g'.graph.slot? h = some (.forward t) ∧ g'.graph.resolve h = g'.graph.resolve t := by
  cases hg.run_define hbody hrun with
  | @accepted h t r g₂ name' hg₂ _ hlookup hopen ht hexpresses hl hne =>
      have hplain := hg₂.setForward hopen ht hl hne
      have hs : (g₂.graph.setForward h t).slot? h = some (.forward t) :=
        slot?_setForward_self (slot?_lt hopen)
      refine ⟨t, ?_, fun g' hlater => ?_⟩
      · cases body with
        | handle b => exact hexpresses
        | text text =>
            have hth : t ≠ h := fun he => by
              cases hopen.symm.trans (he ▸ hexpresses)
            exact (slot?_setForward_of_ne hth).trans hexpresses
      · obtain ⟨hplain', hrules, hgrows⟩ := hplain.later hlater
        have hs' := hgrows.forward h t hs
        have hlookup' := lookup_lengthened hrules hlookup
        exact ⟨run_rule_of_lookup hlookup', isDefined_of_forward hlookup' hs', hs',
          hplain'.resolve_of_forward hs'⟩

/-- A definition that fails changes nothing. -/
theorem define_fails {e : Failure} (hg : Plain g) (hbody : HasOperand body g)
    (hrun : (Grammar.define name body).run.run g = (.error e, g₁)) :
    g₁ = g ∧ (e = .grammar (.duplicateRule name) ∧ g.isDefined name = true ∨
      e = .grammar (.cyclicRule name) ∧ g.isDefined name = false) := by
  cases hg.run_define hbody hrun with
  | duplicate hlookup hs => exact ⟨rfl, .inl ⟨rfl, isDefined_of_forward hlookup hs⟩⟩
  | cyclic _ hlookup hresolve =>
      have hend := (resolve_eq_some.1 hresolve).end_ne_forward
      refine ⟨rfl, .inr ⟨rfl, ?_⟩⟩
      rcases hg.entries _ (mem_of_lookup hlookup) with ⟨name', hs⟩ | ⟨t, hs⟩
      · dsimp only at hs
        simp [isDefined, isOpen, hlookup, hs]
      · exact absurd hs (hend t)

/-- The body of a rule is refused as the rule itself just when it resolves to the rule. -/
theorem define_cyclic_iff (hg : Plain g) (hbody : HasOperand body g) :
    ((Grammar.define name body).run.run g).1 = .error (.grammar (.cyclicRule name)) ↔
      ∃ h b, g.rules.lookup name = some h ∧ body = .handle b ∧ g.graph.resolve b = some h := by
  rcases hrun : (Grammar.define name body).run.run g with ⟨res, g'⟩
  have hdefines := hg.run_define hbody hrun
  constructor
  · intro hfails
    cases hdefines with
    | duplicate => cases hfails
    | cyclic hbody' hlookup hresolve => exact ⟨_, _, hlookup, hbody', hresolve⟩
    | accepted => cases hfails
  · rintro ⟨h, b, hlookup, rfl, hresolve⟩
    have hl := resolve_eq_some.1 hresolve
    cases hdefines with
    | duplicate hlookup' hs =>
        obtain rfl := Option.some.inj (hlookup.symm.trans hlookup')
        exact absurd hs (hl.end_ne_forward _)
    | cyclic => rfl
    | accepted _ henlarges hlookup' _ _ hexpresses hl' hne =>
        have hlookup₂ := lookup_lengthened henlarges.rules hlookup
        obtain rfl := Option.some.inj (hlookup₂.symm.trans hlookup')
        obtain rfl := hexpresses
        have hl₂ := hl.congr hg.wellFormed.graph.closed_lt henlarges.kept.2 hbody
        exact absurd (hl'.unique hl₂) hne

end Plain

theorem Constructed.plain (hg : Constructed g) : Plain g := (plain_initial.later hg).1

/-- In a grammar that has been built by calls in any order, whether they succeeded or failed: every
handle resolves to a node or to a rule without a body; a rule keeps its handle; a rule that has been
given a body has this body ever after, and resolves as the body does; a definition that fails is
that of a defined rule or that of a rule as itself, and changes nothing; and a definition is taken
for that of a rule as itself exactly if the body resolves to the rule. -/
theorem constructed_keeps_rules (hg : Constructed g) :
    (∀ h, g.Has h → ∃ r, g.graph.resolve h = some r ∧
      ((∃ n, g.graph.slot? r = some (.node n)) ∨
        ∃ name, g.graph.slot? r = some (.undefined name))) ∧
    (∀ name, ∃ h g₁, (rule name).run.run g = (.ok h, g₁) ∧
      ∀ g', Later g₁ g' → (rule name).run.run g' = (.ok h, g')) ∧
    (∀ name body, HasOperand body g → ∀ h g₁, (define name body).run.run g = (.ok h, g₁) →
      ∃ t, Expresses body t g₁ ∧ ∀ g', Later g₁ g' →
        (rule name).run.run g' = (.ok h, g') ∧ g'.isDefined name = true ∧
          g'.graph.slot? h = some (.forward t) ∧ g'.graph.resolve h = g'.graph.resolve t) ∧
    (∀ name body, HasOperand body g → ∀ e g₁, (define name body).run.run g = (.error e, g₁) →
      g₁ = g ∧ (e = .grammar (.duplicateRule name) ∧ g.isDefined name = true ∨
        e = .grammar (.cyclicRule name) ∧ g.isDefined name = false)) ∧
    (∀ name body, HasOperand body g →
      (((define name body).run.run g).1 = .error (.grammar (.cyclicRule name)) ↔
        ∃ h b, g.rules.lookup name = some h ∧ body = .handle b ∧ g.graph.resolve b = some h)) := by
  have hplain := hg.plain
  refine ⟨fun h => hplain.resolves, fun name => ?_, fun name body hbody h g₁ => hplain.define_keeps hbody,
    fun name body hbody e g₁ => hplain.define_fails hbody, fun name body => hplain.define_cyclic_iff⟩
  obtain ⟨h, g₁, hrun, -⟩ := run_rule name g
  exact ⟨h, g₁, hrun, fun g' => hplain.rule_keeps hrun⟩

/-! ## A circle of aliases -/

namespace Aliases

/-- The grammar in which `r` is another name for `s`, and `s` has no body yet. -/
def grammar : Grammar :=
  ((define "r" (.handle ⟨3⟩)).run.run ((rule "s").run.run initial).2).2

/-- The handle of `r`. -/
def otherName : Handle := ⟨4⟩

theorem constructed_grammar : Constructed grammar := by
  have hrule : Step initial ((rule "s").run.run initial).2 :=
    ⟨.construct (.rule "s"), by simp [Call.Fits, Constructor.operands], rfl⟩
  have hdefine : Step ((rule "s").run.run initial).2 grammar :=
    ⟨.define "r" (.handle ⟨3⟩), (by decide : 3 < 4), rfl⟩
  exact (Relation.ReflTransGen.single hrule).tail hdefine

/-- With `r` for its body, `s` would be nothing but itself: the definition is refused, the grammar
is what it was, and `r` still leads to the open slot of `s`. -/
theorem constructed_keeps_rules_aliases :
    Constructed grammar ∧
      (define "s" (.handle otherName)).run.run grammar = (.error (.grammar (.cyclicRule "s")), grammar) ∧
      ∃ r, grammar.graph.resolve otherName = some r ∧ grammar.graph.slot? r = some (.undefined "s") := by
  have hother : grammar.Has otherName := (by decide : 4 < 5)
  have hresolve : grammar.graph.resolve otherName = some ⟨3⟩ := by decide
  obtain ⟨hends, -, -, hfails, hcyclic⟩ := constructed_keeps_rules constructed_grammar
  have herror : ((define "s" (.handle otherName)).run.run grammar).1 =
      .error (.grammar (.cyclicRule "s")) :=
    (hcyclic "s" (.handle otherName) hother).2 ⟨⟨3⟩, otherName, by decide, rfl, hresolve⟩
  refine ⟨constructed_grammar, ?_, ?_⟩
  · have hsame := (hfails "s" (.handle otherName) hother _ _ (Prod.ext herror rfl)).1
    exact Prod.ext herror hsame
  · obtain ⟨r, hr, -⟩ := hends otherName hother
    obtain rfl := Option.some.inj (hresolve.symm.trans hr)
    exact ⟨_, hresolve, rfl⟩

end Aliases

end Grammar

end DerivativeParsing
