import DerivativeParsing.Proofs.DeclaredWords

/-!
# Complements in declarations

If the operand of a complement reaches no recursive rule (`Declaration.Stratified`), no cycle of the
grammar that a declaration is carried out to passes through a complement.  For every cycle passes
through the slot of a rule, nodes being made after their operands (`Tidy.exists_rule`), and what an
expression reaches is made of what its term refers to (`Composed`).

So the strata of the expressions are the same from some stratum on, and those of the terms with
them: the languages of the rules are the least solution of their equations, complements being taken
of the final languages of their operands (`build_language`).
-/

set_option autoImplicit false

namespace DerivativeParsing.Notation

open Grammar DerivativeParsing.Graph

/-! ## What bodies refer to -/

mutual

/-- The rules that a term refers to. -/
def Term.references : Term → List String
  | .rule name => [name]
  | .any | .char _ | .range _ _ | .text _ => []
  | .group body => body.references
  | .star t | .plus t | .optional t | .rep t _ | .not t => t.references

/-- The rules that a branch refers to. -/
def Branch.references : Branch → List String
  | ⟨terms, _⟩ => referencesOfTerms terms

/-- The rules that a choice refers to. -/
def Alternatives.references : Alternatives → List String
  | ⟨first, rest⟩ => first.references ++ referencesOfBranches rest

/-- The rules that any of several terms refers to. -/
def referencesOfTerms : List Term → List String
  | [] => []
  | t :: ts => t.references ++ referencesOfTerms ts

/-- The rules that any of several branches refers to. -/
def referencesOfBranches : List Branch → List String
  | [] => []
  | b :: bs => b.references ++ referencesOfBranches bs

end

mutual

/-- The operands of the complements in a term, also of those inside of others. -/
def Term.complements : Term → List Term
  | .rule _ | .any | .char _ | .range _ _ | .text _ => []
  | .group body => body.complements
  | .star t | .plus t | .optional t | .rep t _ => t.complements
  | .not t => t :: t.complements

/-- The operands of the complements in a branch. -/
def Branch.complements : Branch → List Term
  | ⟨terms, _⟩ => complementsOfTerms terms

/-- The operands of the complements in a choice. -/
def Alternatives.complements : Alternatives → List Term
  | ⟨first, rest⟩ => first.complements ++ complementsOfBranches rest

/-- The operands of the complements in several terms. -/
def complementsOfTerms : List Term → List Term
  | [] => []
  | t :: ts => t.complements ++ complementsOfTerms ts

/-- The operands of the complements in several branches. -/
def complementsOfBranches : List Branch → List Term
  | [] => []
  | b :: bs => b.complements ++ complementsOfBranches bs

end

namespace Declaration

/-- The body of one rule refers to another. -/
def Calls (d : Declaration) (name name' : String) : Prop :=
  ∃ r ∈ d.rules, r.name = name ∧ name' ∈ r.body.references

/-- A rule refers to itself, perhaps through others. -/
def Recursive (d : Declaration) (name : String) : Prop := Relation.TransGen d.Calls name name

/-- The operand of no complement reaches a recursive rule. -/
def Stratified (d : Declaration) : Prop :=
  ∀ r ∈ d.rules, ∀ t ∈ r.body.complements, ∀ name ∈ t.references, ∀ name',
    Relation.ReflTransGen d.Calls name name' → ¬ d.Recursive name'

end Declaration

/-! ## What expressions are made of -/

/-- A handle is made by nodes from the slots of certain rules, and the operands of its complements
have a property. -/
inductive Composed (g : Grammar) (P : String → Prop) (N : Handle → Prop) : Handle → Prop where
  | rule {name : String} {h : Handle} (hlookup : g.rules.lookup name = some h) (hname : P name) :
      Composed g P N h
  | node {h : Handle} {n : Node} (hs : g.graph.slot? h = some (.node n))
      (hchildren : ∀ k ∈ n.children, Composed g P N k) (hnot : ∀ p, n = .not p → N p) :
      Composed g P N h

section Composed

variable {g : Grammar} {P : String → Prop} {N : Handle → Prop} {acc h k s : Handle}
  {ks : List Handle}

theorem Joined.composed {join : Handle → Handle → Node} (hjoin : ∀ a b, (join a b).children = [a, b])
    (hnot : ∀ a b p, join a b ≠ .not p) (hj : Joined g.graph join acc ks h)
    (hacc : Composed g P N acc) (hks : ∀ k ∈ ks, Composed g P N k) : Composed g P N h := by
  induction ks generalizing acc with
  | nil =>
      obtain rfl : h = acc := hj
      exact hacc
  | cons k ks ih =>
      obtain ⟨a, hs, hrest⟩ := hj
      obtain ⟨hk, hks⟩ := List.forall_mem_cons.1 hks
      refine ih hrest (.node hs ?_ fun p hp => absurd hp (hnot acc k p)) hks
      simpa [hjoin] using ⟨hacc, hk⟩

theorem Flattened.composed {parts : Nat} (hf : Flattened g.graph parts s h)
    (hs : Composed g P N s) : Composed g P N h := by
  unfold Flattened at hf
  split at hf
  · exact .node hf (by simpa [Node.children] using hs) (by simp)
  · rwa [hf]

theorem Sequenced.composed (hg : g.WellFormed) (hs : Sequenced g.graph ks h)
    (hks : ∀ k ∈ ks, Composed g P N k) : Composed g P N h := by
  cases ks with
  | nil =>
      obtain rfl : h = .empty := hs
      exact .node hg.graph.empty (by simp [Node.children]) (by simp)
  | cons k ks =>
      obtain ⟨s, hj, hflat⟩ := hs
      obtain ⟨hk, hks⟩ := List.forall_mem_cons.1 hks
      exact hflat.composed (hj.composed (fun _ _ => rfl) (by simp) hk hks)

theorem Reduced.composed {reducer : Option Path} (hr : Reduced g.graph reducer k h)
    (hk : Composed g P N k) : Composed g P N h := by
  cases reducer with
  | none =>
      obtain rfl : h = k := hr
      exact hk
  | some path =>
      obtain ⟨f, -, hs⟩ := hr
      exact .node hs (by simpa [Node.children] using hk) (by simp)

mutual

/-- The expression of a term is made of the rules that the term refers to. -/
theorem Term.Builds.composed {t : Term} {h : Handle} (hg : g.WellFormed) (hb : t.Builds g h)
    (hP : ∀ name ∈ t.references, P name) (hN : ∀ t' ∈ t.complements, ∀ k, t'.Builds g k → N k) :
    Composed g P N h := by
  cases t with
  | rule name => exact .rule hb (hP name List.mem_cons_self)
  | any =>
      obtain rfl : h = .any := hb
      exact .node hg.graph.any (by simp [Node.children]) (by simp)
  | char c => exact .node hb (by simp [Node.children]) (by simp)
  | range first last =>
      refine .node hb ?_ ?_ <;> unfold rangeNode <;> split <;> simp [Node.children]
  | text text =>
      refine .node hb (by simp [WellFormed.children_literalNode]) fun p hp => ?_
      unfold literalNode at hp
      split at hp <;> cases hp
  | group body => exact Alternatives.Builds.composed hg hb hP hN
  | star t =>
      obtain ⟨k, hk, hs⟩ := hb
      have hcomposed := Term.Builds.composed hg hk hP hN
      exact .node hs (by simpa [Node.children] using hcomposed) (by simp)
  | plus t =>
      obtain ⟨k, s, hk, hstar, hs⟩ := hb
      have hcomposed := Term.Builds.composed hg hk hP hN
      have hrest : Composed g P N s :=
        .node hstar (by simpa [Node.children] using hcomposed) (by simp)
      exact .node hs (by simpa [Node.children] using ⟨hcomposed, hrest⟩) (by simp)
  | optional t =>
      obtain ⟨k, hk, hs⟩ := hb
      have hcomposed := Term.Builds.composed hg hk hP hN
      have hempty : Composed g P N .empty :=
        .node hg.graph.empty (by simp [Node.children]) (by simp)
      exact .node hs (by simpa [Node.children] using ⟨hcomposed, hempty⟩) (by simp)
  | rep t n =>
      obtain ⟨k, hk, hs⟩ := hb
      have hcomposed := Term.Builds.composed hg hk hP hN
      exact .node hs (by simpa [Node.children] using hcomposed) (by simp)
  | not t =>
      obtain ⟨k, hk, hs⟩ := hb
      obtain ⟨ht, hN⟩ := List.forall_mem_cons.1 hN
      have hcomposed := Term.Builds.composed hg hk hP hN
      refine .node hs (by simpa [Node.children] using hcomposed) fun p hp => ?_
      exact Node.not.inj hp ▸ ht k hk

theorem Branch.Builds.composed {b : Branch} {h : Handle} (hg : g.WellFormed) (hb : b.Builds g h)
    (hP : ∀ name ∈ b.references, P name) (hN : ∀ t' ∈ b.complements, ∀ k, t'.Builds g k → N k) :
    Composed g P N h := by
  obtain ⟨terms, reducer⟩ := b
  obtain ⟨ks, k, hks, hs, hr⟩ := hb
  exact hr.composed (hs.composed hg (BuildsTerms.composed hg hks hP hN))

theorem Alternatives.Builds.composed {body : Alternatives} {h : Handle} (hg : g.WellFormed)
    (hb : body.Builds g h) (hP : ∀ name ∈ body.references, P name)
    (hN : ∀ t' ∈ body.complements, ∀ k, t'.Builds g k → N k) : Composed g P N h := by
  obtain ⟨first, rest⟩ := body
  obtain ⟨k, ks, hk, hks, hj⟩ := hb
  obtain ⟨hPfirst, hPrest⟩ := List.forall_mem_append.1 hP
  obtain ⟨hNfirst, hNrest⟩ := List.forall_mem_append.1 hN
  exact hj.composed (fun _ _ => rfl) (by simp) (Branch.Builds.composed hg hk hPfirst hNfirst)
    (BuildsBranches.composed hg hks hPrest hNrest)

theorem BuildsTerms.composed {ts : List Term} {hs : List Handle} (hg : g.WellFormed)
    (hb : BuildsTerms g ts hs) (hP : ∀ name ∈ referencesOfTerms ts, P name)
    (hN : ∀ t' ∈ complementsOfTerms ts, ∀ k, t'.Builds g k → N k) : ∀ h ∈ hs, Composed g P N h := by
  cases ts with
  | nil =>
      obtain rfl : hs = [] := hb
      simp
  | cons t ts =>
      obtain ⟨k, ks, rfl, hk, hks⟩ := hb
      obtain ⟨hPt, hPts⟩ := List.forall_mem_append.1 hP
      obtain ⟨hNt, hNts⟩ := List.forall_mem_append.1 hN
      exact List.forall_mem_cons.2 ⟨Term.Builds.composed hg hk hPt hNt,
        BuildsTerms.composed hg hks hPts hNts⟩

theorem BuildsBranches.composed {bs : List Branch} {hs : List Handle} (hg : g.WellFormed)
    (hb : BuildsBranches g bs hs) (hP : ∀ name ∈ referencesOfBranches bs, P name)
    (hN : ∀ t' ∈ complementsOfBranches bs, ∀ k, t'.Builds g k → N k) :
    ∀ h ∈ hs, Composed g P N h := by
  cases bs with
  | nil =>
      obtain rfl : hs = [] := hb
      simp
  | cons b bs =>
      obtain ⟨k, ks, rfl, hk, hks⟩ := hb
      obtain ⟨hPb, hPbs⟩ := List.forall_mem_append.1 hP
      obtain ⟨hNb, hNbs⟩ := List.forall_mem_append.1 hN
      exact List.forall_mem_cons.2 ⟨Branch.Builds.composed hg hk hPb hNb,
        BuildsBranches.composed hg hks hPbs hNbs⟩

end

end Composed

/-! ## Operands of complements -/

mutual

/-- The operands of the complements in such an operand are among those of the whole term. -/
theorem Term.complements_trans {t t' t'' : Term} (ht' : t' ∈ t.complements)
    (ht'' : t'' ∈ t'.complements) : t'' ∈ t.complements := by
  cases t with
  | group body =>
      change t' ∈ body.complements at ht'
      exact Alternatives.complements_trans ht' ht''
  | star t => exact Term.complements_trans (t := t) ht' ht''
  | plus t => exact Term.complements_trans (t := t) ht' ht''
  | optional t => exact Term.complements_trans (t := t) ht' ht''
  | rep t n => exact Term.complements_trans (t := t) ht' ht''
  | not t =>
      rcases List.mem_cons.1 ht' with rfl | ht'
      · exact List.mem_cons_of_mem _ ht''
      · exact List.mem_cons_of_mem _ (Term.complements_trans ht' ht'')
  | rule _ | any | char _ | range _ _ | text _ => cases ht'

theorem Branch.complements_trans {b : Branch} {t' t'' : Term} (ht' : t' ∈ b.complements)
    (ht'' : t'' ∈ t'.complements) : t'' ∈ b.complements := by
  obtain ⟨terms, reducer⟩ := b
  exact complementsOfTerms_trans ht' ht''

theorem Alternatives.complements_trans {body : Alternatives} {t' t'' : Term}
    (ht' : t' ∈ body.complements) (ht'' : t'' ∈ t'.complements) : t'' ∈ body.complements := by
  obtain ⟨first, rest⟩ := body
  rcases List.mem_append.1 ht' with ht' | ht'
  · exact List.mem_append_left _ (Branch.complements_trans ht' ht'')
  · exact List.mem_append_right _ (complementsOfBranches_trans ht' ht'')

theorem complementsOfTerms_trans {ts : List Term} {t' t'' : Term}
    (ht' : t' ∈ complementsOfTerms ts) (ht'' : t'' ∈ t'.complements) :
    t'' ∈ complementsOfTerms ts := by
  cases ts with
  | nil => cases ht'
  | cons t ts =>
      rcases List.mem_append.1 ht' with ht' | ht'
      · exact List.mem_append_left _ (Term.complements_trans ht' ht'')
      · exact List.mem_append_right _ (complementsOfTerms_trans ht' ht'')

theorem complementsOfBranches_trans {bs : List Branch} {t' t'' : Term}
    (ht' : t' ∈ complementsOfBranches bs) (ht'' : t'' ∈ t'.complements) :
    t'' ∈ complementsOfBranches bs := by
  cases bs with
  | nil => cases ht'
  | cons b bs =>
      rcases List.mem_append.1 ht' with ht' | ht'
      · exact List.mem_append_left _ (Branch.complements_trans ht' ht'')
      · exact List.mem_append_right _ (complementsOfBranches_trans ht' ht'')

end

section Operands

variable {g : Grammar} {D : Set Handle}

mutual

/-- A closed region with the expression of a term has those of the operands of its complements. -/
theorem Term.Builds.exists_operand {t t' : Term} {h : Handle} (hD : g.graph.Closed D)
    (hb : t.Builds g h) (hh : h ∈ D) (ht' : t' ∈ t.complements) : ∃ k ∈ D, t'.Builds g k := by
  cases t with
  | group body => exact Alternatives.Builds.exists_operand hD hb hh ht'
  | star t | optional t | rep t _ =>
      obtain ⟨k, hk, hs⟩ := hb
      exact Term.Builds.exists_operand hD hk (mem_of_closed hD hh hs (by simp [Node.children])) ht'
  | plus t =>
      obtain ⟨k, s, hk, -, hs⟩ := hb
      exact Term.Builds.exists_operand hD hk (mem_of_closed hD hh hs (by simp [Node.children])) ht'
  | not t =>
      obtain ⟨k, hk, hs⟩ := hb
      have hkD : k ∈ D := mem_of_closed hD hh hs (by simp [Node.children])
      rcases List.mem_cons.1 ht' with rfl | ht'
      · exact ⟨k, hkD, hk⟩
      · exact Term.Builds.exists_operand hD hk hkD ht'
  | rule _ | any | char _ | range _ _ | text _ => cases ht'

theorem Branch.Builds.exists_operand {b : Branch} {t' : Term} {h : Handle} (hD : g.graph.Closed D)
    (hb : b.Builds g h) (hh : h ∈ D) (ht' : t' ∈ b.complements) : ∃ k ∈ D, t'.Builds g k := by
  obtain ⟨terms, reducer⟩ := b
  obtain ⟨ks, k, hks, hs, hr⟩ := hb
  exact BuildsTerms.exists_operand hD hks (hs.mem hD (hr.mem hD hh)) ht'

theorem Alternatives.Builds.exists_operand {body : Alternatives} {t' : Term} {h : Handle}
    (hD : g.graph.Closed D) (hb : body.Builds g h) (hh : h ∈ D) (ht' : t' ∈ body.complements) :
    ∃ k ∈ D, t'.Builds g k := by
  obtain ⟨first, rest⟩ := body
  obtain ⟨k, ks, hk, hks, hj⟩ := hb
  obtain ⟨hkD, hksD⟩ := hj.mem hD (fun _ _ => rfl) hh
  rcases List.mem_append.1 ht' with ht' | ht'
  · exact Branch.Builds.exists_operand hD hk hkD ht'
  · exact BuildsBranches.exists_operand hD hks hksD ht'

theorem BuildsTerms.exists_operand {ts : List Term} {t' : Term} {hs : List Handle}
    (hD : g.graph.Closed D) (hb : BuildsTerms g ts hs) (hhs : ∀ h ∈ hs, h ∈ D)
    (ht' : t' ∈ complementsOfTerms ts) : ∃ k ∈ D, t'.Builds g k := by
  cases ts with
  | nil => cases ht'
  | cons t ts =>
      obtain ⟨k, ks, rfl, hk, hks⟩ := hb
      obtain ⟨hkD, hksD⟩ := List.forall_mem_cons.1 hhs
      rcases List.mem_append.1 ht' with ht' | ht'
      · exact Term.Builds.exists_operand hD hk hkD ht'
      · exact BuildsTerms.exists_operand hD hks hksD ht'

theorem BuildsBranches.exists_operand {bs : List Branch} {t' : Term} {hs : List Handle}
    (hD : g.graph.Closed D) (hb : BuildsBranches g bs hs) (hhs : ∀ h ∈ hs, h ∈ D)
    (ht' : t' ∈ complementsOfBranches bs) : ∃ k ∈ D, t'.Builds g k := by
  cases bs with
  | nil => cases ht'
  | cons b bs =>
      obtain ⟨k, ks, rfl, hk, hks⟩ := hb
      obtain ⟨hkD, hksD⟩ := List.forall_mem_cons.1 hhs
      rcases List.mem_append.1 ht' with ht' | ht'
      · exact Branch.Builds.exists_operand hD hk hkD ht'
      · exact BuildsBranches.exists_operand hD hks hksD ht'

end

end Operands

/-! ## What expressions reach -/

section Reach

variable {d : Declaration} {g : Grammar} {P : String → Prop} {N : Handle → Prop} {h k p : Handle}
  {name : String} {t : Term} {body : Alternatives} {names : List String}

/-- The operands of the complements in the bodies of a declaration. -/
def Declaration.Operand (d : Declaration) (g : Grammar) (p : Handle) : Prop :=
  ∃ r ∈ d.rules, ∃ t ∈ r.body.complements, t.Builds g p

/-- Whatever is made of rules that refer to each other only, reaches such things only. -/
theorem Defined.closed_composed (hg : Defined d.ruleNames d.rules g)
    (hP : ∀ name name', P name → d.Calls name name' → P name') :
    g.graph.Closed {h | Composed g P (d.Operand g) h} := by
  intro h hh k hk
  cases hh with
  | @rule name h hlookup hname =>
      obtain ⟨r, hr, rfl, t, hs, hb⟩ := hg.of_lookup hlookup
      rw [references_of_forward hs, List.mem_singleton] at hk
      rw [hk]
      exact hb.composed hg.tidy.plain.wellFormed (fun name hmem => hP _ name hname ⟨r, hr, rfl, hmem⟩)
        fun t' ht' k' hk' => ⟨r, hr, t', ht', hk'⟩
  | node hs hchildren hnot =>
      rw [references_of_node hs] at hk
      exact hchildren k hk

/-- The slot of a rule is made of this rule only. -/
theorem Defined.of_composed (hg : Defined d.ruleNames d.rules g) (hh : Composed g P N h)
    (hlookup : g.rules.lookup name = some h) : P name := by
  cases hh with
  | @rule name' h hlookup' hname => exact hg.tidy.distinct name name' h hlookup hlookup' ▸ hname
  | node hs _ _ =>
      obtain ⟨r, -, -, t, hs', -⟩ := hg.of_lookup hlookup
      cases hs.symm.trans hs'

/-- If a handle is made of certain rules, the rules that it reaches are called by these. -/
theorem Defined.calls_of_reaches (hg : Defined d.ruleNames d.rules g)
    (hk : Composed g (fun name' => ∃ name ∈ names, Relation.ReflTransGen d.Calls name name')
      (d.Operand g) k) (hreach : g.graph.Reaches k h) (hlookup : g.rules.lookup name = some h) :
    ∃ name' ∈ names, Relation.ReflTransGen d.Calls name' name := by
  have hclosed := hg.closed_composed
    (P := fun name' => ∃ name ∈ names, Relation.ReflTransGen d.Calls name name')
    fun _ _ ⟨name, hmem, hcalls⟩ hcall => ⟨name, hmem, hcalls.tail hcall⟩
  exact hg.of_composed (hclosed.of_reaches hk hreach) hlookup

/-- A rule whose slot lies on a cycle is recursive. -/
theorem Defined.recursive_of_cycle (hg : Defined d.ruleNames d.rules g)
    (hlookup : g.rules.lookup name = some h)
    (hcycle : Relation.TransGen (fun a b => b ∈ g.graph.references a) h h) : d.Recursive name := by
  obtain ⟨k, hk, hback⟩ := Relation.TransGen.head'_iff.1 hcycle
  obtain ⟨r, hr, rfl, t, hs, hb⟩ := hg.of_lookup hlookup
  rw [references_of_forward hs, List.mem_singleton] at hk
  rw [hk] at hback
  have hcomposed := hb.composed hg.tidy.plain.wellFormed
    (P := fun name' => ∃ name ∈ r.body.references, Relation.ReflTransGen d.Calls name name')
    (N := d.Operand g) (fun name hmem => ⟨name, hmem, .refl⟩)
    fun t' ht' k' hk' => ⟨r, hr, t', ht', hk'⟩
  obtain ⟨name, hmem, hcalls⟩ := hg.calls_of_reaches hcomposed hback hlookup
  exact Relation.TransGen.head' ⟨r, hr, rfl, hmem⟩ hcalls

/-- Nodes are made after their operands, so the way back to a handle leads through a rule. -/
theorem Tidy.exists_rule (hg : Tidy names g)
    (hpath : Relation.TransGen (fun a b => b ∈ g.graph.references a) h k) :
    k.index < h.index ∨
      ∃ name r, g.rules.lookup name = some r ∧ g.graph.Reaches h r ∧ g.graph.Reaches r k := by
  induction hpath with
  | @single k hk =>
      obtain ⟨s, hs⟩ := slot?_of_mem_references hk
      rcases hg.slots h s hs with ⟨n, rfl⟩ | ⟨name, hlookup⟩
      · rw [references_of_node hs] at hk
        exact .inl (hg.descends h n hs k hk)
      · exact .inr ⟨name, h, hlookup, .refl, .single hk⟩
  | @tail k k' hpath hk ih =>
      rcases ih with hlt | ⟨name, r, hlookup, hr, hback⟩
      · obtain ⟨s, hs⟩ := slot?_of_mem_references hk
        rcases hg.slots k s hs with ⟨n, rfl⟩ | ⟨name, hlookup⟩
        · rw [references_of_node hs] at hk
          exact .inl ((hg.descends k n hs k' hk).trans hlt)
        · exact .inr ⟨name, k, hlookup, hpath.to_reflTransGen, .single hk⟩
      · exact .inr ⟨name, r, hlookup, hr, hback.tail hk⟩

/-- No cycle passes through a complement. -/
theorem Defined.stratified (hg : Defined d.ruleNames d.rules g) (hd : d.Stratified)
    (hh : Composed g (fun _ => True) (d.Operand g) h) : g.graph.Stratified h := by
  intro k p hk hs hback
  have hclosed := hg.closed_composed (P := fun _ => True) fun _ _ _ _ => trivial
  obtain ⟨r, hr, t, ht, hb⟩ : d.Operand g p := by
    cases hclosed.of_reaches hh hk with
    | rule hlookup _ =>
        obtain ⟨r, -, -, t, hs', -⟩ := hg.of_lookup hlookup
        cases hs.symm.trans hs'
    | node hs' _ hnot => exact hnot p (Slot.node.inj (Option.some.inj (hs'.symm.trans hs)))
  -- The cycle passes through the slot of a rule, which the operand then reaches.
  have hedge : p ∈ g.graph.references k := by simp [references_of_node hs, Node.children]
  have hcycle := Relation.TransGen.tail' hback hedge
  rcases hg.tidy.exists_rule hcycle with hlt | ⟨name, q, hlookup, hto, hfrom⟩
  · exact Nat.lt_irrefl _ hlt
  have hp : Composed g (fun name' => ∃ name ∈ t.references, Relation.ReflTransGen d.Calls name name')
      (d.Operand g) p :=
    hb.composed hg.tidy.plain.wellFormed (fun name hmem => ⟨name, hmem, .refl⟩)
      fun t' ht' k' hk' => ⟨r, hr, t', Alternatives.complements_trans ht ht', hk'⟩
  obtain ⟨name', hmem, hcalls⟩ := hg.calls_of_reaches hp hto hlookup
  have hrecursive : d.Recursive name :=
    hg.recursive_of_cycle hlookup ((Relation.TransGen.trans_right hfrom hcycle).trans_left hto)
  exact hd r hr t ht name' hmem name hcalls hrecursive

end Reach

/-! ## The languages of rules -/

section Languages

variable {actions : Actions} {d : Declaration} {g : Grammar} {start : Handle}

/-- The expression behind a rule of a declaration without mistakes has the language that the
declaration gives the rule, and this is its least solution.  For the declaration itself this means
that its languages are the least solution of the equations of its rules, if a complement is taken of
the language of its operand, and that this language is the one that the operand has by the same
equations. -/
theorem build_language (hd : d.mistakes = []) (hstratified : d.Stratified)
    (hrun : (d.build actions).run.run initial = (.ok start, g)) :
    (∀ r ∈ d.rules, ∃ h, (rule r.name).run.run g = (.ok h, g) ∧
      g.graph.language h = (wordMeaning g.graph.language).value g.graph h ∧
      g.graph.language h = d.language (.rule r.name)) ∧
    (∀ r ∈ d.rules, d.language (.rule r.name) = d.solution d.language r.name) ∧
    ∀ r ∈ d.rules, ∀ t ∈ r.body.complements,
      d.language t = t.words d.language (d.solution d.language) := by
  obtain ⟨h', g', hrun', hg⟩ | ⟨r, -, -, g', hrun'⟩ := (Declaration.faultless hd).run_build
  swap
  · cases hrun.symm.trans hrun'
  cases hrun.symm.trans hrun'
  have hlayered {name : String} {h : Handle} (hlookup : g.rules.lookup name = some h) :
      g.graph.Layered h :=
    (hg.stratified hstratified (.rule hlookup trivial)).layered
  have hrule {name : String} {h : Handle} (hlookup : g.rules.lookup name = some h) :
      g.graph.language h = d.language (.rule name) := hg.language_eq hlookup
  have hsolution {name : String} {h : Handle} (hlookup : g.rules.lookup name = some h) :
      g.graph.language h = d.solution d.language name := by
    rw [(hlayered hlookup).language_eq]
    exact hg.solution_eq (fun _ _ => hg.language_eq) hlookup
  refine ⟨fun r hr => ?_, fun r hr => ?_, fun r hr t ht => ?_⟩ <;>
    obtain ⟨h, k, hlookup, hs, hb⟩ := hg.bodies r hr
  · exact ⟨h, run_rule_of_lookup hlookup, (hlayered hlookup).language_eq, hrule hlookup⟩
  · rw [← hrule hlookup, hsolution hlookup]
  · have hclosed : g.graph.Closed {k | g.graph.Layered k} := fun _ hh _ => hh.of_mem_references
    have hA : Agrees g {k | g.graph.Layered k} g.graph.language g.graph.language d.language
        (d.solution d.language) :=
      ⟨hclosed, fun k hk n hs => hk.language_node hs, fun name k hk => hsolution hk,
        fun t k hk => hg.language_eq hk⟩
    have hk : g.graph.Layered k :=
      (hlayered hlookup).of_mem_references (by simp [references_of_forward hs])
    obtain ⟨p, hp, hpb⟩ := hb.exists_operand hclosed hk ht
    rw [← hg.language_eq hpb]
    exact hpb.words hg.tidy.plain.wellFormed hA hp

end Languages

/-! ### A complement before a recursive rule -/

namespace Complementing

/-- Any number of texts other than `ab`, one after the other. -/
def sample : Declaration :=
  ⟨[], [], "Sample",
    [⟨"s", ⟨⟨[.not (.rule "t"), .rule "s"], none⟩, [⟨[], none⟩]⟩⟩,
      ⟨"t", .only (.text ⟨"\"ab\"", "ab"⟩)⟩]⟩

/-- The rule `t` refers to no rule. -/
theorem not_calls {name : String} : ¬ sample.Calls "t" name := by
  rintro ⟨r, hr, hname, hmem⟩
  rcases List.mem_cons.1 hr with rfl | hr
  · exact absurd hname (by decide)
  · obtain rfl := List.mem_singleton.1 hr
    cases hmem

theorem stratified_sample : sample.Stratified := by
  intro r hr t ht name hname name' hcalls hrecursive
  have ht : t = .rule "t" := by
    rcases List.mem_cons.1 hr with rfl | hr
    · exact List.mem_singleton.1 ht
    · obtain rfl := List.mem_singleton.1 hr
      cases ht
  obtain rfl : name = "t" := by
    rw [ht] at hname
    exact List.mem_singleton.1 hname
  obtain rfl : name' = "t" := by
    rcases Relation.ReflTransGen.cases_head hcalls with rfl | ⟨next, hcall, -⟩
    · rfl
    · exact absurd hcall not_calls
  obtain ⟨next, hcall, -⟩ := Relation.TransGen.head'_iff.1 hrecursive
  exact not_calls hcall

/-- The empty word is in the language of the expression behind `s`, by the second branch. -/
theorem build_language_sample : sample.mistakes = [] ∧ sample.Stratified ∧
    ∃ start g, (sample.build .standard).run.run initial = (.ok start, g) ∧
      ∃ h, (rule "s").run.run g = (.ok h, g) ∧ [] ∈ g.graph.language h := by
  have hmistakes : sample.mistakes = [] := by decide
  obtain ⟨start, g, hrun⟩ : ∃ start g, (sample.build .standard).run.run initial = (.ok start, g) :=
    ⟨_, _, rfl⟩
  obtain ⟨hrules, hsolution, -⟩ := build_language hmistakes stratified_sample hrun
  obtain ⟨h, hrule, -, hlanguage⟩ := hrules _ List.mem_cons_self
  refine ⟨hmistakes, stratified_sample, start, g, hrun, h, hrule, ?_⟩
  rw [hlanguage, hsolution _ List.mem_cons_self]
  refine (sample.equations sample.language).map_lfp.le _ ⟨_, List.mem_cons_self, rfl, ?_⟩
  exact .inr (.inl rfl)

end Complementing

end DerivativeParsing.Notation
