import DerivativeParsing.Proofs.Preparation
import DerivativeParsing.Proofs.RuleBodies

/-!
# Carrying out a declaration

A declaration without mistakes defines its rules one after the other.  All that can go wrong is a
circle of rules that are nothing but names for each other: then one of the definitions would close
a circle of forwards, and is refused.  Without such a circle the declaration is carried out, and
every rule is ready for use.

`Defined` is what the definitions that have been carried out leave behind.  A rule that is but
another name (`Alternatives.alias?`) has a forward to the slot of the rule that it names; the body
of any other rule is a node.  So the chain of forwards from a rule follows the names, and a chain
that comes back to an open slot is a circle of names (`Defined.aliases_of_leads`).
-/

set_option autoImplicit false

namespace DerivativeParsing.Notation

open Grammar DerivativeParsing.Graph

/-! ## Other names for rules -/

mutual

/-- The rule that a term is nothing but a name for. -/
def Term.alias? : Term → Option String
  | .rule name => some name
  | .group body => body.alias?
  | _ => none

/-- The rule that a branch is nothing but a name for. -/
def Branch.alias? : Branch → Option String
  | ⟨[t], none⟩ => t.alias?
  | _ => none

/-- The rule that a choice is nothing but a name for. -/
def Alternatives.alias? : Alternatives → Option String
  | ⟨b, []⟩ => b.alias?
  | _ => none

end

/-- One rule is declared to be nothing but another name for a second one. -/
def Declaration.Aliases (d : Declaration) (name name' : String) : Prop :=
  ∃ r ∈ d.rules, r.name = name ∧ r.body.alias? = some name'

/-- Some rules are nothing but names for each other, in a circle. -/
def Declaration.Circular (d : Declaration) : Prop :=
  ∃ name, Relation.TransGen d.Aliases name name

section Aliases

variable {g : Grammar} {name : String}

mutual

/-- The expression of a term is a node or the slot of the rule that the term is a name for. -/
theorem Term.Builds.node_or_alias {t : Term} {h : Handle} (hg : g.WellFormed) (hb : t.Builds g h) :
    (∃ n, g.graph.slot? h = some (.node n)) ∨
      ∃ name, t.alias? = some name ∧ g.rules.lookup name = some h := by
  cases t with
  | rule name => exact .inr ⟨name, rfl, hb⟩
  | any => exact .inl ⟨.any, by rw [show h = .any from hb]; exact hg.graph.any⟩
  | group body => exact Alternatives.Builds.node_or_alias hg hb
  | char _ | range _ _ | text _ => exact .inl ⟨_, hb⟩
  | star _ | optional _ | rep _ _ | not _ =>
      obtain ⟨k, -, hs⟩ := hb
      exact .inl ⟨_, hs⟩
  | plus _ =>
      obtain ⟨k, s, -, -, hs⟩ := hb
      exact .inl ⟨_, hs⟩

theorem Branch.Builds.node_or_alias {b : Branch} {h : Handle} (hg : g.WellFormed)
    (hb : b.Builds g h) :
    (∃ n, g.graph.slot? h = some (.node n)) ∨
      ∃ name, b.alias? = some name ∧ g.rules.lookup name = some h := by
  obtain ⟨terms, reducer⟩ := b
  obtain ⟨ks, k, hks, hs, hr⟩ := hb
  cases reducer with
  | some path =>
      obtain ⟨f, -, hs⟩ := hr
      exact .inl ⟨_, hs⟩
  | none =>
      obtain rfl : h = k := hr
      match terms with
      | [] =>
          obtain rfl : ks = [] := hks
          exact .inl ⟨.empty, by rw [show h = .empty from hs]; exact hg.graph.empty⟩
      | [t] =>
          obtain ⟨k, _, rfl, hk, rfl⟩ := hks
          obtain ⟨s, rfl, rfl⟩ := hs
          exact Term.Builds.node_or_alias hg hk
      | _ :: _ :: _ =>
          obtain ⟨k, _, rfl, -, k', ks, rfl, -, -⟩ := hks
          exact .inl hs.exists_node

theorem Alternatives.Builds.node_or_alias {body : Alternatives} {h : Handle} (hg : g.WellFormed)
    (hb : body.Builds g h) :
    (∃ n, g.graph.slot? h = some (.node n)) ∨
      ∃ name, body.alias? = some name ∧ g.rules.lookup name = some h := by
  obtain ⟨first, rest⟩ := body
  obtain ⟨k, ks, hk, hks, hj⟩ := hb
  match rest with
  | [] =>
      obtain rfl : ks = [] := hks
      obtain rfl : h = k := hj
      exact Branch.Builds.node_or_alias hg hk
  | _ :: _ =>
      obtain ⟨k', ks, rfl, -, -⟩ := hks
      exact .inl hj.exists_node

end

mutual

/-- A term that is a name for a rule has the slot of this rule for its expression. -/
theorem Term.Builds.of_alias {t : Term} {h : Handle} (hb : t.Builds g h)
    (ht : t.alias? = some name) : g.rules.lookup name = some h := by
  cases t with
  | rule name' =>
      cases ht
      exact hb
  | group body => exact Alternatives.Builds.of_alias hb ht
  | _ => cases ht

theorem Branch.Builds.of_alias {b : Branch} {h : Handle} (hb : b.Builds g h)
    (halias : b.alias? = some name) : g.rules.lookup name = some h := by
  match b with
  | ⟨[t], none⟩ =>
      obtain ⟨_, k, ⟨_, _, rfl, hk, rfl⟩, ⟨_, rfl, rfl⟩, rfl⟩ := hb
      exact Term.Builds.of_alias hk halias
  | ⟨[], none⟩ | ⟨[], some _⟩ | ⟨[_], some _⟩ | ⟨_ :: _ :: _, none⟩ | ⟨_ :: _ :: _, some _⟩ =>
      cases halias

theorem Alternatives.Builds.of_alias {body : Alternatives} {h : Handle} (hb : body.Builds g h)
    (halias : body.alias? = some name) : g.rules.lookup name = some h := by
  match body with
  | ⟨first, []⟩ =>
      obtain ⟨_, _, hk, rfl, rfl⟩ := hb
      exact Branch.Builds.of_alias hk halias
  | ⟨first, _ :: _⟩ => cases halias

end

end Aliases

/-! ## Rules that have been defined -/

/-- What holds once some of the rules of a declaration have been defined. -/
structure Defined (names : List String) (done : List RuleDefinition) (g : Grammar) : Prop where
  tidy : Tidy names g
  bodies : ∀ r ∈ done, ∃ h t, g.rules.lookup r.name = some h ∧
    g.graph.slot? h = some (.forward t) ∧ r.body.Builds g t
  unfinished : ∀ name h, g.rules.lookup name = some h → (∀ r ∈ done, r.name ≠ name) →
    ∃ name', g.graph.slot? h = some (.undefined name')

section Defined

variable {actions : Actions} {d : Declaration} {names : List String} {done : List RuleDefinition}
  {g g' : Grammar} {h t : Handle} {name : String} {body : Alternatives}

theorem defined_initial : Defined names [] initial where
  tidy := tidy_initial
  bodies r hr := by cases hr
  unfinished _ _ hlookup := by cases hlookup

/-- Nodes and open rules may be added. -/
theorem Defined.enlarge (hg : Defined names done g) (hg' : Tidy names g')
    (henlarges : Enlarges g g') : Defined names done g' where
  tidy := hg'
  bodies r hr := by
    obtain ⟨h, t, hlookup, hs, hb⟩ := hg.bodies r hr
    exact ⟨h, t, lookup_lengthened henlarges.rules hlookup,
      (henlarges.kept.2 h (slot?_lt hs)).trans hs, hb.keeps (.of_enlarges henlarges)⟩
  unfinished name h hlookup hname := by
    rcases hold : g.rules.lookup name with _ | h'
    · -- The rule is new, and so is its slot.
      rcases henlarges.entries _ (mem_of_lookup hlookup) with hmem | hopen
      · have := List.lookup_eq_none_iff.1 hold _ hmem
        simp at this
      · exact hopen
    · obtain rfl : h' = h :=
        Option.some.inj ((lookup_lengthened henlarges.rules hold).symm.trans hlookup)
      obtain ⟨name', hs⟩ := hg.unfinished name h' hold hname
      exact ⟨name', (henlarges.kept.2 h' (slot?_lt hs)).trans hs⟩

/-- A chain of forwards from the body of a rule follows the rules that are but names: if it ends at
an open slot, then at that of the last one named. -/
theorem Defined.aliases_of_leads {e : Handle} {last name' : String} (hg : Defined names done g)
    (hdone : done ⊆ d.rules) (hb : body.Builds g t) (hl : g.graph.Leads t e)
    (hlookup : g.rules.lookup last = some e) (hopen : g.graph.slot? e = some (.undefined name')) :
    ∃ name, body.alias? = some name ∧ Relation.ReflTransGen d.Aliases name last := by
  induction hl generalizing body with
  | @here t hend =>
      rcases hb.node_or_alias hg.tidy.plain.wellFormed with ⟨n, hs⟩ | ⟨name, halias, hname⟩
      · cases hopen.symm.trans hs
      · exact ⟨name, halias, hg.tidy.distinct name last t hname hlookup ▸ .refl⟩
  | @step t t' e hs hrest ih =>
      rcases hb.node_or_alias hg.tidy.plain.wellFormed with ⟨n, hs'⟩ | ⟨name, halias, hname⟩
      · cases hs.symm.trans hs'
      -- The slot is a forward, so the rule has been defined.
      obtain ⟨r, hr, hrname⟩ : ∃ r ∈ done, r.name = name := by
        by_contra hnone
        push Not at hnone
        obtain ⟨name'', hs'⟩ := hg.unfinished name t hname hnone
        cases hs.symm.trans hs'
      obtain ⟨h, t'', hlookup', hs', hb'⟩ := hg.bodies r hr
      rw [hrname] at hlookup'
      obtain rfl := Option.some.inj (hname.symm.trans hlookup')
      obtain rfl := Slot.forward.inj (Option.some.inj (hs.symm.trans hs'))
      obtain ⟨next, hnext, hchain⟩ := ih hb' hlookup hopen
      exact ⟨name, halias, hchain.head ⟨r, hdone hr, hrname, hnext⟩⟩

/-- Once all rules are defined, none is in a circle of names: its chain of forwards has an end. -/
theorem Defined.not_circular (hg : Defined names d.rules g) : ¬ d.Circular := by
  rintro ⟨name, hcircle⟩
  obtain ⟨h, hlookup⟩ : ∃ h, g.rules.lookup name = some h := by
    obtain ⟨next, ⟨r, hr, rfl, -⟩, -⟩ := Relation.TransGen.head'_iff.1 hcircle
    obtain ⟨h, t, hlookup, -, -⟩ := hg.bodies r hr
    exact ⟨h, hlookup⟩
  obtain ⟨e, hl⟩ := hg.tidy.plain.chains h (hg.tidy.has_of_lookup hlookup)
  induction hl generalizing name with
  | @here h hend =>
      obtain ⟨next, ⟨r, hr, rfl, -⟩, -⟩ := Relation.TransGen.head'_iff.1 hcircle
      obtain ⟨h', t, hlookup', hs, -⟩ := hg.bodies r hr
      obtain rfl := Option.some.inj (hlookup.symm.trans hlookup')
      exact hend t hs
  | @step h t e hs hrest ih =>
      obtain ⟨next, halias, hback⟩ := Relation.TransGen.head'_iff.1 hcircle
      have hcircle' : Relation.TransGen d.Aliases next next := Relation.TransGen.tail' hback halias
      obtain ⟨r, hr, rfl, hnext⟩ := halias
      obtain ⟨h', t', hlookup', hs', hb⟩ := hg.bodies r hr
      obtain rfl := Option.some.inj (hlookup.symm.trans hlookup')
      obtain rfl := Slot.forward.inj (Option.some.inj (hs.symm.trans hs'))
      exact ih next hcircle' (hb.of_alias hnext)

/-- What defining a rule as an expression comes to. -/
theorem run_define_handle (hrule : (rule name).run.run g = (.ok h, g')) :
    (define name (.handle t)).run.run g =
      if isOpen g'.graph h then
        if g'.graph.resolve t = some h then (.error (.grammar (.cyclicRule name)), g')
        else (.ok h, { g' with graph := g'.graph.setForward h t })
      else (.error (.grammar (.duplicateRule name)), g') := by
  unfold define
  rw [run_bind, hrule]
  dsimp only
  rw [run_bind, run_get]
  dsimp only
  by_cases hopen : isOpen g'.graph h = true
  · rw [if_pos hopen, hopen]
    change (coerce (.handle t) >>= _).run.run g' = _
    rw [run_bind, show (coerce (.handle t)).run.run g' = (.ok t, g') from rfl]
    dsimp only
    rw [run_bind, run_get]
    dsimp only
    by_cases hresolve : g'.graph.resolve t = some h
    · rw [if_pos hresolve, hresolve]
      simp only [BEq.rfl, if_true]
      rfl
    · have hbeq : (g'.graph.resolve t == some h) = false := by simpa using hresolve
      rw [if_neg hresolve, hbeq]
      rfl
  · rw [if_neg hopen, Bool.eq_false_iff.2 hopen]
    rfl

/-- Defining one more rule succeeds, unless the rule is in a circle of names. -/
theorem Defined.define {r : RuleDefinition} (hg : Defined names done g) (hdone : done ⊆ d.rules)
    (hr : r ∈ d.rules) (hname : r.name ∈ names) (hbody : r.body.mistakes names = [])
    (hnew : ∀ r' ∈ done, r'.name ≠ r.name) :
    (∃ h g', (r.define actions).run.run g = (.ok h, g') ∧ Defined names (done ++ [r]) g') ∨
      Relation.TransGen d.Aliases r.name r.name ∧
        ∃ g', (r.define actions).run.run g = (.error (.grammar (.cyclicRule r.name)), g') := by
  obtain ⟨t, g₁, hexpress, htidy₁, henlarges₁, ht₁, hb₁⟩ :=
    Alternatives.succeeds_express hbody hg.tidy
  obtain ⟨h, g₂, hrule, htidy₂, henlarges₂, hh, hlookup⟩ := succeeds_rule htidy₁ hname
  have hg₂ : Defined names done g₂ := (hg.enlarge htidy₁ henlarges₁).enlarge htidy₂ henlarges₂
  have hb₂ : r.body.Builds g₂ t := hb₁.keeps (.of_enlarges henlarges₂)
  have hgrows : Graph.Prefix g₁.graph g₂.graph := henlarges₂.kept
  have ht₂ : g₂.Has t := ht₁.change hgrows
  obtain ⟨name', hopen⟩ := hg₂.unfinished r.name h hlookup hnew
  have hrun : (r.define actions).run.run g = (Grammar.define r.name (.handle t)).run.run g₁ := by
    rw [RuleDefinition.define, run_bind, hexpress]
  have hisOpen : isOpen g₂.graph h = true := by simp [isOpen, hopen]
  rw [hrun, run_define_handle hrule, if_pos hisOpen]
  by_cases hresolve : g₂.graph.resolve t = some h
  · rw [if_pos hresolve]
    obtain ⟨name, halias, hchain⟩ :=
      hg₂.aliases_of_leads hdone hb₂ (resolve_eq_some.1 hresolve) hlookup hopen
    exact .inr ⟨Relation.TransGen.head' ⟨r, hr, rfl, halias⟩ hchain, g₂, rfl⟩
  · rw [if_neg hresolve]
    obtain ⟨e, hl, hresolve'⟩ := htidy₂.plain.leads ht₂
    have hne : e ≠ h := fun he => hresolve (he ▸ hresolve')
    refine .inl ⟨h, _, rfl, htidy₂.setForward hlookup hopen ht₂ hl hne, fun r' hr' => ?_,
      fun name k hk hname => ?_⟩
    · have hkeeps : Keeps g₂ { g₂ with graph := g₂.graph.setForward h t } := by
        refine ⟨fun k n hs => ?_, fun _ _ hk => hk⟩
        have hk : k ≠ h := fun hk => by
          rw [hk, hopen] at hs
          cases hs
        exact (slot?_setForward_of_ne hk).trans hs
      rcases List.mem_append.1 hr' with hr' | hr'
      · obtain ⟨k, t', hk, hs, hb⟩ := hg₂.bodies r' hr'
        refine ⟨k, t', hk, ?_, hb.keeps hkeeps⟩
        have hkh : k ≠ h := fun hkh => by
          rw [hkh, hopen] at hs
          cases hs
        exact (slot?_setForward_of_ne hkh).trans hs
      · obtain rfl := List.mem_singleton.1 hr'
        exact ⟨h, t, hlookup, slot?_setForward_self (slot?_lt hopen), hb₂.keeps hkeeps⟩
    · obtain ⟨name'', hs⟩ := hg₂.unfinished name k hk fun r' hr' => hname r' (by simp [hr'])
      have hkh : k ≠ h := fun hkh =>
        hname r (by simp) (htidy₂.distinct r.name name h hlookup (hkh ▸ hk))
      exact ⟨name'', (slot?_setForward_of_ne hkh).trans hs⟩

/-- So does defining all the others, one after the other. -/
theorem Defined.defineAll {rest : List RuleDefinition} (hg : Defined d.ruleNames done g)
    (hsplit : done ++ rest = d.rules) (hnodup : d.ruleNames.Nodup)
    (hbodies : ∀ r ∈ d.rules, r.body.mistakes d.ruleNames = []) :
    (∃ g', (defineAll actions rest).run.run g = (.ok (), g') ∧ Defined d.ruleNames d.rules g') ∨
      ∃ r ∈ d.rules, Relation.TransGen d.Aliases r.name r.name ∧
        ∃ g', (defineAll actions rest).run.run g = (.error (.grammar (.cyclicRule r.name)), g') := by
  induction rest generalizing done g with
  | nil =>
      rw [List.append_nil] at hsplit
      exact .inl ⟨g, rfl, hsplit ▸ hg⟩
  | cons r rest ih =>
      have hr : r ∈ d.rules := hsplit ▸ by simp
      have hdone : done ⊆ d.rules := hsplit ▸ List.subset_append_left _ _
      have hnew : ∀ r' ∈ done, r'.name ≠ r.name := by
        intro r' hr'
        rw [Declaration.ruleNames, ← hsplit, List.map_append, List.nodup_append] at hnodup
        exact hnodup.2.2 r'.name (List.mem_map_of_mem hr') r.name (by simp)
      rcases hg.define hdone hr (List.mem_map_of_mem hr) (hbodies r hr) hnew with
        ⟨h, g₁, hrun, hg₁⟩ | ⟨hcircle, g₁, hrun⟩
      · have hrest : (Notation.defineAll actions (r :: rest)).run.run g =
            (Notation.defineAll actions rest).run.run g₁ := by
          rw [Notation.defineAll, run_bind, hrun]
        rw [hrest]
        exact ih hg₁ (by simpa using hsplit)
      · refine .inr ⟨r, hr, hcircle, g₁, ?_⟩
        rw [Notation.defineAll, run_bind, hrun]

/-- Once all rules are defined, a rule of the table is one of them. -/
theorem Defined.of_lookup (hg : Defined d.ruleNames d.rules g)
    (hlookup : g.rules.lookup name = some h) :
    ∃ r ∈ d.rules, r.name = name ∧ ∃ t, g.graph.slot? h = some (.forward t) ∧ r.body.Builds g t := by
  obtain ⟨r, hr, hname⟩ := List.mem_map.1 (hg.tidy.declared name h hlookup)
  obtain ⟨h', t, hlookup', hs, hb⟩ := hg.bodies r hr
  rw [hname] at hlookup'
  obtain rfl := Option.some.inj (hlookup.symm.trans hlookup')
  exact ⟨r, hr, hname, t, hs, hb⟩

/-- Every chain in a grammar in which all rules are defined ends at a node. -/
theorem Defined.ready (hg : Defined d.ruleNames d.rules g) (hh : g.Has h) : g.graph.Ready h := by
  intro k hk
  have hkHas : g.Has k := hg.tidy.plain.wellFormed.graph.lt_of_reaches hh hk
  obtain ⟨r, hresolve, hr⟩ := hg.tidy.plain.resolves hkHas
  rcases hr with ⟨n, hs⟩ | ⟨name, hs⟩
  · exact ⟨r, n, resolve_eq_some.1 hresolve, hs⟩
  · rcases hg.tidy.slots r _ hs with ⟨n, hn⟩ | ⟨name', hlookup⟩
    · cases hn
    · obtain ⟨rule, -, -, t, hs', -⟩ := hg.of_lookup hlookup
      cases hs.symm.trans hs'

end Defined

/-! ## Declarations without mistakes -/

section Build

variable {actions : Actions} {d : Declaration} {earlier names : List String}

theorem nodup_of_nameMistakes (h : nameMistakes earlier names = []) :
    names.Nodup ∧ ∀ name ∈ names, name ∉ earlier := by
  induction names generalizing earlier with
  | nil => simp
  | cons name rest ih =>
      rw [nameMistakes] at h
      obtain ⟨hhead, hrest⟩ := List.append_eq_nil_iff.1 h
      obtain ⟨hnodup, hnew⟩ := ih hrest
      have hname : name ∉ earlier := by
        intro hmem
        simp [hmem] at hhead
      refine ⟨List.nodup_cons.2 ⟨fun hmem => hnew name hmem (by simp), hnodup⟩, ?_⟩
      intro name' hname'
      rcases List.mem_cons.1 hname' with rfl | hname'
      · exact hname
      · exact fun hmem => hnew name' hname' (by simp [hmem])

/-- What no mistakes in a declaration come to. -/
structure Declaration.Faultless (d : Declaration) : Prop where
  nodup : d.ruleNames.Nodup
  nonempty : d.rules ≠ []
  bodies : ∀ r ∈ d.rules, r.body.mistakes d.ruleNames = []

theorem Declaration.faultless (hd : d.mistakes = []) : d.Faultless := by
  unfold Declaration.mistakes at hd
  obtain ⟨hfront, hbodies⟩ := List.append_eq_nil_iff.1 hd
  obtain ⟨hnames, hrules⟩ := List.append_eq_nil_iff.1 hfront
  refine ⟨(nodup_of_nameMistakes hnames).1, fun hnil => ?_, List.flatMap_eq_nil_iff.1 hbodies⟩
  simp [hnil] at hrules

/-- A declaration without mistakes is carried out, or a circle of names is found. -/
theorem Declaration.Faultless.run_build (hd : d.Faultless) :
    (∃ h g, (d.build actions).run.run initial = (.ok h, g) ∧ Defined d.ruleNames d.rules g) ∨
      ∃ r ∈ d.rules, Relation.TransGen d.Aliases r.name r.name ∧
        ∃ g, (d.build actions).run.run initial = (.error (.grammar (.cyclicRule r.name)), g) := by
  have hnone : Defined d.ruleNames [] initial := defined_initial
  rcases hnone.defineAll (List.nil_append d.rules) hd.nodup hd.bodies with
    ⟨g, hrun, hg⟩ | ⟨r, hr, hcircle, g, hrun⟩
  · obtain ⟨r, hr, hstart⟩ : ∃ r ∈ d.rules, d.startName = r.name := by
      rcases hrules : d.rules with _ | ⟨r, rest⟩
      · exact absurd hrules hd.nonempty
      · exact ⟨r, by simp, by simp [Declaration.startName, Declaration.ruleNames, hrules]⟩
    obtain ⟨h, t, hlookup, -, -⟩ := hg.bodies r hr
    refine .inl ⟨h, g, ?_, hg⟩
    rw [Declaration.build, run_bind, hrun, hstart]
    exact run_rule_of_lookup hlookup
  · refine .inr ⟨r, hr, hcircle, g, ?_⟩
    rw [Declaration.build, run_bind, hrun]

/-- Of a declaration without mistakes: it is carried out exactly if no rules are nothing but names
for each other in a circle; if it fails, a rule in such a circle has been refused; and if it is
carried out, every rule can be prepared, and that changes nothing. -/
theorem build_ok_iff_not_circular (d : Declaration) (hd : d.mistakes = []) :
    ((∃ h g, (d.build actions).run.run initial = (.ok h, g)) ↔ ¬ d.Circular) ∧
    (∀ e g, (d.build actions).run.run initial = (.error e, g) →
      ∃ r ∈ d.rules, Relation.TransGen d.Aliases r.name r.name ∧
        e = .grammar (.cyclicRule r.name)) ∧
    (∀ h g, (d.build actions).run.run initial = (.ok h, g) → ∀ r ∈ d.rules,
      ∃ k n, (rule r.name).run.run g = (.ok k, g) ∧ (prepare k).run.run g = (.ok n, g)) := by
  rcases (Declaration.faultless hd).run_build with ⟨h, g, hrun, hg⟩ | ⟨r, hr, hcircle, g, hrun⟩
  · refine ⟨⟨fun _ => hg.not_circular, fun _ => ⟨h, g, hrun⟩⟩, fun e g' hrun' => ?_,
      fun h' g' hrun' r hr => ?_⟩
    · cases hrun.symm.trans hrun'
    · cases hrun.symm.trans hrun'
      obtain ⟨k, t, hlookup, hs, -⟩ := hg.bodies r hr
      obtain ⟨n, -, hprepare⟩ :=
        prepare_of_ready hg.tidy.plain.wellFormed.graph (hg.ready (slot?_lt hs))
      exact ⟨k, n, run_rule_of_lookup hlookup, hprepare⟩
  · refine ⟨⟨?_, fun hnot => absurd ⟨r.name, hcircle⟩ hnot⟩, fun e g' hrun' => ?_,
      fun h' g' hrun' => ?_⟩
    · rintro ⟨h', g', hrun'⟩
      cases hrun.symm.trans hrun'
    · cases hrun.symm.trans hrun'
      exact ⟨r, hr, hcircle, rfl⟩
    · cases hrun.symm.trans hrun'

end Build

/-! ## A circle and a chain of names -/

/-- A choice with a single branch of a single term. -/
def Alternatives.only (t : Term) : Alternatives := ⟨⟨[t], none⟩, []⟩

namespace Naming

/-- Two rules that are names for each other, the second one in a group. -/
def circle : Declaration :=
  ⟨[], [], "Circle",
    [⟨"a", .only (.rule "b")⟩, ⟨"b", .only (.group (.only (.rule "a")))⟩]⟩

/-- A rule that is a name for another, which refers back to it in a choice. -/
def chain : Declaration :=
  ⟨[], [], "Chain",
    [⟨"a", .only (.rule "b")⟩, ⟨"b", ⟨⟨[.rule "a"], none⟩, [⟨[.text ⟨"\"x\"", "x"⟩], none⟩]⟩⟩]⟩

/-- The circle is found when its last rule is defined.  The chain is none, and `a` can be used. -/
theorem build_ok_iff_not_circular_names :
    (circle.Circular ∧ ¬ ∃ h g, (circle.build .standard).run.run initial = (.ok h, g)) ∧
      ¬ chain.Circular ∧ ∃ h g, (chain.build .standard).run.run initial = (.ok h, g) ∧
        ∃ k n, (rule "a").run.run g = (.ok k, g) ∧ (prepare k).run.run g = (.ok n, g) := by
  obtain ⟨hcircle, -, -⟩ := build_ok_iff_not_circular circle (by decide)
  obtain ⟨hchain, -, hprepare⟩ := build_ok_iff_not_circular chain (by decide)
  have hcircular : circle.Circular := by
    refine ⟨"a", .tail (.single ⟨⟨"a", _⟩, List.mem_cons_self, rfl, rfl⟩) ?_⟩
    exact ⟨⟨"b", _⟩, List.mem_cons_of_mem _ List.mem_cons_self, rfl, rfl⟩
  have hbuild : ∃ h g, (chain.build .standard).run.run initial = (.ok h, g) := ⟨_, _, rfl⟩
  refine ⟨⟨hcircular, fun hbuild => hcircle.1 hbuild hcircular⟩, hchain.1 hbuild, ?_⟩
  obtain ⟨h, g, hrun⟩ := hbuild
  exact ⟨h, g, hrun, hprepare h g hrun _ List.mem_cons_self⟩

end Naming

end DerivativeParsing.Notation
