import DerivativeParsing.Proofs.BodyReaders

/-!
# Accepted tokens are the writing of what is read

A reader of a part of a body takes just what the part is written with, and the part is proper
(`Keeps`).  Each reader keeps to that if the readers that it calls do, so that all of them do, by
induction on the steps that they are given (`keeps_readers`).

What is assumed of paths concerns the end of a branch only.  So the readers of branches and choices
keep to what is written where a branch ends after it; the others do anywhere.
-/

set_option autoImplicit false

namespace DerivativeParsing.Notation

open Lookahead Reader

/-- How a postfix is written. -/
def Postfix.IsWritten : Postfix → List Token → Prop
  | .star => Spells ['*']
  | .plus => Spells ['+']
  | .optional => Spells ['?']
  | .rep n => Grouped .brace n.IsWritten

theorem Postfix.isWritten_apply (W : Path → List Token → Prop) (p : Postfix) (t : Term) :
    (p.apply t).IsWritten W = Followed (t.IsWritten W) p.IsWritten := by
  cases p <;> rfl

namespace Reader

variable {α : Type} {host : HostSyntax} {W : Path → List Token → Prop} {i j k : Input} {s : Nat}

/-- Any path will do. -/
abbrev AnyPath : Path → Prop := fun _ => True

/-- What follows does not matter. -/
abbrev Anywhere : List Token → Prop := fun _ => True

/-- What a reader takes is the writing of what it makes, which has a property, if what follows is as
it should be. -/
def Keeps (host : HostSyntax) (follows : List Token → Prop) (x : Reader α)
    (write : α → List Token → Prop) (P : α → Prop) : Prop :=
  ∀ i a j, host.KeepsPaths i.tokens → follows j.tokens → Reads x i a j →
    Consumes i (write a) j ∧ P a

/-! ## Postfixes -/

theorem consumes_countLiteral {n : CountLiteral} (h : Reads countLiteral i n j) :
    Consumes i n.IsWritten j := by
  obtain ⟨negative, spelling, magnitude⟩ := n
  obtain ⟨rest, rfl, ⟨hn, he⟩ | ⟨hn, joint, he⟩⟩ := reads_countLiteral.1 h
  · obtain rfl : negative = false := hn
    exact (Consumes.refl i).trans (.token he)
  · obtain rfl : negative = true := hn
    have hsign := Consumes.operator (afterOperator_single.2 ⟨joint, he⟩)
    exact hsign.trans (.token rfl)

theorem TakesPostfix.consumes {p : Postfix} (h : TakesPostfix i p k) :
    Consumes i p.IsWritten k := by
  cases p with
  | star | plus | optional =>
      obtain ⟨rest, hop, rfl⟩ := h
      exact Consumes.operator hop
  | rep n =>
      obtain ⟨content, rest, he, hinside⟩ := h
      obtain ⟨k', hn, rfl⟩ := reads_inside.1 hinside
      exact .group he (consumes_countLiteral hn)

theorem proper_apply {P : Path → Prop} {p : Postfix} {t : Term} (ht : t.Proper P)
    (hnot : t.isComplement = false) :
    (p.apply t).Proper P ∧ (p.apply t).isComplement = false := by
  cases p <;> exact ⟨⟨hnot, ht⟩, rfl⟩

/-- What follows a term is taken as its postfixes. -/
theorem consumes_postfixes {t t' : Term} (h : Reads (postfixes s t) k t' j)
    (hconsumes : Consumes i (t.IsWritten W) k) (ht : t.Proper AnyPath)
    (hnot : t.isComplement = false) : Consumes i (t'.IsWritten W) j ∧ t'.Proper AnyPath := by
  induction s generalizing k t with
  | zero => exact absurd h not_reads_throw
  | succ s ih =>
      rcases reads_postfixes.1 h with ⟨p, k', hp, h⟩ | ⟨-, rfl, rfl⟩
      · obtain ⟨hproper, hnot'⟩ := proper_apply (p := p) ht hnot
        have hmore := hconsumes.trans hp.consumes
        rw [← p.isWritten_apply] at hmore
        exact ih h hmore hproper hnot'
      · exact ⟨hconsumes, ht⟩

/-! ## Each reader -/

theorem keeps_atom
    (hbody : Keeps host EndsBranch (alternatives host s) (·.IsWritten host.WritesPath)
      (·.Proper AnyPath)) :
    Keeps host Anywhere (atom host (s + 1)) (·.IsWritten host.WritesPath)
      fun t => t.Proper AnyPath ∧ t.isComplement = false := by
  intro i t j hpaths _ h
  cases reads_atom.1 h with
  | @group content rest body k he hread hk =>
      rw [he] at hpaths
      -- Nothing is left in the group, and a branch may end there.
      have hends : EndsBranch k.tokens := hk ▸ .ending
      obtain ⟨hconsumes, hproper⟩ := hbody ⟨content, i.overfull⟩ body k hpaths.within hends hread
      refine ⟨?_, hproper, rfl⟩
      have hgroup := Consumes.group he hconsumes
      rwa [afterGroup, hk, List.isEmpty_nil, if_pos rfl, Option.or_none] at hgroup
  | range he hop =>
      exact ⟨((Consumes.token he).trans (.operator hop)).trans (.token rfl), trivial, rfl⟩
  | char he _ => exact ⟨.token he, trivial, rfl⟩
  | text he => exact ⟨.token he, trivial, rfl⟩
  | any he => exact ⟨.token he, trivial, rfl⟩
  | rule he hname => exact ⟨.token he, hname, rfl⟩

theorem keeps_term
    (hatom : Keeps host Anywhere (atom host s) (·.IsWritten host.WritesPath)
      fun t => t.Proper AnyPath ∧ t.isComplement = false)
    (hterm : Keeps host Anywhere (term host s) (·.IsWritten host.WritesPath) (·.Proper AnyPath)) :
    Keeps host Anywhere (term host (s + 1)) (·.IsWritten host.WritesPath) (·.Proper AnyPath) := by
  intro i t j hpaths _ h
  rcases reads_term.1 h with ⟨rest, t', hop, ht, rfl⟩ | ⟨-, a, k, ha, ht⟩
  · have htilde := Consumes.operator hop
    obtain ⟨hconsumes, hproper⟩ := hterm _ _ _ (hpaths.consumes htilde) trivial ht
    exact ⟨htilde.trans hconsumes, hproper⟩
  · obtain ⟨hconsumes, hproper, hnot⟩ := hatom _ _ _ hpaths trivial ha
    exact consumes_postfixes ht hconsumes hproper hnot

theorem keeps_terms
    (hterm : Keeps host Anywhere (term host s) (·.IsWritten host.WritesPath) (·.Proper AnyPath))
    (hterms : Keeps host Anywhere (terms host s) (TermsWritten host.WritesPath)
      (ProperTerms AnyPath)) :
    Keeps host Anywhere (terms host (s + 1)) (TermsWritten host.WritesPath)
      (ProperTerms AnyPath) := by
  intro i ts j hpaths _ h
  rcases reads_terms.1 h with ⟨-, rfl, rfl⟩ | ⟨-, t, k, ts', ht, hts, rfl⟩
  · exact ⟨.refl j, trivial⟩
  · obtain ⟨hconsumes, hproper⟩ := hterm _ _ _ hpaths trivial ht
    obtain ⟨hconsumes', hproper'⟩ := hterms _ _ _ (hpaths.consumes hconsumes) trivial hts
    exact ⟨hconsumes.trans hconsumes', hproper, hproper'⟩

theorem keeps_reducer :
    Keeps host EndsBranch (reducer host) (ReducerWritten host.WritesPath) fun _ => True := by
  intro i r j hpaths hends h
  rcases reads_reducer.1 h with ⟨rest, p, hop, hp, rfl⟩ | ⟨-, rfl, rfl⟩
  · have harrow := Consumes.operator hop
    have hpath := (hpaths.consumes harrow).consumes_path hp hends
    exact ⟨harrow.trans hpath, trivial⟩
  · exact ⟨.refl j, trivial⟩

theorem keeps_branch
    (hterms : Keeps host Anywhere (terms host s) (TermsWritten host.WritesPath)
      (ProperTerms AnyPath)) :
    Keeps host EndsBranch (branch host (s + 1)) (·.IsWritten host.WritesPath)
      (·.Proper AnyPath) := by
  rintro i ⟨ts, r⟩ j hpaths hends h
  obtain ⟨k, hts, hr⟩ := reads_branch.1 h
  obtain ⟨hconsumes, hproper⟩ := hterms _ _ _ hpaths trivial hts
  obtain ⟨hconsumes', -⟩ := keeps_reducer _ _ _ (hpaths.consumes hconsumes) hends hr
  exact ⟨hconsumes.trans hconsumes', hproper, fun _ _ => trivial⟩

/-- In front of further branches, and of none, a branch ends. -/
theorem endsBranch_of_reads_furtherBranches {bs : List Branch}
    (h : Reads (furtherBranches host s) i bs j) (hends : EndsBranch j.tokens) :
    EndsBranch i.tokens := by
  cases s with
  | zero => exact absurd h not_reads_throw
  | succ s =>
      rcases reads_furtherBranches.1 h with ⟨rest, -, -, -, hop, -⟩ | ⟨-, -, rfl⟩
      · obtain ⟨joint, he⟩ := afterOperator_single.1 hop
        exact he ▸ .bar joint rest
      · exact hends

theorem keeps_furtherBranches
    (hbranch : Keeps host EndsBranch (branch host s) (·.IsWritten host.WritesPath)
      (·.Proper AnyPath))
    (hbranches : Keeps host EndsBranch (furtherBranches host s) (BranchesWritten host.WritesPath)
      (ProperBranches AnyPath)) :
    Keeps host EndsBranch (furtherBranches host (s + 1)) (BranchesWritten host.WritesPath)
      (ProperBranches AnyPath) := by
  intro i bs j hpaths hends h
  rcases reads_furtherBranches.1 h with ⟨rest, b, k, bs', hop, hb, hbs, rfl⟩ | ⟨-, rfl, rfl⟩
  · have hbar := Consumes.operator hop
    have hrest := hpaths.consumes hbar
    have hbetween := endsBranch_of_reads_furtherBranches hbs hends
    obtain ⟨hconsumes, hproper⟩ := hbranch _ _ _ hrest hbetween hb
    obtain ⟨hconsumes', hproper'⟩ := hbranches _ _ _ (hrest.consumes hconsumes) hends hbs
    exact ⟨(hbar.trans hconsumes).trans hconsumes', hproper, hproper'⟩
  · exact ⟨.refl j, trivial⟩

theorem keeps_alternatives
    (hbranch : Keeps host EndsBranch (branch host s) (·.IsWritten host.WritesPath)
      (·.Proper AnyPath))
    (hbranches : Keeps host EndsBranch (furtherBranches host s) (BranchesWritten host.WritesPath)
      (ProperBranches AnyPath)) :
    Keeps host EndsBranch (alternatives host (s + 1)) (·.IsWritten host.WritesPath)
      (·.Proper AnyPath) := by
  rintro i ⟨first, rest⟩ j hpaths hends h
  obtain ⟨k, hfirst, hrest⟩ := reads_alternatives.1 h
  have hbetween := endsBranch_of_reads_furtherBranches hrest hends
  obtain ⟨hconsumes, hproper⟩ := hbranch _ _ _ hpaths hbetween hfirst
  obtain ⟨hconsumes', hproper'⟩ := hbranches _ _ _ (hpaths.consumes hconsumes) hends hrest
  exact ⟨hconsumes.trans hconsumes', hproper, hproper'⟩

/-! ## All readers -/

/-- The readers of all parts of bodies keep to what is written. -/
structure ReadersKeep (host : HostSyntax) (s : Nat) : Prop where
  atom : Keeps host Anywhere (atom host s) (·.IsWritten host.WritesPath)
    fun t => t.Proper AnyPath ∧ t.isComplement = false
  term : Keeps host Anywhere (term host s) (·.IsWritten host.WritesPath) (·.Proper AnyPath)
  terms : Keeps host Anywhere (terms host s) (TermsWritten host.WritesPath) (ProperTerms AnyPath)
  branch : Keeps host EndsBranch (branch host s) (·.IsWritten host.WritesPath) (·.Proper AnyPath)
  furtherBranches : Keeps host EndsBranch (furtherBranches host s)
    (BranchesWritten host.WritesPath) (ProperBranches AnyPath)
  alternatives : Keeps host EndsBranch (alternatives host s) (·.IsWritten host.WritesPath)
    (·.Proper AnyPath)

theorem keeps_readers (host : HostSyntax) (s : Nat) : ReadersKeep host s := by
  induction s with
  | zero =>
      have hnone {α : Type} {follows : List Token → Prop} {write : α → List Token → Prop}
          {P : α → Prop} : Keeps host follows (throw .unfinished) write P :=
        fun _ _ _ _ _ h => absurd h not_reads_throw
      exact ⟨hnone, hnone, hnone, hnone, hnone, hnone⟩
  | succ s ih =>
      exact ⟨keeps_atom ih.alternatives, keeps_term ih.atom ih.term, keeps_terms ih.term ih.terms,
        keeps_branch ih.terms, keeps_furtherBranches ih.branch ih.furtherBranches,
        keeps_alternatives ih.branch ih.furtherBranches⟩

theorem keeps_ruleDefinition :
    Keeps host Anywhere (ruleDefinition host s) (·.IsWritten host.WritesPath)
      (·.Proper AnyPath) := by
  intro i r j hpaths _ h
  obtain ⟨rest, rest', rest'', k, he, hname, hop, hbody, hop', rfl⟩ := reads_ruleDefinition.1 h
  have hfront := (Consumes.token he).trans (Consumes.operator hop)
  have hends : EndsBranch k.tokens := by
    obtain ⟨joint, hk⟩ := afterOperator_single.1 hop'
    exact hk ▸ .semicolon joint rest''
  obtain ⟨hconsumes, hproper⟩ :=
    (keeps_readers host s).alternatives _ _ _ (hpaths.consumes hfront) hends hbody
  exact ⟨(hfront.trans hconsumes).trans (.operator hop'), hname, hproper⟩

end Reader

/-- A sequence of tokens that is accepted as a rule is the writing of the rule, which is proper. -/
theorem RuleDefinition.isWritten_of_ofTokens {host : HostSyntax} {tokens : List Token}
    {r : RuleDefinition} (hpaths : host.KeepsPaths tokens)
    (h : RuleDefinition.ofTokens host tokens = .ok r) :
    r.Proper AnyPath ∧ r.IsWritten host.WritesPath tokens := by
  obtain ⟨⟨taken, htokens, hwritten⟩, hproper⟩ :=
    keeps_ruleDefinition _ _ _ hpaths trivial (reads_readAll.1 h)
  rw [List.append_nil] at htokens
  obtain rfl : tokens = taken := htokens
  exact ⟨hproper, (hwritten rfl).2⟩

end DerivativeParsing.Notation
