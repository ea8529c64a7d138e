import DerivativeParsing.Proofs.Readers

/-!
# Writing bodies

The body of a rule is written as it is read: a choice with bars between its branches, the reducer of
a branch at its end, `~` in front of a term, and whatever else applies to a term after it.  So a
complement cannot be written as the operand of `*`, `+`, `?` or a count, except in a group: `~a*` is
the complement of `a*`.  `Proper` says of a body that it has no such operands, and that names are
names.

`tokens` writes a body with all operators standing alone.  `IsWritten` is the grammar of the notation:
the last character of an operator may be joint to what follows, as in `b+;`, `a*|b` and `a||b`, which
makes no difference, while the characters of one operator have to be joint.

What a reducer's path is belongs to the host language.  `HostSyntax.ReadsPath` says what sequences of
tokens a path is read from, and `HostSyntax.KeepsPaths` what is assumed of reading paths in a sequence
of tokens.
-/

set_option autoImplicit false

namespace DerivativeParsing.Notation

open Lookahead Reader

/-! ## Tokens -/

/-- The token of a character. -/
def CharLiteral.token (c : CharLiteral) : Token := .literal c.spelling (.character c.value)

/-- The token of a text. -/
def TextLiteral.token (t : TextLiteral) : Token := .literal t.spelling (.text t.value.toList)

/-- The tokens of a count. -/
def CountLiteral.tokens (n : CountLiteral) : List Token :=
  (if n.negative then [.alone '-'] else []) ++ [.literal n.spelling (.number n.magnitude)]

/-- The tokens of a reducer with its arrow. -/
def reducerTokens : Option Path → List Token
  | some p => Token.operator ['=', '>'] ++ p.tokens
  | none => []

mutual

/-- The tokens of a term. -/
def Term.tokens : Term → List Token
  | .rule name => [.ident name]
  | .any => [.ident "_"]
  | .char c => [c.token]
  | .range first last => [first.token] ++ Token.operator ['.', '.', '='] ++ [last.token]
  | .text text => [text.token]
  | .group body => [.group .parenthesis body.tokens]
  | .star t => t.tokens ++ [.alone '*']
  | .plus t => t.tokens ++ [.alone '+']
  | .optional t => t.tokens ++ [.alone '?']
  | .rep t n => t.tokens ++ [.group .brace n.tokens]
  | .not t => [.alone '~'] ++ t.tokens

/-- The tokens of a branch. -/
def Branch.tokens : Branch → List Token
  | ⟨terms, reducer⟩ => tokensOfTerms terms ++ reducerTokens reducer

/-- The tokens of a choice. -/
def Alternatives.tokens : Alternatives → List Token
  | ⟨first, rest⟩ => first.tokens ++ tokensOfBranches rest

/-- The tokens of several terms in sequence. -/
def tokensOfTerms : List Term → List Token
  | [] => []
  | t :: ts => t.tokens ++ tokensOfTerms ts

/-- The tokens of branches that follow another one. -/
def tokensOfBranches : List Branch → List Token
  | [] => []
  | b :: bs => [.alone '|'] ++ b.tokens ++ tokensOfBranches bs

end

/-- The tokens of a rule. -/
def RuleDefinition.tokens (r : RuleDefinition) : List Token :=
  [.ident r.name, .alone '='] ++ r.body.tokens ++ [.alone ';']

/-! ## Proper bodies -/

/-- Whether a term is a complement. -/
def Term.isComplement : Term → Bool
  | .not _ => true
  | _ => false

mutual

/-- A term is written as it is read, if the paths in it have a property. -/
def Term.Proper (P : Path → Prop) : Term → Prop
  | .rule name => isKeyword name = false
  | .any | .char _ | .range _ _ | .text _ => True
  | .group body => body.Proper P
  | .star t | .plus t | .optional t | .rep t _ => t.isComplement = false ∧ t.Proper P
  | .not t => t.Proper P

/-- So is a branch. -/
def Branch.Proper (P : Path → Prop) : Branch → Prop
  | ⟨terms, reducer⟩ => ProperTerms P terms ∧ ∀ p ∈ reducer, P p

/-- So is a choice. -/
def Alternatives.Proper (P : Path → Prop) : Alternatives → Prop
  | ⟨first, rest⟩ => first.Proper P ∧ ProperBranches P rest

/-- So are several terms. -/
def ProperTerms (P : Path → Prop) : List Term → Prop
  | [] => True
  | t :: ts => t.Proper P ∧ ProperTerms P ts

/-- So are several branches. -/
def ProperBranches (P : Path → Prop) : List Branch → Prop
  | [] => True
  | b :: bs => b.Proper P ∧ ProperBranches P bs

end

/-- So is a rule. -/
def RuleDefinition.Proper (P : Path → Prop) (r : RuleDefinition) : Prop :=
  isKeyword r.name = false ∧ r.body.Proper P

/-! ## How bodies are written -/

/-- How a count is written. -/
def CountLiteral.IsWritten (n : CountLiteral) : List Token → Prop :=
  Followed (if n.negative then Spells ['-'] else (· = []))
    (· = [.literal n.spelling (.number n.magnitude)])

/-- How a reducer with its arrow is written, where `W` says how paths are. -/
def ReducerWritten (W : Path → List Token → Prop) : Option Path → List Token → Prop
  | some p => Followed (Spells ['=', '>']) (W p)
  | none => (· = [])

mutual

/-- How a term is written, where `W` says how paths are. -/
def Term.IsWritten (W : Path → List Token → Prop) : Term → List Token → Prop
  | .rule name => (· = [.ident name])
  | .any => (· = [.ident "_"])
  | .char c => (· = [c.token])
  | .range first last =>
      Followed (Followed (· = [first.token]) (Spells ['.', '.', '='])) (· = [last.token])
  | .text text => (· = [text.token])
  | .group body => Grouped .parenthesis (body.IsWritten W)
  | .star t => Followed (t.IsWritten W) (Spells ['*'])
  | .plus t => Followed (t.IsWritten W) (Spells ['+'])
  | .optional t => Followed (t.IsWritten W) (Spells ['?'])
  | .rep t n => Followed (t.IsWritten W) (Grouped .brace n.IsWritten)
  | .not t => Followed (Spells ['~']) (t.IsWritten W)

/-- How a branch is written. -/
def Branch.IsWritten (W : Path → List Token → Prop) : Branch → List Token → Prop
  | ⟨terms, reducer⟩ => Followed (TermsWritten W terms) (ReducerWritten W reducer)

/-- How a choice is written. -/
def Alternatives.IsWritten (W : Path → List Token → Prop) : Alternatives → List Token → Prop
  | ⟨first, rest⟩ => Followed (first.IsWritten W) (BranchesWritten W rest)

/-- How several terms in sequence are written. -/
def TermsWritten (W : Path → List Token → Prop) : List Term → List Token → Prop
  | [] => (· = [])
  | t :: ts => Followed (t.IsWritten W) (TermsWritten W ts)

/-- How branches that follow another one are written. -/
def BranchesWritten (W : Path → List Token → Prop) : List Branch → List Token → Prop
  | [] => (· = [])
  | b :: bs => Followed (Followed (Spells ['|']) (b.IsWritten W)) (BranchesWritten W bs)

end

/-- How a rule is written. -/
def RuleDefinition.IsWritten (W : Path → List Token → Prop) (r : RuleDefinition) :
    List Token → Prop :=
  Followed (Followed (Followed (· = [.ident r.name]) (Spells ['='])) (r.body.IsWritten W))
    (Spells [';'])

section IsWritten

variable {W : Path → List Token → Prop} {P : Path → Prop}

/-! ### The tokens of a body -/

theorem CountLiteral.isWritten_tokens (n : CountLiteral) : n.IsWritten n.tokens := by
  refine .append ?_ rfl
  split
  · exact spells_operator ['-']
  · rfl

theorem reducerWritten_tokens {r : Option Path} (hr : ∀ p ∈ r, W p p.tokens) :
    ReducerWritten W r (reducerTokens r) := by
  cases r with
  | none => rfl
  | some p => exact .append (spells_operator _) (hr p rfl)

mutual

/-- A proper term is written with its tokens, if its paths are written with theirs. -/
theorem Term.isWritten_tokens (hP : ∀ p, P p → W p p.tokens) {t : Term} (ht : t.Proper P) :
    t.IsWritten W t.tokens := by
  cases t with
  | rule | any | char | text => rfl
  | range => exact .append (.append rfl (spells_operator _)) rfl
  | group body => exact ⟨_, Alternatives.isWritten_tokens hP ht, rfl⟩
  | star t | plus t | optional t =>
      exact .append (Term.isWritten_tokens hP ht.2) (spells_operator _)
  | rep t n => exact .append (Term.isWritten_tokens hP ht.2) ⟨_, n.isWritten_tokens, rfl⟩
  | not t => exact .append (spells_operator ['~']) (Term.isWritten_tokens hP (t := t) ht)

theorem Branch.isWritten_tokens (hP : ∀ p, P p → W p p.tokens) {b : Branch} (hb : b.Proper P) :
    b.IsWritten W b.tokens := by
  obtain ⟨ts, r⟩ := b
  exact .append (termsWritten_tokens hP hb.1) (reducerWritten_tokens fun p hp => hP p (hb.2 p hp))

theorem Alternatives.isWritten_tokens (hP : ∀ p, P p → W p p.tokens) {body : Alternatives}
    (hbody : body.Proper P) : body.IsWritten W body.tokens := by
  obtain ⟨first, rest⟩ := body
  exact .append (Branch.isWritten_tokens hP hbody.1) (branchesWritten_tokens hP hbody.2)

theorem termsWritten_tokens (hP : ∀ p, P p → W p p.tokens) {ts : List Term}
    (hts : ProperTerms P ts) : TermsWritten W ts (tokensOfTerms ts) := by
  cases ts with
  | nil => rfl
  | cons t ts => exact .append (Term.isWritten_tokens hP hts.1) (termsWritten_tokens hP hts.2)

theorem branchesWritten_tokens (hP : ∀ p, P p → W p p.tokens) {bs : List Branch}
    (hbs : ProperBranches P bs) : BranchesWritten W bs (tokensOfBranches bs) := by
  cases bs with
  | nil => rfl
  | cons b bs =>
      exact .append (.append (spells_operator ['|']) (Branch.isWritten_tokens hP hbs.1))
        (branchesWritten_tokens hP hbs.2)

end

/-- A proper rule is written with its tokens, if its paths are written with theirs. -/
theorem RuleDefinition.isWritten_tokens (hP : ∀ p, P p → W p p.tokens) {r : RuleDefinition}
    (hr : r.Proper P) : r.IsWritten W r.tokens := by
  have hfront : Followed (· = [.ident r.name]) (Spells ['=']) ([.ident r.name] ++ [.alone '=']) :=
    .append rfl (spells_operator ['='])
  exact .append (.append hfront (Alternatives.isWritten_tokens hP hr.2)) (spells_operator [';'])

/-! ### Other ways to write a body -/

theorem CountLiteral.IsWritten.alike {n : CountLiteral} {ts : List Token} (h : n.IsWritten ts) :
    Alike n.tokens ts := by
  obtain ⟨negative, spelling, magnitude⟩ := n
  refine Followed.alike h (fun us hus => ?_) fun us hus => hus ▸ .refl _
  rcases negative with _ | _
  · obtain rfl : us = [] := hus
    exact .refl []
  · have hus : Spells ['-'] us := hus
    exact hus.alike

theorem reducerWritten_alike (hW : ∀ p ts, W p ts → Alike p.tokens ts) {r : Option Path}
    {ts : List Token} (h : ReducerWritten W r ts) : Alike (reducerTokens r) ts := by
  cases r with
  | none => exact h ▸ .refl []
  | some p => exact Followed.alike h (fun _ => Spells.alike) (hW p)

mutual

/-- All ways to write a term are alike, if those to write a path are. -/
theorem Term.IsWritten.alike (hW : ∀ p ts, W p ts → Alike p.tokens ts) {t : Term} {ts : List Token}
    (h : t.IsWritten W ts) : Alike t.tokens ts := by
  cases t with
  | rule | any | char | text => exact h ▸ .refl _
  | range =>
      refine Followed.alike h (fun us hus => ?_) fun us hus => hus ▸ .refl _
      exact Followed.alike hus (fun _ hvs => hvs ▸ .refl _) fun _ => Spells.alike
  | group body => exact Grouped.alike h fun us => Alternatives.IsWritten.alike hW
  | star t | plus t | optional t =>
      exact Followed.alike h (fun us => Term.IsWritten.alike hW) fun _ => Spells.alike
  | rep t n =>
      exact Followed.alike h (fun us => Term.IsWritten.alike hW) fun us hus =>
        Grouped.alike hus fun _ => CountLiteral.IsWritten.alike
  | not t => exact Followed.alike h (fun _ => Spells.alike) fun us => Term.IsWritten.alike hW

theorem Branch.IsWritten.alike (hW : ∀ p ts, W p ts → Alike p.tokens ts) {b : Branch}
    {ts : List Token} (h : b.IsWritten W ts) : Alike b.tokens ts := by
  obtain ⟨terms, r⟩ := b
  exact Followed.alike h (fun us => termsWritten_alike hW) fun us => reducerWritten_alike hW

theorem Alternatives.IsWritten.alike (hW : ∀ p ts, W p ts → Alike p.tokens ts) {body : Alternatives}
    {ts : List Token} (h : body.IsWritten W ts) : Alike body.tokens ts := by
  obtain ⟨first, rest⟩ := body
  exact Followed.alike h (fun us => Branch.IsWritten.alike hW) fun us => branchesWritten_alike hW

theorem termsWritten_alike (hW : ∀ p ts, W p ts → Alike p.tokens ts) {terms : List Term}
    {ts : List Token} (h : TermsWritten W terms ts) : Alike (tokensOfTerms terms) ts := by
  cases terms with
  | nil => exact h ▸ .refl []
  | cons t terms =>
      exact Followed.alike h (fun us => Term.IsWritten.alike hW) fun us => termsWritten_alike hW

theorem branchesWritten_alike (hW : ∀ p ts, W p ts → Alike p.tokens ts) {bs : List Branch}
    {ts : List Token} (h : BranchesWritten W bs ts) : Alike (tokensOfBranches bs) ts := by
  cases bs with
  | nil => exact h ▸ .refl []
  | cons b bs =>
      refine Followed.alike h (fun us hus => ?_) fun us => branchesWritten_alike hW
      exact Followed.alike hus (fun _ => Spells.alike) fun us => Branch.IsWritten.alike hW

end

/-- All ways to write a rule are alike, if those to write a path are. -/
theorem RuleDefinition.IsWritten.alike (hW : ∀ p ts, W p ts → Alike p.tokens ts)
    {r : RuleDefinition} {ts : List Token} (h : r.IsWritten W ts) : Alike r.tokens ts := by
  have hfront : ∀ us, Followed (· = [.ident r.name]) (Spells ['=']) us →
      Alike ([.ident r.name] ++ [.alone '=']) us := fun us hus =>
    Followed.alike hus (fun _ hvs => hvs ▸ .refl _) fun _ => Spells.alike
  refine Followed.alike h (fun us hus => ?_) fun _ => Spells.alike
  exact Followed.alike hus hfront fun us => Alternatives.IsWritten.alike hW

end IsWritten

/-! ## Paths -/

/-- What follows a branch. -/
inductive EndsBranch : List Token → Prop where
  | ending : EndsBranch []
  | bar (joint : Bool) (rest : List Token) : EndsBranch (.punct '|' joint :: rest)
  | semicolon (joint : Bool) (rest : List Token) : EndsBranch (.punct ';' joint :: rest)

/-- At the end of a branch, a path is what is read from a sequence of tokens. -/
def HostSyntax.ReadsPath (host : HostSyntax) (p : Path) (ts : List Token) : Prop :=
  ∀ rest overfull, EndsBranch rest → Reads host.path ⟨ts ++ rest, overfull⟩ p ⟨rest, overfull⟩

/-- A path is read from a sequence of tokens and written as it has been read. -/
def HostSyntax.WritesPath (host : HostSyntax) (p : Path) (ts : List Token) : Prop :=
  host.ReadsPath p ts ∧ Alike p.tokens ts

/-- A place in a sequence of tokens or in the groups in it, with what comes after it there. -/
inductive Place (tokens : List Token) : List Token → Prop where
  | start : Place tokens tokens
  | next {t : Token} {rest : List Token} (h : Place tokens (t :: rest)) : Place tokens rest
  | within {delimiter : Delimiter} {content rest : List Token}
      (h : Place tokens (.group delimiter content :: rest)) : Place tokens content

/-- What is assumed of the paths that are read in a sequence of tokens. -/
structure HostSyntax.KeepsPaths (host : HostSyntax) (tokens : List Token) : Prop where
  /-- A path is read from the front of what is left to read, and no group that held more than it
  should is forgotten. -/
  takes : ∀ {here overfull p j}, Place tokens here → Reads host.path ⟨here, overfull⟩ p j →
    ∃ ts, here = ts ++ j.tokens ∧ (j.overfull = none → overfull = none)
  /-- What a path is read as at the end of a branch does not depend on what comes after. -/
  steady : ∀ {ts rest p}, Place tokens (ts ++ rest) → EndsBranch rest →
    Reads host.path ⟨ts ++ rest, none⟩ p ⟨rest, none⟩ → host.ReadsPath p ts
  /-- A path is written as it has been read. -/
  unchanged : ∀ {ts rest p}, Place tokens (ts ++ rest) → host.ReadsPath p ts → Alike p.tokens ts

section Place

variable {tokens here there : List Token} {t : Token}

theorem Place.trans (h : Place tokens here) (h' : Place here there) : Place tokens there := by
  induction h' with
  | start => exact h
  | next _ ih => exact ih.next
  | within _ ih => exact ih.within

theorem Place.suffix {taken : List Token} (h : Place tokens (taken ++ here)) : Place tokens here := by
  induction taken with
  | nil => exact h
  | cons t taken ih => exact ih h.next

namespace HostSyntax.KeepsPaths

variable {host : HostSyntax}

theorem place (h : host.KeepsPaths tokens) (hplace : Place tokens here) : host.KeepsPaths here where
  takes hthere := h.takes (hplace.trans hthere)
  steady hthere := h.steady (hplace.trans hthere)
  unchanged hthere := h.unchanged (hplace.trans hthere)

/-- They are still kept after something has been taken. -/
theorem consumes {i j : Input} {W : List Token → Prop} (h : host.KeepsPaths i.tokens)
    (hij : Consumes i W j) : host.KeepsPaths j.tokens := by
  obtain ⟨taken, htokens, -⟩ := hij
  rw [htokens] at h
  exact h.place Place.start.suffix

theorem within {delimiter : Delimiter} {content rest : List Token}
    (h : host.KeepsPaths (.group delimiter content :: rest)) : host.KeepsPaths content :=
  h.place Place.start.within

/-- What is taken by reading a path at the end of a branch. -/
theorem consumes_path {i j : Input} {p : Path} (h : host.KeepsPaths i.tokens)
    (hread : Reads host.path i p j) (hends : EndsBranch j.tokens) :
    Consumes i (host.WritesPath p) j := by
  obtain ⟨tokens, overfull⟩ := i
  obtain ⟨rest, overfull'⟩ := j
  obtain ⟨ts, rfl, hover⟩ := h.takes .start hread
  refine ⟨ts, rfl, fun hnone => ?_⟩
  obtain rfl : overfull' = none := hnone
  obtain rfl : overfull = none := hover rfl
  have hpath : host.ReadsPath p ts := h.steady .start hends hread
  exact ⟨rfl, hpath, h.unchanged .start hpath⟩

end HostSyntax.KeepsPaths

end Place

end DerivativeParsing.Notation
