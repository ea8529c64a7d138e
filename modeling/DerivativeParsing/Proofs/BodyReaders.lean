import DerivativeParsing.Proofs.Writing

/-!
# What the readers of bodies do

One equivalence for each reader of a part of a body: what it makes of an input, in terms of the
tokens in front and of what the readers that it calls make of them.  A term is followed by any
number of postfixes (`Postfix`), which are taken one by one.
-/

set_option autoImplicit false

namespace DerivativeParsing.Notation

/-! ## Operators of one character -/

namespace Lookahead

variable {c d : Char} {joint : Bool} {ts rest : List Token}

theorem afterOperator_single_punct :
    afterOperator [c] (.punct d joint :: rest) = if c = d then some rest else none := rfl

theorem afterOperator_single :
    afterOperator [c] ts = some rest ↔ ∃ joint, ts = .punct c joint :: rest := by
  rw [afterOperator_eq_some]
  constructor
  · rintro ⟨us, hus, rfl⟩
    obtain ⟨joint, rfl⟩ := spells_single.1 hus
    exact ⟨joint, rfl⟩
  · rintro ⟨joint, rfl⟩
    exact ⟨_, spells_single.2 ⟨joint, rfl⟩, rfl⟩

end Lookahead

/-! ## Postfixes -/

/-- What can follow a term and apply to it. -/
inductive Postfix where
  | star
  | plus
  | optional
  | rep (n : CountLiteral)

/-- A term with a postfix. -/
def Postfix.apply (t : Term) : Postfix → Term
  | .star => .star t
  | .plus => .plus t
  | .optional => .optional t
  | .rep n => .rep t n

namespace Reader

open Lookahead

variable {host : HostSyntax} {i j k : Input} {s : Nat}

/-- A postfix has been taken. -/
def TakesPostfix (i : Input) : Postfix → Input → Prop
  | .star, j => ∃ rest, afterOperator ['*'] i.tokens = some rest ∧ j = ⟨rest, i.overfull⟩
  | .plus, j => ∃ rest, afterOperator ['+'] i.tokens = some rest ∧ j = ⟨rest, i.overfull⟩
  | .optional, j => ∃ rest, afterOperator ['?'] i.tokens = some rest ∧ j = ⟨rest, i.overfull⟩
  | .rep n, j => ∃ content rest, i.tokens = .group .brace content :: rest ∧
      Reads (inside .brace content countLiteral) ⟨rest, i.overfull⟩ n j

/-- No postfix comes next. -/
structure NoPostfix (tokens : List Token) : Prop where
  star : afterOperator ['*'] tokens = none
  plus : afterOperator ['+'] tokens = none
  optional : afterOperator ['?'] tokens = none
  brace : ∀ content rest, tokens ≠ .group .brace content :: rest

theorem reads_postfixes {t t' : Term} :
    Reads (postfixes (s + 1) t) i t' j ↔
      (∃ p k, TakesPostfix i p k ∧ Reads (postfixes s (p.apply t)) k t' j) ∨
        NoPostfix i.tokens ∧ t = t' ∧ i = j := by
  rw [postfixes]
  constructor
  · intro h
    rcases reads_accept_bind.1 h with ⟨rest, hstar, h⟩ | ⟨hstar, h⟩
    · exact .inl ⟨.star, _, ⟨rest, hstar, rfl⟩, h⟩
    rcases reads_accept_bind.1 h with ⟨rest, hplus, h⟩ | ⟨hplus, h⟩
    · exact .inl ⟨.plus, _, ⟨rest, hplus, rfl⟩, h⟩
    rcases reads_accept_bind.1 h with ⟨rest, hopt, h⟩ | ⟨hopt, h⟩
    · exact .inl ⟨.optional, _, ⟨rest, hopt, rfl⟩, h⟩
    rw [if_neg (by decide), reads_remaining_bind] at h
    split at h
    · next content rest hbrace =>
        obtain ⟨n, k, hn, h⟩ := reads_bind.1 (reads_leave_bind.1 h)
        exact .inl ⟨.rep n, k, ⟨content, rest, hbrace, hn⟩, h⟩
    · next hbrace =>
        exact .inr ⟨⟨hstar, hplus, hopt, hbrace⟩, reads_pure.1 h⟩
  · -- The postfixes are tried in turn: where one comes next, those tried before do not.
    have hother {c d : Char} {rest : List Token} (hcd : c ≠ d)
        (h : afterOperator [d] i.tokens = some rest) : afterOperator [c] i.tokens = none := by
      obtain ⟨joint, he⟩ := afterOperator_single.1 h
      rw [he, afterOperator_single_punct, if_neg hcd]
    have hbrace {c : Char} {content rest : List Token} (h : i.tokens = .group .brace content :: rest) :
        afterOperator [c] i.tokens = none := by
      rw [h]
      rfl
    rintro (⟨p, k, hp, h⟩ | ⟨hno, rfl, rfl⟩)
    · cases p with
      | star =>
          obtain ⟨rest, hop, rfl⟩ := hp
          exact reads_accept_bind.2 (.inl ⟨rest, hop, h⟩)
      | plus =>
          obtain ⟨rest, hop, rfl⟩ := hp
          refine reads_accept_bind.2 (.inr ⟨hother (by decide) hop, ?_⟩)
          exact reads_accept_bind.2 (.inl ⟨rest, hop, h⟩)
      | optional =>
          obtain ⟨rest, hop, rfl⟩ := hp
          refine reads_accept_bind.2 (.inr ⟨hother (by decide) hop, ?_⟩)
          refine reads_accept_bind.2 (.inr ⟨hother (by decide) hop, ?_⟩)
          exact reads_accept_bind.2 (.inl ⟨rest, hop, h⟩)
      | rep n =>
          obtain ⟨content, rest, he, hn⟩ := hp
          refine reads_accept_bind.2 (.inr ⟨hbrace he, reads_accept_bind.2 (.inr ⟨hbrace he, ?_⟩)⟩)
          refine reads_accept_bind.2 (.inr ⟨hbrace he, ?_⟩)
          rw [if_neg (by decide), reads_remaining_bind, he]
          exact reads_leave_bind.2 (hn.bind h)
    · refine reads_accept_bind.2 (.inr ⟨hno.star, reads_accept_bind.2 (.inr ⟨hno.plus, ?_⟩)⟩)
      refine reads_accept_bind.2 (.inr ⟨hno.optional, ?_⟩)
      rw [if_neg (by decide), reads_remaining_bind]
      split
      · next content rest he => exact absurd he (hno.brace content rest)
      · exact reads_pure.2 ⟨rfl, rfl⟩

/-! ## Literals -/

theorem reads_countLiteral {n : CountLiteral} :
    Reads countLiteral i n j ↔ ∃ rest, j = ⟨rest, i.overfull⟩ ∧
      (n.negative = false ∧ i.tokens = .literal n.spelling (.number n.magnitude) :: rest ∨
        n.negative = true ∧ ∃ joint, i.tokens =
          .punct '-' joint :: .literal n.spelling (.number n.magnitude) :: rest) := by
  rw [countLiteral, reads_remaining_bind]
  split
  · next spelling m rest he =>
      rw [reads_leave_bind, reads_pure]
      constructor
      · rintro ⟨rfl, rfl⟩
        exact ⟨rest, rfl, .inl ⟨rfl, he⟩⟩
      · rintro ⟨rest', rfl, ⟨hn, he'⟩ | ⟨-, joint, he'⟩⟩
        · cases he.symm.trans he'
          obtain ⟨negative, spelling, m⟩ := n
          cases hn
          exact ⟨rfl, rfl⟩
        · cases he.symm.trans he'
  · next joint spelling m rest he =>
      rw [reads_leave_bind, reads_pure]
      constructor
      · rintro ⟨rfl, rfl⟩
        exact ⟨rest, rfl, .inr ⟨rfl, joint, he⟩⟩
      · rintro ⟨rest', rfl, ⟨-, he'⟩ | ⟨hn, joint, he'⟩⟩
        · cases he.symm.trans he'
        · cases he.symm.trans he'
          obtain ⟨negative, spelling, m⟩ := n
          cases hn
          exact ⟨rfl, rfl⟩
  · next hliteral hminus =>
      constructor
      · exact fun h => absurd h not_reads_missing
      · rintro ⟨rest, rfl, ⟨-, he⟩ | ⟨-, joint, he⟩⟩
        · exact absurd he (hliteral _ _ _)
        · exact absurd he (hminus _ _ _ _)

theorem reads_characterLiteral {c : CharLiteral} :
    Reads characterLiteral i c j ↔
      ∃ rest, i.tokens = c.token :: rest ∧ j = ⟨rest, i.overfull⟩ := by
  rw [characterLiteral, reads_remaining_bind]
  split
  · next spelling value rest he =>
      rw [reads_leave_bind, reads_pure]
      constructor
      · rintro ⟨rfl, rfl⟩
        exact ⟨rest, he, rfl⟩
      · rintro ⟨rest', he', rfl⟩
        cases he.symm.trans he'
        exact ⟨rfl, rfl⟩
  · next hne =>
      constructor
      · exact fun h => absurd h not_reads_missing
      · rintro ⟨rest, he, -⟩
        exact absurd he (hne _ _ _)

/-! ## Atoms -/

/-- What a term without postfixes is read from. -/
inductive ReadsAtom (host : HostSyntax) (s : Nat) (i : Input) : Term → Input → Prop where
  | group {content rest : List Token} {body : Alternatives} {k : Input}
      (h : i.tokens = .group .parenthesis content :: rest)
      (hbody : Reads (alternatives host s) ⟨content, i.overfull⟩ body k) (hk : k.tokens = []) :
      ReadsAtom host s i (.group body) ⟨rest, k.overfull⟩
  | range {first last : CharLiteral} {rest rest' : List Token} (h : i.tokens = first.token :: rest)
      (hop : afterOperator ['.', '.', '='] rest = some (last.token :: rest')) :
      ReadsAtom host s i (.range first last) ⟨rest', i.overfull⟩
  | char {c : CharLiteral} {rest : List Token} (h : i.tokens = c.token :: rest)
      (hop : afterOperator ['.', '.', '='] rest = none) : ReadsAtom host s i (.char c) ⟨rest, i.overfull⟩
  | text {t : TextLiteral} {rest : List Token} (h : i.tokens = t.token :: rest) :
      ReadsAtom host s i (.text t) ⟨rest, i.overfull⟩
  | any {rest : List Token} (h : i.tokens = .ident "_" :: rest) :
      ReadsAtom host s i .any ⟨rest, i.overfull⟩
  | rule {name : String} {rest : List Token} (h : i.tokens = .ident name :: rest)
      (hname : isKeyword name = false) : ReadsAtom host s i (.rule name) ⟨rest, i.overfull⟩

theorem reads_atom_group {content : List Token} {t : Term} :
    Reads (inside .parenthesis content do
      let body ← alternatives host s
      unless (← remaining).isEmpty do throw (.expected Expectation.alternative false)
      pure (.group body)) i t j ↔
    ∃ body k, Reads (alternatives host s) ⟨content, i.overfull⟩ body k ∧ k.tokens = [] ∧
      t = .group body ∧ j = ⟨i.tokens, k.overfull⟩ := by
  have hafter {k : Input} (hk : k.tokens = []) :
      afterGroup .parenthesis i.tokens k = ⟨i.tokens, k.overfull⟩ := by
    rw [afterGroup, hk]
    simp
  rw [reads_inside]
  constructor
  · rintro ⟨k, hinner, rfl⟩
    obtain ⟨body, k', hbody, hrest⟩ := reads_bind.1 hinner
    rw [reads_remaining_bind] at hrest
    rcases htokens : k'.tokens with _ | ⟨t, ts⟩ <;> rw [htokens] at hrest
    · obtain ⟨rfl, rfl⟩ := reads_pure.1 hrest
      exact ⟨body, k', hbody, htokens, rfl, hafter htokens⟩
    · cases hrest
  · rintro ⟨body, k, hbody, hk, rfl, rfl⟩
    refine ⟨k, hbody.bind ?_, (hafter hk).symm⟩
    rw [reads_remaining_bind, hk]
    exact reads_pure.2 ⟨rfl, rfl⟩

theorem reads_atom {t : Term} : Reads (atom host (s + 1)) i t j ↔ ReadsAtom host s i t j := by
  rw [atom, reads_remaining_bind]
  constructor
  · intro h
    split at h
    · next content rest he =>
        obtain ⟨body, k, hbody, hk, rfl, rfl⟩ := reads_atom_group.1 (reads_leave_bind.1 h)
        exact .group he hbody hk
    · next spelling c rest he =>
        rcases reads_accept_bind.1 (reads_leave_bind.1 h) with ⟨rest', hop, h⟩ | ⟨hop, h⟩
        · obtain ⟨last, k, hlast, h⟩ := reads_bind.1 h
          obtain ⟨rest'', he', rfl⟩ := reads_characterLiteral.1 hlast
          obtain ⟨rfl, rfl⟩ := reads_pure.1 h
          exact .range he (he' ▸ hop)
        · obtain ⟨rfl, rfl⟩ := reads_pure.1 h
          exact .char he hop
    · next spelling chars rest he =>
        rw [reads_leave_bind, reads_pure] at h
        obtain ⟨rfl, rfl⟩ := h
        exact .text (he.trans (by rw [TextLiteral.token, String.toList_ofList]))
    · next rest he =>
        rw [reads_leave_bind, reads_pure] at h
        obtain ⟨rfl, rfl⟩ := h
        exact .any he
    · next name rest _ he =>
        by_cases hname : isKeyword name = true
        · rw [if_pos hname] at h
          cases h
        · rw [if_neg hname, reads_leave_bind, reads_pure] at h
          obtain ⟨rfl, rfl⟩ := h
          exact .rule he (Bool.eq_false_iff.2 hname)
    · exact absurd h not_reads_missing
  · intro h
    cases h with
    | group he hbody hk =>
        rw [he]
        exact reads_leave_bind.2 (reads_atom_group.2 ⟨_, _, hbody, hk, rfl, rfl⟩)
    | range he hop =>
        rw [he]
        refine reads_leave_bind.2 (reads_accept_bind.2 (.inl ⟨_, hop, ?_⟩))
        exact (reads_characterLiteral.2 ⟨_, rfl, rfl⟩).bind (reads_pure.2 ⟨rfl, rfl⟩)
    | char he hop =>
        rw [he]
        exact reads_leave_bind.2 (reads_accept_bind.2 (.inr ⟨hop, reads_pure.2 ⟨rfl, rfl⟩⟩))
    | @text t rest he =>
        rw [he]
        refine reads_leave_bind.2 (reads_pure.2 ⟨?_, rfl⟩)
        rw [String.ofList_toList]
    | any he =>
        rw [he]
        exact reads_leave_bind.2 (reads_pure.2 ⟨rfl, rfl⟩)
    | @rule name rest he hname =>
        rw [he]
        split
        · next h => cases h
        · next h => cases h
        · next h => cases h
        · next h =>
            cases h
            exact absurd hname (by decide)
        · next h =>
            cases h
            rw [if_neg (Bool.eq_false_iff.1 hname)]
            exact reads_leave_bind.2 (reads_pure.2 ⟨rfl, rfl⟩)
        · next hne => exact absurd rfl (hne name rest)

/-! ## Terms and branches -/

theorem reads_term {t : Term} :
    Reads (term host (s + 1)) i t j ↔
      (∃ rest t', afterOperator ['~'] i.tokens = some rest ∧
        Reads (term host s) ⟨rest, i.overfull⟩ t' j ∧ t = .not t') ∨
      afterOperator ['~'] i.tokens = none ∧
        ∃ a k, Reads (atom host s) i a k ∧ Reads (postfixes s a) k t j := by
  rw [term, reads_accept_bind]
  refine or_congr ⟨fun ⟨rest, hop, h⟩ => ?_, fun ⟨rest, t', hop, ht, he⟩ => ?_⟩
    (and_congr_right fun _ => reads_bind)
  · obtain ⟨t', k, ht, h⟩ := reads_bind.1 h
    obtain ⟨rfl, rfl⟩ := reads_pure.1 h
    exact ⟨rest, t', hop, ht, rfl⟩
  · exact ⟨rest, hop, ht.bind (reads_pure.2 ⟨he.symm, rfl⟩)⟩

/-- Whether no further term of a branch comes next. -/
def branchEnds (tokens : List Token) : Bool :=
  tokens.isEmpty || atOneOf ["|", ";", "=>"] tokens

theorem reads_terms {ts : List Term} :
    Reads (terms host (s + 1)) i ts j ↔
      branchEnds i.tokens = true ∧ ts = [] ∧ j = i ∨
      branchEnds i.tokens = false ∧
        ∃ t k ts', Reads (term host s) i t k ∧ Reads (terms host s) k ts' j ∧ ts = t :: ts' := by
  have hends {f : Bool → Reader (List Term)} :
      Reads (endsBranch >>= f) i ts j ↔ Reads (f (branchEnds i.tokens)) i ts j := Iff.rfl
  rw [terms, hends]
  rcases branchEnds i.tokens with _ | _
  · simp only [Bool.false_eq_true, false_and, if_false, true_and, false_or]
    constructor
    · intro h
      obtain ⟨t, k, ht, h⟩ := reads_bind.1 h
      obtain ⟨ts', k', hts, h⟩ := reads_bind.1 h
      obtain ⟨rfl, rfl⟩ := reads_pure.1 h
      exact ⟨t, k, ts', ht, hts, rfl⟩
    · rintro ⟨t, k, ts', ht, hts, rfl⟩
      exact ht.bind (hts.bind (reads_pure.2 ⟨rfl, rfl⟩))
  · simp only [if_true, true_and, Bool.true_eq_false, false_and, or_false, reads_pure]
    exact and_congr eq_comm eq_comm

theorem reads_reducer {r : Option Path} :
    Reads (reducer host) i r j ↔
      (∃ rest p, afterOperator ['=', '>'] i.tokens = some rest ∧
        Reads host.path ⟨rest, i.overfull⟩ p j ∧ r = some p) ∨
      afterOperator ['=', '>'] i.tokens = none ∧ r = none ∧ j = i := by
  rw [reducer, reads_accept_bind]
  refine or_congr ⟨fun ⟨rest, hop, h⟩ => ?_, fun ⟨rest, p, hop, hp, he⟩ => ?_⟩
    (and_congr_right fun _ => reads_pure.trans (and_congr eq_comm eq_comm))
  · obtain ⟨p, k, hp, h⟩ := reads_bind.1 h
    obtain ⟨rfl, rfl⟩ := reads_pure.1 h
    exact ⟨rest, p, hop, hp, rfl⟩
  · exact ⟨rest, hop, hp.bind (reads_pure.2 ⟨he.symm, rfl⟩)⟩

theorem reads_branch {b : Branch} :
    Reads (branch host (s + 1)) i b j ↔
      ∃ k, Reads (terms host s) i b.terms k ∧ Reads (reducer host) k b.reducer j := by
  obtain ⟨ts, r⟩ := b
  rw [branch]
  constructor
  · intro h
    obtain ⟨ts', k, hts, h⟩ := reads_bind.1 h
    obtain ⟨r', k', hr, h⟩ := reads_bind.1 h
    obtain ⟨he, rfl⟩ := reads_pure.1 h
    cases he
    exact ⟨k, hts, hr⟩
  · rintro ⟨k, hts, hr⟩
    exact hts.bind (hr.bind (reads_pure.2 ⟨rfl, rfl⟩))

theorem reads_furtherBranches {bs : List Branch} :
    Reads (furtherBranches host (s + 1)) i bs j ↔
      (∃ rest b k bs', afterOperator ['|'] i.tokens = some rest ∧
        Reads (branch host s) ⟨rest, i.overfull⟩ b k ∧ Reads (furtherBranches host s) k bs' j ∧
          bs = b :: bs') ∨
      afterOperator ['|'] i.tokens = none ∧ bs = [] ∧ j = i := by
  rw [furtherBranches, reads_accept_bind]
  refine or_congr ⟨fun ⟨rest, hop, h⟩ => ?_, fun ⟨rest, b, k, bs', hop, hb, hbs, he⟩ => ?_⟩
    (and_congr_right fun _ => reads_pure.trans (and_congr eq_comm eq_comm))
  · obtain ⟨b, k, hb, h⟩ := reads_bind.1 h
    obtain ⟨bs', k', hbs, h⟩ := reads_bind.1 h
    obtain ⟨rfl, rfl⟩ := reads_pure.1 h
    exact ⟨rest, b, k, bs', hop, hb, hbs, rfl⟩
  · exact ⟨rest, hop, hb.bind (hbs.bind (reads_pure.2 ⟨he.symm, rfl⟩))⟩

theorem reads_alternatives {body : Alternatives} :
    Reads (alternatives host (s + 1)) i body j ↔
      ∃ k, Reads (branch host s) i body.first k ∧ Reads (furtherBranches host s) k body.rest j := by
  obtain ⟨first, rest⟩ := body
  rw [alternatives]
  constructor
  · intro h
    obtain ⟨first', k, hfirst, h⟩ := reads_bind.1 h
    obtain ⟨rest', k', hrest, h⟩ := reads_bind.1 h
    obtain ⟨he, rfl⟩ := reads_pure.1 h
    cases he
    exact ⟨k, hfirst, hrest⟩
  · rintro ⟨k, hfirst, hrest⟩
    exact hfirst.bind (hrest.bind (reads_pure.2 ⟨rfl, rfl⟩))

theorem reads_ruleDefinition {r : RuleDefinition} :
    Reads (ruleDefinition host s) i r j ↔
      ∃ rest rest' rest'' k, i.tokens = .ident r.name :: rest ∧ isKeyword r.name = false ∧
        afterOperator ['='] rest = some rest' ∧
        Reads (alternatives host s) ⟨rest', i.overfull⟩ r.body k ∧
        afterOperator [';'] k.tokens = some rest'' ∧ j = ⟨rest'', k.overfull⟩ := by
  rw [ruleDefinition, reads_identifier_bind]
  constructor
  · rintro ⟨name, rest, he, hname, h⟩
    obtain ⟨rest', hop, h⟩ := reads_expect_bind.1 h
    obtain ⟨body, k, hbody, h⟩ := reads_bind.1 h
    obtain ⟨rest'', hop', h⟩ := reads_expect_bind.1 h
    obtain ⟨rfl, rfl⟩ := reads_pure.1 h
    exact ⟨rest, rest', rest'', k, he, hname, hop, hbody, hop', rfl⟩
  · rintro ⟨rest, rest', rest'', k, he, hname, hop, hbody, hop', rfl⟩
    refine ⟨r.name, rest, he, hname, reads_expect_bind.2 ⟨rest', hop, hbody.bind ?_⟩⟩
    exact reads_expect_bind.2 ⟨rest'', hop', reads_pure.2 ⟨rfl, rfl⟩⟩

end Reader

end DerivativeParsing.Notation
