import DerivativeParsing.Proofs.AcceptedBodies

/-!
# Bodies are read as they are written

Reading what a proper body is written with gives the body back, whichever way it is written.  A term
ends in front of everything that can follow it (`EndsTerm`), the terms of a branch end in front of its
reducer or the end of the branch, and every reader is given steps enough: at most eight for each token
(`Term.reads_written`, `Alternatives.reads_written`).

Postfixes are read from the inside out.  `ReadsChain` says that reading the first part of a term and
then its postfixes comes to reading on after the term.
-/

set_option autoImplicit false

namespace DerivativeParsing.Notation

open Lookahead Reader Token

variable {host : HostSyntax} {W : Path → List Token → Prop} {P : Path → Prop}

/-! ## What comes first and what follows -/

/-- Whether a token can start a term that is no complement. -/
def Token.startsAtom : Token → Bool
  | .ident _ | .literal _ _ | .group .parenthesis _ => true
  | _ => false

/-- A token can start a term. -/
def Token.StartsTerm (t : Token) : Prop := t.startsAtom = true ∨ ∃ joint, t = .punct '~' joint

/-- What comes next does not belong to the term before. -/
structure EndsTerm (rest : List Token) : Prop extends NoPostfix rest where
  range : afterOperator ['.', '.', '='] rest = none

/-- What comes next is the reducer or the end of a branch. -/
structure EndsTerms (rest : List Token) : Prop extends EndsTerm rest where
  ends : branchEnds rest = true

section Follows

variable {u : Token} {ts us rest : List Token}

theorem Token.StartsTerm.endsTerm (hu : u.StartsTerm) : EndsTerm (u :: ts) := by
  rcases hu with hu | ⟨joint, rfl⟩
  · match u, hu with
    | .ident _, _ | .literal _ _, _ => exact ⟨⟨rfl, rfl, rfl, by simp⟩, rfl⟩
    | .group .parenthesis _, _ => exact ⟨⟨rfl, rfl, rfl, by simp⟩, rfl⟩
  · cases joint <;> exact ⟨⟨rfl, rfl, rfl, by simp⟩, rfl⟩

theorem Token.StartsTerm.not_branchEnds (hu : u.StartsTerm) : branchEnds (u :: ts) = false := by
  rcases hu with hu | ⟨joint, rfl⟩
  · match u, hu with
    | .ident _, _ | .literal _ _, _ => rfl
    | .group .parenthesis _, _ => rfl
  · cases joint <;> rfl

theorem afterTilde_of_startsAtom (hu : u.startsAtom = true) :
    afterOperator ['~'] (u :: ts) = none := by
  match u, hu with
  | .ident _, _ | .literal _ _, _ => rfl
  | .group .parenthesis _, _ => rfl

theorem EndsBranch.endsTerms (h : EndsBranch rest) : EndsTerms rest := by
  cases h with
  | ending => exact ⟨⟨⟨rfl, rfl, rfl, by simp⟩, rfl⟩, rfl⟩
  | bar joint | semicolon joint => cases joint <;> exact ⟨⟨⟨rfl, rfl, rfl, by simp⟩, rfl⟩, rfl⟩

theorem EndsBranch.afterArrow (h : EndsBranch rest) : afterOperator ['=', '>'] rest = none := by
  cases h with
  | ending => rfl
  | bar joint | semicolon joint => cases joint <;> rfl

theorem endsTerms_reducer {r : Option Path} (hr : ReducerWritten W r ts) (h : EndsBranch rest) :
    EndsTerms (ts ++ rest) := by
  cases r with
  | none =>
      obtain rfl : ts = [] := hr
      exact h.endsTerms
  | some p =>
      obtain ⟨us, vs, rfl | rfl, -, rfl⟩ := hr <;>
        exact ⟨⟨⟨rfl, rfl, rfl, by simp [Token.operator]⟩, rfl⟩, rfl⟩

theorem endsBranch_branches {bs : List Branch} (hbs : BranchesWritten W bs ts)
    (h : EndsBranch rest) : EndsBranch (ts ++ rest) := by
  cases bs with
  | nil =>
      obtain rfl : ts = [] := hbs
      exact h
  | cons b bs =>
      obtain ⟨us, vs, ⟨op, us', hop, -, rfl⟩, -, rfl⟩ := hbs
      obtain ⟨joint, rfl⟩ := spells_single.1 hop
      exact .bar joint _

end Follows

/-! ## Terms with postfixes -/

/-- How many postfixes a term has. -/
def Term.postfixCount : Term → Nat
  | .star t | .plus t | .optional t | .rep t _ => t.postfixCount + 1
  | _ => 0

theorem Postfix.weight_pos {p : Postfix} {ts : List Token} (h : p.IsWritten ts) :
    0 < weightAll ts := by
  cases p with
  | star | plus | optional =>
      obtain ⟨joint, rfl⟩ := spells_single.1 h
      simp [weightAll, weight]
  | rep n =>
      obtain ⟨us, -, rfl⟩ := h
      simp [weightAll, weight]

theorem Term.postfixCount_lt : ∀ {t : Term} {ts : List Token}, t.IsWritten W ts →
    t.postfixCount < weightAll ts
  | .rule _, _, h | .any, _, h | .char _, _, h | .text _, _, h => by
      rw [h]
      simp [postfixCount, weightAll, weight, CharLiteral.token, TextLiteral.token]
  | .range first last, _, h => by
      obtain ⟨us, vs, -, rfl, rfl⟩ := h
      simp only [postfixCount, weightAll_append, weightAll, CharLiteral.token, weight]
      omega
  | .group body, _, h => by
      obtain ⟨us, -, rfl⟩ := h
      simp [postfixCount, weightAll, weight]
  | .not t, _, h => by
      obtain ⟨us, vs, -, ht, rfl⟩ := h
      have hcount := Term.postfixCount_lt ht
      simp only [postfixCount, weightAll_append]
      omega
  | .star t, _, h => postfix_lt (p := .star) h (Term.postfixCount_lt (t := t))
  | .plus t, _, h => postfix_lt (p := .plus) h (Term.postfixCount_lt (t := t))
  | .optional t, _, h => postfix_lt (p := .optional) h (Term.postfixCount_lt (t := t))
  | .rep t n, _, h => postfix_lt (p := .rep n) h (Term.postfixCount_lt (t := t))
where
  postfix_lt {p : Postfix} {t : Term} {ts : List Token}
      (h : Followed (t.IsWritten W) p.IsWritten ts)
      (ht : ∀ {us}, t.IsWritten W us → t.postfixCount < weightAll us) :
      t.postfixCount + 1 < weightAll ts := by
    obtain ⟨us, vs, hus, hvs, rfl⟩ := h
    have hcount := ht hus
    have hpos := p.weight_pos hvs
    rw [weightAll_append]
    omega

/-- Reading a term and its postfixes comes to reading on after the term. -/
def ReadsChain (host : HostSyntax) (t : Term) (ts : List Token) : Prop :=
  ∀ s m rest o, 8 * weightAll ts ≤ s + 4 → t.postfixCount ≤ m →
    afterOperator ['.', '.', '='] rest = none →
    ∃ a k, Reads (atom host s) ⟨ts ++ rest, o⟩ a k ∧
      ∀ t' j, Reads (postfixes (m - t.postfixCount) t) ⟨rest, o⟩ t' j → Reads (postfixes m a) k t' j

theorem takesPostfix_written {p : Postfix} {ts rest : List Token} {o : Option Delimiter}
    (h : p.IsWritten ts) : TakesPostfix ⟨ts ++ rest, o⟩ p ⟨rest, o⟩ := by
  cases p with
  | star | plus | optional => exact ⟨rest, afterOperator_eq_some.2 ⟨ts, h, rfl⟩, rfl⟩
  | rep n =>
      obtain ⟨content, ⟨sign, _, hsign, rfl, rfl⟩, rfl⟩ := h
      refine ⟨_, rest, rfl, reads_inside.2 ⟨⟨[], o⟩, ?_, by simp [afterGroup]⟩⟩
      refine reads_countLiteral.2 ⟨[], rfl, ?_⟩
      rcases hn : n.negative with _ | _
      · simp only [hn, Bool.false_eq_true, if_false] at hsign
        exact .inl ⟨rfl, by rw [hsign]; rfl⟩
      · simp only [hn, if_true] at hsign
        obtain ⟨joint, rfl⟩ := spells_single.1 hsign
        exact .inr ⟨rfl, joint, rfl⟩

namespace ReadsChain

variable {t : Term} {ts us : List Token}

/-- A term without postfixes is read at once. -/
theorem of_atom (hwritten : t.IsWritten W ts) (hcount : t.postfixCount = 0)
    (h : ∀ s rest o, 8 * weightAll ts ≤ s + 5 → afterOperator ['.', '.', '='] rest = none →
      Reads (atom host (s + 1)) ⟨ts ++ rest, o⟩ t ⟨rest, o⟩) : ReadsChain host t ts := by
  intro s m rest o hs _ hrest
  have hweight := Term.postfixCount_lt hwritten
  obtain ⟨s, rfl⟩ : ∃ s', s = s' + 1 := ⟨s - 1, by omega⟩
  refine ⟨t, ⟨rest, o⟩, h s rest o (by omega) hrest, fun t' j ht' => ?_⟩
  rwa [hcount, Nat.sub_zero] at ht'

/-- One more postfix is read in one more step. -/
theorem apply {p : Postfix} (h : ReadsChain host t ts) (hp : p.IsWritten us) :
    ReadsChain host (p.apply t) (ts ++ us) := by
  have hcount : (p.apply t).postfixCount = t.postfixCount + 1 := by cases p <;> rfl
  have hrange (rest : List Token) : afterOperator ['.', '.', '='] (us ++ rest) = none := by
    cases p with
    | star | plus | optional => rcases hp with rfl | rfl <;> rfl
    | rep n =>
        obtain ⟨content, -, rfl⟩ := hp
        rfl
  have hpos := p.weight_pos hp
  intro s m rest o hs hm hrest
  rw [hcount] at hm
  rw [weightAll_append] at hs
  obtain ⟨a, k, ha, hchain⟩ := h s m (us ++ rest) o (by omega) (by omega) (hrange rest)
  refine ⟨a, k, ?_, fun t' j ht' => hchain t' j ?_⟩
  · rwa [List.append_assoc]
  · rw [hcount] at ht'
    rw [show m - t.postfixCount = m - (t.postfixCount + 1) + 1 by omega]
    exact reads_postfixes.2 (.inl ⟨p, _, takesPostfix_written hp, ht'⟩)

/-- So a term is read up to where no postfix follows. -/
theorem reads_term (h : ReadsChain host t ts) (hwritten : t.IsWritten W ts) {s : Nat}
    {rest : List Token} {o : Option Delimiter} (hs : 8 * weightAll ts ≤ s + 3)
    (hrest : EndsTerm rest) (htilde : afterOperator ['~'] (ts ++ rest) = none) :
    Reads (term host s) ⟨ts ++ rest, o⟩ t ⟨rest, o⟩ := by
  have hcount := Term.postfixCount_lt hwritten
  obtain ⟨s, rfl⟩ : ∃ s', s = s' + 1 := ⟨s - 1, by omega⟩
  obtain ⟨a, k, ha, hchain⟩ := h s s rest o (by omega) (by omega) hrest.range
  refine Reader.reads_term.2 (.inr ⟨htilde, a, k, ha, hchain _ _ ?_⟩)
  rw [show s - t.postfixCount = s - t.postfixCount - 1 + 1 by omega]
  exact reads_postfixes.2 (.inr ⟨hrest.toNoPostfix, rfl, rfl⟩)

end ReadsChain

/-- A proper term that is no complement does not start with a tilde. -/
theorem Term.eq_cons_of_proper : ∀ {t : Term} {ts : List Token}, t.Proper P →
    t.isComplement = false → t.IsWritten W ts → ∃ u us, ts = u :: us ∧ u.startsAtom = true
  | .rule _, _, _, _, h | .any, _, _, _, h | .char _, _, _, _, h | .text _, _, _, _, h =>
      ⟨_, _, h, rfl⟩
  | .range _ _, _, _, _, h => by
      obtain ⟨_, _, ⟨_, _, rfl, -, rfl⟩, -, rfl⟩ := h
      exact ⟨_, _, rfl, rfl⟩
  | .group _, _, _, _, ⟨_, _, he⟩ => ⟨_, _, he, rfl⟩
  | .star t, _, ht, _, ⟨_, _, hus, _, he⟩ | .plus t, _, ht, _, ⟨_, _, hus, _, he⟩
  | .optional t, _, ht, _, ⟨_, _, hus, _, he⟩ | .rep t _, _, ht, _, ⟨_, _, hus, _, he⟩ => by
      obtain ⟨u, us, rfl, hu⟩ := eq_cons_of_proper ht.2 ht.1 hus
      exact ⟨u, _, he, hu⟩

theorem Term.eq_cons {t : Term} {ts : List Token} (ht : t.Proper P) (h : t.IsWritten W ts) :
    ∃ u us, ts = u :: us ∧ u.StartsTerm := by
  rcases hnot : t.isComplement with _ | _
  · obtain ⟨u, us, he, hu⟩ := t.eq_cons_of_proper ht hnot h
    exact ⟨u, us, he, .inl hu⟩
  · cases t with
    | not t =>
        obtain ⟨op, us, hop, -, rfl⟩ := h
        obtain ⟨joint, rfl⟩ := spells_single.1 hop
        exact ⟨_, us, rfl, .inr ⟨joint, rfl⟩⟩
    | _ => cases hnot

/-! ## Bodies -/

/-- A term is read from a sequence of tokens. -/
def Term.ReadsBack (host : HostSyntax) (t : Term) (ts : List Token) : Prop :=
  ∀ s rest o, 8 * weightAll ts ≤ s + 3 → EndsTerm rest →
    Reads (term host s) ⟨ts ++ rest, o⟩ t ⟨rest, o⟩

/-- A term that is no complement is read as it is written if its postfixes are. -/
theorem ReadsChain.readsBack {t : Term} {ts : List Token} (h : ReadsChain host t ts)
    (ht : t.Proper P) (hnot : t.isComplement = false) (hwritten : t.IsWritten W ts) :
    t.ReadsBack host ts := by
  intro s rest o hs hrest
  obtain ⟨u, us, rfl, hu⟩ := t.eq_cons_of_proper ht hnot hwritten
  exact h.reads_term hwritten hs hrest (afterTilde_of_startsAtom hu)

mutual

/-- A proper term is read as it is written. -/
theorem Term.reads_written {t : Term} {ts : List Token} (ht : t.Proper P)
    (hts : t.IsWritten host.WritesPath ts) :
    (t.isComplement = false → ReadsChain host t ts) ∧ t.ReadsBack host ts := by
  -- Atoms and postfixes are read as chains; a complement is no chain, but it is read as a term.
  have hpostfix {t : Term} (p : Postfix) (ht : t.isComplement = false ∧ t.Proper P)
      (hts : Followed (t.IsWritten host.WritesPath) p.IsWritten ts)
      (h : ∀ {us}, t.IsWritten host.WritesPath us → t.isComplement = false →
        ReadsChain host t us) :
      ((p.apply t).isComplement = false → ReadsChain host (p.apply t) ts) ∧
        (p.apply t).ReadsBack host ts := by
    have hwritten := hts
    obtain ⟨us, vs, hus, hvs, rfl⟩ := hts
    have hchain := (h hus ht.1).apply hvs
    obtain ⟨hproper, hnot⟩ := proper_apply (p := p) ht.2 ht.1
    rw [← p.isWritten_apply] at hwritten
    exact ⟨fun _ => hchain, hchain.readsBack hproper hnot hwritten⟩
  have hatom {t : Term} (ht : t.Proper P) (hnot : t.isComplement = false)
      (hcount : t.postfixCount = 0) (hts : t.IsWritten host.WritesPath ts)
      (h : ∀ s rest o, 8 * weightAll ts ≤ s + 5 → afterOperator ['.', '.', '='] rest = none →
        Reads (atom host (s + 1)) ⟨ts ++ rest, o⟩ t ⟨rest, o⟩) :
      (t.isComplement = false → ReadsChain host t ts) ∧ t.ReadsBack host ts := by
    have hchain := ReadsChain.of_atom hts hcount h
    exact ⟨fun _ => hchain, hchain.readsBack ht hnot hts⟩
  cases t with
  | rule name =>
      refine hatom ht rfl rfl hts fun s rest o _ _ => ?_
      obtain rfl : ts = [.ident name] := hts
      exact reads_atom.2 (.rule rfl ht)
  | any =>
      refine hatom ht rfl rfl hts fun s rest o _ _ => ?_
      obtain rfl : ts = [.ident "_"] := hts
      exact reads_atom.2 (.any rfl)
  | char c =>
      refine hatom ht rfl rfl hts fun s rest o _ hrest => ?_
      obtain rfl : ts = [c.token] := hts
      exact reads_atom.2 (.char rfl hrest)
  | text text =>
      refine hatom ht rfl rfl hts fun s rest o _ _ => ?_
      obtain rfl : ts = [text.token] := hts
      exact reads_atom.2 (.text rfl)
  | range first last =>
      refine hatom ht rfl rfl hts fun s rest o _ _ => ?_
      obtain ⟨_, _, ⟨_, op, rfl, hop, rfl⟩, rfl, rfl⟩ := hts
      have hrange : afterOperator ['.', '.', '='] (op ++ last.token :: rest) =
          some (last.token :: rest) := afterOperator_eq_some.2 ⟨op, hop, rfl⟩
      exact reads_atom.2 (.range (by simp) hrange)
  | group body =>
      refine hatom ht rfl rfl hts fun s rest o hs _ => ?_
      obtain ⟨us, hus, rfl⟩ := hts
      -- The group weighs more than its content, which pays for the readers of a choice and a branch.
      have hs : 8 * weightAll us + 3 ≤ s := by
        simp only [weightAll, weight] at hs
        omega
      have hbody := Alternatives.reads_written ht hus s [] o hs .ending rfl
      rw [List.append_nil] at hbody
      exact reads_atom.2 (.group (k := ⟨[], o⟩) rfl hbody rfl)
  | star t => exact hpostfix .star ht hts fun hus => (Term.reads_written ht.2 hus).1
  | plus t => exact hpostfix .plus ht hts fun hus => (Term.reads_written ht.2 hus).1
  | optional t => exact hpostfix .optional ht hts fun hus => (Term.reads_written ht.2 hus).1
  | rep t n => exact hpostfix (.rep n) ht hts fun hus => (Term.reads_written ht.2 hus).1
  | not t =>
      refine ⟨fun hnot => (by cases hnot), fun s rest o hs hrest => ?_⟩
      obtain ⟨op, us, hop, hus, rfl⟩ := hts
      obtain ⟨joint, rfl⟩ := spells_single.1 hop
      simp only [weightAll_append, weightAll, weight] at hs
      obtain ⟨s, rfl⟩ : ∃ s', s = s' + 1 := ⟨s - 1, by omega⟩
      have ht := (Term.reads_written (t := t) ht hus).2 s rest o (by omega) hrest
      exact reads_term.2 (.inl ⟨us ++ rest, t, rfl, ht, rfl⟩)

/-- So are the terms of a branch. -/
theorem reads_termsWritten {terms : List Term} {ts : List Token} (hterms : ProperTerms P terms)
    (hts : TermsWritten host.WritesPath terms ts) (s : Nat) (rest : List Token)
    (o : Option Delimiter) (hs : 8 * weightAll ts + 1 ≤ s) (hrest : EndsTerms rest) :
    Reads (Reader.terms host s) ⟨ts ++ rest, o⟩ terms ⟨rest, o⟩ := by
  obtain ⟨s, rfl⟩ : ∃ s', s = s' + 1 := ⟨s - 1, by omega⟩
  cases terms with
  | nil =>
      obtain rfl : ts = [] := hts
      exact reads_terms.2 (.inl ⟨hrest.ends, rfl, rfl⟩)
  | cons t terms =>
      obtain ⟨ht, hterms⟩ := hterms
      obtain ⟨us, vs, hus, hvs, rfl⟩ := hts
      have hweight := Term.postfixCount_lt hus
      rw [weightAll_append] at hs
      have hends : branchEnds (us ++ (vs ++ rest)) = false := by
        obtain ⟨u, us', rfl, hu⟩ := t.eq_cons ht hus
        exact hu.not_branchEnds
      -- Another term follows, or the end of the branch.  The term ends in front of both.
      have hnext : EndsTerm (vs ++ rest) := by
        cases terms with
        | nil =>
            obtain rfl : vs = [] := hvs
            exact hrest.toEndsTerm
        | cons t' terms =>
            obtain ⟨_, _, hus', -, rfl⟩ := hvs
            obtain ⟨u', us', rfl, hu'⟩ := t'.eq_cons hterms.1 hus'
            exact hu'.endsTerm
      rw [List.append_assoc]
      exact reads_terms.2 (.inr ⟨hends, t, _, terms,
        (Term.reads_written ht hus).2 s _ o (by omega) hnext,
        reads_termsWritten hterms hvs s rest o (by omega) hrest, rfl⟩)

/-- So is a branch. -/
theorem Branch.reads_written {b : Branch} {ts : List Token} (hb : b.Proper P)
    (hts : b.IsWritten host.WritesPath ts) (s : Nat) (rest : List Token) (o : Option Delimiter)
    (hs : 8 * weightAll ts + 2 ≤ s) (hrest : EndsBranch rest) :
    Reads (branch host s) ⟨ts ++ rest, o⟩ b ⟨rest, o⟩ := by
  obtain ⟨terms, r⟩ := b
  obtain ⟨us, vs, hus, hvs, rfl⟩ := hts
  rw [weightAll_append] at hs
  obtain ⟨s, rfl⟩ : ∃ s', s = s' + 1 := ⟨s - 1, by omega⟩
  rw [List.append_assoc]
  refine reads_branch.2 ⟨⟨vs ++ rest, o⟩,
    reads_termsWritten hb.1 hus s _ o (by omega) (endsTerms_reducer hvs hrest), reads_reducer.2 ?_⟩
  cases r with
  | none =>
      obtain rfl : vs = [] := hvs
      exact .inr ⟨hrest.afterArrow, rfl, rfl⟩
  | some p =>
      obtain ⟨op, path, hop, hpath, rfl⟩ := hvs
      refine .inl ⟨path ++ rest, p, afterOperator_eq_some.2 ⟨op, hop, ?_⟩, hpath.1 rest o hrest, rfl⟩
      exact List.append_assoc _ _ _

/-- So are the branches that follow it. -/
theorem reads_branchesWritten {bs : List Branch} {ts : List Token} (hbs : ProperBranches P bs)
    (hts : BranchesWritten host.WritesPath bs ts) (s : Nat) (rest : List Token)
    (o : Option Delimiter) (hs : 8 * weightAll ts + 1 ≤ s) (hrest : EndsBranch rest)
    (hbar : afterOperator ['|'] rest = none) :
    Reads (furtherBranches host s) ⟨ts ++ rest, o⟩ bs ⟨rest, o⟩ := by
  obtain ⟨s, rfl⟩ : ∃ s', s = s' + 1 := ⟨s - 1, by omega⟩
  cases bs with
  | nil =>
      obtain rfl : ts = [] := hts
      exact reads_furtherBranches.2 (.inr ⟨hbar, rfl, rfl⟩)
  | cons b bs =>
      obtain ⟨hb, hbs⟩ := hbs
      obtain ⟨_, vs, ⟨op, us, hop, hus, rfl⟩, hvs, rfl⟩ := hts
      obtain ⟨joint, rfl⟩ := spells_single.1 hop
      simp only [weightAll_append, weightAll, weight] at hs
      rw [List.append_assoc, List.append_assoc]
      exact reads_furtherBranches.2 (.inl ⟨_, b, _, bs, rfl,
        Branch.reads_written hb hus s _ o (by omega) (endsBranch_branches hvs hrest),
        reads_branchesWritten hbs hvs s rest o (by omega) hrest hbar, rfl⟩)

/-- So is a choice. -/
theorem Alternatives.reads_written {body : Alternatives} {ts : List Token} (hbody : body.Proper P)
    (hts : body.IsWritten host.WritesPath ts) (s : Nat) (rest : List Token) (o : Option Delimiter)
    (hs : 8 * weightAll ts + 3 ≤ s) (hrest : EndsBranch rest)
    (hbar : afterOperator ['|'] rest = none) :
    Reads (alternatives host s) ⟨ts ++ rest, o⟩ body ⟨rest, o⟩ := by
  obtain ⟨first, bs⟩ := body
  obtain ⟨us, vs, hus, hvs, rfl⟩ := hts
  rw [weightAll_append] at hs
  obtain ⟨s, rfl⟩ : ∃ s', s = s' + 1 := ⟨s - 1, by omega⟩
  rw [List.append_assoc]
  exact reads_alternatives.2 ⟨_,
    Branch.reads_written hbody.1 hus s _ o (by omega) (endsBranch_branches hvs hrest),
    reads_branchesWritten hbody.2 hvs s rest o (by omega) hrest hbar⟩

end

/-- Reading what a proper rule is written with gives the rule back. -/
theorem RuleDefinition.ofTokens_of_isWritten {r : RuleDefinition} {tokens : List Token}
    (hr : r.Proper P) (h : r.IsWritten host.WritesPath tokens) :
    RuleDefinition.ofTokens host tokens = .ok r := by
  obtain ⟨hname, hbody⟩ := hr
  obtain ⟨_, _, ⟨_, us, ⟨_, op, rfl, hop, rfl⟩, hus, rfl⟩, hop', rfl⟩ := h
  obtain ⟨joint, rfl⟩ := spells_single.1 hop
  obtain ⟨joint', rfl⟩ := spells_single.1 hop'
  refine reads_readAll.2 (reads_ruleDefinition.2 ⟨_, _, [], ⟨[.punct ';' joint'], none⟩, rfl, hname,
    rfl, Alternatives.reads_written hbody hus _ _ _ ?_ (.semicolon joint' []) rfl, rfl, rfl⟩)
  simp only [stepBound, weightAll_append]
  omega

end DerivativeParsing.Notation
