import DerivativeParsing.Notation.Reading

/-!
# What readers do

`Reads x i a j` says that a reader `x` makes `a` of what comes first in the input `i`, and leaves
the input `j`.  The lemmas here say so of the actions that readers are put together from, in both
directions, so that a reader can be followed forwards on an input that is known, and backwards from
what it has made.

A form says of sequences of tokens whether they are written in a certain way; `Spells`, `Followed`
and `Grouped` are the forms that others are put together from.  `Consumes i W j` says that what has
been taken between two inputs has the form `W`; and that no group has been left with more than it
should hold, if the second input says that there is none.  Two sequences that are written in one way
differ in the spacing of punctuation only (`Alike`).
-/

set_option autoImplicit false

namespace DerivativeParsing.Notation

/-! ## Spacing -/

mutual

/-- A token in which no punctuation is joint. -/
def Token.spaced : Token → Token
  | .group delimiter content => .group delimiter (spacedAll content)
  | .punct c _ => .punct c false
  | .ident name => .ident name
  | .literal spelling meaning => .literal spelling meaning

/-- Tokens in which no punctuation is joint. -/
def spacedAll : List Token → List Token
  | [] => []
  | t :: ts => t.spaced :: spacedAll ts

end

theorem spacedAll_append (ts us : List Token) :
    spacedAll (ts ++ us) = spacedAll ts ++ spacedAll us := by
  induction ts with
  | nil => rfl
  | cons t ts ih => rw [List.cons_append, spacedAll, spacedAll, ih, List.cons_append]

/-- Two sequences of tokens differ in the spacing of punctuation only. -/
def Alike (ts us : List Token) : Prop := spacedAll ts = spacedAll us

namespace Alike

variable {ts us ts' us' : List Token} {t : Token}

theorem refl (ts : List Token) : Alike ts ts := rfl

theorem append (h : Alike ts us) (h' : Alike ts' us') : Alike (ts ++ ts') (us ++ us') := by
  unfold Alike at h h' ⊢
  rw [spacedAll_append, spacedAll_append, h, h']

theorem group {delimiter : Delimiter} (h : Alike ts us) :
    Alike [.group delimiter ts] [.group delimiter us] := by
  unfold Alike at h ⊢
  simp only [spacedAll, Token.spaced, h]

theorem punct (c : Char) (joint joint' : Bool) : Alike [.punct c joint] [.punct c joint'] := rfl

end Alike

/-! ## Forms -/

/-- An operator is spelled with joint characters, except that the last one need not be joint. -/
def Spells (op : List Char) (ts : List Token) : Prop :=
  ts = Token.operator op ∨ ts = op.map (.punct · true)

/-- Something in one form, and then something in another. -/
def Followed (W W' : List Token → Prop) (ts : List Token) : Prop :=
  ∃ us vs, W us ∧ W' vs ∧ ts = us ++ vs

/-- A group with something in a form between its delimiters. -/
def Grouped (delimiter : Delimiter) (W : List Token → Prop) (ts : List Token) : Prop :=
  ∃ us, W us ∧ ts = [.group delimiter us]

section Forms

variable {c : Char} {op : List Char} {ts us vs rest tokens : List Token}
  {W W' V V' : List Token → Prop}

theorem spells_single : Spells [c] ts ↔ ∃ joint, ts = [.punct c joint] := by
  constructor
  · rintro (rfl | rfl)
    · exact ⟨false, rfl⟩
    · exact ⟨true, rfl⟩
  · rintro ⟨_ | _, rfl⟩
    · exact .inl rfl
    · exact .inr rfl

theorem spells_cons_cons {d : Char} :
    Spells (c :: d :: op) ts ↔ ∃ us, Spells (d :: op) us ∧ ts = .punct c true :: us := by
  constructor
  · rintro (rfl | rfl)
    · exact ⟨_, .inl rfl, rfl⟩
    · exact ⟨_, .inr rfl, rfl⟩
  · rintro ⟨us, rfl | rfl, rfl⟩
    · exact .inl rfl
    · exact .inr rfl

theorem spells_operator (op : List Char) : Spells op (Token.operator op) := .inl rfl

theorem Spells.alike (h : Spells op ts) : Alike (Token.operator op) ts := by
  induction op generalizing ts with
  | nil => rcases h with rfl | rfl <;> exact .refl []
  | cons c op ih =>
      cases op with
      | nil =>
          obtain ⟨joint, rfl⟩ := spells_single.1 h
          exact .punct c false joint
      | cons d op =>
          obtain ⟨us, hus, rfl⟩ := spells_cons_cons.1 h
          exact Alike.append (.punct c true true) (ih hus)

theorem Followed.append (hus : W us) (hvs : W' vs) : Followed W W' (us ++ vs) :=
  ⟨us, vs, hus, hvs, rfl⟩

/-- Sequences that are like two others are like them in a row. -/
theorem Followed.alike (h : Followed W W' ts) (hW : ∀ ts, W ts → Alike us ts)
    (hW' : ∀ ts, W' ts → Alike vs ts) : Alike (us ++ vs) ts := by
  obtain ⟨us', vs', hus, hvs, rfl⟩ := h
  exact (hW us' hus).append (hW' vs' hvs)

theorem Grouped.alike {delimiter : Delimiter} (h : Grouped delimiter W ts)
    (hW : ∀ ts, W ts → Alike us ts) : Alike [.group delimiter us] ts := by
  obtain ⟨us', hus, rfl⟩ := h
  exact (hW us' hus).group

/-- What comes after an operator comes after a spelling of it. -/
theorem Lookahead.afterOperator_eq_some :
    Lookahead.afterOperator op tokens = some rest ↔ ∃ ts, Spells op ts ∧ tokens = ts ++ rest := by
  fun_induction Lookahead.afterOperator op tokens with
  | case1 tokens =>
      constructor
      · rintro ⟨⟩
        exact ⟨[], .inl rfl, rfl⟩
      · rintro ⟨ts, rfl | rfl, rfl⟩ <;> rfl
  | case2 c joint rest' =>
      constructor
      · rintro ⟨⟩
        exact ⟨[.punct c joint], spells_single.2 ⟨joint, rfl⟩, rfl⟩
      · rintro ⟨ts, hts, he⟩
        obtain ⟨joint', rfl⟩ := spells_single.1 hts
        cases he
        rfl
  | case3 c d joint rest' hne =>
      refine iff_of_false nofun ?_
      rintro ⟨ts, hts, he⟩
      obtain ⟨joint', rfl⟩ := spells_single.1 hts
      cases he
      exact hne rfl
  | case4 op c rest' hop ih =>
      obtain ⟨d, op, rfl⟩ := List.exists_cons_of_ne_nil hop
      rw [ih]
      constructor
      · rintro ⟨ts, hts, rfl⟩
        exact ⟨.punct c true :: ts, spells_cons_cons.2 ⟨ts, hts, rfl⟩, rfl⟩
      · rintro ⟨ts, hts, he⟩
        obtain ⟨us, hus, rfl⟩ := spells_cons_cons.1 hts
        cases he
        exact ⟨us, hus, rfl⟩
  | case5 op c d rest' hop hne =>
      obtain ⟨e, op, rfl⟩ := List.exists_cons_of_ne_nil hop
      refine iff_of_false nofun ?_
      rintro ⟨ts, hts, he⟩
      obtain ⟨us, hus, rfl⟩ := spells_cons_cons.1 hts
      cases he
      exact hne rfl
  | case6 op tokens hnil hsingle hcons =>
      refine iff_of_false nofun ?_
      rintro ⟨ts, hts, rfl⟩
      match op with
      | [] => exact hnil rfl
      | [c] =>
          obtain ⟨joint, rfl⟩ := spells_single.1 hts
          exact hsingle c c joint rest rfl rfl
      | c :: d :: op =>
          obtain ⟨us, hus, rfl⟩ := spells_cons_cons.1 hts
          exact hcons c (d :: op) c (us ++ rest) rfl rfl

end Forms

namespace Reader

open Lookahead

/-! ## Reading -/

variable {α β : Type} {x : Reader α} {f : α → Reader β} {a b : α} {c : β} {i j k : Input}

/-- A reader makes `a` of what comes first in an input, and leaves another input. -/
def Reads (x : Reader α) (i : Input) (a : α) (j : Input) : Prop := x.run i = .ok (a, j)

theorem reads_bind : Reads (x >>= f) i c k ↔ ∃ a j, Reads x i a j ∧ Reads (f a) j c k := by
  unfold Reads
  rw [StateT.run_bind]
  rcases x.run i with e | ⟨a, j⟩
  · constructor
    · intro h
      cases h
    · rintro ⟨_, _, h, -⟩
      cases h
  · constructor
    · intro h
      exact ⟨a, j, rfl, h⟩
    · rintro ⟨_, _, h, h'⟩
      cases h
      exact h'

theorem Reads.bind (hx : Reads x i a j) (hf : Reads (f a) j c k) : Reads (x >>= f) i c k :=
  reads_bind.2 ⟨a, j, hx, hf⟩

theorem reads_pure : Reads (pure a) i b j ↔ a = b ∧ i = j := by
  constructor
  · intro h
    cases h
    exact ⟨rfl, rfl⟩
  · rintro ⟨rfl, rfl⟩
    rfl

theorem not_reads_throw {e : SyntaxFault} : ¬ Reads (throw e : Reader α) i a j := by
  intro h
  cases h

theorem not_reads_missing {options : List Expectation} :
    ¬ Reads (missing options : Reader α) i a j := by
  intro h
  cases h

theorem reads_remaining_bind {f : List Token → Reader β} :
    Reads (remaining >>= f) i c j ↔ Reads (f i.tokens) i c j := Iff.rfl

theorem reads_sees_bind {look : List Token → Bool} {f : Bool → Reader β} :
    Reads (sees look >>= f) i c j ↔ Reads (f (look i.tokens)) i c j := Iff.rfl

theorem reads_leave_bind {ts : List Token} {f : Unit → Reader β} :
    Reads (leave ts >>= f) i c j ↔ Reads (f ()) ⟨ts, i.overfull⟩ c j := Iff.rfl

/-- Reading on after asking for an operator. -/
theorem reads_accept_bind {op : String} {f : Bool → Reader β} :
    Reads (accept op >>= f) i c j ↔
      (∃ rest, afterOperator op.toList i.tokens = some rest ∧
        Reads (f true) ⟨rest, i.overfull⟩ c j) ∨
      afterOperator op.toList i.tokens = none ∧ Reads (f false) i c j := by
  unfold accept
  rw [bind_assoc, reads_remaining_bind]
  rcases afterOperator op.toList i.tokens with _ | rest
  · simp only [pure_bind, reduceCtorEq, false_and, exists_false, true_and, false_or]
  · simp only [bind_assoc, pure_bind, reads_leave_bind, Option.some.injEq, exists_eq_left',
      reduceCtorEq, false_and, or_false]

/-- Reading on after an operator that has to come next. -/
theorem reads_expect_bind {op : String} {f : Unit → Reader β} :
    Reads (expect op >>= f) i c j ↔
      ∃ rest, afterOperator op.toList i.tokens = some rest ∧ Reads (f ()) ⟨rest, i.overfull⟩ c j := by
  unfold expect
  rw [bind_assoc, reads_accept_bind]
  constructor
  · rintro (⟨rest, hrest, h⟩ | ⟨-, h⟩)
    · exact ⟨rest, hrest, h⟩
    · exact absurd h fun h => by cases h
  · rintro ⟨rest, hrest, h⟩
    exact .inl ⟨rest, hrest, h⟩

/-- Reading on after a name. -/
theorem reads_identifier_bind {f : String → Reader β} :
    Reads (identifier >>= f) i c j ↔ ∃ name rest, i.tokens = .ident name :: rest ∧
      isKeyword name = false ∧ Reads (f name) ⟨rest, i.overfull⟩ c j := by
  unfold identifier
  rw [bind_assoc, reads_remaining_bind]
  split
  · next name rest htokens =>
      by_cases hkeyword : isKeyword name = true
      · constructor
        · intro h
          rw [if_pos hkeyword] at h
          cases h
        · rintro ⟨name', rest', he, hname, -⟩
          cases htokens.symm.trans he
          cases hkeyword.symm.trans hname
      · rw [if_neg hkeyword]
        constructor
        · intro h
          exact ⟨name, rest, htokens, Bool.eq_false_iff.2 hkeyword, h⟩
        · rintro ⟨name', rest', he, -, h⟩
          cases htokens.symm.trans he
          exact h
  · next hne =>
      constructor
      · intro h
        cases h
      · rintro ⟨name, rest, he, -⟩
        exact absurd he (hne name rest)

/-- What reading the content of a group leaves: tokens of the content are noted. -/
def afterGroup (delimiter : Delimiter) (rest : List Token) (inner : Input) : Input :=
  ⟨rest, inner.overfull.or (if inner.tokens.isEmpty then none else some delimiter)⟩

theorem reads_inside {delimiter : Delimiter} {content : List Token} :
    Reads (inside delimiter content x) i a j ↔
      ∃ k, Reads x ⟨content, i.overfull⟩ a k ∧ j = afterGroup delimiter i.tokens k := by
  have hrun : (inside delimiter content x).run i =
      (x.run ⟨content, i.overfull⟩ >>= fun found =>
        .ok (found.1, afterGroup delimiter i.tokens found.2)) := rfl
  unfold Reads
  rw [hrun]
  rcases x.run ⟨content, i.overfull⟩ with e | ⟨a', k⟩
  · constructor
    · intro h
      cases h
    · rintro ⟨_, h, -⟩
      cases h
  · constructor
    · intro h
      cases h
      exact ⟨k, rfl, rfl⟩
    · rintro ⟨_, h, rfl⟩
      cases h
      rfl

theorem reads_readAll {tokens : List Token} :
    readAll x tokens = .ok a ↔ Reads x ⟨tokens, none⟩ a ⟨[], none⟩ := by
  unfold readAll Reads
  rcases x.run ⟨tokens, none⟩ with e | ⟨a', ⟨rest, overfull⟩⟩
  · constructor
    · intro h
      cases h
    · intro h
      cases h
  · rcases overfull with _ | d
    · rcases rest with _ | ⟨t, ts⟩
      · constructor <;> intro h <;> cases h <;> rfl
      · constructor <;> intro h <;> cases h
    · constructor <;> intro h <;> cases h

/-! ## What has been taken -/

/-- What has been taken between two inputs has a form, if no group has been left with more than it
should hold. -/
def Consumes (i : Input) (W : List Token → Prop) (j : Input) : Prop :=
  ∃ taken, i.tokens = taken ++ j.tokens ∧ (j.overfull = none → i.overfull = none ∧ W taken)

namespace Consumes

variable {W W' : List Token → Prop} {rest : List Token} {t : Token}

theorem refl (i : Input) : Consumes i (· = []) i := ⟨[], rfl, fun h => ⟨h, rfl⟩⟩

theorem trans (h : Consumes i W j) (h' : Consumes j W' k) : Consumes i (Followed W W') k := by
  obtain ⟨taken, htokens, hW⟩ := h
  obtain ⟨taken', htokens', hW'⟩ := h'
  refine ⟨taken ++ taken', by rw [htokens, htokens', List.append_assoc], fun hk => ?_⟩
  obtain ⟨hj, htaken'⟩ := hW' hk
  obtain ⟨hi, htaken⟩ := hW hj
  exact ⟨hi, taken, taken', htaken, htaken', rfl⟩

theorem token (h : i.tokens = t :: rest) : Consumes i (· = [t]) ⟨rest, i.overfull⟩ :=
  ⟨[t], h, fun h => ⟨h, rfl⟩⟩

/-- Taking an operator. -/
theorem operator {op : List Char} (h : afterOperator op i.tokens = some rest) :
    Consumes i (Spells op) ⟨rest, i.overfull⟩ := by
  obtain ⟨taken, hop, htokens⟩ := afterOperator_eq_some.1 h
  exact ⟨taken, htokens, fun h => ⟨h, hop⟩⟩

/-- Taking a group, of whose content all that has been taken has a form. -/
theorem group {delimiter : Delimiter} {content : List Token}
    (h : i.tokens = .group delimiter content :: rest) (hk : Consumes ⟨content, i.overfull⟩ W k) :
    Consumes i (Grouped delimiter W) (afterGroup delimiter rest k) := by
  obtain ⟨taken, hcontent, hW⟩ := hk
  refine ⟨[.group delimiter content], h, fun hover => ?_⟩
  obtain ⟨hnone, hempty⟩ := Option.or_eq_none_iff.1 hover
  obtain ⟨hi, htaken⟩ := hW hnone
  have hk : k.tokens = [] := by
    rcases htokens : k.tokens with _ | ⟨t, ts'⟩
    · rfl
    · simp [htokens] at hempty
  rw [hk, List.append_nil] at hcontent
  obtain rfl : content = taken := hcontent
  exact ⟨hi, content, htaken, rfl⟩

end Consumes

end Reader

end DerivativeParsing.Notation
