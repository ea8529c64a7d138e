import DerivativeParsing.Notation.Host.Construct
import DerivativeParsing.Proofs.WrittenBodies

/-!
# Paths without arguments

The path of a reducer mostly consists of names with two colons between them.  Such a path is read as
it is written (`Host.reads_path_written`), and where no angle bracket can be found, all paths are such
(`Host.consumes_path`).  So what is assumed of paths holds there of `Host.standard`
(`keepsPaths_of_angleFree`).
-/

set_option autoImplicit false

namespace DerivativeParsing.Notation

open Lookahead Reader

namespace Reader

variable {α : Type} {action : α → Reader (Option α)} {a b : α} {i j : Input} {count : Nat}

theorem reads_iterateUpTo :
    Reads (iterateUpTo action (count + 1) a) i b j ↔
      (∃ a' k, Reads (action a) i (some a') k ∧ Reads (iterateUpTo action count a') k b j) ∨
        Reads (action a) i none j ∧ a = b := by
  rw [iterateUpTo]
  constructor
  · intro h
    obtain ⟨found, k, hfound, h⟩ := reads_bind.1 h
    cases found with
    | some a' => exact .inl ⟨a', k, hfound, h⟩
    | none =>
        obtain ⟨rfl, rfl⟩ := reads_pure.1 h
        exact .inr ⟨hfound, rfl⟩
  · rintro (⟨a', k, hfound, h⟩ | ⟨hfound, rfl⟩)
    · exact hfound.bind h
    · exact hfound.bind (reads_pure.2 ⟨rfl, rfl⟩)

end Reader

/-! ## Angle brackets -/

mutual

/-- Whether a token is no angle bracket, and there are none in it. -/
def Token.isAngleFree : Token → Bool
  | .group _ content => angleFreeAll content
  | .punct c _ => c ≠ '<'
  | .ident _ | .literal _ _ => true

/-- Whether there are no angle brackets in a sequence of tokens. -/
def angleFreeAll : List Token → Bool
  | [] => true
  | t :: ts => t.isAngleFree && angleFreeAll ts

end

namespace Host

variable {read : Inner} {i j k : Input} {tokens rest : List Token} {found : List Part} {n : Nat}

/-! ## Parts -/

/-- A word can be a part of a path. -/
def IsPart (name : String) : Prop :=
  bareWords.contains name = true ∨ name = "Self" ∨ isKeyword name = false

/-- Where no arguments come next, a part of a path is a word. -/
theorem reads_part {p : Part}
    (hopens : ∀ name rest, i.tokens = .ident name :: rest → opensArguments .type rest = false) :
    Reads (part read .type) i p j ↔ IsPart p.name ∧ p.arguments = [] ∧
      ∃ rest, i.tokens = .ident p.name :: rest ∧ j = ⟨rest, i.overfull⟩ := by
  have hword {name : String} {rest : List Token} {p : Part} (he : i.tokens = .ident name :: rest)
      (hname : IsPart name) :
      Reads (do
        if opensArguments .type (← remaining) then return ⟨name, ← arguments read⟩
        else return ⟨name, []⟩) ⟨rest, i.overfull⟩ p j ↔
      IsPart p.name ∧ p.arguments = [] ∧
        ∃ rest, i.tokens = .ident p.name :: rest ∧ j = ⟨rest, i.overfull⟩ := by
    rw [reads_remaining_bind, hopens name rest he, if_neg (by decide), reads_pure]
    constructor
    · rintro ⟨rfl, rfl⟩
      exact ⟨hname, rfl, rest, he, rfl⟩
    · rintro ⟨-, harguments, rest', he', rfl⟩
      obtain ⟨name', arguments⟩ := p
      obtain rfl : arguments = [] := harguments
      cases he.symm.trans he'
      exact ⟨rfl, rfl⟩
  rw [part, reads_remaining_bind]
  split
  · next name rest he =>
      by_cases hbare : bareWords.contains name = true
      · have hnone := hword (p := p) he (.inl hbare)
        rw [reads_remaining_bind, hopens name rest he, if_neg (by decide)] at hnone
        rw [if_pos hbare, reads_leave_bind]
        exact hnone
      rw [if_neg hbare]
      dsimp only
      by_cases hself : name = "Self"
      · rw [if_pos hself, reads_leave_bind]
        exact hword he (.inr (.inl hself))
      rw [if_neg hself, reads_identifier_bind]
      constructor
      · rintro ⟨name', rest', he', hname, h⟩
        cases he.symm.trans he'
        exact (hword he (.inr (.inr hname))).1 h
      · rintro ⟨hname, harguments, rest', he', rfl⟩
        cases he.symm.trans he'
        have hkeyword : isKeyword p.name = false := (hname.resolve_left hbare).resolve_left hself
        exact ⟨p.name, rest, he, hkeyword, (hword he hname).2 ⟨hname, harguments, rest, he, rfl⟩⟩
  · next hne =>
      constructor
      · exact fun h => absurd h not_reads_missing
      · rintro ⟨-, -, rest, he, -⟩
        exact absurd he (hne _ _)

/-- One more part of a path, if the path goes on. -/
def nextPart (read : Inner) (found : List Part) : Reader (Option (List Part)) := do
  if ← sees continuesPath then
    expect "::"
    return some (found ++ [← part read .type])
  else return none

theorem furtherParts_eq : furtherParts read .type continuesPath = iterate (nextPart read) [] := rfl

theorem reads_nextPart_some {parts : List Part} :
    Reads (nextPart read found) i (some parts) j ↔
      continuesPath i.tokens = true ∧ ∃ rest p, afterOperator [':', ':'] i.tokens = some rest ∧
        Reads (part read .type) ⟨rest, i.overfull⟩ p j ∧ parts = found ++ [p] := by
  rw [nextPart, reads_sees_bind]
  rcases continuesPath i.tokens with _ | _
  · constructor
    · intro h
      cases h
    · rintro ⟨h, -⟩
      cases h
  · rw [if_pos rfl, reads_expect_bind]
    constructor
    · rintro ⟨rest, hop, h⟩
      obtain ⟨p, k, hp, h⟩ := reads_bind.1 h
      obtain ⟨he, rfl⟩ := reads_pure.1 h
      exact ⟨rfl, rest, p, hop, hp, (Option.some.inj he).symm⟩
    · rintro ⟨-, rest, p, hop, hp, rfl⟩
      exact ⟨rest, hop, hp.bind (reads_pure.2 ⟨rfl, rfl⟩)⟩

theorem reads_nextPart_none (h : Reads (nextPart read found) i none j) : i = j := by
  rw [nextPart, reads_sees_bind] at h
  split at h
  · obtain ⟨rest, -, h⟩ := reads_expect_bind.1 h
    obtain ⟨p, k, -, h⟩ := reads_bind.1 h
    cases h
  · exact (reads_pure.1 h).2

theorem reads_path {p : Path} :
    Reads (Host.path read .type) i p j ↔ ∃ front k k', Reads (accept "::") i front k ∧
      Reads (part read .type) k p.first k' ∧
        Reads (furtherParts read .type continuesPath) k' p.rest j ∧ p.rooted = front := by
  obtain ⟨rooted, first, rest⟩ := p
  rw [Host.path]
  constructor
  · intro h
    obtain ⟨front, k, hfront, h⟩ := reads_bind.1 h
    obtain ⟨first', k', hfirst, h⟩ := reads_bind.1 h
    obtain ⟨rest', k'', hrest, h⟩ := reads_bind.1 h
    obtain ⟨he, rfl⟩ := reads_pure.1 h
    cases he
    exact ⟨rooted, k, k', hfront, hfirst, hrest, rfl⟩
  · rintro ⟨front, k, k', hfront, hfirst, hrest, hrooted⟩
    obtain rfl : rooted = front := hrooted
    exact hfront.bind (hfirst.bind (hrest.bind (reads_pure.2 ⟨rfl, rfl⟩)))

/-! ## Plain paths -/

/-- A part without arguments. -/
def Part.Plain (p : Part) : Prop := p.arguments = [] ∧ IsPart p.name

/-- No part of a path has arguments. -/
def Path.Plain (p : Path) : Prop := p.first.Plain ∧ ∀ part ∈ p.rest, part.Plain

/-- How the parts of a path after the first are written. -/
def PartsWritten : List Part → List Token → Prop
  | [] => (· = [])
  | p :: parts => Followed (Followed (Spells [':', ':']) (· = p.tokens)) (PartsWritten parts)

/-- How a path is written. -/
def Path.IsWritten (p : Path) : List Token → Prop :=
  Followed (Followed (if p.rooted then Spells [':', ':'] else (· = [])) (· = p.first.tokens))
    (PartsWritten p.rest)

theorem partsWritten_alike {parts : List Part} {ts : List Token} (h : PartsWritten parts ts) :
    Alike (parts.flatMap fun part => colons ++ part.tokens) ts := by
  induction parts generalizing ts with
  | nil => exact h ▸ .refl []
  | cons p parts ih =>
      rw [List.flatMap_cons]
      refine Followed.alike h (fun us hus => ?_) fun us => ih
      exact Followed.alike hus (fun _ => Spells.alike) fun _ hvs => hvs ▸ .refl _

theorem Path.IsWritten.alike {p : Path} {ts : List Token} (h : p.IsWritten ts) :
    Alike p.tokens ts := by
  obtain ⟨rooted, first, rest⟩ := p
  refine Followed.alike h (fun us hus => ?_) fun us => partsWritten_alike
  refine Followed.alike hus (fun vs hvs => ?_) fun _ hvs => hvs ▸ .refl _
  rcases rooted with _ | _
  · obtain rfl : vs = [] := hvs
    exact .refl []
  · have hvs : Spells [':', ':'] vs := hvs
    exact hvs.alike

/-! ## Where there are no angle brackets -/

/-- There are no angle brackets in a sequence of tokens, nor in any group in it. -/
def AngleFree (tokens : List Token) : Prop := angleFreeAll tokens = true

instance (tokens : List Token) : Decidable (AngleFree tokens) :=
  inferInstanceAs (Decidable (_ = true))

section AngleFree

variable {t : Token} {here : List Token}

theorem angleFree_cons : AngleFree (t :: rest) ↔ t.isAngleFree = true ∧ AngleFree rest := by
  rw [AngleFree, angleFreeAll, Bool.and_eq_true]
  rfl

theorem AngleFree.of_append {ts : List Token} (h : AngleFree (ts ++ rest)) : AngleFree ts := by
  induction ts with
  | nil => rfl
  | cons t ts ih =>
      obtain ⟨ht, hts⟩ := angleFree_cons.1 h
      exact angleFree_cons.2 ⟨ht, ih hts⟩

theorem AngleFree.place (h : AngleFree tokens) (hplace : Place tokens here) : AngleFree here := by
  induction hplace with
  | start => exact h
  | next _ ih => exact (angleFree_cons.1 ih).2
  | within _ ih => exact (angleFree_cons.1 ih).1

theorem AngleFree.consumes {W : List Token → Prop} (h : AngleFree i.tokens)
    (hij : Consumes i W j) : AngleFree j.tokens := by
  obtain ⟨taken, htokens, -⟩ := hij
  rw [htokens] at h
  exact h.place Place.start.suffix

theorem place_skip : Place tokens (skip tokens) := by
  unfold skip
  split
  · exact Place.start.next.next
  · exact Place.start.next
  · exact .start

/-- No arguments come next. -/
theorem AngleFree.opensArguments (h : AngleFree tokens) : opensArguments .type tokens = false := by
  have hangle {here : List Token} (hplace : Place tokens here) : atOperator "<" here = false := by
    unfold atOperator
    rcases hop : afterOperator "<".toList here with _ | rest
    · rfl
    · obtain ⟨joint, rfl⟩ := (afterOperator_single (c := '<')).1 hop
      exact absurd (angleFree_cons.1 (h.place hplace)).1 (by simp [Token.isAngleFree])
  unfold Host.opensArguments
  rw [hangle .start, hangle (place_skip.trans place_skip), Bool.and_false, Bool.false_and,
    Bool.and_false, Bool.or_false]

theorem consumes_part {p : Part} (h : AngleFree i.tokens) (hread : Reads (part read .type) i p j) :
    Consumes i (· = p.tokens) j ∧ p.Plain := by
  have hopens (name : String) (rest : List Token) (he : i.tokens = .ident name :: rest) :
      opensArguments .type rest = false := by
    rw [he] at h
    exact (angleFree_cons.1 h).2.opensArguments
  obtain ⟨hname, harguments, rest, he, rfl⟩ := (reads_part hopens).1 hread
  refine ⟨?_, harguments, hname⟩
  rw [Part.tokens, harguments]
  exact .token he

theorem consumes_furtherParts {parts : List Part} (h : AngleFree i.tokens)
    (hread : Reads (iterateUpTo (nextPart read) n found) i parts j) :
    ∃ more, parts = found ++ more ∧ Consumes i (PartsWritten more) j ∧ ∀ p ∈ more, p.Plain := by
  induction n generalizing found i with
  | zero => exact absurd hread not_reads_throw
  | succ n ih =>
      rcases reads_iterateUpTo.1 hread with ⟨found', k, hnext, hread⟩ | ⟨hnext, rfl⟩
      · obtain ⟨-, rest, p, hop, hp, rfl⟩ := reads_nextPart_some.1 hnext
        have hcolons := Consumes.operator hop
        obtain ⟨hpart, hplain⟩ := consumes_part (h.consumes hcolons) hp
        obtain ⟨more, rfl, hmore, hplains⟩ := ih ((h.consumes hcolons).consumes hpart) hread
        exact ⟨p :: more, by simp, (hcolons.trans hpart).trans hmore,
          List.forall_mem_cons.2 ⟨hplain, hplains⟩⟩
      · obtain rfl := reads_nextPart_none hnext
        exact ⟨[], by simp, .refl i, by simp⟩

/-- A path that is read where there are no angle brackets is plain, and it is read from what it is
written with. -/
theorem consumes_path {p : Path} (h : AngleFree i.tokens)
    (hread : Reads (Host.path read .type) i p j) : Consumes i p.IsWritten j ∧ p.Plain := by
  obtain ⟨rooted, first, parts⟩ := p
  obtain ⟨front, k, k', hfront, hfirst, hrest, hrooted⟩ := reads_path.1 hread
  obtain rfl : rooted = front := hrooted
  have hroot : Consumes i (if rooted then Spells [':', ':'] else (· = [])) k := by
    have hfront : Reads (accept "::" >>= pure) i rooted k := by rwa [bind_pure]
    rcases reads_accept_bind.1 hfront with ⟨rest, hop, hend⟩ | ⟨-, hend⟩ <;>
      obtain ⟨rfl, rfl⟩ := reads_pure.1 hend
    · exact .operator hop
    · exact .refl i
  obtain ⟨hpart, hplain⟩ := consumes_part (h.consumes hroot) hfirst
  rw [furtherParts_eq] at hrest
  obtain ⟨more, he, hmore, hplains⟩ :=
    consumes_furtherParts ((h.consumes hroot).consumes hpart) hrest
  obtain rfl : parts = more := he
  exact ⟨(hroot.trans hpart).trans hmore, hplain, hplains⟩

end AngleFree

/-! ## Reading a path back -/

section ReadingBack

variable {ts after : List Token} {o : Option Delimiter}

/-- What follows a part of a path: more parts, or the end of a branch. -/
theorem opensArguments_parts {parts : List Part} (hts : PartsWritten parts ts)
    (hrest : EndsBranch rest) : opensArguments .type (ts ++ rest) = false := by
  cases parts with
  | nil =>
      obtain rfl : ts = [] := hts
      cases hrest with
      | ending => rfl
      | bar joint | semicolon joint => cases joint <;> rfl
  | cons p parts =>
      obtain ⟨_, vs, ⟨op, _, hop, rfl, rfl⟩, -, rfl⟩ := hts
      rcases hop with rfl | rfl <;> rfl

theorem reads_part_plain {p : Part} (hp : p.Plain) (hopens : opensArguments .type after = false) :
    Reads (part read .type) ⟨p.tokens ++ after, o⟩ p ⟨after, o⟩ := by
  have he : p.tokens ++ after = .ident p.name :: after := by
    rw [Part.tokens, hp.1]
    rfl
  rw [he]
  refine (reads_part fun name rest he => ?_).2 ⟨hp.2, hp.1, after, rfl, rfl⟩
  cases he
  exact hopens

theorem length_le_of_partsWritten {parts : List Part} (h : PartsWritten parts ts) :
    parts.length ≤ ts.length := by
  induction parts generalizing ts with
  | nil => exact Nat.zero_le _
  | cons p parts ih =>
      obtain ⟨_, vs, ⟨op, _, -, rfl, rfl⟩, hvs, rfl⟩ := h
      have hlength := ih hvs
      simp only [List.length_append, List.length_cons, Part.tokens]
      omega

theorem reads_furtherParts_plain {parts : List Part} (found : List Part)
    (hparts : ∀ p ∈ parts, p.Plain) (hts : PartsWritten parts ts) (hrest : EndsBranch rest) {n : Nat}
    (hn : parts.length < n) :
    Reads (iterateUpTo (nextPart read) n found) ⟨ts ++ rest, o⟩ (found ++ parts) ⟨rest, o⟩ := by
  induction parts generalizing found ts n with
  | nil =>
      obtain ⟨n, rfl⟩ : ∃ n', n = n' + 1 := ⟨n - 1, by omega⟩
      obtain rfl : ts = [] := hts
      refine reads_iterateUpTo.2 (.inr ⟨?_, by simp⟩)
      cases hrest with
      | ending => rfl
      | bar joint | semicolon joint => cases joint <;> rfl
  | cons p parts ih =>
      rw [List.length_cons] at hn
      obtain ⟨n, rfl⟩ : ∃ n', n = n' + 1 := ⟨n - 1, by omega⟩
      obtain ⟨hp, hparts⟩ := List.forall_mem_cons.1 hparts
      obtain ⟨_, vs, ⟨op, _, hop, rfl, rfl⟩, hvs, rfl⟩ := hts
      have hpart : Reads (part read .type) ⟨p.tokens ++ (vs ++ rest), o⟩ p ⟨vs ++ rest, o⟩ :=
        reads_part_plain hp (opensArguments_parts hvs hrest)
      have hmore := ih (found ++ [p]) hparts hvs (n := n) (by omega)
      rw [List.append_assoc, List.singleton_append] at hmore
      have hcontinues : continuesPath (op ++ p.tokens ++ vs ++ rest) = true := by
        rcases hop with rfl | rfl <;> rfl
      refine reads_iterateUpTo.2 (.inl ⟨found ++ [p], _, reads_nextPart_some.2 ?_, hmore⟩)
      refine ⟨hcontinues, _, p, afterOperator_eq_some.2 ⟨op, hop, ?_⟩, hpart, rfl⟩
      simp only [List.append_assoc]

/-- A plain path is read as it is written. -/
theorem reads_path_written {p : Path} (hp : p.Plain) (hts : p.IsWritten ts)
    (hrest : EndsBranch rest) :
    Reads (Host.path read .type) ⟨ts ++ rest, o⟩ p ⟨rest, o⟩ := by
  obtain ⟨rooted, first, parts⟩ := p
  obtain ⟨hfirst, hparts⟩ := hp
  obtain ⟨_, vs, ⟨front, _, hfront, rfl, rfl⟩, hvs, rfl⟩ := hts
  have hopens : opensArguments .type (vs ++ rest) = false := opensArguments_parts hvs hrest
  have hroot : Reads (accept "::") ⟨front ++ (first.tokens ++ (vs ++ rest)), o⟩ rooted
      ⟨first.tokens ++ (vs ++ rest), o⟩ := by
    have haccept : Reads (accept "::" >>= pure) ⟨front ++ (first.tokens ++ (vs ++ rest)), o⟩ rooted
        ⟨first.tokens ++ (vs ++ rest), o⟩ := by
      rcases rooted with _ | _
      · obtain rfl : front = [] := hfront
        exact reads_accept_bind.2 (.inr ⟨rfl, reads_pure.2 ⟨rfl, rfl⟩⟩)
      · have hop : afterOperator [':', ':'] (front ++ (first.tokens ++ (vs ++ rest))) =
            some (first.tokens ++ (vs ++ rest)) := afterOperator_eq_some.2 ⟨front, hfront, rfl⟩
        exact reads_accept_bind.2 (.inl ⟨_, hop, reads_pure.2 ⟨rfl, rfl⟩⟩)
    rwa [bind_pure] at haccept
  rw [List.append_assoc, List.append_assoc]
  refine reads_path.2 ⟨rooted, _, _, hroot, reads_part_plain hfirst hopens, ?_, rfl⟩
  rw [furtherParts_eq]
  refine reads_furtherParts_plain [] hparts hvs hrest (Nat.lt_succ_of_le ?_)
  show parts.length ≤ (vs ++ rest).length
  rw [List.length_append]
  exact Nat.le_trans (length_le_of_partsWritten hvs) (Nat.le_add_right _ _)

end ReadingBack

/-! ## The paths of the host language -/

/-- The path that stands in a body. -/
def Path.toPath (p : Path) : Notation.Path := ⟨p.tokens, p.last.name⟩

theorem reads_standard_path {p : Notation.Path} :
    Reads standard.path i p j ↔ ∃ found : Path,
      Reads (path (construct (stepBound i.tokens)) .type) i found j ∧ p = found.toPath := by
  show Reads (remaining >>= _) i p j ↔ _
  rw [reads_remaining_bind]
  constructor
  · intro h
    obtain ⟨found, k, hfound, h⟩ := reads_bind.1 h
    obtain ⟨rfl, rfl⟩ := reads_pure.1 h
    exact ⟨found, hfound, rfl⟩
  · rintro ⟨found, hfound, rfl⟩
    exact hfound.bind (reads_pure.2 ⟨rfl, rfl⟩)

/-- A plain path can be read from all that it is written with. -/
theorem readsPath_of_plain {p : Path} {ts : List Token} (hp : p.Plain) (hts : p.IsWritten ts) :
    standard.ReadsPath p.toPath ts := fun _ _ hrest =>
  reads_standard_path.2 ⟨p, reads_path_written hp hts hrest, rfl⟩

end Host

/-- Where there are no angle brackets, paths are kept. -/
theorem keepsPaths_of_angleFree {tokens : List Token} (h : Host.AngleFree tokens) :
    Host.standard.KeepsPaths tokens where
  takes hplace hread := by
    obtain ⟨found, hfound, rfl⟩ := Host.reads_standard_path.1 hread
    obtain ⟨⟨ts, htokens, hover⟩, -⟩ := Host.consumes_path (h.place hplace) hfound
    exact ⟨ts, htokens, fun hj => (hover hj).1⟩
  steady {ts rest p} hplace _ hread := by
    obtain ⟨found, hfound, rfl⟩ := Host.reads_standard_path.1 hread
    obtain ⟨⟨ts', htokens, hover⟩, hplain⟩ := Host.consumes_path (h.place hplace) hfound
    obtain rfl : ts = ts' := List.append_cancel_right htokens
    exact Host.readsPath_of_plain hplain (hover rfl).2
  unchanged {ts rest p} hplace hpath := by
    obtain ⟨found, hfound, rfl⟩ := Host.reads_standard_path.1 (hpath [] none .ending)
    have hfree : Host.AngleFree (ts ++ []) := by
      rw [List.append_nil]
      exact Host.AngleFree.of_append (h.place hplace)
    obtain ⟨⟨ts', htokens, hover⟩, -⟩ := Host.consumes_path hfree hfound
    obtain rfl : ts = ts' := List.append_cancel_right htokens
    exact (hover rfl).2.alike

/-! ## Rules -/

/-- The readers of the notation accept just what rules are written with.  A proper rule whose paths
can be read from their own tokens is written with its tokens, and it is read from them.  Whatever else
a proper rule is written with, it is read from it, so that no two rules are written alike; and this
differs from its tokens in the spacing of punctuation only.  And a sequence of tokens in which paths
are kept is accepted as a rule only if the rule is proper and written with it. -/
theorem ofTokens_iff_isWritten (host : HostSyntax) :
    (∀ r : RuleDefinition, (r.Proper fun p => host.ReadsPath p p.tokens) →
      r.IsWritten host.WritesPath r.tokens ∧ RuleDefinition.ofTokens host r.tokens = .ok r) ∧
    (∀ (r : RuleDefinition) (tokens : List Token), r.Proper AnyPath →
      r.IsWritten host.WritesPath tokens →
        RuleDefinition.ofTokens host tokens = .ok r ∧ Alike r.tokens tokens ∧
          ∀ r' : RuleDefinition, r'.Proper AnyPath → r'.IsWritten host.WritesPath tokens → r' = r) ∧
    ∀ (tokens : List Token) (r : RuleDefinition), host.KeepsPaths tokens →
      RuleDefinition.ofTokens host tokens = .ok r →
        r.Proper AnyPath ∧ r.IsWritten host.WritesPath tokens := by
  refine ⟨fun r hr => ?_, fun r tokens hr hwritten => ?_, fun tokens r hpaths h => ?_⟩
  · have hwritten : r.IsWritten host.WritesPath r.tokens :=
      RuleDefinition.isWritten_tokens (fun p hp => ⟨hp, .refl _⟩) hr
    exact ⟨hwritten, RuleDefinition.ofTokens_of_isWritten hr hwritten⟩
  · have hread := RuleDefinition.ofTokens_of_isWritten hr hwritten
    refine ⟨hread, hwritten.alike fun p ts hts => hts.2, fun r' hr' hwritten' => ?_⟩
    have hread' := RuleDefinition.ofTokens_of_isWritten hr' hwritten'
    exact Except.ok.inj (hread'.symm.trans hread)
  · exact RuleDefinition.isWritten_of_ofTokens hpaths h

namespace Writing

/-- The path `add`. -/
def add : Path := ⟨[.ident "add"], "add"⟩

/-- The path `ops::add`. -/
def opsAdd : Path :=
  ⟨[.ident "ops", .punct ':' true, .alone ':', .ident "add"], "add"⟩

/-- The rule `sum = ~a* '0'..='9' => ops::add | | (=> add | b+){2}?;`. -/
def sum : RuleDefinition :=
  ⟨"sum",
    ⟨⟨[.not (.star (.rule "a")), .range ⟨"'0'", '0'⟩ ⟨"'9'", '9'⟩], some opsAdd⟩,
      [⟨[], none⟩,
        ⟨[.optional (.rep (.group ⟨⟨[], some add⟩, [⟨[.plus (.rule "b")], none⟩]⟩) ⟨false, "2", 2⟩)],
          none⟩]⟩⟩

/-- The rule `s = a*||b+=>add;` without any blanks between operators. -/
def joint : List Token :=
  [.ident "s", .alone '=', .ident "a", .punct '*' true, .punct '|' true, .alone '|', .ident "b",
    .punct '+' true, .punct '=' true, .alone '>', .ident "add", .alone ';']

/-- What is read from it: the branch between the bars is empty. -/
def empty : RuleDefinition :=
  ⟨"s", ⟨⟨[.star (.rule "a")], none⟩, [⟨[], none⟩, ⟨[.plus (.rule "b")], some add⟩]⟩⟩

theorem readsPath_add : Host.standard.ReadsPath add add.tokens :=
  Host.readsPath_of_plain (p := ⟨false, ⟨"add", []⟩, []⟩) ⟨⟨rfl, .inr (.inr (by decide))⟩, by simp⟩
    ⟨_, [], ⟨[], _, rfl, rfl, rfl⟩, rfl, rfl⟩

theorem readsPath_opsAdd : Host.standard.ReadsPath opsAdd opsAdd.tokens := by
  have hops : Host.IsPart "ops" := .inr (.inr (by decide))
  have hadd : Host.IsPart "add" := .inr (.inr (by decide))
  refine Host.readsPath_of_plain (p := ⟨false, ⟨"ops", []⟩, [⟨"add", []⟩]⟩)
    ⟨⟨rfl, hops⟩, List.forall_mem_singleton.2 ⟨rfl, hadd⟩⟩ ?_
  refine ⟨_, _, ⟨[], _, rfl, rfl, rfl⟩, ⟨_, [], ⟨_, _, spells_operator _, rfl, rfl⟩, rfl, rfl⟩, rfl⟩

/-- The rule `sum` is read as it is written, and joint operators are read as several: two bars are
the writing of an empty branch. -/
theorem ofTokens_iff_isWritten_sum :
    (sum.Proper fun p => Host.standard.ReadsPath p p.tokens) ∧
      RuleDefinition.ofTokens Host.standard sum.tokens = .ok sum ∧
      empty.Proper AnyPath ∧ empty.IsWritten Host.standard.WritesPath joint ∧
      RuleDefinition.ofTokens Host.standard joint = .ok empty ∧ Alike empty.tokens joint ∧
      Host.standard.KeepsPaths joint := by
  obtain ⟨hwriting, hreading, haccepted⟩ := ofTokens_iff_isWritten Host.standard
  have hadd : ∀ p ∈ some add, Host.standard.ReadsPath p p.tokens := fun p hp =>
    Option.some.inj hp ▸ readsPath_add
  have hopsAdd : ∀ p ∈ some opsAdd, Host.standard.ReadsPath p p.tokens := fun p hp =>
    Option.some.inj hp ▸ readsPath_opsAdd
  have ha : isKeyword "a" = false := by decide
  have hb : isKeyword "b" = false := by decide
  have hsum : sum.Proper fun p => Host.standard.ReadsPath p p.tokens := by
    refine ⟨by decide, ⟨⟨⟨rfl, ha⟩, trivial, trivial⟩, hopsAdd⟩, ?_⟩
    refine ⟨⟨trivial, by simp⟩, ⟨⟨⟨rfl, rfl, ?_⟩, trivial⟩, by simp⟩, trivial⟩
    exact ⟨⟨trivial, hadd⟩, ⟨⟨⟨rfl, hb⟩, trivial⟩, by simp⟩, trivial⟩
  have hpaths : Host.standard.KeepsPaths joint := keepsPaths_of_angleFree (by decide)
  have hjoint : RuleDefinition.ofTokens Host.standard joint = .ok empty := by rfl
  obtain ⟨hproper, hwritten⟩ := haccepted joint empty hpaths hjoint
  exact ⟨hsum, (hwriting sum hsum).2, hproper, hwritten, hjoint,
    (hreading empty joint hproper hwritten).2.1, hpaths⟩

end Writing

end DerivativeParsing.Notation
