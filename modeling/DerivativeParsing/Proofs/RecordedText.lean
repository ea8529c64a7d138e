import DerivativeParsing.Proofs.Matching
import DerivativeParsing.Proofs.SimplifiedTranscripts

/-!
# The text of a parse

A grammar whose nodes all record what they match gives a text no tree but trees of that text
(`Grammar.text_of_parse`).  At the start, what is recorded is what is read.  Each derivative takes a
character off what is to be read and leaves what is recorded, and normalisation changes neither.  In
the end nothing is left to be read, and what has been recorded is the whole text.
-/

set_option autoImplicit false

namespace DerivativeParsing

open Fixpoint DerivativeParsing.Graph Transcript Transcripts
open scoped Pointwise

/-- A node that records what it matches: it is not `.`, a complement or a finished reduction, and
its reducer is one of the library's own or keeps the text of every tree. -/
def Node.Faithful : Node → Prop
  | .any | .not _ | .emptyReduction _ => False
  | .reduction _ reducer =>
    reducer = .prepend ∨ (∃ n, reducer = .flatten n) ∨ reducer.KeepsText
  | _ => True

namespace Transcripts

theorem pow_faithful_subset (n : Nat) : (faithful : Transcripts) ^ n ⊆ faithful := by
  induction n with
  | zero =>
      intro x hx
      rw [pow_zero, Set.mem_one] at hx
      exact hx ▸ one_mem faithful
  | succ n ih =>
      rw [pow_succ]
      rintro _ ⟨x, hx, y, hy, rfl⟩
      exact mul_mem (ih hx) hy

theorem repeated_faithful_subset : repeated faithful ⊆ faithful :=
  (Submonoid.closure_eq faithful).le

end Transcripts

/-- The transcripts of a faithful node are faithful if those of its operands are. -/
theorem Node.Faithful.within {Γ : Handle → Transcripts → Prop} {n : Node} (hn : n.Faithful)
    (hΓ : ∀ k ∈ n.children, Γ k faithful) : n.Within Γ faithful := by
  cases n with
  | nil => trivial
  | empty => exact one_mem faithful
  | any => exact hn.elim
  | char c => exact verbatim_mem_faithful _
  | range first last => exact fun c _ _ => verbatim_mem_faithful _
  | token text => exact verbatim_mem_faithful _
  | alt left right => exact ⟨hΓ left (by simp [children]), hΓ right (by simp [children])⟩
  | seq first second =>
      refine ⟨_, _, hΓ first (by simp [children]), hΓ second (by simp [children]), ?_⟩
      rintro _ ⟨x, hx, y, hy, rfl⟩
      exact mul_mem hx hy
  | star operand => exact ⟨_, hΓ operand (by simp [children]), repeated_faithful_subset⟩
  | rep operand count =>
      cases count with
      | exactly n => exact ⟨_, hΓ operand (by simp [children]), pow_faithful_subset n⟩
      | unbounded => exact ⟨_, hΓ operand (by simp [children]), repeated_faithful_subset⟩
  | not operand => exact hn.elim
  | nullability operand => exact ⟨_, hΓ operand (by simp [children]), Set.sep_subset _ _⟩
  | emptyReduction trees => exact hn.elim
  | reduction operand reducer =>
      refine ⟨?_, hΓ operand (by simp [children])⟩
      rcases hn with rfl | ⟨n, rfl⟩ | hkeeps
      · exact Reducer.keepsText_prepend
      · exact Reducer.keepsText_flatten n
      · exact hkeeps

section Runs

variable {g g' : Graph} {h root s : Handle} {R : Transcripts} {fuel rounds : Nat}
  {w word : List Char} {F : Forest} {t : Tree}

/-- Of an expression from which only faithful nodes can be reached, all transcripts are faithful. -/
theorem Graph.WellFormed.records_faithful (hg : g.WellFormed) (hroot : root.index < g.size)
    (hfaithful : ∀ h n, g.Reaches root h → g.slot? h = some (.node n) → n.Faithful) :
    g.Records root faithful := by
  refine ⟨fun h R => g.Reaches root h ∧ ↑faithful ⊆ R, ?_, .refl, fun _ => id⟩
  constructor
  · exact fun h R hh => hg.lt_of_reaches hroot hh.1
  · exact fun h R R' hR hh => ⟨hh.1, hh.2.trans hR⟩
  · rintro h R n ⟨hh, hR⟩ hs
    have hchildren : ∀ k ∈ n.children, g.Reaches root k := fun k hk =>
      hh.tail (by rwa [references_of_node hs])
    have hwithin : n.Within (fun k A => g.Reaches root k ∧ ↑faithful ⊆ A) faithful :=
      (hfaithful h n hh hs).within fun k hk => ⟨hchildren k hk, fun _ => id⟩
    exact hwithin.mono hR fun k _ A A' hA hk => ⟨hk.1, hk.2.trans hA⟩
  · rintro h R t ⟨hh, hR⟩ hs
    exact ⟨hh.tail (by simp [references_of_forward hs]), hR⟩
  · exact fun _ _ _ => trivial

namespace Graph.Transcribes

theorem normaliseWithin (hg : g.WellFormed) (hh : g.Records h R)
    (hrun : g.normaliseWithin fuel rounds h = some (s, g')) : g'.WellFormed ∧ g'.Records s R := by
  induction rounds generalizing g h with
  | zero => cases hrun
  | succ rounds ih =>
      rcases normaliseWithin_cases hrun with ⟨hs, -⟩ | ⟨d, g₁, hd, -, -, hrun⟩
      · exact hh.simplify hg hs
      · obtain ⟨hg₁, hd⟩ := hh.simplify hg hd
        exact ih hg₁ hd hrun

/-- After a part of the word has been read, the rest of every transcript is left. -/
theorem consumes (hg : g.WellFormed) (hh : g.Records h R)
    (hrun : Consumes (normalise fuel) g h word g' s w) :
    ∃ u, word = u ++ w ∧ g'.Records s (after u R) := by
  induction hrun generalizing R with
  | done => exact ⟨[], rfl, (after_nil R).symm ▸ hh⟩
  | @step g g₁ g₂ g' h d s h' c word w hd hs _ ih =>
      obtain ⟨hg₁, hd⟩ := hh.derivative hg hd
      obtain ⟨hg₂, hs⟩ := hd.normaliseWithin hg₁ hs
      obtain ⟨u, rfl, hrest⟩ := ih hg₂ hs
      rw [after_append] at hrest
      exact ⟨c :: u, rfl, hrest⟩

/-- The trees of a word record what the transcripts of the word record. -/
theorem parses (hg : g.WellFormed) (hh : g.Records h R)
    (hrun : g.parses fuel h word = some (F, g')) (ht : t ∈ F) :
    skipped word * recorded t.chars ∈ R := by
  rw [Graph.parses] at hrun
  obtain ⟨⟨d, g₁⟩, hd, hrun⟩ := Option.bind_eq_some_iff.1 hrun
  obtain ⟨hg₁, hd⟩ := hh.normaliseWithin hg hd
  obtain ⟨s, w, hconsumes, hend⟩ := consumes_of_parsesFrom hrun
  obtain ⟨u, rfl, hs⟩ := hd.consumes hg₁ hconsumes
  rcases hend with ⟨rfl, hF⟩ | ⟨-, rfl⟩
  · rw [List.append_nil]
    exact hs.emptyParses hF ht
  · exact absurd ⟨t, ht⟩ Forest.not_hasTree_empty

end Graph.Transcribes

end Runs

namespace Grammar

variable {g g₁ g₂ : Grammar} {root r : Handle} {text : String} {fuel : Nat} {F : Forest}

/-- Every tree that an expression gives to a text has this text, if every node that can be reached
from the expression records what it matches, through any recursion, repetition, token, nullability
and reduction. -/
theorem text_of_parse (hg : g.WellFormed) (hroot : g.Has root)
    (hprepare : (prepare root).run.run g = (.ok r, g₁))
    (hfaithful : ∀ h n, g₁.graph.Reaches root h → g₁.graph.slot? h = some (.node n) → n.Faithful)
    (hparse : (parse fuel root text).run.run g = (.ok F, g₂)) : ∀ t ∈ F, t.text = text := by
  intro t ht
  have hsound := hg.prepare hroot
  obtain ⟨hl, -⟩ := hsound.result r g₁ hprepare
  have hw := hsound.wellFormed
  have hgrows := hsound.change
  rw [hprepare] at hw hgrows
  obtain ⟨after, hparses⟩ := parses_of_run hprepare hparse
  have hrecords := (hw.graph.records_faithful (hroot.change hgrows) hfaithful).leads hl
  have hmem : skipped text.toList * recorded t.chars ∈ faithful := hrecords.parses hw.graph hparses ht
  have hchars : text.toList = t.chars := by
    have hpair : FreeMonoid.ofList text.toList * 1 = 1 * FreeMonoid.ofList t.chars := hmem
    rwa [mul_one, one_mul] at hpair
  unfold Tree.text
  rw [← hchars, String.ofList_toList]

/-! ## Words of one character and more -/

namespace Iterated

/-- The rule `s = 'a' s*`. -/
def grammar : Grammar :=
  ⟨⟨#[.node .nil, .node .empty, .node .any, .forward ⟨5⟩, .node (.char 'a'),
      .node (.seq ⟨4⟩ ⟨6⟩), .node (.star ⟨3⟩)]⟩, [("s", ⟨3⟩)], [], 0⟩

/-- The handle of the rule. -/
def start : Handle := ⟨3⟩

/-- The handle of its body. -/
def body : Handle := ⟨5⟩

/-- The handles that can be reached from the rule. -/
def handles : List Handle := [⟨3⟩, ⟨4⟩, ⟨5⟩, ⟨6⟩]

theorem wellFormed_grammar : grammar.WellFormed where
  graph := .of_fits rfl rfl rfl (by decide)
  rules := by decide
  names := by decide

theorem prepare_start : (prepare start).run.run grammar = (.ok body, grammar) := rfl

theorem faithful_start (h : Handle) (n : Node) (hh : grammar.graph.Reaches start h)
    (hs : grammar.graph.slot? h = some (.node n)) : n.Faithful := by
  have hclosed : grammar.graph.Closed {h | h ∈ handles} := fun h hh k hk =>
    (by decide : ∀ h ∈ handles, ∀ k ∈ grammar.graph.references h, k ∈ handles) h hh k hk
  have hmem : h ∈ handles := hclosed.of_reaches (by decide : start ∈ handles) hh
  simp only [handles, List.mem_cons, List.not_mem_nil, or_false] at hmem
  rcases hmem with rfl | rfl | rfl | rfl <;> cases hs <;> trivial

theorem parses_start : (grammar.graph.parses 2 body "a".toList).map (·.1.trees) =
    some [.list [.char 'a', .list []]] := by
  cbv

/-- The text `a` has one parse by the rule, and the text of this parse is `a`. -/
theorem text_of_parse_start :
    (grammar.WellFormed ∧ grammar.Has start ∧ (prepare start).run.run grammar = (.ok body, grammar) ∧
        ∀ h n, grammar.graph.Reaches start h → grammar.graph.slot? h = some (.node n) → n.Faithful) ∧
      ∃ F g, (parse 2 start "a").run.run grammar = (.ok F, g) ∧
        F.trees = [.list [.char 'a', .list []]] ∧ ∀ t ∈ F, t.text = "a" := by
  have hstart : grammar.Has start := (by decide : 3 < 7)
  obtain ⟨⟨F, after⟩, hparses, htrees⟩ := Option.map_eq_some_iff.1 parses_start
  have hparse := run_parse prepare_start hparses
  exact ⟨⟨wellFormed_grammar, hstart, prepare_start, faithful_start⟩, F, _, hparse, htrees,
    text_of_parse wellFormed_grammar hstart prepare_start faithful_start hparse⟩

end Iterated

end Grammar

end DerivativeParsing
