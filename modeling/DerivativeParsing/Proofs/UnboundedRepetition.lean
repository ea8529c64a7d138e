import DerivativeParsing.Proofs.CountedRepetition

/-!
# Repetitions without a bound

A repetition `p*` puts the trees of its matches into one list: a derivative glues the tree of one
more match onto the list of those that follow it.  If every match of `p` leaves a tree, the trees of
`p*` for a word are exactly the lists of trees of `p` for the pieces of the word, none of which is
empty (`mem_repeated`, `Grammar.parse_iteration`).

A match that leaves no tree spoils this.  Where the first of the pair has become `ε`, simplification
leaves the list of the matches that follow, and that is glued in place of the pair: if it has two
items, of which the second one is a list, this item is spilled.  The expressions that record every
character (`Graph.Spelling`) have no such matches.
-/

set_option autoImplicit false

namespace DerivativeParsing

open Fixpoint DerivativeParsing.Graph Residue Trace Piece

/-! ## The traces of a repetition -/

namespace Trace

variable {A : Set Trace} {a : Trace} {pieces : List Piece}

/-- Every piece is matched, and none is empty. -/
def MadeOfBegun (A : Set Trace) (pieces : List Piece) : Prop :=
  MadeOf A pieces ∧ ∀ q ∈ pieces, q.1 ≠ []

theorem madeOfBegun_cons {p : Piece} : MadeOfBegun A (p :: pieces) ↔
    ((p.1, some p.2) ∈ A ∧ p.1 ≠ []) ∧ MadeOfBegun A pieces := by
  unfold MadeOfBegun
  rw [madeOf_cons, List.forall_mem_cons]
  tauto

/-- A repetition collects the trees of pieces that are not empty. -/
theorem mem_repeated (hA : Shown A) :
    Repeated A a ↔ ∃ pieces, MadeOfBegun A pieces ∧ collected pieces = a := by
  constructor
  · -- By induction on the rounds, each of which leaves a tree.
    intro ha
    induction ha with
    | none => exact ⟨[], ⟨List.forall_mem_nil _, List.forall_mem_nil _⟩, rfl⟩
    | @more a b ha _ ih =>
        obtain ⟨pieces, hmade, rfl⟩ := ih
        obtain ⟨t, ht⟩ := hA.exists_tree ha.1
        refine ⟨(a.1, t) :: pieces, madeOfBegun_cons.2 ⟨⟨ht ▸ ha.1, ha.2⟩, hmade⟩, ?_⟩
        rw [ht, prepend_collected]
  · rintro ⟨pieces, hmade, rfl⟩
    induction pieces with
    | nil => exact .none
    | cons p pieces ih =>
        obtain ⟨hp, hmade⟩ := madeOfBegun_cons.1 hmade
        have hrest : Repeated A (collected pieces) := ih hmade
        rw [← prepend_collected]
        exact .more hp hrest

end Trace

/-! ## Expressions that record every character -/

/-- A node that matches something, and records every character of it, if that holds of its
operands. -/
def Node.Spelling (R : Set Reducer) : Node → Prop
  | .char _ | .alt _ _ | .seq _ _ => True
  | .range first last => first ≤ last
  | .token text => 2 ≤ text.length
  | .reduction _ reducer => reducer ∈ R
  | _ => False

namespace Node

variable {R : Set Reducer} {n : Node} {V : Handle → Set Trace} {outer : Handle → WordSet}

theorem Spelling.tangible (hn : n.Spelling R) : n.Tangible R V := by
  cases n with
  | char c => trivial
  | alt left right => trivial
  | seq first second => trivial
  | range first last => trivial
  | token text => exact hn
  | reduction operand reducer => exact hn
  | _ => exact hn.elim

/-- A spelling node has matches, and none of them is of the empty word. -/
theorem Spelling.matches (hn : n.Spelling R)
    (hV : ∀ c ∈ n.children, (V c).Nonempty ∧ ended (V c) = ∅) :
    (n.traces outer V).Nonempty ∧ ended (n.traces outer V) = ∅ := by
  rw [ended_traces]
  cases n with
  | char c => exact ⟨⟨_, rfl⟩, Set.image_empty _⟩
  | range first last => exact ⟨⟨_, first, Char.le_refl _, hn, rfl⟩, Set.image_empty _⟩
  | token text =>
      have hlength : 2 ≤ text.length := hn
      have htext : text ≠ [] := by
        rintro rfl
        simp at hlength
      exact ⟨⟨_, htext, rfl⟩, Set.image_empty _⟩
  | alt left right =>
      obtain ⟨⟨a, ha⟩, hleft⟩ := hV left (by simp [children])
      obtain ⟨-, hright⟩ := hV right (by simp [children])
      refine ⟨⟨map id a, a, .inl ha, rfl⟩, ?_⟩
      simp [residues, trees, hleft, hright]
  | seq first second =>
      obtain ⟨⟨a, ha⟩, hfirst⟩ := hV first (by simp [children])
      obtain ⟨⟨b, hb⟩, -⟩ := hV second (by simp [children])
      refine ⟨⟨a.append b, a, ha, b, hb, rfl⟩, ?_⟩
      simp [residues, trees, hfirst]
  | reduction operand reducer =>
      obtain ⟨⟨a, ha⟩, hoperand⟩ := hV operand (by simp [children])
      refine ⟨⟨map reducer.apply a, a, ha, rfl⟩, ?_⟩
      simp [residues, trees, hoperand]
  | _ => exact hn.elim

end Node

namespace Graph

variable {R : Set Reducer} {g : Graph} {h : Handle}

/-- An expression that is made of characters, ranges, tokens, alternatives, sequences and
reductions. -/
def Spelling (R : Set Reducer) (g : Graph) (h : Handle) : Prop :=
  ∀ k n, g.Reaches h k → g.slot? k = some (.node n) → n.Spelling R

theorem Spelling.tangible (hh : g.Spelling R h) : g.Tangible R h :=
  fun k n hk hs => (hh k n hk hs).tangible

/-- A spelling expression without a cycle matches something, and not the empty word. -/
theorem Workable.matches_of_spelling (hh : g.Workable h) (htame : g.Tame h)
    (hspelling : g.Spelling R h) : (g.traces h).Nonempty ∧ ended (g.traces h) = ∅ := by
  -- An expression comes after its operands, and a reference after what it leads to.
  refine htame.induction (P := fun k => (g.traces k).Nonempty ∧ ended (g.traces k) = ∅)
    hh.wellFormed hh.inRange fun k hk ih => ?_
  obtain ⟨r, n, hl, hs⟩ := hh.ready k hk
  cases hl with
  | here =>
      rw [traces_node hs]
      refine (hspelling k n hk hs).matches fun c hc => ih c ?_
      rwa [references_of_node hs]
  | step hf _ =>
      rw [traces_forward hf]
      exact ih _ (by simp [references_of_forward hf])

end Graph

/-! ## Repetitions in a grammar -/

namespace Grammar

variable {g g' g₁ g₂ : Grammar} {p e : Handle} {fuel : Nat} {text : String} {F : Forest}

/-- The repetition of an expression, any number of times. -/
def iteration (p : Handle) : GrammarM Handle := unary .star (.handle p)

theorem run_iteration (hp : g.graph.Workable p)
    (hrun : (iteration p).run.run g = (.ok e, g')) :
    g'.graph.Workable e ∧ g'.graph.traces e = {a | Repeated (g.graph.traces p) a} ∧
      g'.graph.slot? e = some (.node (.star p)) ∧
        ∀ R, g.graph.Solid R p →
          (g.graph.traces p).Nonempty ∧ ended (g.graph.traces p) = ∅ → g'.graph.Solid R e := by
  unfold iteration unary at hrun
  rw [run_bind, coerce, run_pure] at hrun
  dsimp only at hrun
  rw [run_make] at hrun
  cases hrun
  have hworkable := Workable.make (n := .star p) hp.wellFormed
    (by simpa [Node.children] using hp) (by simp) (by simp)
  have hs := hp.wellFormed.slot?_make (n := .star p)
  refine ⟨hworkable, ?_, hs, fun R hsolid hmatches => ?_⟩
  · rw [traces_node hs]
    show {a | Repeated _ a} = _
    rw [traces_extends hp.wellFormed extends_make hp.inRange]
  · exact Solid.make hp.wellFormed (by simpa [Node.children] using hsolid) hmatches

/-- The parses of an expression that can be worked with are its trees, as long as no simplification
on the way changes trees. -/
theorem mem_parse_workable {word : List Char} (hp : g.graph.Workable p)
    (hwhen : ∀ r, g.graph.Leads p r → g.graph.WhenParsing fuel (SimplifiesTruly fuel) r word)
    (hparse : (parse fuel p (.ofList word)).run.run g = (.ok F, g')) (t : Tree) :
    t ∈ F ↔ t ∈ g.graph.treesOf p word := by
  obtain ⟨r, hl, hprepare⟩ := prepare_of_ready hp.wellFormed hp.ready
  obtain ⟨after, hrun⟩ := parses_of_run hprepare hparse
  rw [String.toList_ofList] at hrun
  rw [(hp.reaches hl.reaches).mem_parses (hwhen r hl) hrun]
  unfold treesOf
  rw [traces_leads hl]

/-- The trees of a repetition are the lists of trees of its operand for the pieces of the text, none
of which is empty.  Each of them is among the parses of its piece by the operand.

This holds if every match of the operand leaves a tree and no simplification on the way changes
trees, in particular for an expression that is made of characters, ranges, tokens, alternatives,
sequences and reductions, and from which no cycle can be reached. -/
theorem parse_iteration (hp : g.graph.Workable p)
    (hiteration : (iteration p).run.run g = (.ok e, g₁))
    (hwhen : (Shown (g.graph.traces p) ∧
        g₁.graph.WhenParsing fuel (SimplifiesTruly fuel) e text.toList ∧
        ∀ fuel r word, g.graph.Leads p r →
          g.graph.WhenParsing fuel (SimplifiesTruly fuel) r word) ∨
      ∃ R, Reducer.Agreeing R ∧ g.graph.Tame p ∧ g.graph.Spelling R p)
    (hparse : (parse fuel e text).run.run g₁ = (.ok F, g₂)) :
    (∀ t, t ∈ F ↔ ∃ pieces : List Piece, word pieces = text.toList ∧
      (∀ q ∈ pieces, q.1 ≠ [] ∧ q.2 ∈ g.graph.treesOf p q.1) ∧
        .list (pieces.map Prod.snd) = t) ∧
    ∀ (fuel : Nat) (word : List Char) (F : Forest) (g' : Grammar),
      (parse fuel p (.ofList word)).run.run g = (.ok F, g') →
        ∀ t, t ∈ F ↔ t ∈ g.graph.treesOf p word := by
  obtain ⟨he, htraces, hs, hsolid⟩ := run_iteration hp hiteration
  obtain ⟨hshown, hwhen, hwhen'⟩ : Shown (g.graph.traces p) ∧
      g₁.graph.WhenParsing fuel (SimplifiesTruly fuel) e text.toList ∧
      ∀ fuel r word, g.graph.Leads p r →
        g.graph.WhenParsing fuel (SimplifiesTruly fuel) r word := by
    rcases hwhen with hwhen | ⟨R, hR, htame, hspelling⟩
    · exact hwhen
    · -- Simplification changes no trees of solid expressions.
      have hp' : g.graph.Solid R p := ⟨hp, htame, hspelling.tangible⟩
      refine ⟨hspelling.tangible.shown, ?_, fun fuel r word hl => ?_⟩
      · exact (hsolid R hp' (hp.matches_of_spelling htame hspelling)).whenParsing hR
      · have hr : g.graph.Solid R r := ⟨hp.reaches hl.reaches, htame.reaches hl.reaches,
          hspelling.tangible.reaches hl.reaches⟩
        exact hr.whenParsing hR
  refine ⟨fun t => ?_, fun fuel word F g' hparse => mem_parse_workable hp (hwhen' fuel · word) hparse⟩
  have hcollects : g₁.graph.Collects e g.graph p fun pieces => ∀ q ∈ pieces, q.1 ≠ [] := by
    intro a
    rw [htraces]
    show Repeated _ a ↔ _
    rw [mem_repeated hshown]
    refine exists_congr fun pieces => ?_
    unfold MadeOfBegun
    tauto
  rw [mem_parse_node he hs hwhen hparse, hcollects.mem_treesOf hshown]
  refine exists_congr fun pieces => ?_
  rw [forall₂_and]
  tauto

/-! ### A letter -/

namespace Letters

/-- The expression `'a'`. -/
def grammar : Grammar := ⟨⟨#[.node .nil, .node .empty, .node .any, .node (.char 'a')]⟩, [], [], 0⟩

/-- The handle of `'a'`. -/
def letter : Handle := ⟨3⟩

/-- The grammar with the repetition of `'a'`. -/
def iterated : Grammar := ((iteration letter).run.run grammar).2

theorem wellFormed_grammar : grammar.WellFormed :=
  ⟨.of_fits rfl rfl rfl (by decide), by decide, by decide⟩

theorem workable_letter : grammar.graph.Workable letter := by
  have hcomplements : grammar.graph.ComplementsTame letter := by
    intro k q _ hs
    rcases k with ⟨_ | _ | _ | _ | k⟩ <;> cases hs
  exact (workable_of_prepare wellFormed_grammar (by decide : 3 < 4) rfl hcomplements).2.1

theorem tame_letter : grammar.graph.Tame letter :=
  Graph.tame_of_list (l := [letter]) (by decide) (by decide)

theorem spelling_letter (R : Set Reducer) : grammar.graph.Spelling R letter := by
  intro k n hk hs
  have hclosed : grammar.graph.Closed {letter} := by
    rintro h rfl k hk
    cases hk
  obtain rfl : k = letter := hclosed.of_reaches rfl hk
  cases hs
  trivial

theorem agreeing : Reducer.Agreeing {.prepend} where
  prepend := rfl
  action := by
    rintro f rfl f' rfl _
    rfl

theorem parses_letters : (iterated.graph.parses 2 ⟨4⟩ "aa".toList).isSome ∧
    (grammar.graph.parses 2 letter ['a']).isSome := by
  decide +kernel

/-- The trees of the repetition of `'a'` for the text `aa` are lists of trees of `'a'`. -/
theorem parse_iteration_letter :
    (grammar.graph.Workable letter ∧
        (iteration letter).run.run grammar = (.ok ⟨4⟩, iterated) ∧
        Reducer.Agreeing {.prepend} ∧ grammar.graph.Tame letter ∧
        grammar.graph.Spelling {.prepend} letter) ∧
      ∃ F F' g g', (parse 2 ⟨4⟩ "aa").run.run iterated = (.ok F, g) ∧
        (parse 2 letter (.ofList ['a'])).run.run grammar = (.ok F', g') ∧
        .char 'a' ∈ F' ∧ .list [.char 'a', .char 'a'] ∈ F := by
  obtain ⟨⟨F, _⟩, hparses⟩ := Option.isSome_iff_exists.1 parses_letters.1
  obtain ⟨⟨F', _⟩, hparses'⟩ := Option.isSome_iff_exists.1 parses_letters.2
  have hparse : (parse 2 ⟨4⟩ "aa").run.run iterated = (.ok F, _) := run_parse rfl hparses
  have hparse' : (parse 2 letter (.ofList ['a'])).run.run grammar = (.ok F', _) :=
    run_parse rfl hparses'
  obtain ⟨hF, hF'⟩ := parse_iteration workable_letter rfl
    (.inr ⟨_, agreeing, tame_letter, spelling_letter _⟩) hparse
  have htree : .char 'a' ∈ grammar.graph.treesOf letter ['a'] := by
    refine ⟨some (.char 'a'), ?_, rfl⟩
    rw [traces_node (n := .char 'a') rfl]
    rfl
  refine ⟨⟨workable_letter, rfl, agreeing, tame_letter, spelling_letter _⟩, F, F', _, _, hparse,
    hparse', (hF' 2 ['a'] F' _ hparse' _).2 htree, (hF _).2 ?_⟩
  refine ⟨[(['a'], .char 'a'), (['a'], .char 'a')], rfl, ?_, rfl⟩
  intro q hq
  obtain rfl : q = (['a'], .char 'a') := by simpa using hq
  exact ⟨List.cons_ne_nil _ _, htree⟩

end Letters

end Grammar

end DerivativeParsing
