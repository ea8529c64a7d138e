import DerivativeParsing.Proofs.Normalisation
import DerivativeParsing.Proofs.ParsedTrees

/-!
# Derivation trees

The trees that expressions made of characters, ranges, texts, alternatives, sequences and reductions
give to words, built from the expressions alone (`Graph.Derives`).  Each constructor is one shape of
a node, and nothing is said about derivatives or about what is left of a match.

In a sequence a match of `ε` itself leaves nothing, where a derivation has the empty list.  The two
agree if no operand of a sequence stands for the empty word alone (`Graph.Elementary`): the trees of
a word are then its derivation trees (`Graph.mem_treesOf_iff_derives`), and so are its parses
(`Grammar.mem_parse_iff_derives`).
-/

set_option autoImplicit false

namespace DerivativeParsing

open DerivativeParsing.Graph Residue Trace

/-- The characters of a text, paired from the right. -/
def Tree.spelling : List Char → Tree
  | [] => .unit
  | [c] => .char c
  | c :: d :: rest => .pair (.char c) (spelling (d :: rest))

theorem Residue.spelled_eq {c : Char} {rest : List Char} :
    spelled (c :: rest) = some (Tree.spelling (c :: rest)) := by
  induction rest generalizing c with
  | nil => rfl
  | cons d rest ih => rw [spelled, ih, join_some, Tree.spelling]

namespace Graph

/-- The derivations of words by the expressions of a graph, with their trees. -/
inductive Derives (g : Graph) : Handle → List Char → Tree → Prop where
  | forward {h t : Handle} {w : List Char} {tree : Tree} (hs : g.slot? h = some (.forward t))
      (hd : g.Derives t w tree) : g.Derives h w tree
  | empty {h : Handle} (hs : g.slot? h = some (.node .empty)) : g.Derives h [] .unit
  | char {h : Handle} {c : Char} (hs : g.slot? h = some (.node (.char c))) :
      g.Derives h [c] (.char c)
  | range {h : Handle} {first last c : Char} (hs : g.slot? h = some (.node (.range first last)))
      (hfirst : first ≤ c) (hlast : c ≤ last) : g.Derives h [c] (.char c)
  | token {h : Handle} {text : List Char} (hs : g.slot? h = some (.node (.token text)))
      (hne : text ≠ []) : g.Derives h text (.spelling text)
  | left {h left right : Handle} {w : List Char} {tree : Tree}
      (hs : g.slot? h = some (.node (.alt left right))) (hd : g.Derives left w tree) :
      g.Derives h w tree
  | right {h left right : Handle} {w : List Char} {tree : Tree}
      (hs : g.slot? h = some (.node (.alt left right))) (hd : g.Derives right w tree) :
      g.Derives h w tree
  | seq {h first second : Handle} {u v : List Char} {a b : Tree}
      (hs : g.slot? h = some (.node (.seq first second))) (ha : g.Derives first u a)
      (hb : g.Derives second v b) : g.Derives h (u ++ v) (.pair a b)
  | reduction {h operand : Handle} {f : Reducer} {w : List Char} {tree : Tree}
      (hs : g.slot? h = some (.node (.reduction operand f))) (hd : g.Derives operand w tree) :
      g.Derives h w (f.apply tree)

end Graph

/-- A node of one of the shapes that have derivations, or `∅`.  No operand of a sequence stands for
the empty word alone. -/
def Node.Elementary (g : Graph) : Node → Prop
  | .nil | .empty | .char _ | .range _ _ | .token _ | .alt _ _ | .reduction _ _ => True
  | .seq first second => g.language first ≠ 1 ∧ g.language second ≠ 1
  | _ => False

namespace Graph

/-- An expression all of whose nodes are elementary. -/
def Elementary (g : Graph) (h : Handle) : Prop :=
  ∀ k n, g.Reaches h k → g.slot? k = some (.node n) → n.Elementary g

variable {g : Graph} {h k : Handle} {w : List Char} {t : Tree} {x : Residue} {a : Trace}

namespace Elementary

theorem reaches (hh : g.Elementary h) (hk : g.Reaches h k) : g.Elementary k :=
  fun k' n hk' hs => hh k' n (hk.trans hk') hs

theorem of_mem_references (hh : g.Elementary h) (hk : k ∈ g.references h) : g.Elementary k :=
  hh.reaches (.single hk)

theorem forward (hh : g.Elementary h) (hs : g.slot? h = some (.forward k)) : g.Elementary k :=
  hh.of_mem_references (by simp [references_of_forward hs])

theorem operand {n : Node} (hh : g.Elementary h) (hs : g.slot? h = some (.node n))
    (hk : k ∈ n.children) : g.Elementary k :=
  hh.of_mem_references (by rwa [references_of_node hs])

theorem not_complement (hh : g.Elementary h) (hk : g.Reaches h k) (p : Handle) :
    g.slot? k ≠ some (.node (.not p)) := fun hs => hh k _ hk hs

theorem layered (hh : g.Elementary h) : g.Layered h := ⟨0, fun _ p hk => hh.not_complement hk p⟩

theorem complementsTame (hh : g.Elementary h) : g.ComplementsTame h :=
  fun _ p hk hs => absurd hs (hh.not_complement hk p)

/-! ## Matches of elementary expressions -/

/-- What a match leaves is the tree of a derivation.  If it leaves nothing, the expression stands
for the empty word alone. -/
def Explained (g : Graph) (h : Handle) (a : Trace) : Prop :=
  g.Derives h a.1 a.2.tree ∧ (a.2 = none → g.language h = 1)

/-- A match that leaves something is explained by its derivation. -/
theorem Explained.of_derives (hd : g.Derives h w t) : Explained g h (w, some t) :=
  ⟨hd, fun he => nomatch he⟩

/-- A match by an operand of a sequence leaves a tree. -/
theorem Explained.exists_tree (ha : Explained g h a) (hne : g.language h ≠ 1) :
    ∃ t, a.2 = some t ∧ g.Derives h a.1 t := by
  obtain ⟨w, _ | t⟩ := a
  · exact absurd (ha.2 rfl) hne
  · exact ⟨t, rfl, ha.1⟩

/-- The matches of a node are explained if those of its operands are. -/
theorem explained_node {n : Node} (hh : g.Elementary h) (hs : g.slot? h = some (.node n))
    (ha : a ∈ n.traces g.language fun k => {b | Explained g k b}) : Explained g h a := by
  have hn := hh h n .refl hs
  cases n with
  | nil => exact ha.elim
  | empty =>
      obtain rfl : a = ([], none) := ha
      exact ⟨.empty hs, fun _ => hh.layered.language_node hs⟩
  | char c =>
      obtain rfl : a = ([c], some (.char c)) := ha
      exact .of_derives (.char hs)
  | range first last =>
      obtain ⟨c, hfirst, hlast, rfl⟩ := ha
      exact .of_derives (.range hs hfirst hlast)
  | token text =>
      obtain ⟨hne, rfl⟩ := ha
      cases text with
      | nil => exact absurd rfl hne
      | cons c rest =>
          rw [spelled_eq]
          exact .of_derives (.token hs hne)
  | alt left right =>
      obtain ⟨b, hb | hb, rfl⟩ := ha
      · exact .of_derives (.left hs hb.1)
      · exact .of_derives (.right hs hb.1)
  | seq first second =>
      obtain ⟨⟨u, x⟩, hx, ⟨v, y⟩, hy, rfl⟩ := ha
      obtain ⟨s, rfl, hs₁⟩ := hx.exists_tree hn.1
      obtain ⟨t, rfl, hs₂⟩ := hy.exists_tree hn.2
      have hd := Derives.seq hs hs₁ hs₂
      refine ⟨?_, fun he => nomatch he⟩
      simpa [append] using hd
  | reduction operand f =>
      obtain ⟨b, hb, rfl⟩ := ha
      exact .of_derives (.reduction hs hb.1)
  | _ => exact hn.elim

/-- Every match of an elementary expression is explained. -/
theorem explained (hh : g.Elementary h) (ha : a ∈ g.traces h) : Explained g h a := by
  -- The matches are the least solution of the equations, and the explained ones are closed under
  -- them, on all elementary expressions.
  suffices hle : ∀ k ∈ {k | g.Elementary k}, g.traces k ≤ {b | Explained g k b} from hle h hh ha
  refine Meaning.value_le _ (fun k hk _ hc => of_mem_references hk hc) fun k hk b hb => ?_
  rcases hs : g.slot? k with _ | (n | body | name | t)
  · rw [hs] at hb
    exact hb.elim
  · rw [hs] at hb
    exact explained_node hk hs hb
  · rw [hs] at hb
    exact hb.elim
  · rw [hs] at hb
    exact hb.elim
  · rw [hs] at hb
    have hb : Explained g t b := hb
    refine ⟨.forward hs hb.1, fun he => ?_⟩
    rw [Layered.language_forward (layered hk) hs]
    exact hb.2 he

/-- An operand of a sequence that gives a tree to a word has a match that leaves it. -/
theorem some_mem_traces (hh : g.Elementary h) (hne : g.language h ≠ 1) (ht : t ∈ g.treesOf h w) :
    (w, some t) ∈ g.traces h := by
  obtain ⟨x, hx, rfl⟩ := ht
  obtain ⟨t, rfl, -⟩ := (hh.explained hx).exists_tree hne
  exact hx

/-- The tree of a derivation is one of the trees of the word. -/
theorem mem_treesOf (hh : g.Elementary h) (hd : g.Derives h w t) : t ∈ g.treesOf h w := by
  induction hd with
  | forward hs _ ih =>
      obtain ⟨x, hx, rfl⟩ := ih (hh.forward hs)
      exact ⟨x, by rwa [traces_forward hs], rfl⟩
  | empty hs => exact ⟨none, by rw [traces_node hs]; rfl, rfl⟩
  | @char _ c hs => exact ⟨some (.char c), by rw [traces_node hs]; rfl, rfl⟩
  | @range _ _ _ c hs hfirst hlast =>
      exact ⟨some (.char c), by rw [traces_node hs]; exact ⟨c, hfirst, hlast, rfl⟩, rfl⟩
  | @token _ text hs hne =>
      cases text with
      | nil => exact absurd rfl hne
      | cons c rest =>
          refine ⟨spelled (c :: rest), ?_, by rw [spelled_eq]; rfl⟩
          rw [traces_node hs]
          exact ⟨hne, rfl⟩
  | left hs _ ih =>
      obtain ⟨x, hx, rfl⟩ := ih (hh.operand hs (by simp [Node.children]))
      exact ⟨some x.tree, by rw [traces_node hs]; exact ⟨_, .inl hx, rfl⟩, rfl⟩
  | right hs _ ih =>
      obtain ⟨x, hx, rfl⟩ := ih (hh.operand hs (by simp [Node.children]))
      exact ⟨some x.tree, by rw [traces_node hs]; exact ⟨_, .inr hx, rfl⟩, rfl⟩
  | @seq h first second u v a b hs _ _ iha ihb =>
      obtain ⟨hfirst, hsecond⟩ := hh h _ .refl hs
      have helementary {c : Handle} (hc : c ∈ (Node.seq first second).children) :
          g.Elementary c := hh.operand hs hc
      have ha : g.Elementary first := helementary (by simp [Node.children])
      have hb : g.Elementary second := helementary (by simp [Node.children])
      -- Both matches leave a tree, and so the trees are paired.
      have ha := ha.some_mem_traces hfirst (iha ha)
      have hb := hb.some_mem_traces hsecond (ihb hb)
      refine ⟨some (.pair a b), ?_, rfl⟩
      rw [traces_node hs]
      exact ⟨_, ha, _, hb, by simp [append]⟩
  | @reduction _ _ f _ _ hs _ ih =>
      obtain ⟨x, hx, rfl⟩ := ih (hh.operand hs (by simp [Node.children]))
      exact ⟨some (f.apply x.tree), by rw [traces_node hs]; exact ⟨_, hx, rfl⟩, rfl⟩

end Elementary

/-- The trees that an elementary expression gives to a word are its derivation trees. -/
theorem mem_treesOf_iff_derives (hh : g.Elementary h) : t ∈ g.treesOf h w ↔ g.Derives h w t := by
  refine ⟨?_, hh.mem_treesOf⟩
  rintro ⟨x, hx, rfl⟩
  exact (hh.explained hx).1

end Graph

/-! ## The action on a grammar -/

namespace Grammar

variable {g g₁ g₂ : Grammar} {root r : Handle} {fuel : Nat} {text : String} {F : Forest}

/-- The parses of a text by an elementary expression are its derivation trees, as long as no
simplification on the way changes trees, as for tangible expressions from which no cycle can be
reached. -/
theorem mem_parse_iff_derives (hg : g.WellFormed) (hroot : g.Has root)
    (hprepare : (prepare root).run.run g = (.ok r, g₁)) (helementary : g₁.graph.Elementary root)
    (hwhen : g₁.graph.WhenParsing fuel (SimplifiesTruly fuel) r text.toList ∨
      ∃ R, Reducer.Agreeing R ∧ g₁.graph.Tame root ∧ g₁.graph.Tangible R root)
    (hparse : (parse fuel root text).run.run g = (.ok F, g₂)) (t : Tree) :
    t ∈ F ↔ g₁.graph.Derives root text.toList t := by
  rw [mem_parse_iff hg hroot hprepare helementary.complementsTame hwhen hparse,
    mem_treesOf_iff_derives helementary]

/-! ### Two readings of a text -/

namespace TwoReadings

/-- The expression `"ab" 'c' | 'a' "bc"`. -/
def grammar : Grammar :=
  ⟨⟨#[.node .nil, .node .empty, .node .any, .node (.token ['a', 'b']), .node (.char 'c'),
    .node (.seq ⟨3⟩ ⟨4⟩), .node (.char 'a'), .node (.token ['b', 'c']), .node (.seq ⟨6⟩ ⟨7⟩),
    .node (.alt ⟨5⟩ ⟨8⟩)]⟩, [], [], 0⟩

/-- The handle of the expression. -/
def start : Handle := ⟨9⟩

/-- What can be reached from the expression. -/
def reached : List Handle := [⟨3⟩, ⟨4⟩, ⟨5⟩, ⟨6⟩, ⟨7⟩, ⟨8⟩, start]

theorem wellFormed_grammar : grammar.WellFormed :=
  ⟨.of_fits rfl rfl rfl (by decide), by decide, by decide⟩

theorem has_start : grammar.Has start := (by decide : 9 < 10)

theorem prepare_start : (prepare start).run.run grammar = (.ok start, grammar) := rfl

theorem tame_start : grammar.graph.Tame start :=
  Graph.tame_of_list (l := reached) (by decide) (by decide)

theorem mem_reached {k : Handle} (hk : grammar.graph.Reaches start k) : k ∈ reached := by
  have hclosed : grammar.graph.Closed {h | h ∈ reached} := closed_of_list (by decide)
  exact hclosed.of_reaches (by decide) hk

theorem tangible_start : grammar.graph.Tangible {.prepend} start := by
  intro k n hk hs
  have hk := mem_reached hk
  simp only [reached, List.mem_cons, List.not_mem_nil, or_false] at hk
  obtain rfl | rfl | rfl | rfl | rfl | rfl | rfl := hk <;> cases hs
  all_goals first | trivial | exact (by decide : 2 ≤ 2)

theorem layered {h : Handle} : grammar.graph.Layered h := by
  refine ⟨0, fun k p _ hs => ?_⟩
  rcases k with ⟨_ | _ | _ | _ | _ | _ | _ | _ | _ | _ | k⟩ <;> cases hs

/-- A node without the empty word does not stand for the empty word alone. -/
theorem language_ne_one {h : Handle} {n : Node} (hs : grammar.graph.slot? h = some (.node n))
    (hn : [] ∉ n.words grammar.graph.language grammar.graph.language) :
    grammar.graph.language h ≠ 1 := by
  intro he
  refine hn ?_
  rw [← layered.language_node hs, he]
  rfl

theorem elementary_start : grammar.graph.Elementary start := by
  intro k n hk hs
  have hk := mem_reached hk
  simp only [reached, List.mem_cons, List.not_mem_nil, or_false] at hk
  obtain rfl | rfl | rfl | rfl | rfl | rfl | rfl := hk <;> cases hs
  · trivial
  · trivial
  · exact ⟨language_ne_one (n := .token ['a', 'b']) rfl (fun he => nomatch he),
      language_ne_one (n := .char 'c') rfl (fun he => nomatch he)⟩
  · trivial
  · trivial
  · exact ⟨language_ne_one (n := .char 'a') rfl (fun he => nomatch he),
      language_ne_one (n := .token ['b', 'c']) rfl (fun he => nomatch he)⟩
  · trivial

theorem agreeing : Reducer.Agreeing {.prepend} where
  prepend := rfl
  action := by
    rintro f rfl f' rfl _
    rfl

theorem acyclic_start : grammar.graph.Acyclic start where
  workable := (workable_of_prepare wellFormed_grammar has_start prepare_start
    elementary_start.complementsTame).2.1
  tame := tame_start
  bottomUp := by
    intro h n hs k hk
    rcases h with ⟨_ | _ | _ | _ | _ | _ | _ | _ | _ | _ | h⟩ <;> cases hs <;>
      simp [Node.children] at hk
    · obtain rfl | rfl := hk <;> decide
    · obtain rfl | rfl := hk <;> decide
    · obtain rfl | rfl := hk <;> decide

/-- The two readings of the text `abc` are its parses. -/
theorem mem_parse_iff_derives_start :
    (grammar.WellFormed ∧ grammar.Has start ∧
        (prepare start).run.run grammar = (.ok start, grammar) ∧
        grammar.graph.Elementary start ∧ Reducer.Agreeing {.prepend} ∧
        grammar.graph.Tame start ∧ grammar.graph.Tangible {.prepend} start) ∧
      ∃ fuel F g, (parse fuel start "abc").run.run grammar = (.ok F, g) ∧
        .pair (.pair (.char 'a') (.char 'b')) (.char 'c') ∈ F ∧
        .pair (.char 'a') (.pair (.char 'b') (.char 'c')) ∈ F := by
  have hfits : grammar.graph.Fits {k | grammar.graph.Reaches start k} :=
    .of_slots (by simp [grammar, Node.Fits])
  obtain ⟨N, F, hparse⟩ := run_parse_of_acyclic prepare_start acyclic_start hfits "abc"
  have hparse : (parse N start "abc").run.run grammar = (.ok F, grammar) := hparse N le_rfl
  have hF := mem_parse_iff_derives wellFormed_grammar has_start prepare_start elementary_start
    (.inr ⟨_, agreeing, tame_start, tangible_start⟩) hparse
  refine ⟨⟨wellFormed_grammar, has_start, prepare_start, elementary_start, agreeing, tame_start,
    tangible_start⟩, N, F, _, hparse, (hF _).2 ?_, (hF _).2 ?_⟩
  · exact .left (h := start) rfl (.seq (h := ⟨5⟩) (u := ['a', 'b']) rfl
      (.token (h := ⟨3⟩) rfl (List.cons_ne_nil _ _)) (.char (h := ⟨4⟩) rfl))
  · exact .right (h := start) rfl (.seq (h := ⟨8⟩) (u := ['a']) rfl
      (.char (h := ⟨6⟩) rfl) (.token (h := ⟨7⟩) rfl (List.cons_ne_nil _ _)))

end TwoReadings

end Grammar

end DerivativeParsing
