import Mathlib.Logic.Function.Iterate
import DerivativeParsing.Proofs.ParsedTrees

/-!
# Counted repetitions

A repetition `p{n}` and the sequence of `n` copies of `p`, flattened, give lists of trees of `p` to
a word: one tree for each of the pieces of which the word is made.  The sequence gives all of them
(`mem_flattened`).  The repetition takes a character with the first copy as long as there is one, so
that it gives only those in which the copies that match the empty word come last (`mem_counted`).

So every tree of the repetition is one of the sequence, and if `p` does not match the empty word,
both have the same (`Grammar.parse_repetition`).  An optional operand is enough for the repetition
to miss some (`Grammar.Optional.not_parse_repetition`).
-/

set_option autoImplicit false

namespace DerivativeParsing

open Fixpoint DerivativeParsing.Graph Residue Trace

/-! ## Pieces of a word -/

/-- A piece of a word, with a tree for it. -/
abbrev Piece : Type := List Char × Tree

namespace Piece

/-- The word that is made of pieces. -/
def word (pieces : List Piece) : List Char := (pieces.map Prod.fst).flatten

/-- The list of the trees of pieces, for the word that is made of them. -/
def collected (pieces : List Piece) : Trace := (word pieces, some (.list (pieces.map Prod.snd)))

/-- No piece that has a character comes after an empty one. -/
def BlanksLast (pieces : List Piece) : Prop := pieces.Pairwise fun p q => p.1 = [] → q.1 = []

variable {pieces : List Piece} {p : Piece}

@[simp] theorem word_nil : word [] = [] := rfl

@[simp] theorem word_cons : word (p :: pieces) = p.1 ++ word pieces := rfl

@[simp] theorem word_append {pieces' : List Piece} :
    word (pieces ++ pieces') = word pieces ++ word pieces' := by
  simp [word]

theorem word_of_blank (h : ∀ q ∈ pieces, q.1 = []) : word pieces = [] := by
  rw [word, List.flatten_eq_nil_iff]
  intro l hl
  obtain ⟨q, hq, rfl⟩ := List.mem_map.1 hl
  exact h q hq

theorem blanksLast_of_blank (h : ∀ q ∈ pieces, q.1 = []) : BlanksLast pieces :=
  List.pairwise_iff_forall_sublist.2 fun hsub _ => h _ (hsub.subset (by simp))

theorem blanksLast_of_begun (h : ∀ q ∈ pieces, q.1 ≠ []) : BlanksLast pieces :=
  List.pairwise_iff_forall_sublist.2 fun hsub hp => absurd hp (h _ (hsub.subset (by simp)))

theorem blanksLast_cons :
    BlanksLast (p :: pieces) ↔ (p.1 = [] → ∀ q ∈ pieces, q.1 = []) ∧ BlanksLast pieces := by
  rw [BlanksLast, List.pairwise_cons]
  refine and_congr_left fun _ => ?_
  constructor
  · intro h hp q hq
    exact h q hq hp
  · intro h q hq hp
    exact h hp q hq

end Piece

open Piece

/-! ## The traces of repetitions and of sequences -/

namespace Trace

variable {A B : Set Trace} {a : Trace} {pieces : List Piece} {p : Piece} {k : Nat}

/-- Every piece is matched, and has the tree that the match leaves. -/
def MadeOf (A : Set Trace) (pieces : List Piece) : Prop := ∀ q ∈ pieces, (q.1, some q.2) ∈ A

/-- A sequence of a first part and of `k` others. -/
def sequenced (A B : Set Trace) (k : Nat) : Set Trace := (fun C => Set.image2 append C B)^[k] A

theorem madeOf_cons : MadeOf A (p :: pieces) ↔ (p.1, some p.2) ∈ A ∧ MadeOf A pieces :=
  List.forall_mem_cons

theorem append_some {u v : List Char} {s t : Tree} :
    append (u, some s) (v, some t) = (u ++ v, some (.pair s t)) := by
  simp [append]

/-- One more match is put in front of those that have been collected. -/
theorem prepend_collected {u : List Char} {s : Tree} :
    map Reducer.prepend.apply (append (u, some s) (collected pieces)) =
      collected ((u, s) :: pieces) := by
  rw [collected, append_some]
  rfl

/-- Lists of trees of the empty word are collected from empty pieces. -/
theorem mem_lists (hA : Shown A) : a ∈ lists A k ↔ ∃ pieces, pieces.length = k ∧
    MadeOf A pieces ∧ (∀ q ∈ pieces, q.1 = []) ∧ collected pieces = a := by
  constructor
  · rintro ⟨items, rfl, hitems, rfl⟩
    refine ⟨items.map fun t => ([], t), by simp, ?_, by simp, ?_⟩
    · intro q hq
      obtain ⟨t, ht, rfl⟩ := List.mem_map.1 hq
      obtain ⟨x, hx, rfl⟩ := hitems t ht
      cases x with
      | none => exact absurd hx (hA [])
      | some t => exact hx
    · rw [collected, word_of_blank (by simp)]
      simp
  · rintro ⟨pieces, rfl, hmade, hblank, rfl⟩
    refine ⟨pieces.map Prod.snd, by simp, ?_, by rw [collected, word_of_blank hblank]⟩
    intro t ht
    obtain ⟨q, hq, rfl⟩ := List.mem_map.1 ht
    refine ⟨some q.2, ?_, rfl⟩
    have hq' := hmade q hq
    rwa [hblank q hq] at hq'

/-- A repetition collects the trees of pieces, of which the empty ones come last. -/
theorem mem_counted (hA : Shown A) : a ∈ counted A (k + 2) ↔ ∃ pieces, pieces.length = k + 2 ∧
    MadeOf A pieces ∧ BlanksLast pieces ∧ collected pieces = a := by
  have hlists {b : Trace} {k : Nat} (hb : b ∈ lists A k) : ∃ pieces, pieces.length = k ∧
      MadeOf A pieces ∧ BlanksLast pieces ∧ collected pieces = b := by
    obtain ⟨pieces, hlength, hmade, hblank, rfl⟩ := (mem_lists hA).1 hb
    exact ⟨pieces, hlength, hmade, blanksLast_of_blank hblank, rfl⟩
  have hblank {p : Piece} {rest : List Piece} {k : Nat} (hlength : (p :: rest).length = k)
      (hmade : MadeOf A (p :: rest)) (hlast : BlanksLast (p :: rest)) (hp : p.1 = []) :
      collected (p :: rest) ∈ lists A k :=
    (mem_lists hA).2 ⟨p :: rest, hlength, hmade,
      List.forall_mem_cons.2 ⟨hp, (blanksLast_cons.1 hlast).1 hp⟩, rfl⟩
  -- If the first piece is empty, all are; otherwise it is taken off and the others are counted.
  induction k generalizing a with
  | zero =>
      constructor
      · rintro (ha | ⟨⟨u, x⟩, hb, ⟨v, y⟩, hc, rfl⟩)
        · exact hlists ha
        · obtain ⟨s, hs⟩ := hA.exists_tree hb.1
          obtain ⟨t, ht⟩ := hA.exists_tree hc
          obtain ⟨-, rfl⟩ := Prod.mk.inj hs
          obtain ⟨-, rfl⟩ := Prod.mk.inj ht
          refine ⟨[(u, s), (v, t)], rfl, ?_, ?_, ?_⟩
          · exact madeOf_cons.2 ⟨hb.1, madeOf_cons.2 ⟨hc, List.forall_mem_nil _⟩⟩
          · exact blanksLast_cons.2 ⟨fun hu => absurd hu hb.2, List.pairwise_singleton _ _⟩
          · simp [collected, append_some, Tree.pair]
      · rintro ⟨pieces, hlength, hmade, hlast, rfl⟩
        obtain ⟨p, q, rfl⟩ := List.length_eq_two.1 hlength
        by_cases hp : p.1 = []
        · exact .inl (hblank hlength hmade hlast hp)
        · obtain ⟨hmadep, hmade⟩ := madeOf_cons.1 hmade
          refine .inr ⟨(p.1, some p.2), ⟨hmadep, hp⟩, (q.1, some q.2), (madeOf_cons.1 hmade).1, ?_⟩
          simp [collected, append_some, Tree.pair]
  | succ k ih =>
      constructor
      · rintro (ha | ⟨_, ⟨⟨u, x⟩, hb, c, hc, rfl⟩, rfl⟩)
        · exact hlists ha
        · obtain ⟨s, hs⟩ := hA.exists_tree hb.1
          obtain ⟨-, rfl⟩ := Prod.mk.inj hs
          obtain ⟨pieces, hlength, hmade, hlast, rfl⟩ := ih.1 hc
          refine ⟨(u, s) :: pieces, by simp [hlength], madeOf_cons.2 ⟨hb.1, hmade⟩,
            blanksLast_cons.2 ⟨fun hu => absurd hu hb.2, hlast⟩, prepend_collected.symm⟩
      · rintro ⟨pieces, hlength, hmade, hlast, rfl⟩
        obtain ⟨p, rest, rfl⟩ := List.exists_cons_of_length_eq_add_one hlength
        by_cases hp : p.1 = []
        · exact .inl (hblank hlength hmade hlast hp)
        · obtain ⟨hmadep, hmade⟩ := madeOf_cons.1 hmade
          have hrest : collected rest ∈ counted A (k + 2) :=
            ih.2 ⟨rest, by simpa using hlength, hmade, (blanksLast_cons.1 hlast).2, rfl⟩
          exact .inr ⟨_, ⟨(p.1, some p.2), ⟨hmadep, hp⟩, _, hrest, rfl⟩, prepend_collected⟩

/-- A sequence pairs the trees of pieces from the left. -/
theorem mem_sequenced (hA : Shown A) : a ∈ sequenced A A k ↔ ∃ p rest, rest.length = k ∧
    MadeOf A (p :: rest) ∧
      (word (p :: rest), some ((rest.map Prod.snd).foldl Tree.pair p.2)) = a := by
  induction k generalizing a with
  | zero =>
      constructor
      · intro ha
        obtain ⟨t, ht⟩ := hA.exists_tree ha
        refine ⟨(a.1, t), [], rfl, madeOf_cons.2 ⟨ht ▸ ha, List.forall_mem_nil _⟩, ?_⟩
        rw [ht]
        simp
      · rintro ⟨p, rest, hlength, hmade, rfl⟩
        obtain rfl := List.length_eq_zero_iff.1 hlength
        simpa [sequenced] using (madeOf_cons.1 hmade).1
  | succ k ih =>
      rw [sequenced, Function.iterate_succ_apply']
      constructor
      · rintro ⟨b, hb, c, hc, rfl⟩
        obtain ⟨p, rest, rfl, hmade, rfl⟩ := ih.1 hb
        obtain ⟨t, ht⟩ := hA.exists_tree hc
        refine ⟨p, rest ++ [(c.1, t)], by simp, ?_, ?_⟩
        · intro q hq
          rw [← List.cons_append, List.mem_append, List.mem_singleton] at hq
          rcases hq with hq | rfl
          · exact hmade q hq
          · exact ht ▸ hc
        · rw [ht, append_some]
          simp
      · rintro ⟨p, rest, hlength, hmade, rfl⟩
        rcases List.eq_nil_or_concat rest with rfl | ⟨init, last, rfl⟩
        · cases hlength
        · rw [List.concat_eq_append] at hlength hmade ⊢
          refine ⟨_, ih.2 ⟨p, init, by simpa using hlength, ?_, rfl⟩, (last.1, some last.2),
            hmade last (by simp), ?_⟩
          · intro q hq
            refine hmade q ?_
            rw [← List.cons_append]
            exact List.mem_append_left _ hq
          · rw [append_some]
            simp

end Trace

namespace Reducer

theorem unnest?_foldl (t : Tree) (ts parts : List Tree) :
    unnest? ts.length (ts.foldl Tree.pair t) parts = some (t :: (ts ++ parts)) := by
  induction ts using List.reverseRecOn generalizing parts with
  | nil => rfl
  | append_singleton ts last ih =>
      rw [List.length_append, List.foldl_append]
      show unnest? (ts.length + 1) (.list [ts.foldl Tree.pair t, last]) parts = _
      rw [unnest?, ih, List.append_assoc]
      rfl

/-- Flattening the pairs of as many parts as it should collects the parts. -/
theorem apply_flatten (t : Tree) (ts : List Tree) :
    (flatten (ts.length + 1)).apply (ts.foldl Tree.pair t) = .list (t :: ts) := by
  show flattenAction (ts.length + 1) _ = _
  rw [flattenAction, Nat.add_sub_cancel, unnest?_foldl, List.append_nil]

end Reducer

namespace Trace

variable {A : Set Trace} {a : Trace} {k : Nat}

/-- A flattened sequence collects the trees of pieces. -/
theorem mem_flattened (hA : Shown A) :
    a ∈ map (Reducer.flatten (k + 1)).apply '' sequenced A A k ↔ ∃ pieces, pieces.length = k + 1 ∧
      MadeOf A pieces ∧ collected pieces = a := by
  have hflatten {p : Piece} {rest : List Piece} (hlength : rest.length = k) :
      map (Reducer.flatten (k + 1)).apply
        (word (p :: rest), some ((rest.map Prod.snd).foldl Tree.pair p.2)) =
          collected (p :: rest) := by
    have happly := Reducer.apply_flatten p.2 (rest.map Prod.snd)
    rw [List.length_map, hlength] at happly
    exact Prod.ext rfl (congrArg some happly)
  constructor
  · rintro ⟨b, hb, rfl⟩
    obtain ⟨p, rest, hlength, hmade, rfl⟩ := (mem_sequenced hA).1 hb
    exact ⟨p :: rest, by simp [hlength], hmade, (hflatten hlength).symm⟩
  · rintro ⟨pieces, hlength, hmade, rfl⟩
    obtain ⟨p, rest, rfl⟩ := List.exists_cons_of_length_eq_add_one hlength
    have hlength : rest.length = k := by simpa using hlength
    exact ⟨_, (mem_sequenced hA).2 ⟨p, rest, hlength, hmade, rfl⟩, hflatten hlength⟩

end Trace

/-! ## Nodes on top of an expression -/

namespace Graph

variable {g g' : Graph} {e h p : Handle} {n : Node} {P : List Piece → Prop} {w : List Char} {t : Tree}

/-- The matches of `e` are collected from the matches of `p` with certain pieces. -/
def Collects (g' : Graph) (e : Handle) (g : Graph) (p : Handle) (P : List Piece → Prop) : Prop :=
  ∀ a, a ∈ g'.traces e ↔ ∃ pieces, P pieces ∧ MadeOf (g.traces p) pieces ∧ collected pieces = a

/-- Pieces are matched if each has one of its trees. -/
theorem madeOf_traces (hp : Shown (g.traces p)) {pieces : List Piece} :
    MadeOf (g.traces p) pieces ↔ ∀ q ∈ pieces, q.2 ∈ g.treesOf p q.1 := by
  refine forall₂_congr fun q _ => ⟨fun hq => ⟨_, hq, rfl⟩, ?_⟩
  rintro ⟨x, hx, hq⟩
  obtain ⟨t, ht⟩ := hp.exists_tree hx
  obtain ⟨-, rfl⟩ := Prod.mk.inj ht
  exact hq ▸ hx

/-- The trees for a word are the lists of the trees of the pieces that make the word. -/
theorem Collects.mem_treesOf (he : g'.Collects e g p P) (hp : Shown (g.traces p)) :
    t ∈ g'.treesOf e w ↔ ∃ pieces : List Piece, P pieces ∧ word pieces = w ∧
      (∀ q ∈ pieces, q.2 ∈ g.treesOf p q.1) ∧ .list (pieces.map Prod.snd) = t := by
  constructor
  · rintro ⟨x, hx, ht⟩
    obtain ⟨pieces, hpieces, hmade, hcollected⟩ := (he _).1 hx
    obtain ⟨hword, rfl⟩ := Prod.mk.inj hcollected
    exact ⟨pieces, hpieces, hword, (madeOf_traces hp).1 hmade, ht⟩
  · rintro ⟨pieces, hpieces, hword, hmade, rfl⟩
    exact ⟨_, (he _).2 ⟨pieces, hpieces, (madeOf_traces hp).2 hmade, Prod.ext hword rfl⟩, rfl⟩

/-- Slots that are added make no difference to an expression. -/
theorem Workable.extends (hh : g.Workable h) (hg' : g'.WellFormed) (hext : g'.Extends g) :
    g'.Workable h := by
  have hclosed := hh.wellFormed.closed_lt
  have hback {k : Handle} (hk : g'.Reaches h k) : g.Reaches h k :=
    Reaches.congr hclosed hext.2 hh.inRange hk
  refine ⟨hg', hh.inRange.trans_le hext.1, fun k hk => ?_, fun k q hk hs => ?_⟩
  · exact LeadsToNode.congr (hh.ready k (hback hk)) hclosed hext.2
      (hh.wellFormed.lt_of_reaches hh.inRange (hback hk))
  · have hlt := hh.wellFormed.lt_of_reaches hh.inRange (hback hk)
    have hs' : g.slot? k = some (.node (.not q)) := (hext.2 k hlt).symm.trans hs
    refine (hh.tame k q (hback hk) hs').congr hclosed hext.2 ?_
    exact hh.wellFormed.inRange k q (by simp [references_of_node hs', Node.children])

/-- A node that is made of expressions is one, unless it is a complement. -/
theorem Workable.make (hg : g.WellFormed) (hn : ∀ k ∈ n.children, g.Workable k)
    (htoken : n ≠ .token []) (hnot : ∀ q, n ≠ .not q) : (g.make n).2.Workable (g.make n).1 := by
  have hg' := hg.make (fun k hk => (hn k hk).inRange) htoken
  have hs := hg.slot?_make (n := n)
  have hoperand {k : Handle} (hk : k ∈ n.children) : (g.make n).2.Workable k :=
    (hn k hk).extends hg' extends_make
  have hcases {k : Handle} (hk : (g.make n).2.Reaches (g.make n).1 k) :
      k = (g.make n).1 ∨ ∃ q ∈ n.children, (g.make n).2.Reaches q k := by
    rcases Relation.ReflTransGen.cases_head hk with he | ⟨q, hq, hqk⟩
    · exact .inl he.symm
    · exact .inr ⟨q, by rwa [references_of_node hs] at hq, hqk⟩
  refine ⟨hg', slot?_lt hs, .make hg fun k hk => (hn k hk).ready, fun k q hk hkq => ?_⟩
  rcases hcases hk with rfl | ⟨q', hq', hqk⟩
  · rw [hs] at hkq
    exact absurd (Slot.node.inj (Option.some.inj hkq)) (hnot q)
  · exact (hoperand hq').tame k q hqk hkq

/-- Slots that are added make no difference to a tangible expression. -/
theorem Solid.extends {R : Set Reducer} (hh : g.Solid R h) (hg' : g'.WellFormed)
    (hext : g'.Extends g) : g'.Solid R h := by
  have hclosed := hh.workable.wellFormed.closed_lt
  have hlt : h.index < g.size := hh.workable.inRange
  exact ⟨hh.workable.extends hg' hext, hh.tame.congr hclosed hext.2 hlt,
    hh.tangible.congr hclosed hext.2 hlt⟩

/-- A tangible node that is made of tangible expressions is one. -/
theorem Solid.make {R : Set Reducer} (hg : g.WellFormed) (hn : ∀ k ∈ n.children, g.Solid R k)
    (hnode : n.Tangible R g.traces) : (g.make n).2.Solid R (g.make n).1 := by
  have htoken : n ≠ .token [] := by
    rintro rfl
    have hlength : 2 ≤ 0 := hnode
    omega
  have hnot : ∀ q, n ≠ .not q := by
    rintro q rfl
    exact hnode
  have hworkable := Workable.make hg (fun k hk => (hn k hk).workable) htoken hnot
  have hs := hg.slot?_make (n := n)
  have hoperand {k : Handle} (hk : k ∈ n.children) : (g.make n).2.Solid R k :=
    (hn k hk).extends hworkable.wellFormed extends_make
  refine ⟨hworkable, ?_, .of_node hs ?_ fun k hk => (hoperand hk).tangible⟩
  · -- The operands are there already, and do not refer to the new node.
    let D : Set Handle := {k | k.index < g.size ∧ g.Tame k}
    have hD : g.Closed D := fun k hk c hc =>
      ⟨hg.closed_lt k hk.1 c hc, hk.2.of_mem_references hc⟩
    have hfirm : ∀ k ∈ D, g.Firm g.size k := fun k hk =>
      .of_kept (.refl g) hg.closed_lt (fun _ => id) hk.1 hk.2
    have hbuilds : Builds D (· = n) g (g.make n).2 :=
      .make (fun k hk => ⟨(hn k hk).workable.inRange, (hn k hk).tame⟩) rfl
    have hatomic {k : Handle} {n' : Node} (hk : g.slot? k = some (.node n'))
        (hn' : n'.children = []) : k ∈ D := ⟨slot?_lt hk, (Firm.of_atomic hk hn' : g.Firm 0 k).tame⟩
    exact (Firm.of_built hbuilds hD (fun k hk => hk.1) hfirm
      (.make (hatomic hg.nil rfl) (hatomic hg.empty rfl) (hatomic hg.any rfl))).tame
  · exact hnode.congr fun k hk => traces_extends hg extends_make (hn k hk).workable.inRange

end Graph

/-! ## Repetitions and sequences in a grammar -/

namespace Grammar

variable {g g' g₁ g₂ g₃ g₄ : Grammar} {p acc e s : Handle} {n k fuel fuel' : Nat} {text : String}
  {F F' : Forest}

/-- The repetition of an expression. -/
def repetition (n : Nat) (p : Handle) : GrammarM Handle :=
  unary (.rep · (.exactly n)) (.handle p)

/-- As many copies of an expression in sequence, with their pairs flattened. -/
def flattenedSequence (n : Nat) (p : Handle) : GrammarM Handle := do
  let s ← sequence (List.replicate n (.handle p))
  unary (.reduction · (.flatten n)) (.handle s)

theorem run_make (n : Node) (g : Grammar) : (make n).run.run g =
    (.ok (g.graph.make n).1, { g with graph := (g.graph.make n).2 }) := rfl

theorem run_repetition (hp : g.graph.Workable p)
    (hrun : (repetition (k + 1) p).run.run g = (.ok e, g')) :
    g'.graph.Workable e ∧ g'.graph.traces e = counted (g.graph.traces p) (k + 1) ∧
      g'.graph.slot? e = some (.node (.rep p (.exactly (k + 1)))) ∧
        ∀ R, g.graph.Solid R p → g'.graph.Solid R e := by
  unfold repetition unary at hrun
  rw [run_bind, coerce, run_pure] at hrun
  dsimp only at hrun
  rw [run_make] at hrun
  cases hrun
  have hworkable := Workable.make (n := .rep p (.exactly (k + 1))) hp.wellFormed
    (by simpa [Node.children] using hp) (by simp) (by simp)
  have hs := hp.wellFormed.slot?_make (n := .rep p (.exactly (k + 1)))
  refine ⟨hworkable, ?_, hs, fun R hsolid => ?_⟩
  · rw [traces_node hs]
    show counted _ (k + 1) = _
    rw [traces_extends hp.wellFormed extends_make hp.inRange]
  · exact Solid.make hp.wellFormed (by simpa [Node.children] using hsolid) trivial

/-- A sequence is made of copies one after the other. -/
theorem run_joinFrom (hp : g.graph.Workable p) (hacc : g.graph.Workable acc) (k : Nat) :
    ∃ e g', (joinFrom .seq acc (List.replicate k (.handle p))).run.run g = (.ok e, g') ∧
      g'.graph.Workable e ∧
      g'.graph.traces e = sequenced (g.graph.traces acc) (g.graph.traces p) k ∧
        ∀ R, g.graph.Solid R p → g.graph.Solid R acc → g'.graph.Solid R e := by
  induction k generalizing g acc with
  | zero => exact ⟨acc, g, rfl, hacc, rfl, fun R _ hsolid => hsolid⟩
  | succ k ih =>
      have hchildren : ∀ c ∈ (Node.seq acc p).children, g.graph.Workable c := by
        simpa [Node.children] using ⟨hacc, hp⟩
      have hmade := Workable.make hp.wellFormed hchildren (by simp) (by simp)
      have hext : (g.graph.make (.seq acc p)).2.Extends g.graph := extends_make
      obtain ⟨e, g', hrun, he, htraces, hsolid⟩ :=
        ih (g := { g with graph := (g.graph.make (.seq acc p)).2 })
          (hp.extends hmade.wellFormed hext) hmade
      refine ⟨e, g', ?_, he, ?_, fun R hp' hacc' => ?_⟩
      · rw [List.replicate_succ, joinFrom, run_bind, coerce, run_pure]
        dsimp only
        rw [run_bind, run_make]
        exact hrun
      · rw [htraces, traces_extends hp.wellFormed hext hp.inRange,
          traces_node hp.wellFormed.slot?_make]
        show sequenced (Set.image2 append (_ : Set Trace) _) _ k = _
        rw [traces_extends hp.wellFormed hext hp.inRange,
          traces_extends hp.wellFormed hext hacc.inRange]
        rfl
      · refine hsolid R (hp'.extends hmade.wellFormed hext) ?_
        exact Solid.make hp.wellFormed (by simpa [Node.children] using ⟨hacc', hp'⟩) trivial

theorem run_flattenedSequence (hp : g.graph.Workable p)
    (hrun : (flattenedSequence (k + 1) p).run.run g = (.ok s, g')) :
    g'.graph.Workable s ∧ g'.graph.traces s = map (Reducer.flatten (k + 1)).apply ''
      sequenced (g.graph.traces p) (g.graph.traces p) k ∧
        (∃ e, g'.graph.slot? s = some (.node (.reduction e (.flatten (k + 1))))) ∧
          ∀ R, .flatten (k + 1) ∈ R → g.graph.Solid R p → g'.graph.Solid R s := by
  obtain ⟨e, g₁, hsequence, he, htraces, hsolid⟩ := run_joinFrom hp hp k
  unfold flattenedSequence at hrun
  rw [run_bind, List.replicate_succ, sequence, run_bind, coerce, run_pure] at hrun
  dsimp only at hrun
  rw [hsequence] at hrun
  dsimp only at hrun
  unfold unary at hrun
  rw [run_bind, coerce, run_pure] at hrun
  dsimp only at hrun
  rw [run_make] at hrun
  cases hrun
  have hworkable := Workable.make (n := .reduction e (.flatten (k + 1))) he.wellFormed
    (by simpa [Node.children] using he) (by simp) (by simp)
  have hs := he.wellFormed.slot?_make (n := .reduction e (.flatten (k + 1)))
  refine ⟨hworkable, ?_, ⟨e, hs⟩, fun R hflatten hp' => ?_⟩
  · rw [traces_node hs]
    show map _ '' _ = _
    rw [traces_extends he.wellFormed extends_make he.inRange, htraces]
  · exact Solid.make he.wellFormed (by simpa [Node.children] using hsolid R hp' hp') hflatten

/-- The parses of a node that can be worked with are its trees, as long as no simplification on the
way changes trees. -/
theorem mem_parse_node {m : Node} (he : g.graph.Workable e) (hs : g.graph.slot? e = some (.node m))
    (hwhen : g.graph.WhenParsing fuel (SimplifiesTruly fuel) e text.toList)
    (hparse : (parse fuel e text).run.run g = (.ok F, g')) (t : Tree) :
    t ∈ F ↔ t ∈ g.graph.treesOf e text.toList := by
  obtain ⟨r, hl, hprepare⟩ := prepare_of_ready he.wellFormed he.ready
  obtain rfl := hl.unique (.of_node hs)
  obtain ⟨after, hrun⟩ := parses_of_run hprepare hparse
  exact he.mem_parses hwhen hrun

/-- A repetition of an expression of which every match leaves a tree has the lists of trees of the
expression in which the copies that match the empty word come last.  The flattened sequence has all
lists, so that both have the same if the expression does not match the empty word.

This holds as long as no simplification on the way changes trees, in particular if the expression is
tangible and no cycle can be reached from it. -/
theorem parse_repetition (hp : g.graph.Workable p) (hn : 2 ≤ n) (hshown : Shown (g.graph.traces p))
    (hrepetition : (repetition n p).run.run g = (.ok e, g₁))
    (hsequence : (flattenedSequence n p).run.run g = (.ok s, g₂))
    (hwhen : (g₁.graph.WhenParsing fuel (SimplifiesTruly fuel) e text.toList ∧
        g₂.graph.WhenParsing fuel' (SimplifiesTruly fuel') s text.toList) ∨
      ∃ R, Reducer.Agreeing R ∧ .flatten n ∈ R ∧ g.graph.Tame p ∧ g.graph.Tangible R p)
    (hparse : (parse fuel e text).run.run g₁ = (.ok F, g₃))
    (hparse' : (parse fuel' s text).run.run g₂ = (.ok F', g₄)) :
    (∀ t, t ∈ F ↔ ∃ pieces : List Piece, pieces.length = n ∧ word pieces = text.toList ∧
      (∀ q ∈ pieces, q.2 ∈ g.graph.treesOf p q.1) ∧ BlanksLast pieces ∧
        .list (pieces.map Prod.snd) = t) ∧
    (∀ t, t ∈ F' ↔ ∃ pieces : List Piece, pieces.length = n ∧ word pieces = text.toList ∧
      (∀ q ∈ pieces, q.2 ∈ g.graph.treesOf p q.1) ∧ .list (pieces.map Prod.snd) = t) ∧
    ([] ∉ g.graph.language p → F = F') := by
  obtain ⟨k, rfl⟩ := Nat.exists_eq_add_of_le' hn
  obtain ⟨he, htraces, hs, hsolid⟩ := run_repetition hp hrepetition
  obtain ⟨he', htraces', ⟨_, hs'⟩, hsolid'⟩ := run_flattenedSequence hp hsequence
  obtain ⟨hwhen, hwhen'⟩ : g₁.graph.WhenParsing fuel (SimplifiesTruly fuel) e text.toList ∧
      g₂.graph.WhenParsing fuel' (SimplifiesTruly fuel') s text.toList := by
    rcases hwhen with hwhen | ⟨R, hR, hflatten, htame, htangible⟩
    · exact hwhen
    · have hp' : g.graph.Solid R p := ⟨hp, htame, htangible⟩
      exact ⟨(hsolid R hp').whenParsing hR, (hsolid' R hflatten hp').whenParsing hR⟩
  have hF (t : Tree) : t ∈ F ↔ ∃ pieces : List Piece, pieces.length = k + 2 ∧
      word pieces = text.toList ∧ (∀ q ∈ pieces, q.2 ∈ g.graph.treesOf p q.1) ∧
        BlanksLast pieces ∧ .list (pieces.map Prod.snd) = t := by
    have hcollects : g₁.graph.Collects e g.graph p fun pieces =>
        pieces.length = k + 2 ∧ BlanksLast pieces := by
      intro a
      rw [htraces, mem_counted hshown]
      refine exists_congr fun pieces => ?_
      tauto
    rw [mem_parse_node he hs hwhen hparse, hcollects.mem_treesOf hshown]
    refine exists_congr fun pieces => ?_
    tauto
  have hF' (t : Tree) : t ∈ F' ↔ ∃ pieces : List Piece, pieces.length = k + 2 ∧
      word pieces = text.toList ∧ (∀ q ∈ pieces, q.2 ∈ g.graph.treesOf p q.1) ∧
        .list (pieces.map Prod.snd) = t := by
    have hcollects : g₂.graph.Collects s g.graph p fun pieces => pieces.length = k + 2 := by
      intro a
      rw [htraces', mem_flattened hshown]
    rw [mem_parse_node he' hs' hwhen' hparse', hcollects.mem_treesOf hshown]
  refine ⟨hF, hF', fun hnil => Forest.ext_mem fun t => ?_⟩
  rw [hF, hF']
  -- Without a match of the empty word, there are no empty pieces.
  refine exists_congr fun pieces => and_congr_right fun _ => and_congr_right fun _ =>
    and_congr_right fun hpieces => and_iff_right (blanksLast_of_begun fun q hq hblank => ?_)
  obtain ⟨x, hx, -⟩ := hpieces q hq
  rw [hblank, nil_mem_traces] at hx
  exact hnil (hp.layered.nil_mem_of_residue hx)

/-! ## A letter, and an optional one -/

namespace Optional

/-- The expressions `'a'` and `'a' | ε`. -/
def grammar : Grammar :=
  ⟨⟨#[.node .nil, .node .empty, .node .any, .node (.char 'a'), .node (.alt ⟨3⟩ .empty)]⟩, [], [], 0⟩

/-- The handle of `'a'`. -/
def letter : Handle := ⟨3⟩

/-- The handle of `'a' | ε`. -/
def option : Handle := ⟨4⟩

/-- The grammar with two repetitions of an expression. -/
def repeated (p : Handle) : Grammar := ((repetition 2 p).run.run grammar).2

/-- The grammar with two copies of an expression in sequence. -/
def paired (p : Handle) : Grammar := ((flattenedSequence 2 p).run.run grammar).2

theorem wellFormed_grammar : grammar.WellFormed :=
  ⟨.of_fits rfl rfl rfl (by decide), by decide, by decide⟩

/-! ### The letter -/

theorem workable_letter : grammar.graph.Workable letter := by
  have hcomplements : grammar.graph.ComplementsTame letter := by
    intro k q _ hs
    rcases k with ⟨_ | _ | _ | _ | _ | k⟩ <;> cases hs
  exact (workable_of_prepare wellFormed_grammar (by decide : 3 < 5) rfl hcomplements).2.1

theorem tame_letter : grammar.graph.Tame letter :=
  Graph.tame_of_list (l := [letter]) (by decide) (by decide)

theorem tangible_letter (R : Set Reducer) : grammar.graph.Tangible R letter :=
  .of_node (n := .char 'a') rfl trivial (by simp [Node.children])

theorem treesOf_letter : .char 'a' ∈ grammar.graph.treesOf letter ['a'] := by
  refine ⟨some (.char 'a'), ?_, rfl⟩
  rw [traces_node (n := .char 'a') rfl]
  rfl

theorem nil_not_mem_letter : [] ∉ grammar.graph.language letter := by
  rw [workable_letter.layered.language_node (n := .char 'a') rfl]
  intro hnil
  cases hnil

theorem agreeing : Reducer.Agreeing {.prepend, .flatten 2} where
  prepend := .inl rfl
  action := by
    rintro f (rfl | rfl) f' (rfl | rfl) hname
    · rfl
    · exact absurd hname (by decide)
    · exact absurd hname (by decide)
    · rfl

theorem parses_letters : ((repeated letter).graph.parses 2 ⟨5⟩ "aa".toList).isSome ∧
    ((paired letter).graph.parses 2 ⟨6⟩ "aa".toList).isSome := by
  decide +kernel

/-- To the text `aa`, the repetition of `'a'` and the sequence give the same trees. -/
theorem parse_repetition_letter :
    (grammar.graph.Workable letter ∧ 2 ≤ 2 ∧ Shown (grammar.graph.traces letter) ∧
        (repetition 2 letter).run.run grammar = (.ok ⟨5⟩, repeated letter) ∧
        (flattenedSequence 2 letter).run.run grammar = (.ok ⟨6⟩, paired letter) ∧
        grammar.graph.Tame letter ∧ grammar.graph.Tangible {.prepend, .flatten 2} letter) ∧
      ∃ F g₁ g₂, (parse 2 ⟨5⟩ "aa").run.run (repeated letter) = (.ok F, g₁) ∧
        (parse 2 ⟨6⟩ "aa").run.run (paired letter) = (.ok F, g₂) ∧
        .list [.char 'a', .char 'a'] ∈ F := by
  have hshown : Shown (grammar.graph.traces letter) := (tangible_letter ∅).shown
  obtain ⟨⟨F, _⟩, hparses⟩ := Option.isSome_iff_exists.1 parses_letters.1
  obtain ⟨⟨F', _⟩, hparses'⟩ := Option.isSome_iff_exists.1 parses_letters.2
  have hparse : (parse 2 ⟨5⟩ "aa").run.run (repeated letter) = (.ok F, _) := run_parse rfl hparses
  have hparse' : (parse 2 ⟨6⟩ "aa").run.run (paired letter) = (.ok F', _) := run_parse rfl hparses'
  obtain ⟨hF, -, hsame⟩ := parse_repetition workable_letter le_rfl hshown rfl rfl
    (.inr ⟨_, agreeing, .inr rfl, tame_letter, tangible_letter _⟩) hparse hparse'
  obtain rfl := hsame nil_not_mem_letter
  refine ⟨⟨workable_letter, le_rfl, hshown, rfl, rfl, tame_letter, tangible_letter _⟩,
    F, _, _, hparse, hparse', (hF _).2 ?_⟩
  refine ⟨[(['a'], .char 'a'), (['a'], .char 'a')], rfl, rfl, ?_, ?_, rfl⟩
  · intro q hq
    obtain rfl : q = (['a'], .char 'a') := by simpa using hq
    exact treesOf_letter
  · exact blanksLast_of_begun (by simp)

/-! ### The option -/

theorem parses_repeated : ((repeated option).graph.parses 2 ⟨5⟩ "a".toList).map (·.1.trees) =
    some [.list [.char 'a', .unit]] := by
  have hgraph : (repeated option).graph = ⟨grammar.graph.slots ++
      #[.node (.rep option (.exactly 2))]⟩ := rfl
  rw [hgraph]
  cbv

theorem parses_paired : ((paired option).graph.parses 2 ⟨6⟩ "a".toList).map (·.1.trees) =
    some [.list [.char 'a', .unit], .list [.unit, .char 'a']] := by
  have hgraph : (paired option).graph = ⟨grammar.graph.slots ++
      #[.node (.seq option option), .node (.reduction ⟨5⟩ (.flatten 2))]⟩ := rfl
  rw [hgraph]
  cbv

/-- To the text `a`, the repetition of `'a' | ε` gives one of the two trees of the sequence. -/
theorem not_parse_repetition :
    (grammar.WellFormed ∧ grammar.Has option ∧
        (prepare option).run.run grammar = (.ok option, grammar) ∧
        (repetition 2 option).run.run grammar = (.ok ⟨5⟩, repeated option) ∧
        (flattenedSequence 2 option).run.run grammar = (.ok ⟨6⟩, paired option)) ∧
      ∃ F F' g₁ g₂, (parse 2 ⟨5⟩ "a").run.run (repeated option) = (.ok F, g₁) ∧
        (parse 2 ⟨6⟩ "a").run.run (paired option) = (.ok F', g₂) ∧
        F.trees = [.list [.char 'a', .unit]] ∧
        F'.trees = [.list [.char 'a', .unit], .list [.unit, .char 'a']] ∧ F ≠ F' := by
  obtain ⟨⟨F, _⟩, hparses, hF⟩ := Option.map_eq_some_iff.1 parses_repeated
  obtain ⟨⟨F', _⟩, hparses', hF'⟩ := Option.map_eq_some_iff.1 parses_paired
  refine ⟨⟨wellFormed_grammar, (by decide : 4 < 5), rfl, rfl, rfl⟩, F, F', _, _,
    run_parse rfl hparses, run_parse rfl hparses', hF, hF', ?_⟩
  rintro rfl
  have hlengths : 1 = 2 := congrArg List.length (hF.symm.trans hF')
  cases hlengths

end Optional

end Grammar

end DerivativeParsing
