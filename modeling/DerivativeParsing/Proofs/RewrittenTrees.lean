import DerivativeParsing.Proofs.Residues
import DerivativeParsing.Proofs.Rewriting

/-!
# The trees that the rules of simplification leave

Two rules of simplification change the trees of the empty word.  What is not `ε` may become `ε`,
such as a number of repetitions of `ε`, and then leaves nothing in a sequence.  A complement of a
complement becomes the operand of the latter, with the trees of that operand.

Where neither happens (`KeepsKind`), every rule makes what has the trees that the node has if its
operands leave what their answers do (`Residual.ensures`).  What is left is again the moment at
which a placeholder is sent on to the result (`residues_redirect_subset`,
`subset_residues_redirect`).
-/

set_option autoImplicit false

namespace DerivativeParsing

open Fixpoint DerivativeParsing.Graph Residue
open scoped Computability

/-! ## Residues while placeholders are sent on -/

section Residual

variable {g₀ g₁ g g' : Graph} {S : Set Handle} {m m' : Memory Handle Handle}
  {key y p v a b z r : Handle} {n t k : Node} {E : Prop} {fuel base : Nat}

/-- A firm handle leaves the same as long as the nodes stay. -/
theorem Graph.Firm.residues_retained (hfirm : g.Firm base a)
    (hkept : ∀ h : Handle, h.index < base → g'.slot? h = g.slot? h) (hretains : g.Retains g') :
    g'.residues a = g.residues a :=
  residues_congr (Firm.closed base g) (Firm.slot?_eq hkept hretains) a hfirm

theorem Working.residues_eq {standIn : Handle → Handle} (hw : Working g₀ S standIn m g)
    (hS : g₀.Part S) (ha : a ∈ S) : g.residues a = g₀.residues a :=
  residues_congr hS.closed (fun k hk => hw.kept.2 k (hS.inRange k hk)) a ha

/-- The placeholder of a rule that is running leaves what the key leaves. -/
theorem Working.residues_placeholder (hw : Working g₀ S id m g) (hS : g₀.Part S)
    (hp : m.Underway y p) : g.residues p = g₀.residues y := by
  obtain ⟨hy, -⟩ := hw.asked y p hp.holds
  rw [residues_forward (hw.placeholder y p hp).2]
  exact hw.residues_eq hS hy

/-- A placeholder leaves no less after it has been sent on to a result. -/
def Graph.LosesNoTree (g : Graph) (p v : Handle) : Prop :=
  g.residues p ⊆ (g.redirect p v).residues p

/-- When a placeholder is sent on to a result that leaves less, everything leaves less. -/
theorem residues_redirect_subset (hw : Working g₀ S id m g) (hfirm : FirmInv g₀ S m g)
    (hw' : Working g₀ S id m' (g.redirect p v)) (hp : m.Underway key p)
    (hle : g.residues v ⊆ g.residues p) (ha : a ∈ grown g₀ S g) :
    (g.redirect p v).residues a ⊆ g.residues a := by
  refine Meaning.value_redirect_le _ hw'.closed (hw.placeholder key p hp).2 hle
    (fun k hk n hs V => ?_) a ⟨by simpa using ha.1, ha.2⟩
  refine Node.residues_mono (fun _ _ => Set.Subset.rfl) fun q hq hmem => ?_
  rwa [language_redirect_operand hw hfirm hw' hp hk (hq ▸ hs)]

/-- If the placeholder leaves no less than before, nothing leaves less. -/
theorem subset_residues_redirect (hw : Working g₀ S id m g) (hS : g₀.Part S)
    (hfirm : FirmInv g₀ S m g) (hw' : Working g₀ S id m' (g.redirect p v))
    (hp : m.Underway key p) (hkeeps : g.LosesNoTree p v) (ha : a ∈ grown g₀ S g) :
    g.residues a ⊆ (g.redirect p v).residues a := by
  obtain ⟨hkey, -⟩ := hw.asked key p hp.holds
  have hle : (g.redirect p v).residues key ⊆ (g.redirect p v).residues p := by
    rw [hw'.residues_eq hS hkey, ← hw.residues_placeholder hS hp]
    exact hkeeps
  refine Meaning.le_value_redirect _ hw.closed (hw.placeholder key p hp).2 hle
    (fun k hk n hs V => ?_) a ha
  refine Node.residues_mono (fun _ _ => Set.Subset.rfl) fun q hq hmem => ?_
  rwa [language_redirect_operand hw hfirm hw' hp ⟨by simpa using hk.1, hk.2⟩ (hq ▸ hs)] at hmem

/-- A handle that was given for another leaves no more, and the same if nothing has been lost so far
or no cycle can be reached. -/
structure Leaves (E : Prop) (g₀ g : Graph) (y a : Handle) : Prop where
  le : g.residues a ⊆ g₀.residues y
  eq : E ∨ g₀.Tame y → g.residues a = g₀.residues y

theorem Leaves.of_eq (h : g.residues a = g₀.residues y) : Leaves E g₀ g y a :=
  ⟨h.le, fun _ => h⟩

/-- What simplification keeps of residues.  No reducer is applied that was not applied before. -/
structure ResidueInv (E : Prop) (g₀ : Graph) (S : Set Handle) (m : Memory Handle Handle)
    (g : Graph) : Prop where
  words : SimplifyInv False False g₀ S m g
  leaves : ∀ y v, m.Finished y v → Leaves E g₀ g y v
  reducers : ∀ f, g.Reduces (grown g₀ S g) f → g₀.Reduces S f

namespace ResidueInv

theorem initial (hS : g₀.Part S) (htame : g₀.TameComplements S) :
    ResidueInv E g₀ S .empty g₀ where
  words := .initial hS htame
  leaves y v hv := by simp [Memory.Finished, Memory.empty] at hv
  reducers f hf := by
    obtain ⟨k, hk, q, hs⟩ := hf
    exact ⟨k, hk.2 hk.1, q, hs⟩

/-- Slots that are added make no difference to what has been simplified. -/
theorem extend (h : ResidueInv E g₀ S m g) (hw : Working g₀ S id m g) (hkept : g'.Extends g)
    (hfinished : ∀ y v, m'.Finished y v ↔ m.Finished y v)
    (hwords : SimplifyInv False False g₀ S m' g')
    (hnew : ∀ k : Handle, g.size ≤ k.index → ∀ q f, g'.slot? k = some (.node (.reduction q f)) →
      g₀.Reduces S f) : ResidueInv E g₀ S m' g' where
  words := hwords
  leaves y v hv := by
    have hv := (hfinished y v).1 hv
    have he : g'.residues v = g.residues v :=
      residues_extends hw.wellFormed hkept (hw.asked y v hv.holds).2.1
    obtain ⟨hle, heq⟩ := h.leaves y v hv
    exact ⟨he ▸ hle, fun hE => he.trans (heq hE)⟩
  reducers f hf := by
    obtain ⟨k, hk, q, hs⟩ := hf
    rcases Nat.lt_or_ge k.index g.size with hlt | hge
    · exact h.reducers f ⟨k, ⟨hlt, hk.2⟩, q, (hkept.2 k hlt).symm.trans hs⟩
    · exact hnew k hge q f hs

/-- A placeholder is sent on to the result. -/
theorem settle (h : ResidueInv E g₀ S m g) (hw : Working g₀ S id m g) (hS : g₀.Part S)
    (hp : m.Underway key p) (hv : v ∈ grown g₀ S g) (hresult : SimplifyResult False g₀ g key v)
    (hleaves : Leaves E g₀ g key v) (hkeeps : E → g.LosesNoTree p v) :
    ResidueInv E g₀ S (m.finish key p v) (g.redirect p v) := by
  have hw' := hw.settle hp hv
  have hfirm := h.words.firm
  refine ⟨h.words.settle hw hS hp hv hresult False.elim False.elim, fun y a hy => ?_,
    fun f hf => ?_⟩
  swap
  · obtain ⟨k, hk, q, hs⟩ := hf
    exact h.reducers f ⟨k, ⟨by simpa using hk.1, hk.2⟩, q, hw.node_of_redirect hp hs⟩
  obtain ⟨ha, hleaves', hfirm'⟩ :
      a ∈ grown g₀ S g ∧ Leaves E g₀ g y a ∧ (g₀.Tame y → g.Firm g₀.size a) := by
    rcases Memory.finished_finish_iff.1 hy with ⟨rfl, rfl⟩ | ⟨-, hy⟩
    · exact ⟨hv, hleaves, hresult.firm⟩
    · exact ⟨(hw.asked y a hy.holds).2, h.leaves y a hy, hfirm.results y a hy⟩
  have hle : g.residues v ⊆ g.residues p := by
    rw [hw.residues_placeholder hS hp]
    exact hleaves.le
  have hshrinks := residues_redirect_subset hw hfirm hw' hp hle ha
  refine ⟨hshrinks.trans hleaves'.le, ?_⟩
  rintro (hE | htame)
  · have hgrows := subset_residues_redirect hw hS hfirm hw' hp (hkeeps hE) ha
    exact (Set.Subset.antisymm hshrinks hgrows).trans (hleaves'.eq (.inl hE))
  · have hsame : (g.redirect p v).residues a = g.residues a :=
      (hfirm' htame).residues_retained (fun k hlt => by rw [hw'.kept.2 k hlt, hw.kept.2 k hlt])
        (.of_redirect (hw.placeholder key p hp).2)
    exact hsame.trans (hleaves'.eq (.inr htame))

/-- The answer for an operand leaves what the operand does, as far as results do. -/
theorem answer (h : ResidueInv E g₀ S m g) (hw : Working g₀ S id m g) (hS : g₀.Part S)
    (ha : AnswerFor g₀ m z a) : Leaves E g₀ g z a := by
  obtain ⟨r, hl, ha⟩ := ha
  have hz : g₀.residues z = g₀.residues r := residues_leads hl
  rcases ha with ha | ⟨ha, -⟩
  · obtain ⟨hle, heq⟩ := h.leaves r a ha
    exact ⟨hz ▸ hle, fun hE => (heq (hE.imp_right fun hz => hz.reaches hl.reaches)).trans hz.symm⟩
  · exact .of_eq ((hw.residues_placeholder hS ha).trans hz.symm)

end ResidueInv

/-! ## The rules -/

/-- What does not stand for `ε` does not become `ε`, and complements stay complements. -/
structure KeepsKind (g₀ g : Graph) (key v : Handle) : Prop where
  empty : g.isEmpty v = some true → g₀.isEmpty key = some true
  not : ∀ q, g₀.slot? key = some (.node (.not q)) → ∃ q', g.nodeAt v = some (.not q')

theorem KeepsKind.not_isEmpty (h : KeepsKind g₀ g key v) (hkey : g₀.slot? key = some (.node n))
    (hn : n ≠ .empty) : g.isEmpty v ≠ some true ∧ g₀.isEmpty key ≠ some true := by
  have hne : g₀.isEmpty key ≠ some true := fun he => by
    have hempty := nodeAt_of_isEmpty he
    rw [nodeAt_of_slot hkey] at hempty
    exact hn (Option.some.inj hempty)
  exact ⟨fun he => hne (h.empty he), hne⟩

/-- What keeps its kind is given by the trees that it has. -/
theorem KeepsKind.leaves (h : KeepsKind g₀ g key v) (hkey : g₀.slot? key = some (.node n))
    (hn : n ≠ .empty) (hle : g.emptyTrees v ⊆ g₀.emptyTrees key)
    (heq : E ∨ g₀.Tame key → g.emptyTrees v = g₀.emptyTrees key) : Leaves E g₀ g key v := by
  obtain ⟨hv, hkey⟩ := h.not_isEmpty hkey hn
  refine ⟨?_, fun hE => ?_⟩
  · rw [residues_of_not_isEmpty hv, residues_of_not_isEmpty hkey]
    exact Set.image_mono hle
  · rw [residues_of_not_isEmpty hv, residues_of_not_isEmpty hkey, heq hE]

/-- A rule of simplification, which keeps `ResidueInv`. -/
abbrev Residual (E : Prop) (g₀ : Graph) (S : Set Handle) := Running g₀ S id (ResidueInv E g₀ S)

namespace Residual

/-- What has to be shown of the result of a rule. -/
abbrev Post (E : Prop) (g₀ : Graph) (S : Set Handle) (key : Handle) :
    Handle → Memory Handle Handle → Graph → Prop := fun v m' g' =>
  ResidueInv E g₀ S m' g' ∧ (KeepsKind g₀ g' key v → Leaves E g₀ g' key v)

/-- A rule comes to a result that leaves what the node does, if its operands do and it keeps its
kind. -/
abbrev Comes (E : Prop) (g₀ : Graph) (S : Set Handle) (key : Handle)
    (plan : Plan Graph Handle Handle Handle) (m : Memory Handle Handle) : Prop :=
  plan.Ensures (keeping g₀ S id (ResidueInv E g₀ S)) True (Post E g₀ S key) m

theorem simplifying (h : Residual E g₀ S key p n g₁ m g) :
    Simplifying False False g₀ S key p n g₁ m g where
  part := h.part
  since := h.since
  working := h.working
  inv := h.inv.words
  mem := h.mem
  node := h.node
  underway := h.underway
  others := h.others

/-- A node may be given back as it is. -/
theorem post_self (h : Residual E g₀ S key p n g₁ m g) : Post E g₀ S key key m g :=
  ⟨h.inv, fun _ => .of_eq (h.working.residues_eq h.part h.mem)⟩

/-- A result that keeps its kind leaves what the node does if it has the same trees. -/
theorem post_of_eq (h : Residual E g₀ S key p n g₁ m g) (hn : n ≠ .empty)
    (hv : KeepsKind g₀ g key v → g.emptyTrees v = g₀.emptyTrees key) : Post E g₀ S key v m g :=
  ⟨h.inv, fun hkind => hkind.leaves h.node hn (hv hkind).le fun _ => hv hkind⟩

/-- A result that stands for `ε` has not kept its kind. -/
theorem post_of_isEmpty (h : Residual E g₀ S key p n g₁ m g) (hn : n ≠ .empty)
    (hv : g.isEmpty v = some true) : Post E g₀ S key v m g :=
  ⟨h.inv, fun hkind => absurd hv (hkind.not_isEmpty h.node hn).1⟩

/-- A result leaves what the node does if it has the trees that the node has with its answers for
operands. -/
theorem post_of_trees (h : Residual E g₀ S key p n g₁ m g) (htame : g₀.TameComplements S)
    (hn : n ≠ .empty) (hrelates : n.Relates (Simplifying.Answers g₀ m n) k)
    (htrees : g.emptyTrees v = k.trees (fun q => [] ∈ g.language q) g.residues)
    (hreducer : ∀ z f a f', n = .reduction z f → k = .reduction a f' → f.action = f'.action := by
      simp) : Post E g₀ S key v m g := by
  have hleaves {z a : Handle} (hza : Simplifying.Answers g₀ m n z a) : Leaves E g₀ g z a :=
    h.inv.answer h.working h.part hza.2
  have hnot {z a : Handle} (hz : n = .not z) (hza : Simplifying.Answers g₀ m n z a) :
      [] ∈ g.language a ↔ [] ∈ g₀.language z := by
    rw [h.simplifying.language_answer_not htame hz hza]
  have hkey := emptyTrees_node h.node
  have hle : g.emptyTrees v ⊆ g₀.emptyTrees key := by
    rw [htrees, hkey]
    exact hrelates.symm.trees_subset (fun a z hza => (hleaves hza).le)
      (fun a z _ hz hza => (hnot hz hza).2)
      fun a f' z f ha hz _ => (hreducer z f a f' hz ha).symm
  refine ⟨h.inv, fun hkind => hkind.leaves h.node hn hle fun hE => hle.antisymm ?_⟩
  rw [htrees, hkey]
  have heq {z a : Handle} (hza : Simplifying.Answers g₀ m n z a) :
      g.residues a = g₀.residues z :=
    (hleaves hza).eq (hE.imp_right fun hkey =>
      hkey.of_mem_references (by rw [references_of_node h.node]; exact hza.1))
  exact hrelates.trees_subset (fun z a hza => (heq hza).ge)
    (fun z a hz _ hza => (hnot hz hza).1) fun z f a f' hz ha _ => hreducer z f a f' hz ha

/-- A rule adds nodes, in which no other reducer is applied. -/
theorem adds {P : Node → Prop} (h : Residual E g₀ S key p n g₁ m g)
    (hbuilds : Builds (grown g₀ S g) P g g') (htoken : ¬ P (.token []))
    (hnot : ∀ q, P (.not q) → g'.Firm g₀.size q)
    (htrees : ∀ f, P (.emptyReduction f) → g₀.HasTrees S → f.HasTree)
    (hreducer : ∀ q f, P (.reduction q f) → g₀.Reduces S f)
    (hfits : ∀ n, P n → g₀.Fits S → n.Fits) : Residual E g₀ S key p n g₁ m g' := by
  have hwords := (h.simplifying.adds hbuilds htoken hnot htrees hfits).inv
  refine h.build hbuilds htoken
    (h.inv.extend h.working hbuilds.kept (fun _ _ => .rfl) hwords fun k hge q f hs => ?_)
  obtain ⟨n, hs', hn, -⟩ := hbuilds.new k hge (slot?_lt hs)
  rw [hs] at hs'
  cases hs'
  exact hreducer q f hn

variable {next : Handle → TransformM Handle}

/-- A rule asks for an operand. -/
theorem ensures_ask (h : Residual E g₀ S key p n g₁ m g) (hz : z ∈ n.children)
    (hnext : ∀ a m' g', Residual E g₀ S key p n g₁ m' g' → m.Frame m' → AnswerFor g₀ m' z a →
      Usable g₀ S key g' a → Comes E g₀ S key (next a g') m') :
    Comes E g₀ S key ((Transform.ask z >>= next) g) m :=
  Running.ensures_ask h hz fun r a m' g' hl hframe _ h' ha =>
    hnext a m' g' h' hframe ⟨r, hl, ha⟩ (h'.usable_answer h'.inv.words.firm hz hl ha)

/-- A rule makes a node, which is the result. -/
theorem ensures_made (h : Residual E g₀ S key p n g₁ m g) (htame : g₀.TameComplements S)
    (hn : n ≠ .empty) (ht : ∀ k ∈ t.children, Usable g₀ S key g k) (htoken : t ≠ .token [])
    (hnot : ∀ q, t = .not q → g.Firm g₀.size q)
    (hrelates : n.Relates (Simplifying.Answers g₀ m n) k)
    (hk : ∀ g' : Graph, g'.Extends g → t.trees (fun q => [] ∈ g'.language q) g'.residues =
      k.trees (fun q => [] ∈ g'.language q) g'.residues)
    (htrees : ∀ f, t = .emptyReduction f → g₀.HasTrees S → f.HasTree := by simp)
    (hreducer : ∀ z f a f', n = .reduction z f → k = .reduction a f' → f.action = f'.action := by
      simp)
    (hreduces : ∀ q f, t = .reduction q f → g₀.Reduces S f := by simp)
    (hfits : g₀.Fits S → t.Fits := by simp [Node.Fits]) :
    Comes E g₀ S key (Transform.make t g) m := by
  have hbuilds : Builds (grown g₀ S g) (· = t) g (g.make t).2 :=
    .make (fun k hk => (ht k hk).mem) rfl
  have h' : Residual E g₀ S key p n g₁ m (g.make t).2 := by
    refine h.adds hbuilds (fun he => htoken he.symm) (fun q hq => ?_)
      (fun f hf => htrees f hf.symm) (fun q f hf => hreduces q f hf.symm)
      fun _ hn hS => hn ▸ hfits hS
    exact (hnot q hq.symm).retained
      (fun k hlt => extends_make.2 k (hlt.trans_le h.working.kept.1)) (.of_extends extends_make)
  have hv := emptyTrees_node (h.working.wellFormed.slot?_make (n := t))
  exact h'.post_of_trees htame hn hrelates (hv.trans (hk _ extends_make)) hreducer

/-- A rule gives its node back, or makes a new one. -/
theorem ensures_keepOrMake (h : Residual E g₀ S key p n g₁ m g) (htame : g₀.TameComplements S)
    (hn : n ≠ .empty) (ht : ∀ k ∈ t.children, Usable g₀ S key g k) (htoken : t ≠ .token [])
    (hnot : ∀ q, t = .not q → g.Firm g₀.size q)
    (hrelates : n.Relates (Simplifying.Answers g₀ m n) t)
    (htrees : ∀ f, t = .emptyReduction f → g₀.HasTrees S → f.HasTree := by simp)
    (hreducer : ∀ z f a f', n = .reduction z f → t = .reduction a f' → f.action = f'.action := by
      simp)
    (hreduces : ∀ q f, t = .reduction q f → g₀.Reduces S f := by simp)
    (hfits : g₀.Fits S → t.Fits := by simp [Node.Fits]) :
    Comes E g₀ S key (Simplify.keepOrMake key a z t g) m := by
  unfold Simplify.keepOrMake
  refine ensures_look (fun _ => trivial) fun same _ => ?_
  cases same with
  | true => exact h.post_self
  | false =>
      exact h.ensures_made htame hn ht htoken hnot hrelates (fun _ _ => rfl) htrees hreducer hreduces
        hfits

/-! ### The nodes -/

/-- The trees of alternatives are those of their operands. -/
theorem unites_emptyTrees (h : Residual E g₀ S key p n g₁ m g) (hnames : g₀.NamesReducers S) :
    g.Unites (grown g₀ S g) g.emptyTrees where
  closed := h.working.closed
  leads _ _ _ hl := emptyTrees_leads hl
  alt _ _ _ _ hs := emptyTrees_node hs
  nil _ _ hnil := emptyTrees_nodeAt (nodeAt_of_isNil hnil)
  similar _ ha _ hb hab := congrArg trees <| residues_eq_of_similar h.working.closed
    (fun f f' hf hf' => hnames f f' (h.inv.reducers f hf) (h.inv.reducers f' hf')) ha hb hab

/-- Alternatives are put together from their branches. -/
theorem ensures_alternatives {left right : Handle}
    (h : Residual E g₀ S key p (.alt left right) g₁ m g) (htame : g₀.TameComplements S)
    (hnames : g₀.NamesReducers S) (ha : AnswerFor g₀ m left a) (hau : Usable g₀ S key g a)
    (hb : AnswerFor g₀ m right b) (hbu : Usable g₀ S key g b) :
    Comes E g₀ S key (Simplify.alternatives key a b g) m := by
  have hg := h.working.wellFormed
  have hclosed := h.working.closed
  refine (Simplify.ensures_alternatives hg hclosed (fun k hk => hk.1) h.nil_mem
    h.usable_self.mem hau.mem hbu.mem).mono ?_
  rintro v m' g' - ⟨items, hitems, rfl, hbuilds, hv, hjoins⟩
  have h' : Residual E g₀ S key p (.alt left right) g₁ m' g' := by
    refine h.adds hbuilds ?_ ?_ ?_ ?_ ?_
    · rintro ⟨_, _, he⟩
      cases he
    · rintro q ⟨_, _, he⟩
      cases he
    · rintro f ⟨_, _, he⟩
      cases he
    · rintro q f ⟨_, _, he⟩
      cases he
    · rintro _ ⟨_, _, rfl⟩ -
      trivial
  have hsame : ∀ k ∈ a :: b :: items, g'.emptyTrees k = g.emptyTrees k := by
    refine fun k hk => congrArg trees (residues_extends hg hbuilds.kept ?_)
    rcases List.mem_cons.1 hk with rfl | hk
    · exact hau.mem.1
    · rcases List.mem_cons.1 hk with rfl | hk
      · exact hbu.mem.1
      · exact (Simplify.closed_joined hclosed hau.mem hbu.mem hitems k hk).1
  refine h'.post_of_trees htame (by simp) (k := .alt a b)
    (.alt ⟨by simp [Node.children], ha⟩ ⟨by simp [Node.children], hb⟩) ?_
  ext t
  exact hjoins.mem_operands h'.working.wellFormed (h'.unites_emptyTrees hnames)
    (h.working.mem_grown_of_built hbuilds.kept.1 hv) hitems (h.unites_emptyTrees hnames) hau.mem
    hbu.mem hsame

/-- Operands that match nothing, or leave nothing, are left out of a sequence. -/
theorem ensures_seq {first second : Handle}
    (h : Residual E g₀ S key p (.seq first second) g₁ m g) (htame : g₀.TameComplements S) :
    Comes E g₀ S key (Simplify.ofNode fuel key (.seq first second) g) m := by
  refine h.ensures_ask (by simp [Node.children]) fun a m₁ g₁ h₁ _ ha _ => ?_
  refine h₁.ensures_ask (by simp [Node.children]) fun b m₂ g₂ h₂ hframe hb hbu => ?_
  replace ha := ha.frame hframe
  have hau := h₂.simplifying.usable_of_answer (by simp [Node.children]) ha
  have hrelates : (Node.seq first second).Relates
      (Simplifying.Answers g₀ m₂ (.seq first second)) (.seq a b) :=
    .seq ⟨by simp [Node.children], ha⟩ ⟨by simp [Node.children], hb⟩
  have hnil := emptyTrees_node h₂.working.wellFormed.nil
  refine ensures_look (fun _ => trivial) fun firstNil hfirstNil => ?_
  cases firstNil with
  | true =>
      refine h₂.post_of_trees htame (by simp) hrelates (hnil.trans ?_)
      have ha : g₂.residues a = ∅ := residues_of_isNil hfirstNil
      rw [Node.trees, Node.trees, ha, Set.image2_empty_left]
  | false =>
  refine ensures_look (fun _ => trivial) fun secondNil hsecondNil => ?_
  cases secondNil with
  | true =>
      refine h₂.post_of_trees htame (by simp) hrelates (hnil.trans ?_)
      have hb : g₂.residues b = ∅ := residues_of_isNil hsecondNil
      rw [Node.trees, Node.trees, hb, Set.image2_empty_right]
  | false =>
  refine ensures_look (fun _ => trivial) fun firstEmpty hfirstEmpty => ?_
  cases firstEmpty with
  | true =>
      refine h₂.post_of_trees htame (by simp) hrelates ?_
      rw [Node.trees, residues_of_isEmpty hfirstEmpty, Set.image2_singleton_left]
      exact Set.image_congr fun x _ => join_none_left.symm
  | false =>
  refine ensures_look (fun _ => trivial) fun secondEmpty hsecondEmpty => ?_
  cases secondEmpty with
  | true =>
      refine h₂.post_of_trees htame (by simp) hrelates ?_
      rw [Node.trees, residues_of_isEmpty hsecondEmpty, Set.image2_singleton_right]
      exact Set.image_congr fun x _ => join_none_right.symm
  | false =>
  refine ensures_look (fun _ => trivial) fun same _ => ?_
  cases same with
  | true => exact h₂.post_self
  | false =>
      exact h₂.ensures_made htame (by simp) (by simpa [Node.children] using ⟨hau, hbu⟩) (by simp)
        (by simp) hrelates fun _ _ => rfl

/-- A repetition that needs no new node is `ε`, or has the tree of the repetition. -/
theorem starred_cases (hn : g.nodeAt a = some t) (hv : Simplify.starred? a t = some v) :
    v = .empty ∨ v = a ∧ g.emptyTrees a = {.unit} := by
  rcases Simplify.starred?_eq_some hv with ⟨rfl, -⟩ | ⟨rfl, q, rfl⟩
  · exact .inl rfl
  · exact .inr ⟨rfl, emptyTrees_nodeAt hn⟩

theorem isEmpty_empty (h : Residual E g₀ S key p n g₁ m g) : g.isEmpty .empty = some true :=
  isEmpty_of_nodeAt (nodeAt_of_slot h.working.wellFormed.empty)

theorem post_starred (h : Residual E g₀ S key p n g₁ m g) (htame : g₀.TameComplements S)
    (hn : n ≠ .empty) (hrelates : n.Relates (Simplifying.Answers g₀ m n) k)
    (hk : k.trees (fun q => [] ∈ g.language q) g.residues = {.unit})
    (hreducer : ∀ z f a f', n = .reduction z f → k = .reduction a f' → f.action = f'.action)
    (ht : g.nodeAt a = some t) (hv : Simplify.starred? a t = some v) : Post E g₀ S key v m g := by
  rcases starred_cases ht hv with rfl | ⟨rfl, htrees⟩
  · exact h.post_of_isEmpty hn h.isEmpty_empty
  · exact h.post_of_trees htame hn hrelates (htrees.trans hk.symm) hreducer

/-- Repetitions are not nested. -/
theorem ensures_star {operand : Handle}
    (h : Residual E g₀ S key p (.star operand) g₁ m g) (htame : g₀.TameComplements S) :
    Comes E g₀ S key (Simplify.ofNode fuel key (.star operand) g) m := by
  refine h.ensures_ask (by simp [Node.children]) fun a m₁ g₁ h₁ _ ha hau => ?_
  refine ensures_look (fun _ => trivial) fun t ht => ?_
  have hrelates : (Node.star operand).Relates
      (Simplifying.Answers g₀ m₁ (.star operand)) (.star a) := .star ⟨by simp [Node.children], ha⟩
  rcases hv : Simplify.starred? a t with _ | v
  · exact h₁.ensures_keepOrMake htame (by simp) (by simpa [Node.children] using hau) (by simp)
      (by simp) hrelates
  · exact h₁.post_starred htame (by simp) hrelates rfl (by simp) ht hv

/-- A number of repetitions becomes what it comes to. -/
theorem ensures_rep {operand : Handle} {count : Count}
    (h : Residual E g₀ S key p (.rep operand count) g₁ m g) (htame : g₀.TameComplements S) :
    Comes E g₀ S key (Simplify.ofNode fuel key (.rep operand count) g) m := by
  rcases count with (_ | _ | k) | _
  · exact h.post_of_isEmpty (by simp) h.isEmpty_empty
  · change (Transform.ask operand g).Ensures _ _ _ _
    rw [← Running.ask_bind_pure]
    refine h.ensures_ask (by simp [Node.children]) fun a m₁ g₁ h₁ _ ha _ => ?_
    exact h₁.post_of_trees htame (by simp) (k := .rep a (.exactly 1))
      (.rep _ ⟨by simp [Node.children], ha⟩) rfl
  · refine h.ensures_ask (z := operand) (by simp [Node.children]) fun a m₁ g₁ h₁ _ ha hau => ?_
    refine ensures_look (fun _ => trivial) fun t ht => ?_
    have hrelates : (Node.rep operand (.exactly (k + 2))).Relates
        (Simplifying.Answers g₀ m₁ (.rep operand (.exactly (k + 2)))) (.rep a (.exactly (k + 2))) :=
      .rep _ ⟨by simp [Node.children], ha⟩
    have hother := h₁.ensures_keepOrMake (a := a) (z := operand) htame (by simp)
      (by simpa [Node.children] using hau) (by simp) (by simp) hrelates (by simp) (by simp) (by simp)
      h₁.fits_self
    cases t with
    | nil =>
        refine h₁.post_of_trees htame (by simp) hrelates ?_
        rw [Node.trees_rep_of_empty (residues_of_isNil (isNil_of_nodeAt ht))]
        exact emptyTrees_node h₁.working.wellFormed.nil
    | empty => exact h₁.post_of_isEmpty (by simp) h₁.isEmpty_empty
    | _ => exact hother
  · refine h.ensures_ask (z := operand) (by simp [Node.children]) fun a m₁ g₁ h₁ _ ha hau => ?_
    refine ensures_look (fun _ => trivial) fun t ht => ?_
    have hrelates : (Node.rep operand .unbounded).Relates
        (Simplifying.Answers g₀ m₁ (.rep operand .unbounded)) (.rep a .unbounded) :=
      .rep _ ⟨by simp [Node.children], ha⟩
    rcases hv : Simplify.starred? a t with _ | v
    · exact h₁.ensures_made htame (by simp) (by simpa [Node.children] using hau) (by simp) (by simp)
        hrelates fun _ _ => rfl
    · exact h₁.post_starred htame (by simp) hrelates rfl (by simp) ht hv

/-- Two complements cancel out, where what is left is a complement. -/
theorem ensures_not {operand : Handle}
    (h : Residual E g₀ S key p (.not operand) g₁ m g) (htame : g₀.TameComplements S) :
    Comes E g₀ S key (Simplify.ofNode fuel key (.not operand) g) m := by
  refine h.ensures_ask (by simp [Node.children]) fun a m₁ g₁ h₁ _ ha hau => ?_
  refine ensures_look (fun _ => trivial) fun t ht => ?_
  have hanswers : Simplifying.Answers g₀ m₁ (.not operand) operand a :=
    ⟨by simp [Node.children], ha⟩
  have hfirm : g₁.Firm g₀.size a := by
    obtain ⟨r, hl, ha⟩ := ha
    exact h₁.inv.words.firm.answer (htame key h₁.mem operand h₁.node) hl ha
  have hother := h₁.ensures_keepOrMake (a := a) (z := operand) htame (by simp)
    (by simpa [Node.children] using hau) (by simp) (fun q hq => by cases hq; exact hfirm)
    (t := .not a) (.not hanswers)
  cases t with
  | not inner =>
      refine h₁.post_of_eq (by simp) fun hkind => ?_
      obtain ⟨q, hq⟩ := hkind.not operand h₁.node
      have hinner : Usable g₀ S key g₁ inner :=
        h₁.closed_usable.of_reaches hau (reaches_of_nodeAt ht (by simp [Node.children]))
      have hiff : [] ∈ g₁.language q ↔ [] ∈ g₀.language operand := by
        rw [← h₁.simplifying.language_answer_not htame rfl hanswers,
          h₁.simplifying.language_of_answer (by simp [Node.children]) ha ht, Node.words,
          (h₁.simplifying.layered hinner).language_nodeAt hq]
        exact not_not.symm
      rw [emptyTrees_nodeAt hq, emptyTrees_node h₁.node, Node.trees, Node.trees]
      simp only [hiff]
  | _ => exact hother

/-- The nullability of an operand has its trees. -/
theorem ensures_nullability {operand : Handle}
    (h : Residual E g₀ S key p (.nullability operand) g₁ m g) (htame : g₀.TameComplements S) :
    Comes E g₀ S key (Simplify.ofNode fuel key (.nullability operand) g) m := by
  refine ensures_look (fun _ => trivial) fun nullable hnullable => ?_
  have hiff := h.simplifying.nullable_operand htame (by simp [Node.children]) hnullable
  cases nullable with
  | false =>
      refine h.post_of_eq (by simp) fun _ => ?_
      have hoperand : g₀.residues operand = ∅ := by
        have hmem : operand ∈ S := h.operand_mem (by simp [Node.children])
        have hlayered := htame.layered h.part.closed hmem
        refine Set.eq_empty_of_forall_notMem fun x hx => ?_
        exact absurd (hiff.2 (hlayered.nil_mem_of_residue hx)) Bool.false_ne_true
      rw [emptyTrees_node h.working.wellFormed.nil, emptyTrees_node h.node, Node.trees, Node.trees,
        hoperand, trees_empty]
  | true =>
      refine h.ensures_ask (by simp [Node.children]) fun a m₁ g₁ h₁ _ ha hau => ?_
      refine ensures_look (fun _ => trivial) fun t ht => ?_
      have hrelates : (Node.nullability operand).Relates
          (Simplifying.Answers g₀ m₁ (.nullability operand)) (.nullability a) :=
        .nullability ⟨by simp [Node.children], ha⟩
      have hdone : Post E g₀ S key a m₁ g₁ := h₁.post_of_trees htame (by simp) hrelates rfl
      have hother := h₁.ensures_keepOrMake (a := a) (z := operand) htame (by simp)
        (by simpa [Node.children] using hau) (by simp) (by simp) hrelates
      cases t with
      | empty => exact hdone
      | emptyReduction trees => exact hdone
      | nullability inner => exact hdone
      | _ => exact hother

/-- A reduction of finished trees is carried out. -/
theorem ensures_reduction {operand : Handle} {reducer : Reducer}
    (h : Residual E g₀ S key p (.reduction operand reducer) g₁ m g) (htame : g₀.TameComplements S) :
    Comes E g₀ S key (Simplify.ofNode fuel key (.reduction operand reducer) g) m := by
  refine h.ensures_ask (by simp [Node.children]) fun a m₁ g₁ h₁ _ ha hau => ?_
  refine ensures_look (fun _ => trivial) fun t ht => ?_
  have hrelates : (Node.reduction operand reducer).Relates
      (Simplifying.Answers g₀ m₁ (.reduction operand reducer)) (.reduction a reducer) :=
    .reduction rfl ⟨by simp [Node.children], ha⟩
  have hreduces : ∀ q f, Node.reduction a reducer = .reduction q f → g₀.Reduces S f := by
    rintro q f ⟨⟩
    exact ⟨key, h₁.mem, operand, h₁.node⟩
  have hreducer : ∀ z f a' f', Node.reduction operand reducer = .reduction z f →
      Node.reduction a reducer = .reduction a' f' → f.action = f'.action := by
    rintro z f a' f' ⟨⟩ ⟨⟩
    rfl
  have hother := h₁.ensures_keepOrMake (a := a) (z := operand) htame (by simp)
    (by simpa [Node.children] using hau) (by simp) (by simp) hrelates (by simp) hreducer hreduces
    h₁.fits_self
  cases t with
  | nil =>
      refine h₁.post_of_trees htame (by simp) hrelates ?_ hreducer
      rw [emptyTrees_node h₁.working.wellFormed.nil, Node.trees, Node.trees,
        residues_of_isNil (isNil_of_nodeAt ht), trees_empty, Set.image_empty]
  | emptyReduction trees =>
      refine ensures_look (fun _ => trivial) fun reduced hreduced => ?_
      obtain ⟨-, rfl⟩ := Reducer.reduce?_eq_some.1 hreduced
      refine h₁.ensures_made htame (by simp) (by simp [Node.children]) (by simp) (by simp) hrelates
        (fun g' hext => ?_) (fun f hf htrees => ?_) hreducer
      · have ha : Residue.trees (g'.residues a) = {t | t ∈ trees} := by
          rw [residues_extends h₁.working.wellFormed hext hau.mem.1]
          exact emptyTrees_nodeAt ht
        rw [Node.trees, Node.trees, ha]
        ext t
        exact Forest.mem_map
      · cases hf
        obtain ⟨r, hl, hr⟩ := nodeAt_eq_some.1 ht
        have hmem := h₁.working.closed.of_reaches hau.mem hl.reaches
        exact Forest.hasTree_map.2
          (h₁.inv.words.firm.trees htrees r hmem trees (slot?_of_node_eq hr (by simp)))
  | _ => exact hother

/-- The result of every rule leaves what the node does, if its operands do and it keeps its kind. -/
theorem ensures (h : Residual E g₀ S key p n g₁ m g) (htame : g₀.TameComplements S)
    (hnames : g₀.NamesReducers S) : Comes E g₀ S key (Simplify.ofNode fuel key n g) m := by
  cases n with
  | nil => exact h.post_self
  | empty => exact h.post_self
  | any => exact h.post_self
  | char c => exact h.post_self
  | token text => exact h.post_self
  | emptyReduction trees => exact h.post_self
  | range first last =>
      change ((if first = last then Transform.make (.char first) else pure key : TransformM Handle)
        g).Ensures _ _ _ _
      split
      · exact h.ensures_made htame (by simp) (by simp [Node.children]) (by simp) (by simp)
          (.range first last) fun _ _ => rfl
      · exact h.post_self
  | alt left right =>
      refine h.ensures_ask (by simp [Node.children]) fun a m₁ g₁ h₁ _ ha _ => ?_
      refine h₁.ensures_ask (by simp [Node.children]) fun b m₂ g₂ h₂ hframe hb hbu => ?_
      replace ha := ha.frame hframe
      have hau := h₂.simplifying.usable_of_answer (by simp [Node.children]) ha
      exact h₂.ensures_alternatives htame hnames ha hau hb hbu
  | seq first second => exact h.ensures_seq htame
  | star operand => exact h.ensures_star htame
  | rep operand count => exact h.ensures_rep htame
  | not operand => exact h.ensures_not htame
  | nullability operand => exact h.ensures_nullability htame
  | reduction operand reducer => exact h.ensures_reduction htame

end Residual
end Residual

end DerivativeParsing
