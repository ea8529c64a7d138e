import DerivativeParsing.Proofs.Alternatives
import DerivativeParsing.Proofs.Tameness

/-!
# The rules of simplification

While an expression is being simplified, its placeholder forwards to the expression itself and has
the same words.  In the graph as it is at that moment, every rule is exact: its result has the words
that the node has if its operands have the words of their answers (`Simplifying.ensures`).

What is left is the moment at which a placeholder is sent on to the result.  The languages of a
graph are least solutions, so they can only shrink when one of the equations is replaced by a
smaller one (`language_redirect_le`).  Whether one of them does shrink is a matter of the
placeholder alone (`le_language_redirect`).
-/

set_option autoImplicit false

namespace DerivativeParsing

open Fixpoint DerivativeParsing.Graph
open scoped Computability

/-! ## Languages while placeholders are sent on -/

section Simplifying

variable {g₀ g₁ g g' : Graph} {S : Set Handle} {m m' : Memory Handle Handle}
  {key y p v a z r : Handle} {n t : Node} {E F : Prop} {fuel : Nat}

/-- A handle that was given for another has no more words, and the same words if nothing has been
lost so far or no cycle can be reached. -/
structure Meets (E : Prop) (g₀ g : Graph) (y a : Handle) : Prop where
  le : g.language a ≤ g₀.language y
  eq : E ∨ g₀.Tame y → g.language a = g₀.language y

/-- What simplification keeps.  Every chain of forwards ends at a node if none has been closed so
far. -/
structure SimplifyInv (E F : Prop) (g₀ : Graph) (S : Set Handle) (m : Memory Handle Handle)
    (g : Graph) : Prop where
  meets : ∀ y v, m.Finished y v → Meets E g₀ g y v
  firm : FirmInv g₀ S m g
  arrives : F → ∀ k ∈ grown g₀ S g, g.LeadsToNode k

/-- What is known of the simplified form of a key when its rule ends. -/
structure SimplifyResult (E : Prop) (g₀ : Graph) (g : Graph) (key v : Handle) : Prop where
  meets : Meets E g₀ g key v
  firm : g₀.Tame key → g.Firm g₀.size v

theorem Meets.of_eq (h : g.language a = g₀.language y) : Meets E g₀ g y a := ⟨h.le, fun _ => h⟩

/-- A placeholder stands for no less after it has been sent on to a result. -/
def Graph.LosesNothing (g : Graph) (p v : Handle) : Prop :=
  g.language p ≤ (g.redirect p v).language p

/-- The chain of forwards from a placeholder has an end after it has been sent on to a result. -/
def Graph.ClosesNoChain (g : Graph) (p v : Handle) : Prop := ∃ r, (g.redirect p v).Leads p r

section Time

/-- The handles of the grown part have complements of finite depth. -/
theorem FirmInv.layered (h : FirmInv g₀ S m g) (hw : Working g₀ S id m g) {k : Handle}
    (hk : k ∈ grown g₀ S g) : g.Layered k :=
  h.tameComplements.layered hw.closed hk

theorem Working.language_eq {standIn : Handle → Handle} (hw : Working g₀ S standIn m g)
    (hS : g₀.Part S) {k : Handle} (hk : k ∈ S) : g.language k = g₀.language k :=
  language_congr hS.closed (fun k hk => hw.kept.2 k (hS.inRange k hk)) k hk

/-- The placeholder of a rule that is running has the words of the key. -/
theorem Working.language_placeholder (hw : Working g₀ S id m g) (hS : g₀.Part S)
    (hfirm : FirmInv g₀ S m g) (hp : m.Underway y p) : g.language p = g₀.language y := by
  obtain ⟨hy, hpg⟩ := hw.asked y p hp.holds
  rw [(hfirm.layered hw hpg).language_forward (hw.placeholder y p hp).2]
  exact hw.language_eq hS hy

/-- The operands of complements have the same words after a placeholder has been sent on. -/
theorem language_redirect_operand (hw : Working g₀ S id m g) (hfirm : FirmInv g₀ S m g)
    (hw' : Working g₀ S id m' (g.redirect p v)) (hp : m.Underway key p) {k q : Handle}
    (hk : k ∈ grown g₀ S (g.redirect p v)) (hq : g.slot? k = some (.node (.not q))) :
    (g.redirect p v).language q = g.language q := by
  refine (hfirm.complements k ⟨by simpa using hk.1, hk.2⟩ q hq).language_retained (fun h hlt => ?_)
    (.of_redirect (hw.placeholder key p hp).2)
  rw [hw'.kept.2 h hlt, hw.kept.2 h hlt]

/-- When a placeholder is sent on to a result with fewer words, all languages get smaller. -/
theorem language_redirect_le (hw : Working g₀ S id m g) (hfirm : FirmInv g₀ S m g)
    (hw' : Working g₀ S id m' (g.redirect p v)) (hfirm' : FirmInv g₀ S m' (g.redirect p v))
    (hp : m.Underway key p) (hv : v ∈ grown g₀ S g) (hle : g.language v ≤ g.language p) :
    ∀ k ∈ grown g₀ S g, (g.redirect p v).language k ≤ g.language k := by
  obtain ⟨-, hpg⟩ := hw.asked key p hp.holds
  intro k hk
  have hk' : k ∈ grown g₀ S (g.redirect p v) := ⟨by simpa using hk.1, hk.2⟩
  rw [(hfirm.layered hw hv).language_eq, (hfirm.layered hw hpg).language_eq] at hle
  rw [(hfirm.layered hw hk).language_eq, (hfirm'.layered hw' hk').language_eq]
  refine Meaning.value_redirect_le _ hw'.closed (hw.placeholder key p hp).2 hle
    (fun k hk n hs V => ?_) k hk'
  exact (Node.words_congr (fun q hq => language_redirect_operand hw hfirm hw' hp hk (hq ▸ hs)) V).le

/-- If the placeholder stands for no less than before, nothing stands for less. -/
theorem le_language_redirect (hw : Working g₀ S id m g) (hS : g₀.Part S)
    (hfirm : FirmInv g₀ S m g) (hw' : Working g₀ S id m' (g.redirect p v))
    (hfirm' : FirmInv g₀ S m' (g.redirect p v)) (hp : m.Underway key p)
    (hkeeps : g.LosesNothing p v) :
    ∀ k ∈ grown g₀ S g, g.language k ≤ (g.redirect p v).language k := by
  have hgrown {k : Handle} (hk : k ∈ grown g₀ S g) : k ∈ grown g₀ S (g.redirect p v) :=
    ⟨by simpa using hk.1, hk.2⟩
  obtain ⟨hkey, hpg⟩ := hw.asked key p hp.holds
  have hkeyg : key ∈ grown g₀ S g := hS.mem_grown hw.kept hkey
  have hle : (g.redirect p v).language key ≤ (g.redirect p v).language p := by
    rw [hw'.language_eq hS hkey, ← hw.language_placeholder hS hfirm hp]
    exact hkeeps
  rw [(hfirm'.layered hw' (hgrown hkeyg)).language_eq,
    (hfirm'.layered hw' (hgrown hpg)).language_eq] at hle
  intro k hk
  rw [(hfirm.layered hw hk).language_eq, (hfirm'.layered hw' (hgrown hk)).language_eq]
  refine Meaning.le_value_redirect _ hw.closed (hw.placeholder key p hp).2 hle
    (fun k hk n hs V => ?_) k hk
  exact (Node.words_congr
    (fun q hq => language_redirect_operand hw hfirm hw' hp (hgrown hk) (hq ▸ hs)) V).ge

/-- If the chain from a placeholder that has been sent on ends, so do the chains that pass through
it. -/
theorem Working.leadsToNode_redirect {k : Handle} (hw : Working g₀ S id m (g.redirect p v))
    (hS : g₀.Part S) (hk : g.LeadsToNode k) (hopen : g.ClosesNoChain p v)
    (hmem : k ∈ grown g₀ S (g.redirect p v)) : (g.redirect p v).LeadsToNode k := by
  have hend {k r : Handle} (hk : k ∈ grown g₀ S (g.redirect p v))
      (hl : (g.redirect p v).Leads k r) : (g.redirect p v).LeadsToNode k :=
    ⟨r, (hw.node_or_forward hS (hw.closed.of_reaches hk hl.reaches)).elim
      (fun ⟨n, hs⟩ => ⟨n, hl, hs⟩) fun ⟨t, ht⟩ => absurd ht (hl.end_ne_forward t)⟩
  obtain ⟨r, n, hl, hs⟩ := hk
  induction hl with
  | @here k hstop =>
      rcases eq_or_ne k p with rfl | hne
      · obtain ⟨r, hr⟩ := hopen
        exact hend hmem hr
      · exact ⟨k, n, .of_node ((slot?_redirect_of_ne hne).trans hs),
          (slot?_redirect_of_ne hne).trans hs⟩
  | @step k t r hforward _ ih =>
      rcases eq_or_ne k p with rfl | hne
      · obtain ⟨r, hr⟩ := hopen
        exact hend hmem hr
      · have hforward' := (slot?_redirect_of_ne (t := v) hne).trans hforward
        obtain ⟨r', n', hl', hs'⟩ := ih
          (hw.closed k hmem t (by simp [references_of_forward hforward'])) hs
        exact ⟨r', n', .step hforward' hl', hs'⟩

end Time

namespace SimplifyInv

theorem initial (hS : g₀.Part S) (htame : g₀.TameComplements S) :
    SimplifyInv E F g₀ S .empty g₀ where
  meets y v hv := by simp [Memory.Finished, Memory.empty] at hv
  firm := .initial hS htame
  arrives _ k hk := hS.ready k (hk.2 hk.1)

/-- Slots that are added make no difference to what has been simplified. -/
theorem extend (h : SimplifyInv E F g₀ S m g) (hw : Working g₀ S id m g) (hkept : g'.Extends g)
    (hfinished : ∀ y v, m'.Finished y v ↔ m.Finished y v) (hfirm : FirmInv g₀ S m' g')
    (hnew : ∀ k : Handle, g.size ≤ k.index → k.index < g'.size → g'.LeadsToNode k) :
    SimplifyInv E F g₀ S m' g' where
  meets y v hv := by
    have hv := (hfinished y v).1 hv
    have he : g'.language v = g.language v :=
      language_extends hw.wellFormed hkept (hw.asked y v hv.holds).2.1
    obtain ⟨hle, heq⟩ := h.meets y v hv
    exact ⟨he ▸ hle, fun hE => he.trans (heq hE)⟩
  firm := hfirm
  arrives hF k hk := by
    rcases Nat.lt_or_ge k.index g.size with hlt | hge
    · have hold : k ∈ grown g₀ S g := ⟨hlt, hk.2⟩
      exact (h.arrives hF k hold).congr hw.closed (fun k hk => hkept.2 k hk.1) hold
    · exact hnew k hge hk.1

/-- A placeholder is sent on to the result. -/
theorem settle (h : SimplifyInv E F g₀ S m g) (hw : Working g₀ S id m g) (hS : g₀.Part S)
    (hp : m.Underway key p) (hv : v ∈ grown g₀ S g) (hresult : SimplifyResult E g₀ g key v)
    (hkeeps : E → g.LosesNothing p v) (hopen : F → g.ClosesNoChain p v) :
    SimplifyInv E F g₀ S (m.finish key p v) (g.redirect p v) := by
  have hw' := hw.settle hp hv
  have hfirm' := h.firm.settle hw hp hv hresult.firm
  have hretains : g.Retains (g.redirect p v) := .of_redirect (hw.placeholder key p hp).2
  have hle : g.language v ≤ g.language p := by
    rw [hw.language_placeholder hS h.firm hp]
    exact hresult.meets.le
  refine ⟨fun y a hy => ?_, hfirm', fun hF k hk => ?_⟩
  swap
  · exact hw'.leadsToNode_redirect hS (h.arrives hF k ⟨by simpa using hk.1, hk.2⟩) (hopen hF) hk
  obtain ⟨ha, hmeets, hfirm⟩ :
      a ∈ grown g₀ S g ∧ Meets E g₀ g y a ∧ (g₀.Tame y → g.Firm g₀.size a) := by
    rcases Memory.finished_finish_iff.1 hy with ⟨rfl, rfl⟩ | ⟨-, hy⟩
    · exact ⟨hv, hresult.meets, hresult.firm⟩
    · exact ⟨(hw.asked y a hy.holds).2, h.meets y a hy, h.firm.results y a hy⟩
  have hshrinks := language_redirect_le hw h.firm hw' hfirm' hp hv hle a ha
  refine ⟨hshrinks.trans hmeets.le, ?_⟩
  rintro (hE | htame)
  · have hgrows := le_language_redirect hw hS h.firm hw' hfirm' hp (hkeeps hE) a ha
    exact (le_antisymm hshrinks hgrows).trans (hmeets.eq (.inl hE))
  · have hsame : (g.redirect p v).language a = g.language a :=
      (hfirm htame).language_retained (fun k hlt => by rw [hw'.kept.2 k hlt, hw.kept.2 k hlt])
        hretains
    exact hsame.trans (hmeets.eq (.inr htame))

/-- The answer for an operand has the words of the operand, as far as results do. -/
theorem answer (h : SimplifyInv E F g₀ S m g) (hw : Working g₀ S id m g) (hS : g₀.Part S)
    (htame : g₀.TameComplements S) (hz : z ∈ S) (ha : AnswerFor g₀ m z a) : Meets E g₀ g z a := by
  obtain ⟨r, hl, ha⟩ := ha
  have hlanguage : g₀.language z = g₀.language r :=
    (htame.layered hS.closed hz).language_leads hl
  rcases ha with ha | ⟨ha, -⟩
  · obtain ⟨hle, heq⟩ := h.meets r a ha
    exact ⟨hlanguage ▸ hle, fun hE => (heq (hE.imp_right fun hz => hz.reaches hl.reaches)).trans
      hlanguage.symm⟩
  · exact .of_eq ((hw.language_placeholder hS h.firm ha).trans hlanguage.symm)

end SimplifyInv

/-! ## The rules -/

/-- A rule of simplification, which keeps `SimplifyInv`. -/
abbrev Simplifying (E F : Prop) (g₀ : Graph) (S : Set Handle) :=
  Running g₀ S id (SimplifyInv E F g₀ S)

namespace Simplifying

/-- What has to be shown of the result of a rule. -/
abbrev Post (E F : Prop) (g₀ : Graph) (S : Set Handle) (key : Handle) (g₁ : Graph) :
    Handle → Memory Handle Handle → Graph → Prop := fun v m' g' =>
  g₁.Retains g' ∧ Working g₀ S id m' g' ∧ SimplifyInv E F g₀ S m' g' ∧
    v ∈ grown g₀ S g' ∧ SimplifyResult E g₀ g' key v

/-- A rule comes to a result that is sound, and exact if its operands are. -/
abbrev Comes (E F : Prop) (g₀ : Graph) (S : Set Handle) (key : Handle) (g₁ : Graph)
    (plan : Plan Graph Handle Handle Handle) (m : Memory Handle Handle) : Prop :=
  plan.Ensures (keeping g₀ S id (SimplifyInv E F g₀ S)) True (Post E F g₀ S key g₁) m

/-- An operand of the key has been answered. -/
def Answers (g₀ : Graph) (m : Memory Handle Handle) (n : Node) (z a : Handle) : Prop :=
  z ∈ n.children ∧ AnswerFor g₀ m z a

variable {k : Node}

theorem post (h : Simplifying E F g₀ S key p n g₁ m g) (hv : Usable g₀ S key g v)
    (hmeets : Meets E g₀ g key v) : Post E F g₀ S key g₁ v m g :=
  ⟨h.since, h.working, h.inv, hv.mem, hmeets, hv.firm⟩

theorem layered (h : Simplifying E F g₀ S key p n g₁ m g) (ha : Usable g₀ S key g a) :
    g.Layered a := h.inv.firm.layered h.working ha.mem

/-- A node may be given back as it is. -/
theorem post_self (h : Simplifying E F g₀ S key p n g₁ m g) : Post E F g₀ S key g₁ key m g :=
  h.post h.usable_self (.of_eq (h.working.language_eq h.part h.mem))

/-- The answer for the operand of a complement has the words of the operand. -/
theorem language_answer_not (h : Simplifying E F g₀ S key p n g₁ m g) (htame : g₀.TameComplements S)
    (hn : n = .not z) (hza : Answers g₀ m n z a) : g.language a = g₀.language z :=
  (h.inv.answer h.working h.part htame (h.operand_mem hza.1) hza.2).eq
    (.inr (htame key h.mem z (hn ▸ h.node)))

/-- A result is sound and exact if it has the words that the node has with its answers for
operands. -/
theorem post_of_words (h : Simplifying E F g₀ S key p n g₁ m g) (htame : g₀.TameComplements S)
    (hv : Usable g₀ S key g v) (hrelates : n.Relates (Answers g₀ m n) k)
    (hwords : g.language v = k.words g.language g.language) : Post E F g₀ S key g₁ v m g := by
  have hmeets {z a : Handle} (hza : Answers g₀ m n z a) : Meets E g₀ g z a :=
    h.inv.answer h.working h.part htame (h.operand_mem hza.1) hza.2
  have hkey : g₀.language key = n.words g₀.language g₀.language :=
    (htame.layered h.part.closed h.mem).language_node h.node
  refine h.post hv ⟨?_, fun hE => ?_⟩
  · rw [hwords, hkey]
    exact hrelates.symm.words_le (fun a z hza => (hmeets hza).le)
      fun a z _ hn hza => (h.language_answer_not htame hn hza).ge
  · rw [hwords, hkey]
    have heq {z a : Handle} (hza : Answers g₀ m n z a) : g.language a = g₀.language z :=
      (hmeets hza).eq (hE.imp_right fun hkey =>
        hkey.of_mem_references (by rw [references_of_node h.node]; exact hza.1))
    refine le_antisymm ?_ ?_
    · exact hrelates.symm.words_le (fun a z hza => (heq hza).le) fun a z _ _ hza => (heq hza).ge
    · exact hrelates.words_le (fun z a hza => (heq hza).ge) fun z a _ _ hza => (heq hza).le

/-- A rule adds nodes. -/
theorem adds {P : Node → Prop} (h : Simplifying E F g₀ S key p n g₁ m g)
    (hbuilds : Builds (grown g₀ S g) P g g') (htoken : ¬ P (.token []))
    (hnot : ∀ q, P (.not q) → g'.Firm g₀.size q)
    (htrees : ∀ f, P (.emptyReduction f) → g₀.HasTrees S → f.HasTree)
    (hfits : ∀ n, P n → g₀.Fits S → n.Fits) :
    Simplifying E F g₀ S key p n g₁ m g' := by
  have hfirm := h.inv.firm.build h.working hbuilds htoken hnot htrees hfits
  refine h.build hbuilds htoken
    (h.inv.extend h.working hbuilds.kept (fun _ _ => .rfl) hfirm fun k hle hlt => ?_)
  obtain ⟨n, hs, -⟩ := hbuilds.new k hle hlt
  exact ⟨k, n, .of_node hs, hs⟩

/-- A rule makes a node. -/
theorem make (h : Simplifying E F g₀ S key p n g₁ m g) (hn : ∀ k ∈ t.children, k ∈ grown g₀ S g)
    (htoken : t ≠ .token []) (hnot : ∀ q, t = .not q → g.Firm g₀.size q)
    (htrees : ∀ f, t = .emptyReduction f → g₀.HasTrees S → f.HasTree)
    (hfits : g₀.Fits S → t.Fits) : Simplifying E F g₀ S key p n g₁ m (g.make t).2 := by
  refine h.adds (P := (· = t)) (.make hn rfl) (fun he => htoken he.symm) (fun q hq => ?_)
    (fun f hf => htrees f hf.symm) fun _ hn hS => hn ▸ hfits hS
  exact (hnot q hq.symm).retained
    (fun k hlt => extends_make.2 k (hlt.trans_le h.working.kept.1)) (.of_extends extends_make)

/-- A made node may be used, and has the words of its equation. -/
theorem usable_made (h : Simplifying E F g₀ S key p n g₁ m g)
    (hn : ∀ k ∈ t.children, Usable g₀ S key g k) (htoken : t ≠ .token [])
    (hnot : ∀ q, t = .not q → g.Firm g₀.size q)
    (htrees : ∀ f, t = .emptyReduction f → g₀.HasTrees S → f.HasTree := by simp)
    (hfits : g₀.Fits S → t.Fits := by simp [Node.Fits]) :
    Simplifying E F g₀ S key p n g₁ m (g.make t).2 ∧
      Usable g₀ S key (g.make t).2 (g.make t).1 ∧
      (g.make t).2.language (g.make t).1 = t.words (g.make t).2.language (g.make t).2.language := by
  have h' := h.make (fun k hk => (hn k hk).mem) htoken hnot htrees hfits
  have hv := h.usable_make hn
  exact ⟨h', hv, (h'.layered hv).language_node h.working.wellFormed.slot?_make⟩

theorem usable_extends (h : Simplifying E F g₀ S key p n g₁ m g)
    (h' : Simplifying E F g₀ S key p n g₁ m' g') (hext : g'.Extends g) (ha : Usable g₀ S key g a) :
    Usable g₀ S key g' a ∧ g'.language a = g.language a :=
  ⟨ha.retained h.working h'.working (.of_extends hext),
    language_extends h.working.wellFormed hext ha.mem.1⟩

variable {next : Handle → TransformM Handle}

/-- A rule asks for an operand. -/
theorem ensures_ask (h : Simplifying E F g₀ S key p n g₁ m g) (hz : z ∈ n.children)
    (hnext : ∀ a m' g', Simplifying E F g₀ S key p n g₁ m' g' → m.Frame m' →
      AnswerFor g₀ m' z a → Usable g₀ S key g' a →
        Comes E F g₀ S key g₁ (next a g') m') :
    Comes E F g₀ S key g₁ ((Transform.ask z >>= next) g) m :=
  Running.ensures_ask h hz fun r a m' g' hl hframe _ h' ha =>
    hnext a m' g' h' hframe ⟨r, hl, ha⟩ (h'.usable_answer h'.inv.firm hz hl ha)

/-- A rule makes a node, which is the result. -/
theorem ensures_made (h : Simplifying E F g₀ S key p n g₁ m g) (htame : g₀.TameComplements S)
    (hn : ∀ k ∈ t.children, Usable g₀ S key g k) (htoken : t ≠ .token [])
    (hnot : ∀ q, t = .not q → g.Firm g₀.size q) (hrelates : n.Relates (Answers g₀ m n) k)
    (hwords : ∀ g' : Graph, g'.Extends g →
      t.words g'.language g'.language = k.words g'.language g'.language)
    (htrees : ∀ f, t = .emptyReduction f → g₀.HasTrees S → f.HasTree := by simp)
    (hfits : g₀.Fits S → t.Fits := by simp [Node.Fits]) :
    Comes E F g₀ S key g₁ (Transform.make t g) m := by
  obtain ⟨h', hv, hlanguage⟩ := h.usable_made hn htoken hnot htrees hfits
  exact h'.post_of_words htame hv hrelates (hlanguage.trans (hwords _ extends_make))

/-- A rule gives its node back, or makes a new one. -/
theorem ensures_keepOrMake (h : Simplifying E F g₀ S key p n g₁ m g) (htame : g₀.TameComplements S)
    (hn : ∀ k ∈ t.children, Usable g₀ S key g k) (htoken : t ≠ .token [])
    (hnot : ∀ q, t = .not q → g.Firm g₀.size q) (hrelates : n.Relates (Answers g₀ m n) t)
    (htrees : ∀ f, t = .emptyReduction f → g₀.HasTrees S → f.HasTree := by simp)
    (hfits : g₀.Fits S → t.Fits := by simp [Node.Fits]) :
    Comes E F g₀ S key g₁ (Simplify.keepOrMake key a z t g) m := by
  unfold Simplify.keepOrMake
  refine ensures_look (fun _ => trivial) fun same _ => ?_
  cases same with
  | true => exact h.post_self
  | false => exact h.ensures_made htame hn htoken hnot hrelates (fun _ _ => rfl) htrees hfits

/-! ### The nodes -/

/-- Alternatives are put together from their branches. -/
theorem ensures_alternatives {left right a b : Handle}
    (h : Simplifying E F g₀ S key p (.alt left right) g₁ m g) (htame : g₀.TameComplements S)
    (ha : AnswerFor g₀ m left a) (hau : Usable g₀ S key g a)
    (hb : AnswerFor g₀ m right b) (hbu : Usable g₀ S key g b) :
    Comes E F g₀ S key g₁ (Simplify.alternatives key a b g) m := by
  have hclosed := h.closed_usable
  refine (Simplify.ensures_alternatives h.working.wellFormed hclosed (fun k hk => hk.mem.1)
    h.usable_nil h.usable_self hau hbu).mono ?_
  rintro v m' g' - ⟨items, hitems, rfl, hbuilds, hv, hjoins⟩
  have h' : Simplifying E F g₀ S key p (.alt left right) g₁ m' g' := by
    refine h.adds (hbuilds.mono (fun k hk => hk.mem) fun _ => id) ?_ ?_ ?_ ?_
    · rintro ⟨_, _, he⟩
      cases he
    · rintro q ⟨_, _, he⟩
      cases he
    · rintro f ⟨_, _, he⟩
      cases he
    · rintro _ ⟨_, _, rfl⟩ -
      trivial
  have hext := hbuilds.kept
  have hvu : Usable g₀ S key g' v := h.usable_built hclosed (fun _ hk => hk) hbuilds hv
  refine h'.post_of_words htame hvu (k := .alt a b)
    (.alt ⟨by simp [Node.children], ha⟩ ⟨by simp [Node.children], hb⟩) ?_
  have hsame : ∀ k ∈ a :: b :: items, g'.language k = g.language k := by
    refine fun k hk => (h.usable_extends h' hext ?_).2
    rcases List.mem_cons.1 hk with rfl | hk
    · exact hau
    · rcases List.mem_cons.1 hk with rfl | hk
      · exact hbu
      · exact Simplify.closed_joined hclosed hau hbu hitems k hk
  ext w
  exact hjoins.mem_operands h'.working.wellFormed g'.unites_language (h'.layered hvu) hitems
    g.unites_language (h.layered hau) (h.layered hbu) hsame

theorem language_nil (h : Simplifying E F g₀ S key p n g₁ m g) : g.language .nil = 0 :=
  (h.layered h.usable_nil).language_node h.working.wellFormed.nil

theorem language_empty (h : Simplifying E F g₀ S key p n g₁ m g) : g.language .empty = 1 :=
  (h.layered h.usable_empty).language_node h.working.wellFormed.empty

/-- A repetition that needs no new node has the words of the repetition. -/
theorem language_starred (h : Simplifying E F g₀ S key p n g₁ m g) (ha : Usable g₀ S key g a)
    (hn : g.nodeAt a = some t) (hv : Simplify.starred? a t = some v) :
    Usable g₀ S key g v ∧ g.language v = (g.language a)∗ := by
  have hlanguage := (h.layered ha).language_nodeAt hn
  have hone := h.language_empty
  rcases Simplify.starred?_eq_some hv with ⟨rfl, rfl | rfl⟩ | ⟨rfl, q, rfl⟩
  · refine ⟨h.usable_empty, ?_⟩
    rw [hlanguage, hone]
    exact kstar_zero.symm
  · refine ⟨h.usable_empty, ?_⟩
    rw [hlanguage, hone]
    exact kstar_one.symm
  · refine ⟨ha, ?_⟩
    rw [hlanguage]
    exact (kstar_idem _).symm

/-- In the middle of a simplification, the nullability of an operand is that of the expression that
was found. -/
theorem nullable_operand {b : Bool} (h : Simplifying E F g₀ S key p n g₁ m g)
    (htame : g₀.TameComplements S) (hz : z ∈ n.children) (hb : g.nullable fuel z = some b) :
    b = true ↔ [] ∈ g₀.language z := by
  rw [(h.workable_operand htame hz).nullable_iff hb,
    h.working.language_eq h.part (h.operand_mem hz)]

/-- The answer for an operand may be used. -/
theorem usable_of_answer (h : Simplifying E F g₀ S key p n g₁ m g) (hz : z ∈ n.children)
    (ha : AnswerFor g₀ m z a) : Usable g₀ S key g a := by
  obtain ⟨r, hl, ha⟩ := ha
  exact h.usable_answer h.inv.firm hz hl ha

/-- A rule looks at the node that an answer stands for. -/
theorem language_of_answer (h : Simplifying E F g₀ S key p n g₁ m g) (hz : z ∈ n.children)
    (ha : AnswerFor g₀ m z a) (hn : g.nodeAt a = some t) :
    g.language a = t.words g.language g.language :=
  (h.layered (h.usable_of_answer hz ha)).language_nodeAt hn

/-- Operands that match nothing, or `ε` only, are left out of a sequence. -/
theorem ensures_seq {first second : Handle}
    (h : Simplifying E F g₀ S key p (.seq first second) g₁ m g) (htame : g₀.TameComplements S) :
    Comes E F g₀ S key g₁ (Simplify.ofNode fuel key (.seq first second) g) m := by
  refine h.ensures_ask (by simp [Node.children]) fun a m₁ g₁ h₁ _ ha _ => ?_
  refine h₁.ensures_ask (by simp [Node.children]) fun b m₂ g₂ h₂ hframe hb hbu => ?_
  replace ha := ha.frame hframe
  have hau := h₂.usable_of_answer (by simp [Node.children]) ha
  have hrelates : (Node.seq first second).Relates
      (Answers g₀ m₂ (.seq first second)) (.seq a b) :=
    .seq ⟨by simp [Node.children], ha⟩ ⟨by simp [Node.children], hb⟩
  have hat {c : Handle} {t : Node} (hc : Usable g₀ S key g₂ c) (ht : g₂.nodeAt c = some t) :
      g₂.language c = t.words g₂.language g₂.language := (h₂.layered hc).language_nodeAt ht
  refine ensures_look (fun _ => trivial) fun firstNil hfirstNil => ?_
  cases firstNil with
  | true =>
      refine h₂.post_of_words htame h₂.usable_nil hrelates ?_
      rw [Node.words, hat hau (nodeAt_of_isNil hfirstNil), h₂.language_nil]
      exact (zero_mul _).symm
  | false =>
  refine ensures_look (fun _ => trivial) fun secondNil hsecondNil => ?_
  cases secondNil with
  | true =>
      refine h₂.post_of_words htame h₂.usable_nil hrelates ?_
      rw [Node.words, hat hbu (nodeAt_of_isNil hsecondNil), h₂.language_nil]
      exact (mul_zero _).symm
  | false =>
  refine ensures_look (fun _ => trivial) fun firstEmpty hfirstEmpty => ?_
  cases firstEmpty with
  | true =>
      refine h₂.post_of_words htame hbu hrelates ?_
      rw [Node.words, hat hau (nodeAt_of_isEmpty hfirstEmpty)]
      exact (one_mul _).symm
  | false =>
  refine ensures_look (fun _ => trivial) fun secondEmpty hsecondEmpty => ?_
  cases secondEmpty with
  | true =>
      refine h₂.post_of_words htame hau hrelates ?_
      rw [Node.words, hat hbu (nodeAt_of_isEmpty hsecondEmpty)]
      exact (mul_one _).symm
  | false =>
  refine ensures_look (fun _ => trivial) fun same _ => ?_
  cases same with
  | true => exact h₂.post_self
  | false =>
      exact h₂.ensures_made htame (by simpa [Node.children] using ⟨hau, hbu⟩) (by simp)
        (by simp) hrelates fun _ _ => rfl

/-- Repetitions are not nested. -/
theorem ensures_star {operand : Handle}
    (h : Simplifying E F g₀ S key p (.star operand) g₁ m g) (htame : g₀.TameComplements S) :
    Comes E F g₀ S key g₁ (Simplify.ofNode fuel key (.star operand) g) m := by
  refine h.ensures_ask (by simp [Node.children]) fun a m₁ g₁ h₁ _ ha hau => ?_
  refine ensures_look (fun _ => trivial) fun t ht => ?_
  have hrelates : (Node.star operand).Relates (Answers g₀ m₁ (.star operand)) (.star a) :=
    .star ⟨by simp [Node.children], ha⟩
  rcases hv : Simplify.starred? a t with _ | v
  · exact h₁.ensures_keepOrMake htame (by simpa [Node.children] using hau) (by simp) (by simp)
      hrelates
  · obtain ⟨hvu, hlanguage⟩ := h₁.language_starred hau ht hv
    exact h₁.post_of_words htame hvu hrelates hlanguage

/-- A number of repetitions becomes what it comes to. -/
theorem ensures_rep {operand : Handle} {count : Count}
    (h : Simplifying E F g₀ S key p (.rep operand count) g₁ m g) (htame : g₀.TameComplements S) :
    Comes E F g₀ S key g₁ (Simplify.ofNode fuel key (.rep operand count) g) m := by
  rcases count with (_ | _ | k) | _
  · refine h.post h.usable_empty (.of_eq ?_)
    rw [h.language_empty, (htame.layered h.part.closed h.mem).language_node h.node]
    exact (pow_zero _).symm
  · change (Transform.ask operand g).Ensures _ _ _ _
    rw [← Running.ask_bind_pure]
    refine h.ensures_ask (by simp [Node.children]) fun a m₁ g₁ h₁ _ ha hau => ?_
    exact h₁.post_of_words htame hau (k := .rep a (.exactly 1))
      (.rep _ ⟨by simp [Node.children], ha⟩) (pow_one _).symm
  · refine h.ensures_ask (z := operand) (by simp [Node.children]) fun a m₁ g₁ h₁ _ ha hau => ?_
    refine ensures_look (fun _ => trivial) fun t ht => ?_
    have hlanguage := h₁.language_of_answer (by simp [Node.children]) ha ht
    have hrelates : (Node.rep operand (.exactly (k + 2))).Relates
        (Answers g₀ m₁ (.rep operand (.exactly (k + 2)))) (.rep a (.exactly (k + 2))) :=
      .rep _ ⟨by simp [Node.children], ha⟩
    have hother := h₁.ensures_keepOrMake (a := a) (z := operand) htame
      (by simpa [Node.children] using hau) (by simp) (by simp) hrelates (by simp) h₁.fits_self
    cases t with
    | nil =>
        refine h₁.post_of_words htame h₁.usable_nil hrelates ?_
        rw [Node.words, hlanguage, h₁.language_nil]
        exact (zero_pow (by omega)).symm
    | empty =>
        refine h₁.post_of_words htame h₁.usable_empty hrelates ?_
        rw [Node.words, hlanguage, h₁.language_empty]
        exact (one_pow _).symm
    | _ => exact hother
  · refine h.ensures_ask (z := operand) (by simp [Node.children]) fun a m₁ g₁ h₁ _ ha hau => ?_
    refine ensures_look (fun _ => trivial) fun t ht => ?_
    have hrelates : (Node.rep operand .unbounded).Relates
        (Answers g₀ m₁ (.rep operand .unbounded)) (.rep a .unbounded) :=
      .rep _ ⟨by simp [Node.children], ha⟩
    rcases hv : Simplify.starred? a t with _ | v
    · exact h₁.ensures_made htame (by simpa [Node.children] using hau) (by simp) (by simp)
        hrelates fun _ _ => rfl
    · obtain ⟨hvu, hlanguage⟩ := h₁.language_starred hau ht hv
      exact h₁.post_of_words htame hvu hrelates hlanguage

/-- Two complements cancel out. -/
theorem ensures_not {operand : Handle}
    (h : Simplifying E F g₀ S key p (.not operand) g₁ m g) (htame : g₀.TameComplements S) :
    Comes E F g₀ S key g₁ (Simplify.ofNode fuel key (.not operand) g) m := by
  refine h.ensures_ask (by simp [Node.children]) fun a m₁ g₁ h₁ _ ha hau => ?_
  refine ensures_look (fun _ => trivial) fun t ht => ?_
  have hlanguage := h₁.language_of_answer (by simp [Node.children]) ha ht
  have hrelates : (Node.not operand).Relates (Answers g₀ m₁ (.not operand)) (.not a) :=
    .not ⟨by simp [Node.children], ha⟩
  have hfirm : g₁.Firm g₀.size a := by
    obtain ⟨r, hl, ha⟩ := ha
    exact h₁.inv.firm.answer (htame key h₁.mem operand h₁.node) hl ha
  have hother := h₁.ensures_keepOrMake (a := a) (z := operand) htame
    (by simpa [Node.children] using hau) (by simp) (fun q hq => by cases hq; exact hfirm) hrelates
  cases t with
  | not inner =>
      have hinner : Usable g₀ S key g₁ inner :=
        h₁.closed_usable.of_reaches hau (reaches_of_nodeAt ht (by simp [Node.children]))
      refine h₁.post_of_words htame hinner hrelates ?_
      rw [Node.words, hlanguage]
      exact (compl_compl _).symm
  | _ => exact hother

/-- The nullability of an operand is decided. -/
theorem ensures_nullability {operand : Handle}
    (h : Simplifying E F g₀ S key p (.nullability operand) g₁ m g) (htame : g₀.TameComplements S) :
    Comes E F g₀ S key g₁ (Simplify.ofNode fuel key (.nullability operand) g) m := by
  refine ensures_look (fun _ => trivial) fun nullable hnullable => ?_
  have hiff := h.nullable_operand htame (by simp [Node.children]) hnullable
  cases nullable with
  | false =>
      refine h.post h.usable_nil (.of_eq ?_)
      rw [h.language_nil, (htame.layered h.part.closed h.mem).language_node h.node]
      ext w
      refine ⟨False.elim, fun ⟨hw, he⟩ => ?_⟩
      cases he
      exact absurd (hiff.2 hw) Bool.false_ne_true
  | true =>
      refine h.ensures_ask (by simp [Node.children]) fun a m₁ g₁ h₁ _ ha hau => ?_
      refine ensures_look (fun _ => trivial) fun t ht => ?_
      have hlanguage := h₁.language_of_answer (by simp [Node.children]) ha ht
      have hrelates : (Node.nullability operand).Relates
          (Answers g₀ m₁ (.nullability operand)) (.nullability a) :=
        .nullability ⟨by simp [Node.children], ha⟩
      have hother := h₁.ensures_keepOrMake (a := a) (z := operand) htame
        (by simpa [Node.children] using hau) (by simp) (by simp) hrelates
      -- What has no word but `ε` stays what it is.
      have hdone (hle : g₁.language a ≤ 1) : Post E F g₀ S key _ a m₁ g₁ :=
        h₁.post_of_words htame hau hrelates (inf_eq_left.2 hle).symm
      cases t with
      | empty => exact hdone hlanguage.le
      | emptyReduction trees => exact hdone hlanguage.le
      | nullability inner => exact hdone (hlanguage.le.trans inf_le_right)
      | _ => exact hother

/-- A reduction of finished trees is carried out. -/
theorem ensures_reduction {operand : Handle} {reducer : Reducer}
    (h : Simplifying E F g₀ S key p (.reduction operand reducer) g₁ m g)
    (htame : g₀.TameComplements S) :
    Comes E F g₀ S key g₁ (Simplify.ofNode fuel key (.reduction operand reducer) g) m := by
  refine h.ensures_ask (by simp [Node.children]) fun a m₁ g₁ h₁ _ ha hau => ?_
  refine ensures_look (fun _ => trivial) fun t ht => ?_
  have hlanguage := h₁.language_of_answer (by simp [Node.children]) ha ht
  have hrelates : (Node.reduction operand reducer).Relates
      (Answers g₀ m₁ (.reduction operand reducer)) (.reduction a reducer) :=
    .reduction rfl ⟨by simp [Node.children], ha⟩
  have hother := h₁.ensures_keepOrMake (a := a) (z := operand) htame
    (by simpa [Node.children] using hau) (by simp) (by simp) hrelates (by simp) h₁.fits_self
  cases t with
  | nil =>
      refine h₁.post_of_words htame h₁.usable_nil hrelates ?_
      rw [Node.words, hlanguage, h₁.language_nil]
      rfl
  | emptyReduction trees =>
      refine ensures_look (fun _ => trivial) fun reduced hreduced => ?_
      obtain ⟨-, rfl⟩ := Reducer.reduce?_eq_some.1 hreduced
      refine h₁.ensures_made htame (by simp [Node.children]) (by simp) (by simp) hrelates
        (fun g' hext => ?_) fun f hf htrees => ?_
      · rw [Node.words, Node.words, language_extends h₁.working.wellFormed hext hau.mem.1,
          hlanguage]
        rfl
      · cases hf
        obtain ⟨r, hl, hr⟩ := nodeAt_eq_some.1 ht
        have hmem := h₁.working.closed.of_reaches hau.mem hl.reaches
        exact Forest.hasTree_map.2
          (h₁.inv.firm.trees htrees r hmem trees (slot?_of_node_eq hr (by simp)))
  | _ => exact hother

/-- Every rule of simplification is sound, and exact if its operands are. -/
theorem ensures (h : Simplifying E F g₀ S key p n g₁ m g) (htame : g₀.TameComplements S) :
    Comes E F g₀ S key g₁ (Simplify.ofNode fuel key n g) m := by
  cases n with
  | nil => exact h.post_self
  | empty => exact h.post_self
  | any => exact h.post_self
  | char c => exact h.post_self
  | token text => exact h.post_self
  | emptyReduction trees => exact h.post_self
  | range first last =>
      change ((if first = last then Transform.make (.char first) else pure key : TransformM Handle)
        g).Ensures _ _ _ _
      split
      · next he =>
          subst he
          refine h.ensures_made htame (k := .range first first) (by simp [Node.children]) (by simp)
            (by simp) (.range first first) fun _ _ => ?_
          ext w
          exact ⟨fun hw => ⟨first, Char.le_refl _, Char.le_refl _, hw⟩,
            fun ⟨c, hle, hge, hw⟩ => Char.le_antisymm hge hle ▸ hw⟩
      · exact h.post_self
  | alt left right =>
      refine h.ensures_ask (by simp [Node.children]) fun a m₁ g₁ h₁ _ ha _ => ?_
      refine h₁.ensures_ask (by simp [Node.children]) fun b m₂ g₂ h₂ hframe hb hbu => ?_
      have hau := h₂.usable_of_answer (by simp [Node.children]) (ha.frame hframe)
      exact h₂.ensures_alternatives htame (ha.frame hframe) hau hb hbu
  | seq first second => exact h.ensures_seq htame
  | star operand => exact h.ensures_star htame
  | rep operand count => exact h.ensures_rep htame
  | not operand => exact h.ensures_not htame
  | nullability operand => exact h.ensures_nullability htame
  | reduction operand reducer => exact h.ensures_reduction htame

end Simplifying
end Simplifying

end DerivativeParsing
