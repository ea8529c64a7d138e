import DerivativeParsing.Proofs.RewriteRules
import DerivativeParsing.Proofs.Simplification
import DerivativeParsing.Proofs.Tangible

/-!
# The traces of a simplified expression

A rule of simplification makes something of the answers for the operands of a node.  If these have
the traces of the operands and are tangible, what is made has the traces of the node and is tangible
(`Tracing.reproduces_give`, `Tracing.reproduces_make`, `Tracing.reproduces_join`).  Whatever else a
rule can come to needs an operand that is not tangible.

Results for expressions from which no cycle can be reached are firm, so that they keep their traces
when placeholders are sent on.  In the end a tangible expression and its simplified form have the
same traces (`Workable.traces_simplify`).
-/

set_option autoImplicit false

namespace DerivativeParsing

open Fixpoint DerivativeParsing.Graph Residue Trace

variable {R : Set Reducer} {g₀ g₁ g g' : Graph} {S : Set Handle} {m m' : Memory Handle Handle}
  {key y p v a z r u : Handle} {n t : Node} {fuel : Nat} {items : List Handle}

/-! ## What is kept of traces -/

/-- A handle that was given for another is tangible, and has the same traces. -/
structure Reproduces (R : Set Reducer) (g₀ g : Graph) (y v : Handle) : Prop where
  traces : g.traces v = g₀.traces y
  tangible : g.Tangible R v

namespace Reproduces

/-- Slots that are added make no difference. -/
theorem extend (h : Reproduces R g₀ g y v) (hg : g.WellFormed) (hext : g'.Extends g)
    (hv : v.index < g.size) : Reproduces R g₀ g' y v where
  traces := (traces_extends hg hext hv).trans h.traces
  tangible := h.tangible.congr hg.closed_lt hext.2 hv

/-- A firm handle stays what it is as long as the nodes stay. -/
theorem retained (h : Reproduces R g₀ g y v) (hfirm : g.Firm g₀.size v) (hkept : g.Extends g₀)
    (hkept' : g'.Extends g₀) (hretains : g.Retains g') : Reproduces R g₀ g' y v := by
  have hslot : ∀ k ∈ {k | g.Firm g₀.size k}, g'.slot? k = g.slot? k :=
    Firm.slot?_eq (fun k hlt => (hkept'.2 k hlt).trans (hkept.2 k hlt).symm) hretains
  constructor
  · exact (traces_congr (Firm.closed g₀.size g) hslot v hfirm).trans h.traces
  · exact h.tangible.congr (Firm.closed g₀.size g) hslot hfirm

end Reproduces

/-- What simplification keeps of the traces of tangible expressions. -/
structure TraceInv (R : Set Reducer) (g₀ : Graph) (S : Set Handle) (m : Memory Handle Handle)
    (g : Graph) : Prop where
  firm : FirmInv g₀ S m g
  reproduces : ∀ y v, m.Finished y v → g₀.Tame y → g₀.Tangible R y → Reproduces R g₀ g y v

namespace TraceInv

theorem initial (hS : g₀.Part S) (htame : g₀.TameComplements S) : TraceInv R g₀ S .empty g₀ where
  firm := .initial hS htame
  reproduces y v hv := by simp [Memory.Finished, Memory.empty] at hv

/-- The invariant holds of a later graph if it holds of the results that are new. -/
theorem retained (h : TraceInv R g₀ S m g) (hw : Working g₀ S id m g)
    (hkept : g'.Extends g₀) (hretains : g.Retains g') (hfirm : FirmInv g₀ S m' g')
    (hnew : ∀ y v, m'.Finished y v → m.Finished y v ∨
      (g₀.Tame y → g₀.Tangible R y → Reproduces R g₀ g' y v)) : TraceInv R g₀ S m' g' where
  firm := hfirm
  reproduces y v hv htame htangible := by
    rcases hnew y v hv with hv | hv
    · exact (h.reproduces y v hv htame htangible).retained (h.firm.results y v hv htame) hw.kept
        hkept hretains
    · exact hv htame htangible

end TraceInv

/-! ## The rules -/

theorem Simplify.Refits.tangible {ans : Handle → Handle → Prop} {V W : Handle → Set Trace}
    (ht : Refits ans n t) (hn : n.Tangible R V)
    (hVW : ∀ z ∈ n.children, ∀ a, ans z a → W a = V z) : t.Tangible R W := by
  cases ht with
  | seq ha hb => trivial
  | star ha =>
      show (W _).Nonempty ∧ ended (W _) = ∅
      rw [hVW _ (by simp [Node.children]) _ ha]
      exact hn
  | rep count ha =>
      rcases count with (_ | k) | _
      · exact hn
      · trivial
      · show (W _).Nonempty ∧ ended (W _) = ∅
        rw [hVW _ (by simp [Node.children]) _ ha]
        exact hn
  | not ha => exact hn
  | nullability ha => trivial
  | reduction f ha => exact hn

/-- What is put together from tangible expressions is tangible. -/
theorem Simplify.Joins.tangible (h : Joins g items v) (hg : g.WellFormed)
    (hitems : ∀ k ∈ items, g.Tangible R k) : g.Tangible R v := by
  induction h with
  | nil => exact .of_node hg.nil trivial (by simp [Node.children])
  | only k => exact hitems k (by simp)
  | @cons first left tail right v items hs hleft hright _ ih =>
      have hfirst : g.Tangible R first := hitems first (by simp)
      have htail : g.Tangible R tail := ih fun k hk => hitems k (by simp [hk])
      have hl : g.Tangible R left := hleft.elim (fun he => he ▸ hfirst) (.of_leads · hfirst)
      have hr : g.Tangible R right := hright.elim (fun he => he ▸ htail) (.of_leads · htail)
      exact .of_node hs trivial (by simpa [Node.children] using ⟨hl, hr⟩)

/-- A rule of simplification, which keeps `TraceInv`. -/
abbrev Tracing (R : Set Reducer) (g₀ : Graph) (S : Set Handle) := Running g₀ S id (TraceInv R g₀ S)

namespace Tracing

section

variable (h : Tracing R g₀ S key p n g₁ m g) (htame : g₀.Tame key) (htangible : g₀.Tangible R key)

include h htame htangible

/-- The answer for an operand has its traces. -/
theorem reproduces_answer (hz : z ∈ n.children) (ha : AnswerFor g₀ m z a) :
    Reproduces R g₀ g z a := by
  obtain ⟨r, hl, ha⟩ := ha
  have hreference : z ∈ g₀.references key := by rwa [references_of_node h.node]
  have hr : g₀.Tame r := (htame.of_mem_references hreference).reaches hl.reaches
  rcases ha with ha | ⟨-, hcycle⟩
  · obtain ⟨htraces, ha⟩ := h.inv.reproduces r a ha hr
      ((htangible.of_mem_references hreference).reaches hl.reaches)
    exact ⟨htraces.trans (traces_leads hl).symm, ha⟩
  · exact absurd hcycle (hr r .refl)

omit htame in
/-- A node may be given back as it is. -/
theorem reproduces_self : Reproduces R g₀ g key key :=
  ⟨traces_congr h.part.closed h.slot?_eq key h.mem,
    htangible.congr h.part.closed h.slot?_eq h.mem⟩

omit htame htangible in
/-- What matches nothing may be left out. -/
theorem reproduces_nil (hkey : n.traces g₀.language g₀.traces = ∅) : Reproduces R g₀ g key .nil := by
  have hnil := h.working.wellFormed.nil
  refine ⟨?_, .of_node hnil trivial (by simp [Node.children])⟩
  calc g.traces .nil = ∅ := traces_node hnil
    _ = n.traces g₀.language g₀.traces := hkey.symm
    _ = g₀.traces key := (traces_node h.node).symm

omit htame htangible in
/-- An answer may be given if it has the traces of the node. -/
theorem reproduces_of_answer (ha : Reproduces R g₀ g z a)
    (hkey : n.traces g₀.language g₀.traces = g₀.traces z) : Reproduces R g₀ g key a where
  traces := by rw [ha.traces, traces_node h.node, hkey]
  tangible := ha.tangible

omit htame in
/-- An operand that is repeated has matches, and none of the empty word. -/
theorem repeated_operand (hn : n = .star z ∨ n = .rep z .unbounded) :
    (g₀.traces z).Nonempty ∧ ended (g₀.traces z) = ∅ := by
  have hnode : n.Tangible R g₀.traces := htangible key n .refl h.node
  rcases hn with rfl | rfl
  · exact hnode
  · exact hnode

/-- What a rule gives back has the traces of the node. -/
theorem reproduces_give (hcomplements : g₀.TameComplements S)
    (ho : Simplify.Rewrites fuel g (AnswerFor g₀ m) key n (.give u)) :
    Reproduces R g₀ g key u := by
  have hnode : n.Tangible R g₀.traces := htangible key n .refl h.node
  have hanswer {z a : Handle} (hz : z ∈ n.children) (ha : AnswerFor g₀ m z a) :
      Reproduces R g₀ g z a := h.reproduces_answer htame htangible hz ha
  -- What a tangible answer stands for says which traces the operand has.
  have hat {z a : Handle} {t : Node} (hz : z ∈ n.children) (ha : AnswerFor g₀ m z a)
      (ht : g.nodeAt a = some t) :
      g₀.traces z = t.traces g.language g.traces ∧ t.Tangible R g.traces := by
    have ha := hanswer hz ha
    exact ⟨ha.traces.symm.trans (traces_nodeAt ht), ha.tangible.nodeAt ht⟩
  cases ho with
  | keep n => exact h.reproduces_self htangible
  | @nilFirst first second a b ha hb hnil =>
      have hfirst : g₀.traces first = ∅ := (hat (by simp [Node.children]) ha hnil).1
      refine h.reproduces_nil ?_
      show Set.image2 append (g₀.traces first) _ = ∅
      rw [hfirst, Set.image2_empty_left]
  | @nilSecond first second a b ha hb hnil =>
      have hsecond : g₀.traces second = ∅ := (hat (by simp [Node.children]) hb hnil).1
      refine h.reproduces_nil ?_
      show Set.image2 append _ (g₀.traces second) = ∅
      rw [hsecond, Set.image2_empty_right]
  | emptyFirst ha hb hempty => exact (hat (by simp [Node.children]) ha hempty).2.elim
  | emptySecond ha hb hempty => exact (hat (by simp [Node.children]) hb hempty).2.elim
  | @starEmpty n t z a hn ha ht hempty =>
      have hz : z ∈ n.children := by rcases hn with rfl | rfl <;> simp [Node.children]
      obtain ⟨htraces, htangible'⟩ := hat hz ha ht
      rcases hempty with rfl | rfl
      · obtain ⟨hnonempty, -⟩ := h.repeated_operand htangible hn
        rw [htraces] at hnonempty
        exact absurd hnonempty Set.not_nonempty_empty
      · exact htangible'.elim
  | @starStar n z a q hn ha ht =>
      have hz : z ∈ n.children := by rcases hn with rfl | rfl <;> simp [Node.children]
      obtain ⟨-, hended⟩ := h.repeated_operand htangible hn
      have hmem : some .unit ∈ ended (g₀.traces z) := by
        rw [(hat hz ha ht).1]
        exact Repeated.none
      rw [hended] at hmem
      exact hmem.elim
  | never z => exact hnode.elim
  | @once z a ha =>
      have hza := hanswer (by simp [Node.children]) ha
      refine h.reproduces_of_answer hza ?_
      have hshown : Shown (g₀.traces z) := hza.traces ▸ hza.tangible.shown
      exact hshown.counted_one
  | @repNil z a k ha hnil =>
      have hz : g₀.traces z = ∅ := (hat (by simp [Node.children]) ha hnil).1
      refine h.reproduces_nil ?_
      show counted (g₀.traces z) (k + 2) = ∅
      rw [hz, counted_empty]
  | repEmpty ha hempty => exact (hat (by simp [Node.children]) ha hempty).2.elim
  | notNot ha ht => exact hnode.elim
  | @notNullable z hb =>
      have hz : z ∈ (Node.nullability z).children := by simp [Node.children]
      have hworkable := h.workable_operand hcomplements hz
      have hnil : [] ∉ g.language z := fun hmem =>
        absurd ((hworkable.nullable_iff hb).2 hmem) Bool.false_ne_true
      have hzS := h.operand_mem hz
      refine h.reproduces_nil ?_
      show map id '' blank (g₀.traces z) = ∅
      rw [Set.image_eq_empty]
      refine Set.eq_empty_of_forall_notMem ?_
      rintro ⟨w, x⟩ ⟨hmem, hw⟩
      obtain rfl : w = [] := hw
      rw [← traces_congr h.part.closed h.slot?_eq z hzS] at hmem
      exact hnil (hworkable.layered.nil_mem_of_residue (nil_mem_traces.1 hmem))
  | @nullable z a t ha ht hdone =>
      have hza := hanswer (by simp [Node.children]) ha
      obtain ⟨htraces, htangible'⟩ := hat (by simp [Node.children]) ha ht
      refine h.reproduces_of_answer hza ?_
      have hshown : Shown (g₀.traces z) := hza.traces ▸ hza.tangible.shown
      have hblank : blank (g₀.traces z) = g₀.traces z := by
        refine Set.Subset.antisymm (fun b hb => hb.1) fun b hb => ⟨hb, ?_⟩
        rw [htraces] at hb
        rcases hdone with rfl | ⟨trees, rfl⟩ | ⟨q, rfl⟩
        · exact htangible'.elim
        · obtain ⟨s, -, rfl⟩ := hb
          rfl
        · obtain ⟨d, hd, rfl⟩ := hb
          exact hd.2
      show map id '' blank (g₀.traces z) = g₀.traces z
      rw [hblank, hshown.map_id]
  | @reductionNil z a f ha hnil =>
      have hz : g₀.traces z = ∅ := (hat (by simp [Node.children]) ha hnil).1
      refine h.reproduces_nil ?_
      show map f.apply '' g₀.traces z = ∅
      rw [hz, Set.image_empty]

/-- A node that a rule makes has the traces of the node. -/
theorem reproduces_make (ho : Simplify.Rewrites fuel g (AnswerFor g₀ m) key n (.make t))
    (hext : g'.Extends g) (hv : g'.slot? v = some (.node t)) : Reproduces R g₀ g' key v := by
  have hnode : n.Tangible R g₀.traces := htangible key n .refl h.node
  have hanswer {z a : Handle} (hz : z ∈ n.children) (ha : AnswerFor g₀ m z a) :
      Reproduces R g₀ g' z a := by
    obtain ⟨r, hl, ha'⟩ := id ha
    have hlt : a.index < g.size := (h.working.asked r a ha'.holds).2.1
    exact (h.reproduces_answer htame htangible hz ha).extend h.working.wellFormed hext hlt
  suffices htraces : t.traces g'.language g'.traces = n.traces g₀.language g₀.traces ∧
      t.Tangible R g'.traces ∧ ∀ c ∈ t.children, g'.Tangible R c by
    refine ⟨?_, .of_node hv htraces.2.1 htraces.2.2⟩
    calc g'.traces v = t.traces g'.language g'.traces := traces_node hv
      _ = n.traces g₀.language g₀.traces := htraces.1
      _ = g₀.traces key := (traces_node h.node).symm
  cases ho with
  | refit ht =>
      refine ⟨?_, ht.tangible hnode fun z hz a ha => (hanswer hz ha).traces, fun c hc => ?_⟩
      · have hreducer : ∀ z f a f', n = .reduction z f → t = .reduction a f' →
            f.action = f'.action := by
          rintro z f a f' rfl rfl
          cases ht
          rfl
        have hcomplement {z : Handle} (hz : n = .not z) : False := by
          subst hz
          exact hnode
        refine Set.Subset.antisymm ?_ ?_
        · refine ht.relates.symm.traces_subset ?_ (fun a z _ hz => (hcomplement hz).elim)
            fun a f' z f ha hz _ => (hreducer z f a f' hz ha).symm
          rintro a z ⟨hz, ha⟩
          exact (hanswer hz ha).traces.le
        · refine ht.relates.traces_subset ?_ (fun z a hz => (hcomplement hz).elim)
            fun z f a f' hz ha _ => hreducer z f a f' hz ha
          rintro z a ⟨hz, ha⟩
          exact (hanswer hz ha).traces.ge
      · obtain ⟨z, hz, ha⟩ := ht.answered hc
        exact (hanswer hz ha).tangible
  | range c =>
      refine ⟨?_, trivial, by simp [Node.children]⟩
      ext b
      constructor
      · rintro rfl
        exact ⟨c, Char.le_refl c, Char.le_refl c, rfl⟩
      · rintro ⟨d, hle, hge, rfl⟩
        obtain rfl : d = c := Char.le_antisymm hge hle
        rfl
  | @unbounded z a ha =>
      have hza := hanswer (by simp [Node.children]) ha
      refine ⟨?_, ?_, by simpa [Node.children] using hza.tangible⟩
      · show {b | Repeated (g'.traces a) b} = {b | Repeated (g₀.traces z) b}
        rw [hza.traces]
      · show (g'.traces a).Nonempty ∧ ended (g'.traces a) = ∅
        rw [hza.traces]
        exact hnode
  | @reductionDone z a trees f ha ht =>
      have hza := h.reproduces_answer htame htangible (by simp [Node.children]) ha
      refine ⟨?_, trivial, by simp [Node.children]⟩
      show {b | ∃ s ∈ trees.map f.apply, ([], some s) = b} = map f.apply '' g₀.traces z
      rw [← hza.traces, traces_nodeAt ht]
      ext b
      constructor
      · rintro ⟨_, hmem, rfl⟩
        obtain ⟨s, hs, rfl⟩ := Forest.mem_map.1 hmem
        exact ⟨([], some s), ⟨s, hs, rfl⟩, rfl⟩
      · rintro ⟨_, ⟨s, hs, rfl⟩, rfl⟩
        exact ⟨f.apply s, Forest.mem_map.2 ⟨s, hs, rfl⟩, rfl⟩

/-- Alternatives that a rule puts together have the traces of the node. -/
theorem reproduces_join (hR : Reducer.Agreeing R)
    (ho : Simplify.Rewrites fuel g (AnswerFor g₀ m) key n (.join items)) (hg' : g'.WellFormed)
    (hext : g'.Extends g) (hjoins : Simplify.Joins g' items v) : Reproduces R g₀ g' key v := by
  cases ho with
  | @alt left right a b items ha hb hitems =>
      have hleft := h.reproduces_answer htame htangible (by simp [Node.children]) ha
      have hright := h.reproduces_answer htame htangible (by simp [Node.children]) hb
      have hlt {z a : Handle} (ha : AnswerFor g₀ m z a) : a.index < g.size := by
        obtain ⟨r, -, ha⟩ := ha
        exact (h.working.asked r a ha.holds).2.1
      -- The branches can be reached from the answers.
      have hall : ∀ k ∈ a :: b :: items, g.Tangible R k ∧ k.index < g.size := by
        intro k hk
        rcases List.mem_cons.1 hk with rfl | hk
        · exact ⟨hleft.tangible, hlt ha⟩
        · rcases List.mem_cons.1 hk with rfl | hk
          · exact ⟨hright.tangible, hlt hb⟩
          · exact ⟨Simplify.closed_joined (Tangible.closed R g) hleft.tangible hright.tangible
              hitems k hk,
              Simplify.closed_joined h.working.wellFormed.closed_lt (hlt ha) (hlt hb) hitems k hk⟩
      have hsame : ∀ k ∈ a :: b :: items, g'.traces k = g.traces k := fun k hk =>
        traces_extends h.working.wellFormed hext (hall k hk).2
      have hv : g'.Tangible R v := by
        refine hjoins.tangible hg' fun k hk => ?_
        obtain ⟨hk, hlt⟩ := hall k (by simp [hk])
        exact hk.congr h.working.wellFormed.closed_lt hext.2 hlt
      refine ⟨?_, hv⟩
      have hunion : g'.traces v = g'.traces a ∪ g'.traces b := Set.ext fun x =>
        hjoins.mem_operands hg' (unites_traces hR) hv hitems (unites_traces hR) hleft.tangible
          hright.tangible hsame
      calc g'.traces v = g.traces a ∪ g.traces b := by
            rw [hunion, hsame a (by simp), hsame b (by simp)]
        _ = map id '' (g.traces a ∪ g.traces b) := by
            rw [Set.image_union, hleft.tangible.shown.map_id, hright.tangible.shown.map_id]
        _ = map id '' (g₀.traces left ∪ g₀.traces right) := by rw [hleft.traces, hright.traces]
        _ = g₀.traces key := (traces_node h.node).symm

end

/-- Whatever a rule comes to has the traces of the node. -/
theorem reproduces_of_realized {o : Simplify.Outcome} {D : Set Handle}
    (h : Tracing R g₀ S key p n g₁ m g) (hR : Reducer.Agreeing R)
    (hcomplements : g₀.TameComplements S)
    (ho : Simplify.Rewrites fuel g (AnswerFor g₀ m) key n o) (hrealized : o.Realized D g g' v)
    (hg' : g'.WellFormed) (htame : g₀.Tame key) (htangible : g₀.Tangible R key) :
    Reproduces R g₀ g' key v := by
  obtain ⟨hbuilds, -, hgives⟩ := hrealized
  cases o with
  | give u =>
      obtain ⟨rfl, rfl⟩ := hgives
      exact h.reproduces_give htame htangible hcomplements ho
  | make t => exact h.reproduces_make htame htangible ho hbuilds.kept hgives
  | join items => exact h.reproduces_join htame htangible hR ho hg' hbuilds.kept hgives

/-- Nodes that a rule adds keep the operands of complements firm. -/
theorem firmInv_of_adds {o : Simplify.Outcome} (h : Tracing R g₀ S key p n g₁ m g)
    (hcomplements : g₀.TameComplements S)
    (ho : Simplify.Rewrites fuel g (AnswerFor g₀ m) key n o)
    (hbuilds : Builds (grown g₀ S g) o.Adds g g') : FirmInv g₀ S m g' := by
  refine h.inv.firm.build h.working hbuilds ho.adds_token (fun q hq => ?_) (fun f hf htrees => ?_)
    fun _ hn hfits => ho.adds_fits hn (h.fits_self hfits)
  · obtain ⟨z, rfl, r, hl, ha⟩ := ho.adds_not hq
    have hfirm := h.inv.firm.answer (hcomplements key h.mem z h.node) hl ha
    exact hfirm.retained (fun k hlt => hbuilds.kept.2 k (hlt.trans_le h.working.kept.1))
      (.of_extends hbuilds.kept)
  · obtain ⟨z, a, f', trees, -, ⟨r, -, ha⟩, ht, rfl⟩ := ho.adds_emptyReduction hf
    obtain ⟨r', hl, hr'⟩ := nodeAt_eq_some.1 ht
    have hmem := h.working.closed.of_reaches (h.working.asked r a ha.holds).2 hl.reaches
    have hs := slot?_of_node_eq hr' (by simp)
    exact Forest.hasTree_map.2 (h.inv.firm.trees htrees r' hmem trees hs)

end Tracing

/-! ## The whole simplification -/

/-- What is known of the simplified form of a key when its rule ends. -/
structure TraceResult (R : Set Reducer) (g₀ g : Graph) (key v : Handle) : Prop where
  firm : g₀.Tame key → g.Firm g₀.size v
  reproduces : g₀.Tame key → g₀.Tangible R key → Reproduces R g₀ g key v

theorem upholds_traces (hS : g₀.Part S) (hcomplements : g₀.TameComplements S)
    (hR : Reducer.Agreeing R) :
    Upholds g₀ S id (Simplify.rule fuel) (TraceInv R g₀ S) (fun _ => TraceResult R g₀) True
      fun _ => True where
  congr m m' g hfinished _ h :=
    ⟨h.firm.congr hfinished, fun y v hv => h.reproduces y v ((hfinished y v).1 hv)⟩
  start key m g hasks hfresh := by
    obtain ⟨hkey, -, hw, hinv, -⟩ := hasks
    refine hinv.retained hw (hw.start hS.ground hkey hkey hfresh).kept (.of_extends extends_alloc)
      (hinv.firm.start hw hS hkey hkey hfresh) fun y v hv => ?_
    exact .inl ((Memory.finished_start hfresh).1 hv)
  rule key p n m g h := by
    refine h.ensures_node ?_
    refine ((Running.hosts fun m g hinv => hinv.firm).ensures h).mono ?_
    rintro v m' g' - ⟨g₂, o, h₂, ho, hrealized⟩
    have hext : g'.Extends g₂ := hrealized.builds.kept
    have hbuilds : Builds (grown g₀ S g₂) o.Adds g₂ g' :=
      hrealized.builds.mono (fun k hk => hk.mem) fun _ => id
    have hw := h₂.working.build hbuilds ho.adds_token
    have hfirm := Tracing.firmInv_of_adds h₂ hcomplements ho hbuilds
    have hinv : TraceInv R g₀ S m' g' :=
      h₂.inv.retained h₂.working hw.kept (.of_extends hext) hfirm fun y a hy => .inl hy
    have husable : Usable g₀ S key g' v :=
      h₂.usable_built h₂.closed_usable (fun _ hk => hk) hrealized.builds hrealized.built
    refine ⟨h₂.since.trans (.of_extends hext), hw, hinv, husable.mem, husable.firm, ?_⟩
    exact Tracing.reproduces_of_realized h₂ hR hcomplements ho hrealized hw.wellFormed
  settle key p v m g hw hinv hp hv hresult _ := by
    have hw' := hw.settle hp hv
    have hretains : g.Retains (g.redirect p v) := .of_redirect (hw.placeholder key p hp).2
    refine hinv.retained hw hw'.kept hretains (hinv.firm.settle hw hp hv hresult.firm)
      fun y a hy => ?_
    rcases Memory.finished_finish_iff.1 hy with ⟨rfl, rfl⟩ | ⟨-, hy⟩
    · refine .inr fun htame htangible => ?_
      exact (hresult.reproduces htame htangible).retained (hresult.firm htame) hw.kept hw'.kept
        hretains
    · exact .inl hy

/-- A tangible expression from which no cycle can be reached and its simplified form have the same
traces, and the simplified form is tangible. -/
theorem Graph.Workable.traces_simplify {h s : Handle} (hh : g.Workable h)
    (hR : Reducer.Agreeing R) (htame : g.Tame h) (htangible : g.Tangible R h)
    (hs : g.simplify fuel h = some (s, g')) : g'.traces s = g.traces h ∧ g'.Tangible R s := by
  obtain ⟨r, n, hl, -⟩ := hh.ready h .refl
  have hcomplements := hh.tameComplements
  obtain ⟨m, -, hinv, hv, -⟩ := apply_upholds
    (upholds_traces (R := R) hh.part hcomplements hR) hh.part (fun _ hy => hy)
    (.initial hh.part hcomplements) (.inl .refl) hl (fun _ _ => trivial) hs
  obtain ⟨htraces, htangible⟩ := hinv.reproduces r s hv (htame.reaches hl.reaches)
    (htangible.reaches hl.reaches)
  exact ⟨htraces.trans (traces_leads hl).symm, htangible⟩

end DerivativeParsing
