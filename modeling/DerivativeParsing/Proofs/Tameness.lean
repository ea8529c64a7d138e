import DerivativeParsing.Proofs.Complements
import DerivativeParsing.Proofs.Transforms

/-!
# Tame expressions in a transformation

An expression from which no cycle can be reached is transformed without ever asking for a key whose
rule is still running.  Its result is *firm*: what can be reached from it are slots that the
transformation found, and nodes that it added, and no cycle can be reached from it either.  Firm
results stay what they are for the rest of the transformation, placeholders being sent on elsewhere.

`FirmInv` is the invariant that keeps the operands of complements firm.
-/

set_option autoImplicit false

namespace DerivativeParsing

open Fixpoint

namespace Graph

variable {g g' : Graph} {D : Set Handle} {h k p r t v : Handle} {n : Node} {base : Nat}

/-! ## Reachability in a closed set -/

theorem references_congr (hslot : g'.slot? h = g.slot? h) :
    g'.references h = g.references h := by
  unfold references
  rw [hslot]

theorem Closed.congr (hD : g.Closed D) (hslot : ∀ h ∈ D, g'.slot? h = g.slot? h) :
    g'.Closed D := fun h hh k hk => hD h hh k (by rwa [← references_congr (hslot h hh)])

theorem Reaches.congr (hD : g.Closed D) (hslot : ∀ h ∈ D, g'.slot? h = g.slot? h) (hh : h ∈ D)
    (hk : g'.Reaches h k) : g.Reaches h k := by
  induction hk with
  | refl => exact .refl
  | tail hhk hstep ih =>
      have hmem := (hD.congr hslot).of_reaches hh hhk
      exact ih.tail (by rwa [← references_congr (hslot _ hmem)])

theorem LeadsTo.congr (hD : g.Closed D) (hslot : ∀ h ∈ D, g'.slot? h = g.slot? h) (hh : h ∈ D)
    (hk : g'.LeadsTo h k) : g.LeadsTo h k := by
  induction hk with
  | single hstep => exact .single (by rwa [← references_congr (hslot _ hh)])
  | tail hhk hstep ih =>
      have hmem := (hD.congr hslot).of_reaches hh hhk.to_reflTransGen
      exact ih.tail (by rwa [← references_congr (hslot _ hmem)])

theorem Tame.congr (hD : g.Closed D) (hslot : ∀ h ∈ D, g'.slot? h = g.slot? h) (hh : h ∈ D)
    (htame : g.Tame h) : g'.Tame h := fun k hk hcycle =>
  have hhk := Reaches.congr hD hslot hh hk
  htame k hhk (LeadsTo.congr hD hslot (hD.of_reaches hh hhk) hcycle)

theorem Tame.of_mem_references (hh : g.Tame h) (hk : k ∈ g.references h) : g.Tame k :=
  hh.reaches (.single hk)

theorem Tame.complementsTame (hh : g.Tame h) : g.ComplementsTame h := fun _ _ hk hs =>
  (hh.reaches hk).of_mem_references (by simp [references_of_node hs, Node.children])

/-- What holds of a handle if it holds of those that it refers to holds of every handle from which
no cycle can be reached. -/
theorem Tame.induction {P : Handle → Prop} (htame : g.Tame h) (hg : g.WellFormed)
    (hh : h.index < g.size)
    (hstep : ∀ k, g.Reaches h k → (∀ c ∈ g.references k, P c) → P k) : P h := by
  let X := {k // g.Reaches h k}
  let below : X → X → Prop := fun a b => g.LeadsTo b.1 a.1
  have hfinite : Finite X := by
    refine Finite.of_injective (fun k : X => (⟨k.1.index, hg.lt_of_reaches hh k.2⟩ : Fin g.size)) ?_
    intro a b hab
    exact Subtype.ext (Handle.ext_index (Fin.mk.inj hab))
  have htrans : IsTrans X below := ⟨fun a b c hab hbc => hbc.trans hab⟩
  have hirrefl : Std.Irrefl below := ⟨fun a => htame a.1 a.2⟩
  have hwf : WellFounded below := Finite.wellFounded_of_trans_of_irrefl below
  suffices hall : ∀ k : X, P k.1 from hall ⟨h, .refl⟩
  intro k
  induction k using hwf.induction with
  | _ k ih => exact hstep k.1 k.2 fun c hc => ih ⟨c, k.2.tail hc⟩ (.single hc)

/-! ## Firm handles -/

/-- No cycle can be reached from a handle, and nothing new but nodes. -/
structure Firm (base : Nat) (g : Graph) (h : Handle) : Prop where
  tame : g.Tame h
  slots : ∀ k, g.Reaches h k → k.index < base ∨ ∃ n, g.slot? k = some (.node n)

namespace Firm

theorem reaches (hh : g.Firm base h) (hk : g.Reaches h k) : g.Firm base k :=
  ⟨hh.tame.reaches hk, fun k' hk' => hh.slots k' (hk.trans hk')⟩

theorem of_mem_references (hh : g.Firm base h) (hk : k ∈ g.references h) : g.Firm base k :=
  hh.reaches (.single hk)

theorem closed (base : Nat) (g : Graph) : g.Closed {h | g.Firm base h} :=
  fun _ hh _ hk => of_mem_references hh hk

theorem congr (hD : g.Closed D) (hslot : ∀ h ∈ D, g'.slot? h = g.slot? h) (hh : h ∈ D)
    (hfirm : g.Firm base h) : g'.Firm base h where
  tame := hfirm.tame.congr hD hslot hh
  slots k hk := by
    have hhk := Reaches.congr hD hslot hh hk
    rw [hslot k (hD.of_reaches hh hhk)]
    exact hfirm.slots k hhk

/-- A tame part of the graph that a transformation found is firm. -/
theorem of_kept {g₀ : Graph} (hkept : g.Extends g₀) (hD : g₀.Closed D)
    (hlt : ∀ h ∈ D, h.index < g₀.size) (hh : h ∈ D) (htame : g₀.Tame h) :
    g.Firm g₀.size h where
  tame := htame.congr hD (fun k hk => hkept.2 k (hlt k hk)) hh
  slots k hk := by
    have hhk := Reaches.congr hD (fun k hk => hkept.2 k (hlt k hk)) hh hk
    exact .inl (hlt k (hD.of_reaches hh hhk))

/-- As long as the nodes stay, firm handles do. -/
theorem slot?_eq (hkept : ∀ h : Handle, h.index < base → g'.slot? h = g.slot? h)
    (hretains : g.Retains g') : ∀ k ∈ {h | g.Firm base h}, g'.slot? k = g.slot? k := by
  intro k hk
  rcases hk.slots k .refl with hlt | ⟨n, hs⟩
  · exact hkept k hlt
  · rw [hs, hretains.node k n hs]

theorem retained (hfirm : g.Firm base h)
    (hkept : ∀ h : Handle, h.index < base → g'.slot? h = g.slot? h) (hretains : g.Retains g') :
    g'.Firm base h :=
  hfirm.congr (closed base g) (slot?_eq hkept hretains) hfirm

/-- The language of a firm handle stays the same. -/
theorem language_retained (hfirm : g.Firm base h)
    (hkept : ∀ h : Handle, h.index < base → g'.slot? h = g.slot? h) (hretains : g.Retains g') :
    g'.language h = g.language h :=
  language_congr (closed base g) (slot?_eq hkept hretains) h hfirm

/-- A node is firm if its operands are and do not refer to it. -/
theorem of_node (hs : g.slot? h = some (.node n)) (hc : ∀ c ∈ n.children, g.Firm base c)
    (hself : ∀ c ∈ n.children, ¬ g.Reaches c h) : g.Firm base h where
  tame k hk hcycle := by
    rcases Relation.ReflTransGen.cases_head hk with rfl | ⟨c, hhc, hck⟩
    · obtain ⟨c, hhc, hch⟩ := Relation.TransGen.head'_iff.1 hcycle
      exact hself c (by rwa [references_of_node hs] at hhc) hch
    · rw [references_of_node hs] at hhc
      exact (hc c hhc).tame k hck hcycle
  slots k hk := by
    rcases Relation.ReflTransGen.cases_head hk with rfl | ⟨c, hhc, hck⟩
    · exact .inr ⟨n, hs⟩
    · rw [references_of_node hs] at hhc
      exact (hc c hhc).slots k hck

theorem of_atomic (hs : g.slot? h = some (.node n)) (hn : n.children = []) : g.Firm base h :=
  of_node hs (by simp [hn]) (by simp [hn])

/-- What is built from firm handles is firm. -/
theorem of_built {P : Node → Prop} (h : Builds D P g g') (hD : g.Closed D)
    (hlt : ∀ c ∈ D, c.index < g.size) (hfirm : ∀ c ∈ D, g.Firm base c)
    (hv : Built D g g' v) : g'.Firm base v := by
  have hold {c : Handle} (hc : c ∈ D) : g'.Firm base c :=
    (hfirm c hc).congr hD (fun k hk => h.kept.2 k (hlt k hk)) hc
  rcases hv with hv | ⟨hle, hlt'⟩
  · exact hold hv
  · induction hi : v.index using Nat.strong_induction_on generalizing v with
    | _ i ih =>
        subst hi
        obtain ⟨n, hs, -, hc⟩ := h.new v hle hlt'
        -- From an operand, only the given handles and earlier nodes can be reached.
        have hreach {c k : Handle} (hck : g'.Reaches c k)
            (hc : c ∈ D ∨ g.size ≤ c.index ∧ c.index < v.index) :
            k ∈ D ∨ g.size ≤ k.index ∧ k.index < v.index := by
          induction hck with
          | refl => exact hc
          | @tail k k' _ hstep ih' =>
              rcases ih' with hk | ⟨hkle, hklt⟩
              · rw [references_congr (h.kept.2 k (hlt k hk))] at hstep
                exact .inl (hD k hk k' hstep)
              · obtain ⟨n', hs', -, hc'⟩ := h.new k hkle (hklt.trans hlt')
                rw [references_of_node hs'] at hstep
                exact (hc' k' hstep).imp_right fun ⟨hle', hlt''⟩ => ⟨hle', hlt''.trans hklt⟩
        refine of_node hs (fun c hcn => ?_) fun c hcn hcv => ?_
        · rcases hc c hcn with hcD | ⟨hcle, hclt⟩
          · exact hold hcD
          · exact ih c.index hclt hcle (hclt.trans hlt') rfl
        · rcases hreach hcv (hc c hcn) with hvD | ⟨-, hvlt⟩
          · exact absurd (hlt v hvD) (Nat.not_lt.2 hle)
          · omega

end Firm

/-- If no cycle can be reached from an expression, then from nothing else in its scope. -/
theorem Tame.scope (htame : g.Tame h) (hg : g.WellFormed) : ∀ k ∈ g.scope h, g.Tame k := by
  rintro k (hk | hk)
  · exact htame.reaches hk
  · obtain ⟨n, hs, hn⟩ := hg.exists_atomic hk
    exact (Firm.of_atomic hs hn : g.Firm 0 k).tame

end Graph

/-! ## The invariant -/

open DerivativeParsing.Graph

section FirmInv

variable {g₀ g₁ g g' : Graph} {S D : Set Handle} {standIn : Handle → Handle}
  {Inv : Memory Handle Handle → Graph → Prop} {m m' : Memory Handle Handle}
  {key p q r v a c : Handle} {n : Node}

/-- No set of finished trees in a part of a graph is empty. -/
def Graph.HasTrees (g : Graph) (S : Set Handle) : Prop :=
  ∀ h ∈ S, ∀ f, g.slot? h = some (.node (.emptyReduction f)) → f.HasTree

/-- There can be room for the list of all matches of a repetition. -/
def Count.Fits : Count → Prop
  | .exactly n => n ≤ Tree.maxRoom
  | .unbounded => True

/-- There can be room for the lists that a node makes. -/
def Node.Fits : Node → Prop
  | .rep _ count => count.Fits
  | .reduction _ f => f.Fits
  | _ => True

/-- There can be room for all lists in a part of a graph. -/
def Graph.Fits (g : Graph) (S : Set Handle) : Prop :=
  ∀ h ∈ S, ∀ n, g.slot? h = some (.node n) → n.Fits

theorem Graph.Fits.of_slots {g : Graph} (h : ∀ n, Slot.node n ∈ g.slots.toList → n.Fits) :
    g.Fits S := fun _ _ n hs => h n (by simpa using Array.mem_of_getElem? hs)

theorem Graph.Fits.reaches {g : Graph} {h d : Handle} (hfits : g.Fits {k | g.Reaches h k})
    (hd : g.Reaches h d) : g.Fits {k | g.Reaches d k} := fun k hk => hfits k (hd.trans hk)

/-- The three fixed expressions make no lists. -/
theorem Graph.Fits.scope {g : Graph} {h : Handle} (hg : g.WellFormed)
    (hfits : g.Fits {k | g.Reaches h k}) : g.Fits (g.scope h) := by
  rintro k (hk | hk) n hs
  · exact hfits k hk n hs
  · rcases hk with rfl | rfl | rfl
    · rw [hg.nil] at hs
      cases hs
      trivial
    · rw [hg.empty] at hs
      cases hs
      trivial
    · rw [hg.any] at hs
      cases hs
      trivial

/-- The operands of complements are firm, and so are the results for tame handles.  Sets of finished
trees have trees if they had at the start, and there can be room for all lists if there could. -/
structure FirmInv (g₀ : Graph) (S : Set Handle) (m : Memory Handle Handle) (g : Graph) : Prop where
  complements : ∀ h ∈ grown g₀ S g, ∀ q, g.slot? h = some (.node (.not q)) → g.Firm g₀.size q
  results : ∀ y v, m.Finished y v → g₀.Tame y → g.Firm g₀.size v
  trees : g₀.HasTrees S → g.HasTrees (grown g₀ S g)
  fits : g₀.Fits S → g.Fits (grown g₀ S g)

/-- The operands of complements in a part of a graph are tame. -/
def Graph.TameComplements (g : Graph) (S : Set Handle) : Prop :=
  ∀ h ∈ S, ∀ q, g.slot? h = some (.node (.not q)) → g.Tame q

namespace FirmInv

theorem initial (hS : g₀.Part S) (htame : g₀.TameComplements S) : FirmInv g₀ S .empty g₀ where
  complements h hh q hs := by
    have hhS := hh.2 hh.1
    have hqS : q ∈ S := hS.closed h hhS q (by simp [references_of_node hs, Node.children])
    exact .of_kept (.refl g₀) hS.closed hS.inRange hqS (htame h hhS q hs)
  results y v hy := by simp [Memory.Finished, Memory.empty] at hy
  trees htrees h hh := htrees h (hh.2 hh.1)
  fits hfits h hh := hfits h (hh.2 hh.1)

theorem congr (h : FirmInv g₀ S m g) (hfinished : ∀ y v, m'.Finished y v ↔ m.Finished y v) :
    FirmInv g₀ S m' g where
  complements := h.complements
  results y v hy := h.results y v ((hfinished y v).1 hy)
  trees := h.trees
  fits := h.fits

/-- The invariant holds of a later graph if it holds of what is new: of the complements, the trees
and the lists. -/
theorem retained (h : FirmInv g₀ S m g) (hw : Working g₀ S standIn m g)
    (hw' : Working g₀ S standIn m' g') (hretains : g.Retains g')
    (hresults : ∀ y v, m'.Finished y v → m.Finished y v ∨ (g₀.Tame y → g.Firm g₀.size v))
    (hnew : ∀ h ∈ grown g₀ S g', ∀ q, g'.slot? h = some (.node (.not q)) →
      g.slot? h = some (.node (.not q)) ∨ g'.Firm g₀.size q)
    (htrees : ∀ h ∈ grown g₀ S g', ∀ f, g'.slot? h = some (.node (.emptyReduction f)) →
      g.slot? h = some (.node (.emptyReduction f)) ∨ (g₀.HasTrees S → f.HasTree))
    (hfits : ∀ h ∈ grown g₀ S g', ∀ n, g'.slot? h = some (.node n) →
      g.slot? h = some (.node n) ∨ (g₀.Fits S → n.Fits)) :
    FirmInv g₀ S m' g' where
  complements k hk q hs := by
    rcases hnew k hk q hs with hs | hfirm
    · refine (h.complements k ⟨slot?_lt hs, hk.2⟩ q hs).retained (fun k hlt => ?_) hretains
      rw [hw'.kept.2 k hlt, hw.kept.2 k hlt]
    · exact hfirm
  results y v hy htame := by
    have hfirm : g.Firm g₀.size v := (hresults y v hy).elim (fun hy => h.results y v hy htame)
      fun h => h htame
    exact hfirm.retained (fun k hlt => by rw [hw'.kept.2 k hlt, hw.kept.2 k hlt]) hretains
  trees hS k hk f hs :=
    (htrees k hk f hs).elim (fun hs => h.trees hS k ⟨slot?_lt hs, hk.2⟩ f hs) fun hf => hf hS
  fits hS k hk n hs :=
    (hfits k hk n hs).elim (fun hs => h.fits hS k ⟨slot?_lt hs, hk.2⟩ n hs) fun hn => hn hS

theorem start (h : FirmInv g₀ S m g) (hw : Working g₀ S standIn m g) (hS : g₀.Part S)
    (hstandIn : standIn key ∈ S) (hkey : key ∈ S) (hfresh : m.progress[key]? = none) :
    FirmInv g₀ S (m.start key ⟨g.size⟩) (g.alloc (.forward (standIn key))).2 := by
  refine h.retained hw (hw.start hS.ground hstandIn hkey hfresh) (.of_extends extends_alloc)
    (fun y v hy => .inl ((Memory.finished_start hfresh).1 hy)) (fun k hk q hs => ?_)
    (fun k hk f hs => ?_) fun k hk n hs => ?_
  all_goals
    rw [slot?_alloc] at hs
    split at hs
    · cases hs
    · exact .inl hs

theorem settle (h : FirmInv g₀ S m g) (hw : Working g₀ S standIn m g)
    (hp : m.Underway key p) (hv : v ∈ grown g₀ S g) (hfirm : g₀.Tame key → g.Firm g₀.size v) :
    FirmInv g₀ S (m.finish key p v) (g.redirect p v) := by
  obtain ⟨-, hs⟩ := hw.placeholder key p hp
  refine h.retained hw (hw.settle hp hv) (.of_redirect hs) (fun y w hy => ?_)
    (fun k _ q hk => .inl (hw.node_of_redirect hp hk))
    (fun k _ f hk => .inl (hw.node_of_redirect hp hk))
    fun k _ n hk => .inl (hw.node_of_redirect hp hk)
  rcases Memory.finished_finish_iff.1 hy with ⟨rfl, rfl⟩ | ⟨-, hy⟩
  · exact .inr hfirm
  · exact .inl hy

/-- Nodes are added; the operands of the complements among them are firm, there are trees in the sets
of finished trees, and there can be room for their lists. -/
theorem build {P : Node → Prop} (h : FirmInv g₀ S m g) (hw : Working g₀ S standIn m g)
    (hbuilds : Builds (grown g₀ S g) P g g') (htoken : ¬ P (.token []))
    (hP : ∀ q, P (.not q) → g'.Firm g₀.size q)
    (htrees : ∀ f, P (.emptyReduction f) → g₀.HasTrees S → f.HasTree)
    (hfits : ∀ n, P n → g₀.Fits S → n.Fits) : FirmInv g₀ S m g' := by
  have hnode {k : Handle} {n : Node} (hs : g'.slot? k = some (.node n)) :
      g.slot? k = some (.node n) ∨ P n := by
    rcases Nat.lt_or_ge k.index g.size with hlt | hge
    · rw [hbuilds.kept.2 k hlt] at hs
      exact .inl hs
    · obtain ⟨n, hs', hn, -⟩ := hbuilds.new k hge (slot?_lt hs)
      rw [hs] at hs'
      cases hs'
      exact .inr hn
  exact h.retained hw (hw.build hbuilds htoken) (.of_extends hbuilds.kept) (fun y v hy => .inl hy)
    (fun k _ q hs => (hnode hs).imp_right (hP q)) (fun k _ f hs => (hnode hs).imp_right (htrees f))
    fun k _ n hs => (hnode hs).imp_right (hfits n)

end FirmInv

/-- The answer for an operand from which no cycle can be reached is firm. -/
theorem FirmInv.answer (h : FirmInv g₀ S m g) (htame : g₀.Tame c) (hl : g₀.Leads c r)
    (ha : Answered g₀ m r a) : g.Firm g₀.size a := by
  have hr : g₀.Tame r := htame.reaches hl.reaches
  rcases ha with ha | ⟨-, hcycle⟩
  · exact h.results r a ha hr
  · exact absurd hcycle (hr r .refl)

namespace Running

/-- There can be room for the lists of a node if there can be for all lists of its part. -/
theorem fits_self (h : Running g₀ S standIn Inv key p n g₁ m g) (hfits : g₀.Fits S) : n.Fits :=
  hfits key h.mem n h.node

/-- A handle of the part from which no cycle can be reached is firm. -/
theorem firm_of_mem (h : Running g₀ S standIn Inv key p n g₁ m g) (hc : c ∈ S)
    (htame : g₀.Tame c) : g.Firm g₀.size c :=
  .of_kept h.working.kept h.part.closed h.part.inRange hc htame

theorem nil_mem (h : Running g₀ S standIn Inv key p n g₁ m g) : Handle.nil ∈ grown g₀ S g :=
  h.part.mem_grown h.working.kept h.part.nil

theorem empty_mem (h : Running g₀ S standIn Inv key p n g₁ m g) : Handle.empty ∈ grown g₀ S g :=
  h.part.mem_grown h.working.kept h.part.empty

theorem any_mem (h : Running g₀ S standIn Inv key p n g₁ m g) : Handle.any ∈ grown g₀ S g :=
  h.part.mem_grown h.working.kept h.part.any

/-- The three fixed handles are firm. -/
theorem firm_nil (h : Running g₀ S standIn Inv key p n g₁ m g) : g.Firm g₀.size .nil :=
  .of_atomic h.working.wellFormed.nil rfl

theorem firm_empty (h : Running g₀ S standIn Inv key p n g₁ m g) : g.Firm g₀.size .empty :=
  .of_atomic h.working.wellFormed.empty rfl

theorem firm_any (h : Running g₀ S standIn Inv key p n g₁ m g) : g.Firm g₀.size .any :=
  .of_atomic h.working.wellFormed.any rfl

end Running

/-! ## Handles that a result may be made of -/

/-- A handle belongs to the grown part, and is firm if the key is tame. -/
structure Usable (g₀ : Graph) (S : Set Handle) (key : Handle) (g : Graph) (h : Handle) : Prop where
  mem : h ∈ grown g₀ S g
  firm : g₀.Tame key → g.Firm g₀.size h

theorem Usable.retained {h : Handle} (hh : Usable g₀ S key g h) (hw : Working g₀ S standIn m g)
    (hw' : Working g₀ S standIn m' g') (hretains : g.Retains g') : Usable g₀ S key g' h where
  mem := Working.grown_mono hretains.size_le hh.mem
  firm htame := (hh.firm htame).retained (fun k hlt => by rw [hw'.kept.2 k hlt, hw.kept.2 k hlt])
    hretains

namespace Running

variable {h' : Handle} {n' : Node} {P : Node → Prop} {E : Set Handle}

theorem usable_self (h : Running g₀ S standIn Inv key p n g₁ m g) : Usable g₀ S key g key :=
  ⟨h.part.mem_grown h.working.kept h.mem, h.firm_of_mem h.mem⟩

theorem usable_operand (h : Running g₀ S standIn Inv key p n g₁ m g) (hc : c ∈ n.children) :
    Usable g₀ S key g c :=
  ⟨h.part.mem_grown h.working.kept (h.operand_mem hc),
    fun htame => h.firm_of_mem (h.operand_mem hc)
      (htame.of_mem_references (by rwa [references_of_node h.node]))⟩

theorem usable_nil (h : Running g₀ S standIn Inv key p n g₁ m g) : Usable g₀ S key g .nil :=
  ⟨h.nil_mem, fun _ => h.firm_nil⟩

theorem usable_empty (h : Running g₀ S standIn Inv key p n g₁ m g) : Usable g₀ S key g .empty :=
  ⟨h.empty_mem, fun _ => h.firm_empty⟩

theorem usable_any (h : Running g₀ S standIn Inv key p n g₁ m g) : Usable g₀ S key g .any :=
  ⟨h.any_mem, fun _ => h.firm_any⟩

theorem usable_answer (h : Running g₀ S standIn Inv key p n g₁ m g) (hfirm : FirmInv g₀ S m g)
    (hc : c ∈ n.children) (hl : g₀.Leads c r) (ha : Answered g₀ m r a) : Usable g₀ S key g a :=
  ⟨(h.working.asked r a ha.holds).2, fun htame =>
    hfirm.answer (htame.of_mem_references (by rwa [references_of_node h.node])) hl ha⟩

/-- What is built from handles that may be used may be used. -/
theorem usable_built (h : Running g₀ S standIn Inv key p n g₁ m g) (hE : g.Closed E)
    (husable : ∀ k ∈ E, Usable g₀ S key g k) (hbuilds : Builds E P g g') (hv : Built E g g' v) :
    Usable g₀ S key g' v where
  mem := h.working.mem_grown_of_built hbuilds.kept.1 (hv.imp_left fun hv => (husable v hv).mem)
  firm htame := .of_built hbuilds hE (fun k hk => (husable k hk).mem.1)
    (fun k hk => (husable k hk).firm htame) hv

/-- The handles that may be used are closed. -/
theorem closed_usable (h : Running g₀ S standIn Inv key p n g₁ m g) :
    g.Closed {k | Usable g₀ S key g k} := fun k hk k' hk' =>
  ⟨h.working.closed k hk.mem k' hk', fun htame => (hk.firm htame).of_mem_references hk'⟩

theorem usable_make (h : Running g₀ S standIn Inv key p n g₁ m g)
    (hn : ∀ k ∈ n'.children, Usable g₀ S key g k) :
    Usable g₀ S key (g.make n').2 (g.make n').1 :=
  h.usable_built (P := fun _ => True) h.closed_usable (fun _ hk => hk)
    (.make hn trivial) (.make h.usable_nil h.usable_empty h.usable_any)

end Running

/-- After a transformation, the operands of complements are tame. -/
theorem FirmInv.tameComplements (h : FirmInv g₀ S m g) : g.TameComplements (grown g₀ S g) :=
  fun k hk q hs => (h.complements k hk q hs).tame

theorem FirmInv.complementsTame (h : FirmInv g₀ S m g) (hw : Working g₀ S standIn m g)
    (hv : v ∈ grown g₀ S g) : g.ComplementsTame v := fun k q hk hs =>
  h.tameComplements k (hw.closed.of_reaches hv hk) q hs

/-- Chains from firm handles end at nodes. -/
theorem Working.ready_of_firm (hw : Working g₀ S standIn m g) (hS : g₀.Part S)
    (hv : v ∈ grown g₀ S g) (hfirm : g.Firm g₀.size v) : g.Ready v := fun k hk => by
  have hmem := hw.closed.of_reaches hv hk
  rcases hfirm.slots k hk with hlt | ⟨n, hs⟩
  · have hkS : k ∈ S := hmem.2 hlt
    exact (hS.leadsToNode hkS).congr hS.closed
      (fun k hk => hw.kept.2 k (hS.inRange k hk)) hkS
  · exact ⟨k, n, .of_node hs, hs⟩

end FirmInv

/-! ## Languages of tame graphs -/

section Languages

open DerivativeParsing.Graph

theorem Graph.TameComplements.layered {g : Graph} {S : Set Handle} {h : Handle}
    (htame : g.TameComplements S) (hS : g.Closed S) (hh : h ∈ S) : g.Layered h := by
  refine Stratified.layered fun k p hk hs hpk => ?_
  have hkp : p ∈ g.references k := by simp [references_of_node hs, Node.children]
  exact htame k (hS.of_reaches hh hk) p hs k hpk (.head' hkp hpk)

theorem Graph.Layered.of_forward {g : Graph} {h t : Handle} (ht : g.Layered t)
    (hs : g.slot? h = some (.forward t)) : g.Layered h := by
  have hreach {k : Handle} (hk : g.Reaches h k) : k = h ∨ g.Reaches t k := by
    rcases Relation.ReflTransGen.cases_head hk with rfl | ⟨k', hk', hrest⟩
    · exact .inl rfl
    · rw [references_of_forward hs, List.mem_singleton] at hk'
      exact .inr (hk' ▸ hrest)
  obtain ⟨i, hi⟩ := ht
  refine ⟨i, ?_⟩
  cases i with
  | zero =>
      intro k p hk hkp
      rcases hreach hk with rfl | hk
      · rw [hs] at hkp
        cases hkp
      · exact hi k p hk hkp
  | succ i =>
      intro k p hk hkp
      rcases hreach hk with rfl | hk
      · rw [hs] at hkp
        cases hkp
      · exact hi k p hk hkp

theorem Graph.ComplementsTame.scope {g : Graph} {root : Handle} (hg : g.WellFormed)
    (htame : g.ComplementsTame root) : g.TameComplements (g.scope root) := by
  rintro h (hh | hh) q hs
  · exact htame h q hh hs
  · obtain ⟨n, hn, hatomic⟩ := hg.exists_atomic hh
    rw [hn] at hs
    cases hs
    cases hatomic

end Languages

/-! ## Expressions that can be worked with -/

/-- An expression that can be prepared, and in which no cycle can be reached from the operand of a
complement. -/
structure Graph.Workable (g : Graph) (h : Handle) : Prop where
  wellFormed : g.WellFormed
  inRange : h.index < g.size
  ready : g.Ready h
  tame : g.ComplementsTame h

namespace Graph.Workable

variable {g : Graph} {h r : Handle}

theorem part (hh : g.Workable h) : g.Part (g.scope h) := hh.wellFormed.part hh.inRange hh.ready

theorem tameComplements (hh : g.Workable h) : g.TameComplements (g.scope h) :=
  hh.tame.scope hh.wellFormed

theorem layered (hh : g.Workable h) : g.Layered h := hh.tame.stratified.layered

theorem reaches (hh : g.Workable h) (hr : g.Reaches h r) : g.Workable r where
  wellFormed := hh.wellFormed
  inRange := hh.wellFormed.lt_of_reaches hh.inRange hr
  ready := hh.ready.reaches hr
  tame k p hk := hh.tame k p (hr.trans hk)

theorem stratifies (hh : g.Workable h) : g.Stratifies h :=
  ⟨hh.wellFormed, hh.inRange, hh.ready, hh.tame.stratified⟩

/-- The nullability of an expression is right when it has been evaluated. -/
theorem nullable_iff {fuel : Nat} {b : Bool} (hh : g.Workable h)
    (hb : g.nullable fuel h = some b) : b = true ↔ [] ∈ g.language h := by
  obtain ⟨r, n, hl, -⟩ := hh.ready h .refl
  have hr := (hh.reaches hl.reaches)
  have hbr : g.nullable fuel r = some b := by
    rwa [Graph.nullable, Table.evaluate_eq hl, ← Table.evaluate_eq hl.self_end] at hb
  rw [hr.stratifies.result_of_final (hr.stratifies.complementsFinal_of_tame hl.self_end hr.tame fuel)
    hl.self_end hbr, finalNullable_eq_true, hh.layered.language_leads hl]

end Graph.Workable

/-- While a transformation runs, what it has found can be worked with as at the start. -/
theorem Running.workable_of_mem {g₀ g₁ g : Graph} {S : Set Handle} {standIn : Handle → Handle}
    {Inv : Memory Handle Handle → Graph → Prop} {m : Memory Handle Handle} {key p z : Handle}
    {n : Node} (h : Running g₀ S standIn Inv key p n g₁ m g) (htame : g₀.TameComplements S)
    (hzS : z ∈ S) : g.Workable z := by
  have hclosed : g.Closed S := h.part.closed.congr h.slot?_eq
  refine ⟨h.working.wellFormed, (h.part.mem_grown h.working.kept hzS).1, fun k hk => ?_,
    fun k q hk hq => ?_⟩
  · have hkS := hclosed.of_reaches hzS hk
    exact (h.part.leadsToNode hkS).congr h.part.closed h.slot?_eq hkS
  · have hkS := hclosed.of_reaches hzS hk
    rw [h.slot?_eq k hkS] at hq
    have hqS : q ∈ S := h.part.closed k hkS q (by simp [references_of_node hq, Node.children])
    exact (htame k hkS q hq).congr h.part.closed h.slot?_eq hqS

/-- While a transformation runs, an operand can be worked with as at the start. -/
theorem Running.workable_operand {g₀ g₁ g : Graph} {S : Set Handle} {standIn : Handle → Handle}
    {Inv : Memory Handle Handle → Graph → Prop} {m : Memory Handle Handle} {key p z : Handle}
    {n : Node} (h : Running g₀ S standIn Inv key p n g₁ m g) (htame : g₀.TameComplements S)
    (hz : z ∈ n.children) : g.Workable z :=
  h.workable_of_mem htame (h.operand_mem hz)

/-! ## Transforming what is prepared -/

namespace Grammar

variable {g g₁ : Grammar} {root r : Handle}

theorem run_onGraph? {α : Type} {f : Graph → Option (α × Graph)} {a : α} {graph : Graph}
    (hf : f g.graph = some (a, graph)) :
    (onGraph? f).run.run g = (.ok a, { g with graph }) := by
  unfold onGraph?
  rw [run_bind, run_get]
  dsimp only
  rw [hf]
  rfl

theorem of_run_onGraph? {α : Type} {f : Graph → Option (α × Graph)} {a : α} {g g' : Grammar}
    (h : (onGraph? f).run.run g = (.ok a, g')) :
    ∃ graph, f g.graph = some (a, graph) ∧ g' = { g with graph } := by
  rcases hf : f g.graph with _ | ⟨b, graph⟩
  · unfold onGraph? at h
    rw [run_bind, run_get] at h
    dsimp only at h
    rw [hf] at h
    cases h
  · rw [run_onGraph? hf] at h
    cases h
    exact ⟨graph, rfl, rfl⟩

/-- What a transformation finds when an expression has been prepared. -/
theorem part_of_prepare (hg : g.WellFormed) (hroot : g.Has root)
    (hprepare : (prepare root).run.run g = (.ok r, g₁)) (htame : g₁.graph.ComplementsTame root) :
    g₁.graph.Leads root r ∧ g₁.graph.Part (g₁.graph.scope root) ∧
      g₁.graph.TameComplements (g₁.graph.scope root) := by
  obtain ⟨hw, hgrows, hl, hready⟩ := hg.of_prepare hroot hprepare
  exact ⟨hl, hw.graph.part (Has.change hroot hgrows) hready, htame.scope hw.graph⟩

/-- What the preparation of an expression leaves, in which no cycle can be reached from the operand
of a complement. -/
theorem workable_of_prepare (hg : g.WellFormed) (hroot : g.Has root)
    (hprepare : (prepare root).run.run g = (.ok r, g₁)) (htame : g₁.graph.ComplementsTame root) :
    g₁.graph.Leads root r ∧ g₁.graph.Workable r ∧
      g₁.graph.language root = g₁.graph.language r := by
  obtain ⟨hw, hgrows, hl, hready⟩ := hg.of_prepare hroot hprepare
  have hworkable : g₁.graph.Workable root := ⟨hw.graph, Has.change hroot hgrows, hready, htame⟩
  exact ⟨hl, hworkable.reaches hl.reaches, hworkable.layered.language_leads hl⟩

end Grammar

end DerivativeParsing
