import DerivativeParsing.Analysis.EmptyParses
import DerivativeParsing.Proofs.Alternatives
import DerivativeParsing.Proofs.Tameness

/-!
# The trees of the empty word

The rules for the trees of the empty word are written separately from those for nullability.  They
agree: when the trees of an expression have been evaluated, there is one exactly if the expression
matches the empty word (`Graph.Workable.hasTree_iff`).  No set of finished trees may be empty.

That there is no tree without a word is a bound on all values of the evaluation.  That there is no
word without a tree follows from the values that are left in the end.
-/

set_option autoImplicit false

namespace DerivativeParsing

open Fixpoint DerivativeParsing.Graph
open scoped Computability

namespace EmptyParses

variable {g : Graph} {root h k r : Handle} {n : Node} {fuel : Nat} {F : Forest}
  {answers : Handle → Forest → Prop} {outer A : Handle → WordSet}

theorem eq_of_yields_pure {f : Forest}
    (h : ((pure f : Reading Forest Forest) ()).Yields answers F) : f = F := h

/-! ## The rule of a node -/

/-- The nodes without a tree for the empty word, whatever their operands are. -/
def Treeless : Node → Prop
  | .nil | .any | .char _ | .range _ _ | .token _ => True
  | _ => False

/-- The nodes whose only tree for the empty word is the empty list, whatever their operands are. -/
def Unitary : Node → Prop
  | .empty | .star _ | .rep _ (.exactly 0) | .rep _ .unbounded => True
  | _ => False

/-- What the rule of a node makes of the answers that it gets.  The trees of a sequence are those of
an operand if the other one is `ε`, and else pairs. -/
inductive Made (fuel : Nat) (g : Graph) (answers : Handle → Forest → Prop) : Node → Forest → Prop
  | nothing {n : Node} (hn : Treeless n) : Made fuel g answers n .empty
  | unit {n : Node} (hn : Unitary n) : Made fuel g answers n unit
  | forest (f : Forest) : Made fuel g answers (.emptyReduction f) f
  | union {left right l r : Handle} {v w : Forest} (hl : g.Leads left l) (hv : answers l v)
      (hr : g.Leads right r) (hw : answers r w) : Made fuel g answers (.alt left right) (v.union w)
  | second {first second r : Handle} {v : Forest} (he : g.isEmpty first = some true)
      (hl : g.Leads second r) (hv : answers r v) : Made fuel g answers (.seq first second) v
  | first {first second r : Handle} {v : Forest} (hne : g.isEmpty first = some false)
      (he : g.isEmpty second = some true) (hl : g.Leads first r) (hv : answers r v) :
      Made fuel g answers (.seq first second) v
  | product {first second l r : Handle} {v w : Forest} (hfirst : g.isEmpty first = some false)
      (hsecond : g.isEmpty second = some false) (hl : g.Leads first l) (hv : answers l v)
      (hr : g.Leads second r) (hw : answers r w) :
      Made fuel g answers (.seq first second) (v.product w)
  | once {operand r : Handle} {v : Forest} (hl : g.Leads operand r) (hv : answers r v) :
      Made fuel g answers (.rep operand (.exactly 1)) v
  | lists {operand r : Handle} {k : Nat} {v : Forest} (hl : g.Leads operand r)
      (hv : answers r v) : Made fuel g answers (.rep operand (.exactly (k + 2))) (v.power (k + 2))
  | matched {operand : Handle} (hb : g.nullable fuel operand = some true) :
      Made fuel g answers (.not operand) .empty
  | unmatched {operand : Handle} (hb : g.nullable fuel operand = some false) :
      Made fuel g answers (.not operand) EmptyParses.unit
  | copy {operand r : Handle} {v : Forest} (hl : g.Leads operand r) (hv : answers r v) :
      Made fuel g answers (.nullability operand) v
  | image {operand r : Handle} {f : Reducer} {v : Forest} (hl : g.Leads operand r)
      (hv : answers r v) : Made fuel g answers (.reduction operand f) (v.map f.apply)

theorem made_of_yields (h : (ofNode fuel g n ()).Yields answers F) : Made fuel g answers n F := by
  cases n with
  | nil => exact eq_of_yields_pure h ▸ .nothing trivial
  | any => exact eq_of_yields_pure h ▸ .nothing trivial
  | char c => exact eq_of_yields_pure h ▸ .nothing trivial
  | range first last => exact eq_of_yields_pure h ▸ .nothing trivial
  | token text => exact eq_of_yields_pure h ▸ .nothing trivial
  | empty => exact eq_of_yields_pure h ▸ .unit trivial
  | star operand => exact eq_of_yields_pure h ▸ .unit trivial
  | emptyReduction f => exact eq_of_yields_pure h ▸ .forest f
  | alt left right =>
      obtain ⟨l, v, hl, hv, h⟩ := Reading.yields_bind_ask.1 h
      obtain ⟨r, w, hr, hw, h⟩ := Reading.yields_bind_ask.1 h
      exact eq_of_yields_pure h ▸ .union hl hv hr hw
  | seq first second =>
      obtain ⟨firstEmpty, hfirst, h⟩ := Reading.yields_bind_query.1 h
      cases firstEmpty with
      | true =>
          obtain ⟨r, hl, hv⟩ := Reading.yields_ask.1 h
          exact .second hfirst hl hv
      | false =>
          obtain ⟨secondEmpty, hsecond, h⟩ := Reading.yields_bind_query.1 h
          cases secondEmpty with
          | true =>
              obtain ⟨r, hl, hv⟩ := Reading.yields_ask.1 h
              exact .first hfirst hsecond hl hv
          | false =>
              obtain ⟨l, v, hl, hv, h⟩ := Reading.yields_bind_ask.1 h
              obtain ⟨r, w, hr, hw, h⟩ := Reading.yields_bind_ask.1 h
              exact eq_of_yields_pure h ▸ .product hfirst hsecond hl hv hr hw
  | rep operand count =>
      rcases count with (_ | _ | k) | _
      · exact eq_of_yields_pure h ▸ .unit trivial
      · obtain ⟨r, hl, hv⟩ := Reading.yields_ask.1 h
        exact .once hl hv
      · -- There was room for the lists, since there is a result.
        obtain ⟨r, v, hl, hv, h⟩ := Reading.yields_bind_ask.1 h
        rw [← (Forest.power?_eq_some.1 (Reading.yields_query.1 h)).2]
        exact .lists hl hv
      · exact eq_of_yields_pure h ▸ .unit trivial
  | not operand =>
      obtain ⟨b, hb, h⟩ := Reading.yields_bind_query.1 h
      cases b with
      | true => exact eq_of_yields_pure h ▸ .matched hb
      | false => exact eq_of_yields_pure h ▸ .unmatched hb
  | nullability operand =>
      obtain ⟨r, hl, hv⟩ := Reading.yields_ask.1 h
      exact .copy hl hv
  | reduction operand reducer =>
      obtain ⟨r, v, hl, hv, h⟩ := Reading.yields_bind_ask.1 h
      rw [← (Reducer.reduce?_eq_some.1 (Reading.yields_query.1 h)).2]
      exact .image hl hv

/-- From answers without trees for nothing, the rule of a node makes no tree for nothing. -/
theorem nil_mem_of_yields (h : (ofNode fuel g n ()).Yields answers F)
    (hanswers : ∀ c ∈ n.children, ∀ r v, g.Leads c r → answers r v → v.HasTree → [] ∈ A c)
    (hempty : ∀ c ∈ n.children, g.isEmpty c = some true → [] ∈ A c)
    (hnot : ∀ c, n = .not c → ∀ b, g.nullable fuel c = some b → (b = true ↔ [] ∈ outer c))
    (hF : F.HasTree) : [] ∈ n.words outer A := by
  cases made_of_yields h with
  | nothing _ => exact absurd hF Forest.not_hasTree_empty
  | unit hn =>
      cases n with
      | empty => exact Language.nil_mem_one
      | star operand => exact Language.nil_mem_kstar _
      | rep operand count =>
          rcases count with (_ | k) | _
          · have hone : (Node.rep operand (.exactly 0)).words outer A = 1 := pow_zero (A operand)
            exact hone ▸ Language.nil_mem_one
          · exact hn.elim
          · exact Language.nil_mem_kstar _
      | _ => exact hn.elim
  | forest f => exact Language.nil_mem_one
  | @union left right l r v w hl hv hr hw =>
      exact (Forest.hasTree_union.1 hF).imp
        (hanswers left (by simp [Node.children]) l v hl hv)
        (hanswers right (by simp [Node.children]) r w hr hw)
  | @second first second r v he hl hv =>
      exact nil_mem_mul.2 ⟨hempty first (by simp [Node.children]) he,
        hanswers second (by simp [Node.children]) r F hl hv hF⟩
  | @first first second r v _ he hl hv =>
      exact nil_mem_mul.2 ⟨hanswers first (by simp [Node.children]) r F hl hv hF,
        hempty second (by simp [Node.children]) he⟩
  | @product first second l r v w _ _ hl hv hr hw =>
      obtain ⟨hfirst, hsecond⟩ := Forest.hasTree_product.1 hF
      exact nil_mem_mul.2 ⟨hanswers first (by simp [Node.children]) l v hl hv hfirst,
        hanswers second (by simp [Node.children]) r w hr hw hsecond⟩
  | @once operand r v hl hv =>
      exact (nil_mem_pow_succ 0).2 (hanswers operand (by simp [Node.children]) r F hl hv hF)
  | @lists operand r k v hl hv =>
      exact (nil_mem_pow_succ (k + 1)).2 (hanswers operand (by simp [Node.children]) r v hl hv
        (Forest.hasTree_power.1 hF))
  | matched hb => exact absurd hF Forest.not_hasTree_empty
  | @unmatched operand hb =>
      exact fun hmem => absurd ((hnot operand rfl false hb).2 hmem) Bool.false_ne_true
  | @copy operand r v hl hv =>
      exact ⟨hanswers operand (by simp [Node.children]) r F hl hv hF, Language.nil_mem_one⟩
  | @image operand r f v hl hv =>
      exact hanswers operand (by simp [Node.children]) r v hl hv (Forest.hasTree_map.1 hF)

/-- From answers with trees for all words, the rule of a node makes a tree if it should. -/
theorem hasTree_of_yields (h : (ofNode fuel g n ()).Yields answers F)
    (hanswers : ∀ c ∈ n.children, ∀ r v, g.Leads c r → answers r v → [] ∈ A c → v.HasTree)
    (hnot : ∀ c, n = .not c → ∀ b, g.nullable fuel c = some b → (b = true ↔ [] ∈ outer c))
    (htrees : ∀ f, n = .emptyReduction f → f.HasTree) (htoken : n ≠ .token [])
    (hw : [] ∈ n.words outer A) : F.HasTree := by
  cases made_of_yields h with
  | nothing hn =>
      cases n with
      | nil => exact hw.elim
      | any =>
          obtain ⟨c, hc⟩ := hw
          cases hc
      | char c => cases hw
      | range first last =>
          obtain ⟨c, -, -, hc⟩ := hw
          cases hc
      | token text => exact absurd (congrArg Node.token (show text = [] from hw.symm)) htoken
      | _ => exact hn.elim
  | unit _ => exact Forest.hasTree_singleton
  | forest f => exact htrees F rfl
  | @union left right l r v w hl hv hr hw' =>
      exact Forest.hasTree_union.2 (hw.imp (hanswers left (by simp [Node.children]) l v hl hv)
        (hanswers right (by simp [Node.children]) r w hr hw'))
  | @second first second r v _ hl hv =>
      exact hanswers second (by simp [Node.children]) r F hl hv (nil_mem_mul.1 hw).2
  | @first first second r v _ _ hl hv =>
      exact hanswers first (by simp [Node.children]) r F hl hv (nil_mem_mul.1 hw).1
  | @product first second l r v w _ _ hl hv hr hw' =>
      obtain ⟨hfirst, hsecond⟩ := nil_mem_mul.1 hw
      exact Forest.hasTree_product.2 ⟨hanswers first (by simp [Node.children]) l v hl hv hfirst,
        hanswers second (by simp [Node.children]) r w hr hw' hsecond⟩
  | @once operand r v hl hv =>
      exact hanswers operand (by simp [Node.children]) r F hl hv ((nil_mem_pow_succ 0).1 hw)
  | @lists operand r k v hl hv =>
      exact Forest.hasTree_power.2 (hanswers operand (by simp [Node.children]) r v hl hv
        ((nil_mem_pow_succ (k + 1)).1 hw))
  | @matched operand hb => exact absurd ((hnot operand rfl true hb).1 rfl) hw
  | unmatched hb => exact Forest.hasTree_singleton
  | @copy operand r v hl hv => exact hanswers operand (by simp [Node.children]) r F hl hv hw.1
  | @image operand r f v hl hv =>
      exact Forest.hasTree_map.2 (hanswers operand (by simp [Node.children]) r v hl hv hw)

/-! ## The evaluation -/

/-- There are no trees without a word. -/
theorem keeps_words (hroot : g.Workable root) :
    Keeps ((table fuel).rules g) (fun k v => g.Reaches root k → v.HasTree → [] ∈ g.language k)
      (fun _ _ => True) where
  bottom k _ hv := absurd hv Forest.not_hasTree_empty
  rule k v _ hyields hk hv := by
    have hyields : (ofNode fuel g (g.node k) ()).Yields _ v := hyields
    have hworkable := hroot.reaches hk
    by_cases hnil : g.node k = .nil
    · rw [hnil] at hyields
      exact absurd (eq_of_yields_pure hyields ▸ hv) Forest.not_hasTree_empty
    have hs : g.slot? k = some (.node (g.node k)) := slot?_of_node_eq rfl hnil
    have hchild {c : Handle} (hc : c ∈ (g.node k).children) : g.Reaches k c :=
      .single (by rwa [references_of_node hs])
    rw [hworkable.layered.language_node hs]
    refine nil_mem_of_yields hyields (fun c hc r w hl hw htree => ?_) (fun c hc he => ?_)
      (fun c hc b hb => ?_) hv
    · rw [(hworkable.reaches (hchild hc)).layered.language_leads hl]
      exact hw (hk.trans ((hchild hc).trans hl.reaches)) htree
    · rw [(hworkable.reaches (hchild hc)).layered.language_nodeAt (nodeAt_of_isEmpty he)]
      exact Language.nil_mem_one
    · exact (hworkable.reaches (hchild (by simp [hc, Node.children]))).nullable_iff hb

/-- There is no word without a tree, once all values are what the rules make of each other. -/
theorem hasTree_of_traced (hroot : g.Workable root)
    (htrees : g.HasTrees {h | g.Reaches root h}) {m : Memory Handle Forest}
    (htraced : ∀ k v, m.Finished k v → (((table fuel).rules g).rule k ()).Yields m.Finished v)
    (hh : g.Reaches root h) (hw : [] ∈ g.language h) :
    ∀ r v, g.Leads h r → m.Finished r v → v.HasTree := by
  let A : Handle → WordSet := fun h =>
    {w | w = [] → ∀ r v, g.Leads h r → m.Finished r v → v.HasTree}
  suffices hle : (wordMeaning g.language).value g h ≤ A h by
    rw [(hroot.reaches hh).layered.language_eq] at hw
    exact hle hw rfl
  refine Meaning.value_le _ (closed_reaches g root) (fun k hk => ?_) h hh
  rintro w hw rfl r v hl hv
  cases hl with
  | step hforward hrest =>
      rw [hforward] at hw
      exact hw rfl r v hrest hv
  | here hend =>
      rw [slot_words_of_end hend] at hw
      have hyields : (ofNode fuel g (g.node k) ()).Yields m.Finished v := htraced k v hv
      have hworkable := hroot.reaches hk
      refine hasTree_of_yields hyields (A := A) (fun c _ r w hl hw hnil => hnil rfl r w hl hw)
        (fun c hc b hb => ?_) (fun f hf => ?_) (fun ht => ?_) hw
      · have hs := slot?_of_node_eq hc (by simp)
        have hkc : g.Reaches k c := .single (by simp [references_of_node hs, Node.children])
        exact (hworkable.reaches hkc).nullable_iff hb
      · exact htrees k hk f (slot?_of_node_eq hf (by simp))
      · exact hroot.wellFormed.tokens k (slot?_of_node_eq ht (by simp))

end EmptyParses

open EmptyParses

/-- When the trees of the empty word have been evaluated, there is one exactly if the expression
matches the empty word. -/
theorem Graph.Workable.hasTree_iff {g : Graph} {h : Handle} {fuel : Nat} {F : Forest}
    (hh : g.Workable h) (htrees : g.HasTrees {k | g.Reaches h k})
    (hF : g.emptyParses fuel h = some F) : F.HasTree ↔ [] ∈ g.language h := by
  obtain ⟨r, n, hl, -⟩ := hh.ready h .refl
  have hr := hh.reaches hl.reaches
  have hrF : run ((table fuel).rules g) (g.size + 1) fuel r () = some (F, ()) := by
    rw [Graph.emptyParses, Table.evaluate_eq hl, ← Table.evaluate_eq hl.self_end] at hF
    exact (Table.evaluate_eq_some hl.self_end).1 hF
  have hallowed : ∀ e, RunSettles ((table fuel).rules g) e (g.size + 1) r fuel .empty →
      (fun _ : Settlement Unit Handle Forest => True) e := fun _ _ => trivial
  obtain ⟨m₀, m₁, hm₀, -, hvisit, hstale⟩ := run_last_pass
    (J := Memory.Within fun k v => g.Reaches r k → v.HasTree → [] ∈ g.language k)
    (fun m v m' hm _ hv =>
      visit_within (keeps_words hr) (m := m.nextPass) hm (fun _ _ => trivial) hv)
    Memory.within_empty hallowed hrF
  obtain ⟨hfinished, htraced⟩ := visit_traced hvisit hstale
  rw [hh.layered.language_leads hl]
  constructor
  · exact visit_within (keeps_words hr) (m := m₀.nextPass) hm₀ (fun _ _ => trivial) hvisit r F
      hfinished.2 .refl
  · intro hw
    have htrees' : g.HasTrees {k | g.Reaches r k} := fun k hk => htrees k (hl.reaches.trans hk)
    exact hasTree_of_traced hr htrees' htraced .refl hw r F hl.self_end hfinished

end DerivativeParsing
