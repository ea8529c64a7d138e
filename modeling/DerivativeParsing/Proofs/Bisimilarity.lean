import DerivativeParsing.Analysis.Similar
import DerivativeParsing.Proofs.Complements

/-!
# Equality and bisimilarity

Two expressions are *bisimilar* if some relation contains them that follows the nodes: related
handles lead to nodes of the same kind and with the same data, and their operands are related in
turn (`Graph.Bisimilar`).  The evaluation of equality starts from the assumption that all pairs of
nodes are equal and drops pairs from there, so its values only fall:

* `within_bisimilar` — a pair that is bisimilar is never dropped;
* `bisimilar_of_traced` — the pairs that are left after a pass that is not stale are a relation that
  follows the nodes;
* `similar_eq_some` — hence the evaluation has a result, and the result is bisimilarity.
-/

set_option autoImplicit false

namespace DerivativeParsing

open Fixpoint DerivativeParsing.Graph

/-! ## Bisimilar handles -/

/-- Two nodes are of the same kind and have the same data, and their operands are related. -/
inductive Node.Relates (R : Handle → Handle → Prop) : Node → Node → Prop where
  | nil : Relates R .nil .nil
  | empty : Relates R .empty .empty
  | any : Relates R .any .any
  | char (c : Char) : Relates R (.char c) (.char c)
  | range (first last : Char) : Relates R (.range first last) (.range first last)
  | token (text : List Char) : Relates R (.token text) (.token text)
  | alt {a a' b b' : Handle} (h : R a b) (h' : R a' b') : Relates R (.alt a a') (.alt b b')
  | seq {a a' b b' : Handle} (h : R a b) (h' : R a' b') : Relates R (.seq a a') (.seq b b')
  | star {a b : Handle} (h : R a b) : Relates R (.star a) (.star b)
  | rep {a b : Handle} (count : Count) (h : R a b) : Relates R (.rep a count) (.rep b count)
  | not {a b : Handle} (h : R a b) : Relates R (.not a) (.not b)
  | nullability {a b : Handle} (h : R a b) : Relates R (.nullability a) (.nullability b)
  | emptyReduction (trees : Forest) : Relates R (.emptyReduction trees) (.emptyReduction trees)
  /-- Reducers count as the same if they have the same name. -/
  | reduction {a b : Handle} {f f' : Reducer} (hname : f.name = f'.name) (h : R a b) :
      Relates R (.reduction a f) (.reduction b f')

namespace Node.Relates

variable {R R' : Handle → Handle → Prop} {n m k : Node}

/-- Nodes are related by whatever relates their operands. -/
theorem mono (h : n.Relates R m)
    (hR : ∀ a ∈ n.children, ∀ b ∈ m.children, R a b → R' a b) : n.Relates R' m := by
  cases h with
  | nil => exact .nil
  | empty => exact .empty
  | any => exact .any
  | char c => exact .char c
  | range first last => exact .range first last
  | token text => exact .token text
  | alt h h' =>
      exact .alt (hR _ (by simp [children]) _ (by simp [children]) h)
        (hR _ (by simp [children]) _ (by simp [children]) h')
  | seq h h' =>
      exact .seq (hR _ (by simp [children]) _ (by simp [children]) h)
        (hR _ (by simp [children]) _ (by simp [children]) h')
  | star h => exact .star (hR _ (by simp [children]) _ (by simp [children]) h)
  | rep count h => exact .rep count (hR _ (by simp [children]) _ (by simp [children]) h)
  | not h => exact .not (hR _ (by simp [children]) _ (by simp [children]) h)
  | nullability h => exact .nullability (hR _ (by simp [children]) _ (by simp [children]) h)
  | emptyReduction trees => exact .emptyReduction trees
  | reduction hname h =>
      exact .reduction hname (hR _ (by simp [children]) _ (by simp [children]) h)

theorem refl (hR : ∀ a ∈ n.children, R a a) : n.Relates R n := by
  cases n with
  | nil => exact .nil
  | empty => exact .empty
  | any => exact .any
  | char c => exact .char c
  | range first last => exact .range first last
  | token text => exact .token text
  | alt left right =>
      exact .alt (hR left (by simp [children])) (hR right (by simp [children]))
  | seq first second =>
      exact .seq (hR first (by simp [children])) (hR second (by simp [children]))
  | star operand => exact .star (hR operand (by simp [children]))
  | rep operand count => exact .rep count (hR operand (by simp [children]))
  | not operand => exact .not (hR operand (by simp [children]))
  | nullability operand => exact .nullability (hR operand (by simp [children]))
  | emptyReduction trees => exact .emptyReduction trees
  | reduction operand reducer => exact .reduction rfl (hR operand (by simp [children]))

theorem symm (h : n.Relates R m) : m.Relates (fun a b => R b a) n := by
  cases h with
  | nil => exact .nil
  | empty => exact .empty
  | any => exact .any
  | char c => exact .char c
  | range first last => exact .range first last
  | token text => exact .token text
  | alt h h' => exact .alt h h'
  | seq h h' => exact .seq h h'
  | star h => exact .star h
  | rep count h => exact .rep count h
  | not h => exact .not h
  | nullability h => exact .nullability h
  | emptyReduction trees => exact .emptyReduction trees
  | reduction hname h => exact .reduction hname.symm h

theorem trans (h : n.Relates R m) (h' : m.Relates R' k) :
    n.Relates (fun a c => ∃ b, R a b ∧ R' b c) k := by
  cases h with
  | nil => cases h'; exact .nil
  | empty => cases h'; exact .empty
  | any => cases h'; exact .any
  | char c => cases h'; exact .char c
  | range first last => cases h'; exact .range first last
  | token text => cases h'; exact .token text
  | alt h₁ h₂ => cases h' with | alt h₁' h₂' => exact .alt ⟨_, h₁, h₁'⟩ ⟨_, h₂, h₂'⟩
  | seq h₁ h₂ => cases h' with | seq h₁' h₂' => exact .seq ⟨_, h₁, h₁'⟩ ⟨_, h₂, h₂'⟩
  | star h => cases h' with | star h' => exact .star ⟨_, h, h'⟩
  | rep count h => cases h' with | rep _ h' => exact .rep count ⟨_, h, h'⟩
  | not h => cases h' with | not h' => exact .not ⟨_, h, h'⟩
  | nullability h => cases h' with | nullability h' => exact .nullability ⟨_, h, h'⟩
  | emptyReduction trees => cases h'; exact .emptyReduction trees
  | reduction hname h =>
      cases h' with | reduction hname' h' => exact .reduction (hname.trans hname') ⟨_, h, h'⟩

end Node.Relates

namespace Graph

variable {g : Graph} {a b c r s root : Handle} {n m : Node} {R : Handle → Handle → Prop}

/-- Related handles lead to nodes that are related by the same relation. -/
def Bisimulation (g : Graph) (R : Handle → Handle → Prop) : Prop :=
  ∀ a b, R a b → ∃ r s n m, g.Leads a r ∧ g.slot? r = some (.node n) ∧
    g.Leads b s ∧ g.slot? s = some (.node m) ∧ n.Relates R m

/-- Two handles cannot be told apart by following operands from them. -/
def Bisimilar (g : Graph) (a b : Handle) : Prop := ∃ R, g.Bisimulation R ∧ R a b

namespace Bisimilar

/-- Bisimilar handles lead to nodes with bisimilar operands. -/
theorem unfold (h : g.Bisimilar a b) : ∃ r s n m, g.Leads a r ∧ g.slot? r = some (.node n) ∧
    g.Leads b s ∧ g.slot? s = some (.node m) ∧ n.Relates g.Bisimilar m := by
  obtain ⟨R, hR, hab⟩ := h
  obtain ⟨r, s, n, m, hr, hn, hs, hm, hrelates⟩ := hR a b hab
  exact ⟨r, s, n, m, hr, hn, hs, hm, hrelates.mono fun a _ b _ h => ⟨R, hR, h⟩⟩

/-- The ends of bisimilar handles are bisimilar. -/
theorem ends (h : g.Bisimilar a b) (hr : g.Leads a r) (hs : g.Leads b s) : g.Bisimilar r s := by
  obtain ⟨r', s', n, m, hr', hn, hs', hm, hrelates⟩ := h.unfold
  obtain rfl := hr.unique hr'
  obtain rfl := hs.unique hs'
  refine ⟨fun x y => g.Bisimilar x y ∨ x = r ∧ y = s, fun x y hxy => ?_, .inr ⟨rfl, rfl⟩⟩
  rcases hxy with hxy | ⟨rfl, rfl⟩
  · obtain ⟨r', s', n', m', hr', hn', hs', hm', hrelates'⟩ := hxy.unfold
    exact ⟨r', s', n', m', hr', hn', hs', hm', hrelates'.mono fun _ _ _ _ => .inl⟩
  · exact ⟨x, y, n, m, hr.self_end, hn, hs.self_end, hm, hrelates.mono fun _ _ _ _ => .inl⟩

theorem refl (hready : g.Ready a) : g.Bisimilar a a := by
  refine ⟨fun x y => x = y ∧ g.Ready x, fun x y hxy => ?_, rfl, hready⟩
  obtain ⟨rfl, hx⟩ := hxy
  obtain ⟨r, n, hl, hs⟩ := hx x .refl
  refine ⟨r, r, n, n, hl, hs, hl, hs, .refl fun c hc => ⟨rfl, hx.reaches (hl.reaches.tail ?_)⟩⟩
  rwa [references_of_node hs]

theorem symm (h : g.Bisimilar a b) : g.Bisimilar b a := by
  obtain ⟨R, hR, hab⟩ := h
  refine ⟨fun x y => R y x, fun x y hxy => ?_, hab⟩
  obtain ⟨r, s, n, m, hr, hn, hs, hm, hrelates⟩ := hR y x hxy
  exact ⟨s, r, m, n, hs, hm, hr, hn, hrelates.symm⟩

theorem trans (h : g.Bisimilar a b) (h' : g.Bisimilar b c) : g.Bisimilar a c := by
  refine ⟨fun x z => ∃ y, g.Bisimilar x y ∧ g.Bisimilar y z, ?_, b, h, h'⟩
  rintro x z ⟨y, hxy, hyz⟩
  obtain ⟨r, s, n, m, hr, hn, hs, hm, hrelates⟩ := hxy.unfold
  obtain ⟨s', t, m', k, hs', hm', ht, hk, hrelates'⟩ := hyz.unfold
  obtain rfl := hs.unique hs'
  obtain rfl : m = m' := by simpa [hm] using hm'
  exact ⟨r, t, n, k, hr, hn, ht, hk, hrelates.trans hrelates'⟩

end Bisimilar

end Graph

/-! ## What the rules ask and answer -/

namespace Similar

variable {g : Graph} {a b r s : Handle} {n m : Node} {v : Bool}
  {answers : Handle × Handle → Bool → Prop} {K : Handle × Handle → Prop}
  {next : Bool → Comparing Bool}

theorem ask_eq (hr : g.Leads a r) (hs : g.Leads b s) : ask g a b = Rule.ask (r, s) := by
  unfold ask
  rw [resolve_eq_some.2 hr, resolve_eq_some.2 hs]

/-- A question that is asked is about the ends of two chains. -/
theorem leads_of_yields (h : ((ask g a b >>= next) ()).Yields answers v) :
    ∃ r s, g.Leads a r ∧ g.Leads b s := by
  rw [Rule.bind_apply] at h
  unfold ask at h
  rcases hr : g.resolve a with _ | r
  · rw [hr] at h
    exact h.elim
  · rcases hs : g.resolve b with _ | s
    · rw [hr, hs] at h
      exact h.elim
    · exact ⟨r, s, resolve_eq_some.1 hr, resolve_eq_some.1 hs⟩

theorem yields_bind_ask :
    ((ask g a b >>= next) ()).Yields answers v ↔
      ∃ r s w, g.Leads a r ∧ g.Leads b s ∧ answers (r, s) w ∧ (next w ()).Yields answers v := by
  constructor
  · intro h
    obtain ⟨r, s, hr, hs⟩ := leads_of_yields h
    rw [ask_eq hr hs] at h
    obtain ⟨w, hw, hnext⟩ := h
    exact ⟨r, s, w, hr, hs, hw, hnext⟩
  · rintro ⟨r, s, w, hr, hs, hw, hnext⟩
    rw [ask_eq hr hs]
    exact ⟨w, hw, hnext⟩

theorem ask_bind_pure : ask g a b >>= pure = ask g a b := by
  funext u
  rw [Rule.bind_apply]
  unfold ask
  rcases g.resolve a with _ | r
  · rfl
  · rcases g.resolve b with _ | s <;> rfl

theorem yields_ask :
    (ask g a b ()).Yields answers v ↔ ∃ r s, g.Leads a r ∧ g.Leads b s ∧ answers (r, s) v := by
  rw [← ask_bind_pure, yields_bind_ask]
  constructor
  · rintro ⟨r, s, w, hr, hs, hw, rfl⟩
    exact ⟨r, s, hr, hs, hw⟩
  · rintro ⟨r, s, hr, hs, hv⟩
    exact ⟨r, s, v, hr, hs, hv, rfl⟩

theorem yields_pure {w : Bool} : ((pure w : Comparing Bool) ()).Yields answers v ↔ w = v := Iff.rfl

/-- The operands of two nodes have been answered. -/
def AnswerFor (g : Graph) (answers : Handle × Handle → Bool → Prop) (a b : Handle) (v : Bool) :
    Prop :=
  ∃ r s, g.Leads a r ∧ g.Leads b s ∧ answers (r, s) v

/-- Nodes are found to be equal on the strength of answers for their operands. -/
theorem relates_of_yields (h : (ofNodes g n m ()).Yields answers true) :
    n.Relates (AnswerFor g answers · · true) m := by
  revert h
  fun_cases ofNodes g n m with
  | case1 => exact fun _ => .nil
  | case2 => exact fun _ => .empty
  | case3 => exact fun _ => .any
  | case4 a b =>
      intro h
      obtain rfl := eq_of_beq (yields_pure.1 h)
      exact .char a
  | case5 a a' b b' =>
      intro h
      obtain ⟨h, h'⟩ := Bool.and_eq_true_iff.1 (yields_pure.1 h)
      obtain rfl := eq_of_beq h
      obtain rfl := eq_of_beq h'
      exact .range a a'
  | case6 a b =>
      intro h
      obtain rfl := eq_of_beq (yields_pure.1 h)
      exact .token a
  | case7 a a' b b' =>
      intro h
      obtain ⟨r, s, w, hr, hs, hw, h⟩ := yields_bind_ask.1 h
      cases w with
      | false => exact absurd h Bool.false_ne_true
      | true => exact .alt ⟨r, s, hr, hs, hw⟩ (yields_ask.1 h)
  | case8 a a' b b' =>
      intro h
      obtain ⟨r, s, w, hr, hs, hw, h⟩ := yields_bind_ask.1 h
      cases w with
      | false => exact absurd h Bool.false_ne_true
      | true => exact .seq ⟨r, s, hr, hs, hw⟩ (yields_ask.1 h)
  | case9 a b => exact fun h => .star (yields_ask.1 h)
  | case10 a b => exact fun h => .not (yields_ask.1 h)
  | case11 a b => exact fun h => .nullability (yields_ask.1 h)
  | case12 a n b m hcount =>
      intro h
      obtain rfl := eq_of_beq hcount
      exact .rep n (yields_ask.1 h)
  | case13 => exact fun h => absurd h Bool.false_ne_true
  | case14 a b =>
      intro h
      obtain rfl := eq_of_beq (yields_pure.1 h)
      exact .emptyReduction a
  | case15 a f b f' hname => exact fun h => .reduction (eq_of_beq hname) (yields_ask.1 h)
  | case16 => exact fun h => absurd h Bool.false_ne_true
  | case17 => exact fun h => absurd h Bool.false_ne_true

/-- Nodes that are found to be different are not related by operands that can only be answered to be
equal. -/
theorem not_relates_of_yields (h : (ofNodes g n m ()).Yields answers false) :
    ¬ n.Relates (fun a b => ∀ v, AnswerFor g answers a b v → v = true) m := by
  intro hrelates
  cases hrelates with
  | nil => cases h
  | empty => cases h
  | any => cases h
  | char c => simp [ofNodes, yields_pure] at h
  | range first last => simp [ofNodes, yields_pure] at h
  | token text => simp [ofNodes, yields_pure] at h
  | emptyReduction trees => simp [ofNodes, yields_pure] at h
  | star hab => exact absurd (hab _ (yields_ask.1 h)) Bool.false_ne_true
  | not hab => exact absurd (hab _ (yields_ask.1 h)) Bool.false_ne_true
  | nullability hab => exact absurd (hab _ (yields_ask.1 h)) Bool.false_ne_true
  | rep count hab =>
      simp only [ofNodes, beq_self_eq_true, if_true] at h
      exact absurd (hab _ (yields_ask.1 h)) Bool.false_ne_true
  | reduction hname hab =>
      simp only [ofNodes, show ∀ f f' : Reducer, (f == f') = (f.name == f'.name) from fun _ _ => rfl,
        hname, beq_self_eq_true, if_true] at h
      exact absurd (hab _ (yields_ask.1 h)) Bool.false_ne_true
  | alt hab hab' =>
      obtain ⟨r, s, w, hr, hs, hw, h⟩ := yields_bind_ask.1 h
      obtain rfl := hab w ⟨r, s, hr, hs, hw⟩
      exact absurd (hab' _ (yields_ask.1 h)) Bool.false_ne_true
  | seq hab hab' =>
      obtain ⟨r, s, w, hr, hs, hw, h⟩ := yields_bind_ask.1 h
      obtain rfl := hab w ⟨r, s, hr, hs, hw⟩
      exact absurd (hab' _ (yields_ask.1 h)) Bool.false_ne_true

/-- The operands of two nodes lead to ends about which a question may be asked. -/
def Askable (g : Graph) (K : Handle × Handle → Prop) (a b : Handle) : Prop :=
  ∃ r s, g.Leads a r ∧ g.Leads b s ∧ K (r, s)

theorem Askable.bind (h : Askable g K a b) (hnext : ∀ v, (next v ()).AsksOnly K) :
    ((ask g a b >>= next) ()).AsksOnly K := by
  obtain ⟨r, s, hr, hs, hK⟩ := h
  rw [ask_eq hr hs]
  exact ⟨hK, fun v _ => hnext v⟩

theorem Askable.asksOnly (h : Askable g K a b) : (ask g a b ()).AsksOnly K := by
  rw [← ask_bind_pure]
  exact h.bind fun _ => trivial

/-- The comparison of two nodes asks about pairs of their operands only. -/
theorem ofNodes_asksOnly (hK : ∀ a ∈ n.children, ∀ b ∈ m.children, Askable g K a b) :
    (ofNodes g n m ()).AsksOnly K := by
  have hpair {a a' b b' : Handle} (h : Askable g K a b) (h' : Askable g K a' b') :
      ((ask g a b >>= fun same => if same then ask g a' b' else pure false) ()).AsksOnly K := by
    refine h.bind fun v => ?_
    cases v with
    | true => exact h'.asksOnly
    | false => trivial
  revert hK
  fun_cases ofNodes g n m with
  | case7 a a' b b' =>
      intro hK
      exact hpair (hK a (by simp [Node.children]) b (by simp [Node.children]))
        (hK a' (by simp [Node.children]) b' (by simp [Node.children]))
  | case8 a a' b b' =>
      intro hK
      exact hpair (hK a (by simp [Node.children]) b (by simp [Node.children]))
        (hK a' (by simp [Node.children]) b' (by simp [Node.children]))
  | case9 a b =>
      exact fun hK => (hK a (by simp [Node.children]) b (by simp [Node.children])).asksOnly
  | case10 a b =>
      exact fun hK => (hK a (by simp [Node.children]) b (by simp [Node.children])).asksOnly
  | case11 a b =>
      exact fun hK => (hK a (by simp [Node.children]) b (by simp [Node.children])).asksOnly
  | case12 a n b m hcount =>
      exact fun hK => (hK a (by simp [Node.children]) b (by simp [Node.children])).asksOnly
  | case15 a f b f' hname =>
      exact fun hK => (hK a (by simp [Node.children]) b (by simp [Node.children])).asksOnly
  | _ => exact fun _ => trivial

/-! ## The evaluation -/

instance : Std.TransOrd (Handle × Handle) :=
  inferInstanceAs (Std.TransCmp (compareLex (compareOn Prod.fst) (compareOn Prod.snd)))

instance : Std.LawfulEqOrd (Handle × Handle) where
  compare_self {p} := by
    change (compare p.1 p.1).then (compare p.2 p.2) = .eq
    rw [Std.ReflOrd.compare_self, Std.ReflOrd.compare_self]
    rfl
  eq_of_compare {p q} h := by
    change (compare p.1 q.1).then (compare p.2 q.2) = .eq at h
    obtain ⟨h, h'⟩ := Ordering.then_eq_eq.1 h
    exact Prod.ext (Std.LawfulEqOrd.eq_of_compare h) (Std.LawfulEqOrd.eq_of_compare h')

open Classical in
/-- The right-hand side of the equation of a pair of nodes. -/
noncomputable def equation (g : Graph) (f : Handle × Handle → Bool) (k : Handle × Handle) : Bool :=
  decide (k.1 = k.2 ∨
    (g.node k.1).Relates (fun a b => f (g.endOf a, g.endOf b) = true) (g.node k.2))

theorem equation_eq_true {f : Handle × Handle → Bool} {k : Handle × Handle} :
    equation g f k = true ↔ k.1 = k.2 ∨
      (g.node k.1).Relates (fun a b => f (g.endOf a, g.endOf b) = true) (g.node k.2) := by
  classical exact decide_eq_true_iff

theorem atMost_true {x y : Bool} : AtMost true x y ↔ (y = true → x = true) := by
  cases x <;> cases y <;> simp [AtMost]

/-- The rule of a pair of nodes finds them to be equal if they are the same, or related. -/
theorem of_rule_yields_true {k : Handle × Handle}
    (h : ((rules g).rule k ()).Yields answers true) :
    k.1 = k.2 ∨ (g.node k.1).Relates (AnswerFor g answers · · true) (g.node k.2) := by
  by_cases hk : k.1 = k.2
  · exact .inl hk
  · rw [show (rules g).rule k = ofNodes g (g.node k.1) (g.node k.2) from if_neg hk] at h
    exact .inr (relates_of_yields h)

theorem of_rule_yields_false {k : Handle × Handle}
    (h : ((rules g).rule k ()).Yields answers false) :
    k.1 ≠ k.2 ∧ ¬ (g.node k.1).Relates (fun a b => ∀ v, AnswerFor g answers a b v → v = true)
      (g.node k.2) := by
  by_cases hk : k.1 = k.2
  · rw [show (rules g).rule k = pure true from if_pos hk] at h
    exact absurd (yields_pure.1 h).symm Bool.false_ne_true
  · rw [show (rules g).rule k = ofNodes g (g.node k.1) (g.node k.2) from if_neg hk] at h
    exact ⟨hk, not_relates_of_yields h⟩

/-- The rules follow the equations, whose values fall if the values of pairs do. -/
theorem ascent (g : Graph) : Ascent (rules g) true (equation g) fun _ _ => True where
  bottom _ := rfl
  mono f f' hf k := by
    simp only [atMost_true, equation_eq_true] at hf ⊢
    exact Or.imp_right fun h => h.mono fun a _ b _ hab => hf _ hab
  lower f k v _ h := by
    rw [atMost_true, equation_eq_true]
    rintro rfl
    refine (of_rule_yields_true h).imp_right fun h => h.mono ?_
    rintro a - b - ⟨r, s, hr, hs, hv⟩
    rw [hr.endOf, hs.endOf]
    exact atMost_true.1 hv rfl
  upper f k v _ h := by
    rw [atMost_true, equation_eq_true]
    intro hk
    cases v with
    | true => rfl
    | false =>
        obtain ⟨hne, hnot⟩ := of_rule_yields_false h
        refine absurd ((hk.resolve_left hne).mono fun a _ b _ hab v hv => ?_) hnot
        obtain ⟨r, s, hr, hs, hv⟩ := hv
        rw [hr.endOf, hs.endOf] at hab
        exact atMost_true.1 hv hab

/-- Pairs that are bisimilar have not been found to differ. -/
def NotLost (g : Graph) (k : Handle × Handle) (v : Bool) : Prop :=
  g.Leads k.1 k.1 → g.Leads k.2 k.2 → g.Bisimilar k.1 k.2 → v = true

theorem keeps_notLost (g : Graph) : Keeps (rules g) (NotLost g) fun _ _ => True where
  bottom _ _ _ _ := rfl
  rule k v _ h hk₁ hk₂ hbisimilar := by
    cases v with
    | true => rfl
    | false =>
        obtain ⟨-, hnot⟩ := of_rule_yields_false h
        obtain ⟨r, s, n, m, hr, hn, hs, hm, hrelates⟩ := hbisimilar.unfold
        obtain rfl := hk₁.unique hr
        obtain rfl := hk₂.unique hs
        rw [node_eq hn, node_eq hm] at hnot
        refine absurd (hrelates.mono fun a _ b _ hab v hv => ?_) hnot
        obtain ⟨r, s, hr, hs, hv⟩ := hv
        exact hv hr.self_end hs.self_end (hab.ends hr hs)

/-- Two handles lead to the same node, or to nodes that have been found to be equal. -/
def FoundEqual (g : Graph) (mem : Memory (Handle × Handle) Bool) (x y : Handle) : Prop :=
  g.Ready x ∧ g.Ready y ∧
    ∃ r s, g.Leads x r ∧ g.Leads y s ∧ (r = s ∨ mem.Finished (r, s) true)

/-- Pairs that follow their equations are bisimilar. -/
theorem bisimilar_of_traced {mem : Memory (Handle × Handle) Bool} (ha : g.Ready a) (hb : g.Ready b)
    (hr : g.Leads a r) (hs : g.Leads b s)
    (htraced : ∀ k w, mem.Finished k w → ((rules g).rule k ()).Yields mem.Finished w)
    (hroot : mem.Finished (r, s) true) : g.Bisimilar a b := by
  refine ⟨FoundEqual g mem, ?_, ha, hb, r, s, hr, hs, .inr hroot⟩
  rintro x y ⟨hx, hy, r, s, hr, hs, hrs⟩
  obtain ⟨r', n, hr', hn⟩ := hx x .refl
  obtain ⟨s', m, hs', hm⟩ := hy y .refl
  obtain rfl := hr.unique hr'
  obtain rfl := hs.unique hs'
  have hchild₁ : ∀ c ∈ n.children, g.Ready c := fun c hc =>
    hx.reaches (hr.reaches.tail (by rwa [references_of_node hn]))
  have hchild₂ : ∀ c ∈ m.children, g.Ready c := fun c hc =>
    hy.reaches (hs.reaches.tail (by rwa [references_of_node hm]))
  refine ⟨r, s, n, m, hr, hn, hs, hm, ?_⟩
  have hsame : r = s → n.Relates (FoundEqual g mem) m := by
    rintro rfl
    obtain rfl : n = m := by simpa [hn] using hm
    refine Node.Relates.refl fun c hc => ⟨hchild₁ c hc, hchild₁ c hc, ?_⟩
    obtain ⟨t, _, ht, -⟩ := hchild₁ c hc c .refl
    exact ⟨t, t, ht, ht, .inl rfl⟩
  rcases hrs with hrs | hrs
  · exact hsame hrs
  · rcases of_rule_yields_true (htraced _ _ hrs) with hrs | hrelates
    · exact hsame hrs
    · rw [node_eq hn, node_eq hm] at hrelates
      refine hrelates.mono fun c hc d hd hcd => ⟨hchild₁ c hc, hchild₂ d hd, ?_⟩
      obtain ⟨t, u, ht, hu, hv⟩ := hcd
      exact ⟨t, u, ht, hu, .inr hv⟩

/-- The pairs of nodes that a comparison can come to. -/
noncomputable def pairs (g : Graph) (r s : Handle) : Finset (Handle × Handle) :=
  g.region r ×ˢ g.region s

theorem card_pairs_le (g : Graph) (r s : Handle) : (pairs g r s).card ≤ g.size * g.size := by
  rw [pairs, Finset.card_product]
  exact Nat.mul_le_mul (g.card_region_le r) (g.card_region_le s)

/-- The rules ask about pairs of nodes that can be reached. -/
theorem rule_asksOnly (hg : g.WellFormed) (hr : g.Ready r) (hs : g.Ready s)
    (hrlt : r.index < g.size) (hslt : s.index < g.size) :
    ∀ k ∈ pairs g r s, ((rules g).rule k ()).AsksOnly (· ∈ pairs g r s) := by
  intro k hk
  obtain ⟨hk₁, hk₂⟩ := Finset.mem_product.1 hk
  rw [hg.mem_region hrlt] at hk₁
  rw [hg.mem_region hslt] at hk₂
  by_cases heq : k.1 = k.2
  · rw [show (rules g).rule k = pure true from if_pos heq]
    trivial
  · rw [show (rules g).rule k = ofNodes g (g.node k.1) (g.node k.2) from if_neg heq]
    refine ofNodes_asksOnly fun a ha b hb => ?_
    have hreach {k root c : Handle} (hroot : g.Ready root) (hk : g.Reaches root k)
        (hc : c ∈ (g.node k).children) : ∃ t, g.Leads c t ∧ g.Reaches root t := by
      have hslot : g.slot? k = some (.node (g.node k)) :=
        slot?_of_node_eq rfl fun he => by rw [he] at hc; cases hc
      have hkc := hk.tail (by rwa [references_of_node hslot] : c ∈ g.references k)
      obtain ⟨t, _, ht, -⟩ := hroot c hkc
      exact ⟨t, ht, hkc.trans ht.reaches⟩
    obtain ⟨t, ht, hrt⟩ := hreach hr hk₁ ha
    obtain ⟨u, hu, hsu⟩ := hreach hs hk₂ hb
    exact ⟨t, u, ht, hu,
      Finset.mem_product.2 ⟨(hg.mem_region hrlt).2 hrt, (hg.mem_region hslt).2 hsu⟩⟩

end Similar

namespace Graph

open DerivativeParsing.Similar

variable {g : Graph} {a b r s : Handle}

/-- The comparison of two expressions that are ready has a result, and the result is whether they
are bisimilar. -/
theorem similar_eq_some (hg : g.WellFormed) (ha : g.Ready a) (hb : g.Ready b) :
    ∃ v, g.similar a b = some v ∧ (v = true ↔ g.Bisimilar a b) := by
  obtain ⟨r, n, hr, hn⟩ := ha a .refl
  obtain ⟨s, m, hs, hm⟩ := hb b .refl
  have hrlt := slot?_lt hn
  have hslt := slot?_lt hm
  have hcard := card_pairs_le g r s
  have hroot : (r, s) ∈ pairs g r s :=
    Finset.mem_product.2 ⟨(hg.mem_region hrlt).2 .refl, (hg.mem_region hslt).2 .refl⟩
  obtain ⟨v, hrun⟩ := (ascent g).run_answers
    (rule_asksOnly hg (ha.reaches hr.reaches) (hb.reaches hs.reaches) hrlt hslt) hroot
    (Nat.lt_succ_of_le hcard) (Nat.lt_succ_of_le hcard) fun _ _ => trivial
  refine ⟨v, ?_, ?_⟩
  · unfold similar
    rw [resolve_eq_some.2 hr, resolve_eq_some.2 hs]
    simp only [Option.bind_eq_bind, Option.bind_some, hrun]
  -- The last pass is not stale, and its values have not fallen below bisimilarity.
  obtain ⟨m₀, m₁, hm₀, -, hvisit, hstale⟩ := run_last_pass
    (J := Memory.Within (NotLost g))
    (fun m v m' hm _ hv => visit_within (keeps_notLost g) (m := m.nextPass) hm (fun _ _ => trivial) hv)
    Memory.within_empty (fun _ _ => trivial) hrun
  obtain ⟨hfinished, htraced⟩ := visit_traced hvisit hstale
  constructor
  · rintro rfl
    exact bisimilar_of_traced ha hb hr hs htraced hfinished
  · intro hbisimilar
    have hkept : m₁.Within (NotLost g) :=
      visit_within (keeps_notLost g) (m := m₀.nextPass) hm₀ (fun _ _ => trivial) hvisit
    exact hkept (r, s) v hfinished.2 hr.self_end hs.self_end (hbisimilar.ends hr hs)

end Graph

/-! ## The action on a grammar -/

namespace Grammar

variable {g g₁ g₂ : Grammar} {a b ra rb : Handle}

theorem similar_eq_bind (a b : Handle) :
    Grammar.similar a b = prepare a >>= fun a => prepare b >>= fun b => answer (·.similar a b) := rfl

/-- The comparison of two expressions that can be prepared has a result, and the result is whether
they are bisimilar. -/
theorem run_similar (hg : g.WellFormed) (ha : g.Has a) (hb : g.Has b)
    (hprepare₁ : (prepare a).run.run g = (.ok ra, g₁))
    (hprepare₂ : (prepare b).run.run g₁ = (.ok rb, g₂)) :
    ∃ v, (Grammar.similar a b).run.run g = (.ok v, g₂) ∧ (v = true ↔ g₂.graph.Bisimilar a b) := by
  obtain ⟨hg₁, hgrows₁, hla, hready₁⟩ := hg.of_prepare ha hprepare₁
  obtain ⟨hg₂, hgrows₂, hlb, hready₂⟩ := hg₁.of_prepare (Has.change hb hgrows₁) hprepare₂
  have hready : g₂.graph.Ready a := hgrows₂.ready hready₁
  have hla₂ : g₂.graph.Leads a ra := by
    obtain ⟨r, n, hl, hs⟩ := hready₁ a .refl
    obtain rfl := hla.unique hl
    exact hgrows₂.leads hl hs
  obtain ⟨v, hv, hiff⟩ := Graph.similar_eq_some hg₂.graph hready hready₂
  have hends : g₂.graph.similar ra rb = g₂.graph.similar a b := by
    unfold Graph.similar
    rw [resolve_eq_some.2 hla₂, resolve_eq_some.2 hlb, resolve_eq_some.2 hla₂.self_end,
      resolve_eq_some.2 hlb.self_end]
  refine ⟨v, ?_, hiff⟩
  rw [similar_eq_bind, run_bind, hprepare₁]
  dsimp only
  rw [run_bind, hprepare₂]
  exact run_answer.2 ⟨hends.trans hv, rfl⟩

/-- Where the graph is ready at two expressions, they are compared as they are. -/
theorem run_similar_of_ready (hg : g.WellFormed) (ha : g.graph.Ready a) (hb : g.graph.Ready b) :
    (Grammar.similar a b).run.run g = (.ok true, g) ↔ g.graph.Bisimilar a b := by
  obtain ⟨ra, -, hprepare₁⟩ := prepare_of_ready hg.graph ha
  obtain ⟨rb, -, hprepare₂⟩ := prepare_of_ready hg.graph hb
  obtain ⟨v, hv, hiff⟩ := run_similar hg ha.lt hb.lt hprepare₁ hprepare₂
  rw [hv, ← hiff]
  constructor
  · intro h
    cases h
    rfl
  · rintro rfl
    rfl

/-- The comparison of two expressions that can be prepared comes to an end and finds them to be
equal exactly if they are bisimilar.  Hence it is an equivalence relation on the expressions of a
graph that are prepared. -/
theorem similar_iff_bisimilar (hg : g.WellFormed) (ha : g.Has a) (hb : g.Has b)
    (hprepare₁ : (prepare a).run.run g = (.ok ra, g₁))
    (hprepare₂ : (prepare b).run.run g₁ = (.ok rb, g₂)) :
    (∃ v, (Grammar.similar a b).run.run g = (.ok v, g₂) ∧ (v = true ↔ g₂.graph.Bisimilar a b)) ∧
      Equivalence fun x y : {x : Handle // g₂.graph.Ready x} =>
        (Grammar.similar x y).run.run g₂ = (.ok true, g₂) := by
  refine ⟨run_similar hg ha hb hprepare₁ hprepare₂, ?_⟩
  have hg₂ : g₂.WellFormed := by
    have hsound₁ := hg.prepare ha
    have hg₁ := hsound₁.wellFormed
    have hgrows₁ := hsound₁.change
    rw [hprepare₁] at hg₁ hgrows₁
    have hg₂ := (hg₁.prepare (Has.change hb hgrows₁)).wellFormed
    rwa [hprepare₂] at hg₂
  have hiff (x y : {x : Handle // g₂.graph.Ready x}) :=
    run_similar_of_ready hg₂ x.property y.property
  constructor
  · exact fun x => (hiff x x).2 (.refl x.property)
  · exact fun h => (hiff _ _).2 ((hiff _ _).1 h).symm
  · exact fun h h' => (hiff _ _).2 (((hiff _ _).1 h).trans ((hiff _ _).1 h'))

/-! ## Two copies of one rule

The rules `s = '(' s | ε` and `t = '(' t | ε` are bisimilar, although they share no node but `ε`. -/

namespace Copies

/-- The grammar of `s = '(' s | ε` and `t = '(' t | ε`. -/
def grammar : Grammar :=
  ⟨⟨#[.node .nil, .node .empty, .node .any, .forward ⟨6⟩, .node (.char '('), .node (.seq ⟨4⟩ ⟨3⟩),
      .node (.alt ⟨5⟩ .empty), .forward ⟨10⟩, .node (.char '('), .node (.seq ⟨8⟩ ⟨7⟩),
      .node (.alt ⟨9⟩ .empty)]⟩,
    [("s", ⟨3⟩), ("t", ⟨7⟩)], [], 0⟩

theorem wellFormed_grammar : grammar.WellFormed where
  graph := .of_fits rfl rfl rfl (by decide)
  rules := by decide
  names := by decide

/-- The two rules are compared. -/
theorem similar_iff_bisimilar_copies :
    (grammar.WellFormed ∧ grammar.Has ⟨3⟩ ∧ grammar.Has ⟨7⟩ ∧
        (prepare ⟨3⟩).run.run grammar = (.ok ⟨6⟩, grammar) ∧
        (prepare ⟨7⟩).run.run grammar = (.ok ⟨10⟩, grammar)) ∧
      (∃ v, (Grammar.similar ⟨3⟩ ⟨7⟩).run.run grammar = (.ok v, grammar) ∧
        (v = true ↔ grammar.graph.Bisimilar ⟨3⟩ ⟨7⟩)) ∧
      Equivalence fun x y : {x : Handle // grammar.graph.Ready x} =>
        (Grammar.similar x y).run.run grammar = (.ok true, grammar) :=
  ⟨⟨wellFormed_grammar, (by decide : 3 < 11), (by decide : 7 < 11), rfl, rfl⟩,
    similar_iff_bisimilar wellFormed_grammar (by decide : 3 < 11) (by decide : 7 < 11) rfl rfl⟩

end Copies

end Grammar

end DerivativeParsing
