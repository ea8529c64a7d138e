import DerivativeParsing.Proofs.Forcing

/-!
# What suspended references stand for

In which slots a suspended reference is built depends on what has been built before it, and what it
is built into does not: it can be drafted from the description alone, as long as no description
gives a name to a handle (`Description.draft`).  Building a description makes what its draft says,
and fails if there is no draft (`drafted_build`).  What a suspended reference is built into is
therefore the same at any time (`widens_force`).
-/

set_option autoImplicit false

namespace DerivativeParsing

/-! ## Drafts -/

/-- What building a description comes to, whatever slots it takes. -/
inductive Draft where
  /-- A handle that is there before. -/
  | handle (h : Handle)
  | rule (name : String)
  | suspended (body : Description)
  /-- A node without operands. -/
  | leaf
  | one (operand : Draft)
  | two (left right : Draft)

/-- Parts that are joined from the left. -/
def Draft.joined : List Draft → Draft
  | [] => .leaf
  | d :: ds => ds.foldl .two d

namespace Description

mutual

/-- Neither building a description nor building what it suspends gives a name to a handle. -/
def BindsNothing : Description → Prop
  | .text _ | .char _ | .range _ _ | .token _ | .lit _ | .emptyReduction _ | .rule _ | .named _ =>
    True
  | .nil | .empty | .any => True
  | .alternatives ps | .sequence ps | .malformed ps => EachBindsNothing ps
  | .star p | .rep p _ | .not p | .plus p | .reduction p _ | .nullability p | .suspended p =>
    p.BindsNothing
  | .nest _ _ _ _ => False

/-- None of several descriptions gives a name to a handle. -/
def EachBindsNothing : List Description → Prop
  | [] => True
  | p :: ps => p.BindsNothing ∧ EachBindsNothing ps

end

mutual

/-- The draft of a description that gives no names to handles, if building it does not fail. -/
def draft (names : List (String × Handle)) : Description → Option Draft
  | .text _ | .nil | .empty | .any | .char _ | .lit _ | .emptyReduction _ => some .leaf
  | .range first last => if last < first then none else some .leaf
  | .token word => if word.isEmpty then none else some .leaf
  | .alternatives ps | .sequence ps => (drafts names ps).map .joined
  | .star p | .rep p _ | .not p | .reduction p _ | .nullability p => (p.draft names).map .one
  | .plus p => (p.draft names).map fun d => .two d (.one d)
  | .rule name => some (.rule name)
  | .named name => (names.lookup name).map .handle
  | .suspended body => some (.suspended body)
  | .nest _ _ _ _ | .malformed _ => none

/-- The drafts of several descriptions, if building them does not fail. -/
def drafts (names : List (String × Handle)) : List Description → Option (List Draft)
  | [] => some []
  | p :: ps => (p.draft names).bind fun d => (drafts names ps).map (d :: ·)

end

end Description

namespace Grammar

open DerivativeParsing.Graph

variable {g a a' a'' : Grammar} {S S' : Handle → Description → Prop} {d : Draft} {h k t : Handle}
  {body : Description} {n : Node}

/-- A slot is suspended. -/
def Suspends (a : Grammar) (h : Handle) (body : Description) : Prop :=
  a.graph.slot? h = some (.suspended body)

/-- A handle is what a draft says.  The handles of the draft are those of the grammar `g`, and `S`
tells what slots have been suspended with. -/
inductive Realises (g : Grammar) (S : Handle → Description → Prop) (a : Grammar) :
    Draft → Handle → Prop where
  | handle {h : Handle} (hh : g.Has h) : Realises g S a (.handle h) h
  | rule {name : String} {h : Handle} (hl : a.rules.lookup name = some h) :
      Realises g S a (.rule name) h
  | suspended {body : Description} {h : Handle} (hs : S h body) : Realises g S a (.suspended body) h
  | leaf {h : Handle} {n : Node} (hs : a.graph.slot? h = some (.node n)) (hn : n.children = []) :
      Realises g S a .leaf h
  | one {d : Draft} {h k : Handle} {n : Node} (hs : a.graph.slot? h = some (.node n))
      (hn : n.children = [k]) (hk : Realises g S a d k) : Realises g S a (.one d) h
  | two {d e : Draft} {h k l : Handle} {n : Node} (hs : a.graph.slot? h = some (.node n))
      (hn : n.children = [k, l]) (hk : Realises g S a d k) (hl : Realises g S a e l) :
      Realises g S a (.two d e) h

/-- What is as drafted stays so where nodes and rules are kept. -/
theorem Realises.mono (hr : Realises g S a d h) (hS : ∀ h body, S h body → S' h body)
    (hgrows : a.graph.Grows a'.graph)
    (hrules : ∀ name h, a.rules.lookup name = some h → a'.rules.lookup name = some h) :
    Realises g S' a' d h := by
  induction hr with
  | handle hh => exact .handle hh
  | rule hl => exact .rule (hrules _ _ hl)
  | suspended hs => exact .suspended (hS _ _ hs)
  | leaf hs hn => exact .leaf (hgrows.node _ _ hs) hn
  | one hs hn _ ih => exact .one (hgrows.node _ _ hs) hn ih
  | two hs hn _ _ ihk ihl => exact .two (hgrows.node _ _ hs) hn ihk ihl

/-! ## What building adds -/

/-- A grammar has been added to: no slot, name or entry of the table of rules has changed, rules
that are new have no body, and what is newly suspended gives no names. -/
structure Widens (a a' : Grammar) : Prop where
  kept : a'.graph.Extends a.graph
  names : a'.names = a.names
  rules : a.rules <+: a'.rules
  fresh : ∀ name h, a.rules.lookup name = none → a'.rules.lookup name = some h →
    a'.graph.slot? h = some (.undefined name)
  bindsNothing : ∀ h body, a'.Suspends h body → a.Suspends h body ∨ body.BindsNothing

namespace Widens

theorem refl (a : Grammar) : Widens a a where
  kept := .refl _
  names := rfl
  rules := List.prefix_rfl
  fresh name h hnone hsome := by rw [hnone] at hsome; cases hsome
  bindsNothing _ _ := .inl

theorem trans (h : Widens a a') (h' : Widens a' a'') : Widens a a'' where
  kept := h'.kept.trans h.kept
  names := h'.names.trans h.names
  rules := h.rules.trans h'.rules
  fresh name k hnone hsome := by
    rcases hmid : a'.rules.lookup name with _ | l
    · exact h'.fresh name k hmid hsome
    · have hk : some k = some l := hsome.symm.trans (lookup_lengthened h'.rules hmid)
      cases hk
      have hs := h.fresh name k hnone hmid
      exact (h'.kept.2 k (slot?_lt hs)).trans hs
  bindsNothing k body hs := by
    rcases h'.bindsNothing k body hs with hs | hp
    · exact h.bindsNothing k body hs
    · exact .inr hp

theorem of_alloc {s : Slot} (hs : ∀ body, s = .suspended body → body.BindsNothing) :
    Widens a { a with graph := (a.graph.alloc s).2 } where
  kept := extends_alloc
  names := rfl
  rules := List.prefix_rfl
  fresh name h hnone hsome := by rw [hnone] at hsome; cases hsome
  bindsNothing h body hh := by
    change (a.graph.alloc s).2.slot? h = _ at hh
    rw [slot?_alloc] at hh
    split at hh
    · exact .inr (hs body (Option.some.inj hh))
    · exact .inl hh

theorem of_make (n : Node) : Widens a { a with graph := (a.graph.make n).2 } := by
  rcases a.graph.make_cases n with ⟨h, he, -⟩ | he <;> rw [he]
  · exact .refl a
  · exact .of_alloc fun body hs => by cases hs

theorem lookup (h : Widens a a') (name : String) (k : Handle)
    (hl : a.rules.lookup name = some k) : a'.rules.lookup name = some k :=
  lookup_lengthened h.rules hl

theorem suspends (h : Widens a a') (hs : a.Suspends k body) : a'.Suspends k body :=
  (h.kept.2 k (slot?_lt hs)).trans hs

theorem realises (h : Widens a a') (hr : Realises g a.Suspends a d k) :
    Realises g a'.Suspends a' d k :=
  hr.mono (fun _ _ => h.suspends) (.of_extends h.kept) h.lookup

end Widens

/-- A grammar has come from a well-formed one, which still has its nodes and names. -/
structure Stems (g a : Grammar) : Prop where
  wellFormed : g.WellFormed
  grows : g.graph.Grows a.graph
  names : a.names = g.names

namespace Stems

theorem widened (hstem : Stems g a) (hw : Widens a a') : Stems g a' :=
  ⟨hstem.wellFormed, hstem.grows.trans (.of_extends hw.kept), hw.names.trans hstem.names⟩

theorem slot?_make (hstem : Stems g a) (n : Node) :
    (a.graph.make n).2.slot? (a.graph.make n).1 = some (.node n) := by
  have hg := hstem.wellFormed.graph
  rcases a.graph.make_cases n with ⟨h, he, ⟨rfl, rfl⟩ | ⟨rfl, rfl⟩ | ⟨rfl, rfl⟩⟩ | he <;> rw [he]
  · exact hstem.grows.node _ _ hg.nil
  · exact hstem.grows.node _ _ hg.empty
  · exact hstem.grows.node _ _ hg.any
  · exact slot?_alloc_new

theorem leaf (hstem : Stems g a) (hs : g.graph.slot? h = some (.node n)) (hn : n.children = []) :
    Realises g S a .leaf h := .leaf (hstem.grows.node h n hs) hn

end Stems

/-! ## Actions as drafted -/

section Drafted

variable {α β δ ε : Type} {x : GrammarM α} {f : α → GrammarM β} {R : Grammar → δ → α → Prop}
  {Q : Grammar → ε → β → Prop}

/-- An action only adds to a grammar, and its result is as drafted.  It fails only if there is no
draft. -/
structure Drafted (R : Grammar → δ → α → Prop) (d : Option δ) (x : GrammarM α) (a : Grammar) :
    Prop where
  widens : Widens a (x.run.run a).2
  ok : ∀ r a', x.run.run a = (.ok r, a') → ∃ d', d = some d' ∧ R a' d' r
  error : ∀ e a', x.run.run a = (.error e, a') → d = none

namespace Drafted

theorem pure {d : δ} {r : α} (hr : R a d r) : Drafted R (some d) (pure r) a where
  widens := .refl a
  ok r' a' he := by
    rw [run_pure] at he
    cases he
    exact ⟨d, rfl, hr⟩
  error e a' he := by rw [run_pure] at he; cases he

theorem throw (e : Failure) : Drafted R none (throw e : GrammarM α) a where
  widens := .refl a
  ok r a' he := by rw [run_throw] at he; cases he
  error _ _ _ := rfl

theorem bind {d : Option δ} {F : δ → Option ε} (hx : Drafted R d x a)
    (hf : ∀ d' r a', Widens a a' → R a' d' r → Drafted Q (F d') (f r) a') :
    Drafted Q (d.bind F) (x >>= f) a := by
  have hrun := run_bind x f a
  have hwidens := hx.widens
  rcases he : x.run.run a with ⟨e | r, a₁⟩ <;> rw [he] at hrun hwidens
  · rw [hx.error e a₁ he]
    refine ⟨by rw [hrun]; exact hwidens, fun r a' hr => ?_, fun _ _ _ => rfl⟩
    rw [hrun] at hr
    cases hr
  · obtain ⟨d', rfl, hr⟩ := hx.ok r a₁ he
    have hrest := hf d' r a₁ hwidens hr
    exact ⟨by rw [hrun]; exact hwidens.trans hrest.widens,
      fun s a' hs => hrest.ok s a' (hrun.symm.trans hs),
      fun e a' hs => hrest.error e a' (hrun.symm.trans hs)⟩

/-- The second action cannot fail. -/
theorem map {d : Option δ} {F : δ → ε} (hx : Drafted R d x a)
    (hf : ∀ d' r a', Widens a a' → R a' d' r → Drafted Q (some (F d')) (f r) a') :
    Drafted Q (d.map F) (x >>= f) a := by
  have h := hx.bind (F := fun d' => some (F d')) hf
  cases d with
  | none => exact h
  | some d => exact h

end Drafted

/-! ## Combinators -/

/-- An operand is what a draft says.  A text is a leaf in any case. -/
def RealisesOperand (g a : Grammar) (d : Draft) : Operand → Prop
  | .handle h => Realises g a.Suspends a d h
  | .text _ => d = .leaf

theorem RealisesOperand.widened {o : Operand} (ho : RealisesOperand g a d o) (hw : Widens a a') :
    RealisesOperand g a' d o := by
  cases o with
  | handle h => exact hw.realises ho
  | text text => exact ho

/-- Operands are what drafts say, one by one. -/
abbrev RealisesEach (g a : Grammar) (ds : List Draft) (os : List Operand) : Prop :=
  List.Forall₂ (RealisesOperand g a) ds os

theorem RealisesEach.widened {ds : List Draft} {os : List Operand} (hos : RealisesEach g a ds os)
    (hw : Widens a a') : RealisesEach g a' ds os :=
  hos.imp fun _ _ ho => ho.widened hw

/-- A handle is as drafted while descriptions are built. -/
abbrev RealisesNow (g a : Grammar) (d : Draft) (h : Handle) : Prop := Realises g a.Suspends a d h

theorem drafted_make (hstem : Stems g a) {n : Node}
    (hd : ∀ h a', Widens a a' → a'.graph.slot? h = some (.node n) → RealisesNow g a' d h) :
    Drafted (RealisesNow g) (some d) (make n) a where
  widens := .of_make n
  ok r a' he := by
    cases he
    exact ⟨d, rfl, hd _ _ (.of_make n) (hstem.slot?_make n)⟩
  error e a' he := by cases he

theorem drafted_leaf (hstem : Stems g a) (hn : n.children = []) :
    Drafted (RealisesNow g) (some .leaf) (make n) a :=
  drafted_make hstem fun _ _ _ hs => .leaf hs hn

theorem drafted_one (hstem : Stems g a) (hn : n.children = [k]) (hk : RealisesNow g a d k) :
    Drafted (RealisesNow g) (some (.one d)) (make n) a :=
  drafted_make hstem fun _ _ hw hs => .one hs hn (hw.realises hk)

theorem drafted_two {e : Draft} {l : Handle} (hstem : Stems g a) (hn : n.children = [k, l])
    (hk : RealisesNow g a d k) (hl : RealisesNow g a e l) :
    Drafted (RealisesNow g) (some (.two d e)) (make n) a :=
  drafted_make hstem fun _ _ hw hs => .two hs hn (hw.realises hk) (hw.realises hl)

theorem drafted_range (hstem : Stems g a) (first last : Char) :
    Drafted (RealisesNow g) (if last < first then none else some .leaf) (range first last) a := by
  unfold range
  split
  · exact .throw _
  · split <;> exact drafted_leaf hstem rfl

theorem drafted_lit (hstem : Stems g a) (text : String) :
    Drafted (RealisesNow g) (some .leaf) (lit text) a :=
  drafted_leaf hstem (WellFormed.children_literalNode _)

theorem drafted_token (hstem : Stems g a) (text : String) :
    Drafted (RealisesNow g) (if text.isEmpty then none else some .leaf) (token text) a := by
  unfold token
  split
  · exact .throw _
  · exact drafted_lit hstem text

theorem drafted_coerce {o : Operand} (hstem : Stems g a) (ho : RealisesOperand g a d o) :
    Drafted (RealisesNow g) (some d) (coerce o) a := by
  cases o with
  | handle h => exact .pure ho
  | text text =>
      obtain rfl : d = .leaf := ho
      exact drafted_lit hstem text

theorem drafted_joinFrom {join : Handle → Handle → Node}
    (hjoin : ∀ k l, (join k l).children = [k, l]) {acc : Handle} {ds : List Draft} {os : List Operand}
    (hstem : Stems g a) (hacc : RealisesNow g a d acc) (hos : RealisesEach g a ds os) :
    Drafted (RealisesNow g) (some (ds.foldl Draft.two d)) (joinFrom join acc os) a := by
  induction os generalizing a d acc ds with
  | nil =>
      cases hos
      exact .pure hacc
  | cons o os ih =>
      obtain _ | ⟨ho, hos⟩ := hos
      next e ds =>
      refine (drafted_coerce hstem ho).bind (F := fun e => some (ds.foldl Draft.two (.two d e)))
        fun e k a₁ hw₁ hk => ?_
      have hstem₁ := hstem.widened hw₁
      refine (drafted_two hstem₁ (hjoin _ _) (hw₁.realises hacc) hk).bind
        (F := fun d => some (ds.foldl Draft.two d)) fun d' acc' a₂ hw₂ hacc' => ?_
      exact ih (hstem₁.widened hw₂) hacc' (.widened (.widened hos hw₁) hw₂)

theorem drafted_alternatives {ds : List Draft} {os : List Operand} (hstem : Stems g a)
    (hos : RealisesEach g a ds os) :
    Drafted (RealisesNow g) (some (.joined ds)) (alternatives os) a := by
  cases hos with
  | nil => exact .pure (hstem.leaf hstem.wellFormed.graph.nil rfl)
  | @cons d o ds os ho hos =>
      refine (drafted_coerce hstem ho).bind (F := fun d => some (ds.foldl Draft.two d))
        fun d k a₁ hw hk => ?_
      exact drafted_joinFrom (fun _ _ => rfl) (hstem.widened hw) hk (.widened hos hw)

theorem drafted_sequence {ds : List Draft} {os : List Operand} (hstem : Stems g a)
    (hos : RealisesEach g a ds os) :
    Drafted (RealisesNow g) (some (.joined ds)) (sequence os) a := by
  cases hos with
  | nil => exact .pure (hstem.leaf hstem.wellFormed.graph.empty rfl)
  | @cons d o ds os ho hos =>
      refine (drafted_coerce hstem ho).bind (F := fun d => some (ds.foldl Draft.two d))
        fun d k a₁ hw hk => ?_
      exact drafted_joinFrom (fun _ _ => rfl) (hstem.widened hw) hk (.widened hos hw)

theorem drafted_unary {node : Handle → Node} (hnode : ∀ k, (node k).children = [k]) {o : Operand}
    (hstem : Stems g a) (ho : RealisesOperand g a d o) :
    Drafted (RealisesNow g) (some (.one d)) (unary node o) a :=
  (drafted_coerce hstem ho).bind (F := fun d => some (Draft.one d)) fun _ _ _ hw hk =>
    drafted_one (hstem.widened hw) (hnode _) hk

theorem drafted_plus {o : Operand} (hstem : Stems g a) (ho : RealisesOperand g a d o) :
    Drafted (RealisesNow g) (some (.two d (.one d))) (plus o) a := by
  refine (drafted_coerce hstem ho).bind (F := fun d => some (Draft.two d (.one d)))
    fun d k a₁ hw₁ hk => ?_
  have hstem₁ := hstem.widened hw₁
  refine (drafted_one (n := .star k) hstem₁ rfl hk).bind (F := fun e => some (Draft.two d e))
    fun e l a₂ hw₂ hl => ?_
  exact drafted_two (hstem₁.widened hw₂) rfl (hw₂.realises hk) hl

theorem drafted_rule (name : String) : Drafted (RealisesNow g) (some (.rule name)) (rule name) a := by
  rcases hlookup : a.rules.lookup name with _ | h
  · have hrun := run_rule_of_new hlookup
    have hkept : Widens a { a with graph := (a.graph.alloc (.undefined name)).2 } :=
      .of_alloc fun body hs => by cases hs
    have hnew {name' : String} {k : Handle} (hnone : a.rules.lookup name' = none)
        (hl : (a.rules ++ [(name, (⟨a.graph.size⟩ : Handle))]).lookup name' = some k) :
        name' = name ∧ k = ⟨a.graph.size⟩ := by
      rw [List.lookup_append, hnone, Option.none_or, List.lookup_cons] at hl
      split at hl
      · next he => exact ⟨beq_iff_eq.1 he, (Option.some.inj hl).symm⟩
      · cases hl
    refine ⟨?_, fun r a' he => ?_, fun e a' he => ?_⟩
    · rw [hrun]
      refine ⟨hkept.kept, rfl, List.prefix_append _ _, fun name' k hnone hl => ?_, hkept.bindsNothing⟩
      obtain ⟨rfl, rfl⟩ := hnew hnone hl
      exact slot?_alloc_new
    · rw [hrun] at he
      cases he
      exact ⟨_, rfl, .rule (by simp [List.lookup_append, hlookup])⟩
    · rw [hrun] at he
      cases he
  · have hrun := run_rule_of_lookup hlookup
    refine ⟨by rw [hrun]; exact .refl a, fun r a' he => ?_, fun e a' he => ?_⟩
    · rw [hrun] at he
      cases he
      exact ⟨_, rfl, .rule hlookup⟩
    · rw [hrun] at he
      cases he

theorem drafted_named (hstem : Stems g a) (name : String) :
    Drafted (RealisesNow g) ((g.names.lookup name).map .handle) (named name) a := by
  have hrun : (named name).run.run a =
      ((g.names.lookup name).elim (.error (.unboundName name)) .ok, a) := by
    unfold named
    rw [run_bind, run_get, ← hstem.names]
    dsimp only
    rcases a.names.lookup name with _ | h <;> rfl
  refine ⟨by rw [hrun]; exact .refl a, fun r a' he => ?_, fun e a' he => ?_⟩ <;> rw [hrun] at he
  · rcases hl : g.names.lookup name with _ | h <;> rw [hl] at he <;> cases he
    exact ⟨_, rfl, .handle (WellFormed.lookup_has hstem.wellFormed.names hl)⟩
  · rcases hl : g.names.lookup name with _ | h <;> rw [hl] at he <;> cases he
    rfl

theorem drafted_suspended (hp : body.BindsNothing) :
    Drafted (RealisesNow g) (some (.suspended body)) (alloc (.suspended body)) a where
  widens := .of_alloc fun _ he => Slot.suspended.inj he ▸ hp
  ok r a' he := by
    cases he
    exact ⟨_, rfl, .suspended slot?_alloc_new⟩
  error e a' he := by cases he

theorem Drafted.asOperand {d : Option Draft} {x : GrammarM Handle} (hx : Drafted (RealisesNow g) d x a) :
    Drafted (RealisesOperand g) d (Grammar.asOperand x) a := by
  have h := hx.bind (Q := RealisesOperand g) (F := some) (f := fun h => Pure.pure (Operand.handle h))
    fun _ _ _ _ hr => .pure hr
  rwa [Option.bind_fun_some] at h

end Drafted

/-! ## Descriptions -/

mutual

/-- Building a description that gives no names makes what its draft says, and fails if there is no
draft. -/
theorem drafted_build (p : Description) (hp : p.BindsNothing) {a : Grammar} (hstem : Stems g a) :
    Drafted (RealisesOperand g) (p.draft g.names) (build p) a := by
  have hunary {p : Description} (h : Drafted (RealisesOperand g) (p.draft g.names) (build p) a)
      {node : Handle → Node} (hnode : ∀ k, (node k).children = [k]) :
      Drafted (RealisesOperand g) ((p.draft g.names).map .one)
        (build p >>= fun o => Grammar.asOperand (unary node o)) a :=
    h.map fun _ _ _ hw ho => .asOperand (drafted_unary hnode (hstem.widened hw) ho)
  cases p with
  | text text => exact .pure rfl
  | nil => exact .pure (hstem.leaf hstem.wellFormed.graph.nil rfl)
  | empty => exact .pure (hstem.leaf hstem.wellFormed.graph.empty rfl)
  | any => exact .pure (hstem.leaf hstem.wellFormed.graph.any rfl)
  | char c => exact .asOperand (drafted_leaf hstem rfl)
  | range first last => exact .asOperand (drafted_range hstem first last)
  | token text => exact .asOperand (drafted_token hstem text)
  | lit text => exact .asOperand (drafted_lit hstem text)
  | alternatives ps =>
      exact (drafted_buildEach ps hp hstem).map fun _ _ _ hw hos =>
        .asOperand (drafted_alternatives (hstem.widened hw) hos)
  | sequence ps =>
      exact (drafted_buildEach ps hp hstem).map fun _ _ _ hw hos =>
        .asOperand (drafted_sequence (hstem.widened hw) hos)
  | star p => exact hunary (drafted_build p hp hstem) fun _ => rfl
  | rep p count => exact hunary (drafted_build p hp hstem) fun _ => rfl
  | not p => exact hunary (drafted_build p hp hstem) fun _ => rfl
  | plus p =>
      exact (drafted_build p hp hstem).map fun _ _ _ hw ho =>
        .asOperand (drafted_plus (hstem.widened hw) ho)
  | reduction p reducer => exact hunary (drafted_build p hp hstem) fun _ => rfl
  | nullability p => exact hunary (drafted_build p hp hstem) fun _ => rfl
  | emptyReduction trees => exact .asOperand (drafted_leaf hstem rfl)
  | rule name => exact .asOperand (drafted_rule name)
  | named name => exact .asOperand (drafted_named hstem name)
  | suspended body => exact .asOperand (drafted_suspended hp)
  | nest times name layer seed => exact hp.elim
  | malformed ps =>
      have h := (drafted_buildEach ps hp hstem).bind (Q := RealisesOperand g) (F := fun _ => none)
        (f := fun _ => throw .malformed) fun _ _ _ _ _ => .throw _
      rwa [Option.bind_fun_none] at h

theorem drafted_buildEach (ps : List Description) (hps : Description.EachBindsNothing ps) {a : Grammar}
    (hstem : Stems g a) :
    Drafted (RealisesEach g) (Description.drafts g.names ps) (buildEach ps) a := by
  cases ps with
  | nil => exact .pure .nil
  | cons p ps =>
      refine (drafted_build p hps.1 hstem).bind fun d o a₁ hw ho => ?_
      refine (drafted_buildEach ps hps.2 (hstem.widened hw)).map fun ds os a₂ hw' hos => ?_
      exact .pure (.cons (ho.widened hw') hos)

end

/-- What a suspended reference is built into is as drafted, and `∅` if there is no draft. -/
theorem widens_force (hstem : Stems g a) (hp : body.BindsNothing)
    (hrun : (force body).run.run a = (.ok t, a')) :
    Widens a a' ∧ Realises g a'.Suspends a' ((body.draft g.names).getD .leaf) t := by
  let counted : Grammar := { a with forced := a.forced + 1 }
  have hcounted : Widens a counted := by
    refine ⟨.refl _, rfl, List.prefix_rfl, fun name h hnone hsome => ?_, fun _ _ => .inl⟩
    exact ((Widens.refl a).fresh name h hnone hsome)
  have hstem' := hstem.widened hcounted
  have hexpress : Drafted (RealisesNow g) (body.draft g.names) (express body) counted := by
    have h := (drafted_build body hp hstem').bind (Q := RealisesNow g) (F := some)
      (f := Grammar.coerce) fun _ _ _ hw ho => drafted_coerce (hstem'.widened hw) ho
    rwa [Option.bind_fun_some] at h
  unfold force at hrun
  rw [run_bind, run_modify] at hrun
  dsimp only at hrun
  rw [run_tryCatch] at hrun
  have hwidens := hexpress.widens
  rcases he : (express body).run.run counted with ⟨e | r, a₁⟩ <;> rw [he] at hrun hwidens
  · cases hrun
    rw [hexpress.error e _ he]
    refine ⟨hcounted.trans hwidens, ?_⟩
    exact (hstem'.widened hwidens).leaf hstem.wellFormed.graph.nil rfl
  · cases hrun
    obtain ⟨d, hd, hr⟩ := hexpress.ok t _ he
    rw [hd]
    exact ⟨hcounted.trans hwidens, hr⟩

end Grammar

end DerivativeParsing
