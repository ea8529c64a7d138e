import DerivativeParsing.Grammar.Reference
import DerivativeParsing.Proofs.Chains

/-!
# Actions on a grammar

What holds of a grammar after any action of the library, whether or not the action succeeds: it is
still well-formed, and the nodes and forwards that it had are still there.  `Sound` packages that
with a property of the result, and follows the actions from the operations on slots up to building
a description.
-/

set_option autoImplicit false

namespace DerivativeParsing

namespace Graph

/-- Nodes and forwards of a graph are still there in another one. -/
structure Grows (g g' : Graph) : Prop where
  size_le : g.size ≤ g'.size
  node : ∀ h n, g.slot? h = some (.node n) → g'.slot? h = some (.node n)
  forward : ∀ h t, g.slot? h = some (.forward t) → g'.slot? h = some (.forward t)

namespace Grows

variable {g g' g'' : Graph} {h p r t : Handle}

theorem refl (g : Graph) : g.Grows g := ⟨le_rfl, fun _ _ => id, fun _ _ => id⟩

theorem trans (h : g.Grows g') (h' : g'.Grows g'') : g.Grows g'' :=
  ⟨h.size_le.trans h'.size_le, fun k n hs => h'.node k n (h.node k n hs),
    fun k t hs => h'.forward k t (h.forward k t hs)⟩

theorem of_extends (h : g'.Extends g) : g.Grows g' :=
  ⟨h.1, fun k _ hs => (h.2 k (slot?_lt hs)).trans hs, fun k _ hs => (h.2 k (slot?_lt hs)).trans hs⟩

theorem of_setForward (hn : ∀ n, g.slot? p ≠ some (.node n))
    (hf : ∀ t, g.slot? p ≠ some (.forward t)) : g.Grows (g.setForward p t) where
  size_le := size_setForward.ge
  node k n hs := by
    have hne : k ≠ p := fun he => hn n (he ▸ hs)
    rwa [slot?_setForward_of_ne hne]
  forward k t' hs := by
    have hne : k ≠ p := fun he => hf t' (he ▸ hs)
    rwa [slot?_setForward_of_ne hne]

/-- A chain that ends at a node still ends there. -/
theorem leads (hg : g.Grows g') (hl : g.Leads h r) {n : Node}
    (hs : g.slot? r = some (.node n)) : g'.Leads h r := by
  induction hl with
  | here => exact .of_node (hg.node _ n hs)
  | step hf _ ih => exact .step (hg.forward _ _ hf) (ih hs)

end Grows

/-- All slots of a graph are still there in another one. -/
def Prefix (g g' : Graph) : Prop := g'.Extends g

/-- A way in which actions change graphs. -/
class Change (Rel : Graph → Graph → Prop) : Prop where
  refl : ∀ g, Rel g g
  trans : ∀ {g g' g''}, Rel g g' → Rel g' g'' → Rel g g''
  size_le : ∀ {g g'}, Rel g g' → g.size ≤ g'.size

instance : Change Grows := ⟨Grows.refl, Grows.trans, Grows.size_le⟩

instance : Change Prefix := ⟨Extends.refl, fun h h' => Extends.trans h' h, fun h => h.1⟩

/-- A way in which graphs change when nodes with operands that are there, and slots that refer to
nothing, are added. -/
class Adds (Rel : Graph → Graph → Prop) : Prop extends Change Rel where
  make : ∀ {g : Graph} {n : Node}, g.WellFormed → (∀ k ∈ n.children, k.index < g.size) →
    Rel g (g.make n).2
  alloc : ∀ {g : Graph} {s : Slot}, s.references = [] → Rel g (g.alloc s).2

instance : Adds Prefix where
  make _ _ := extends_make
  alloc _ := extends_alloc

end Graph

namespace Grammar

/-- A well-formed graph, and handles within it. -/
structure WellFormed (g : Grammar) : Prop where
  graph : g.graph.WellFormed
  rules : ∀ entry ∈ g.rules, entry.2.index < g.graph.size
  names : ∀ entry ∈ g.names, entry.2.index < g.graph.size

/-- A grammar stays well-formed when its graph grows. -/
theorem WellFormed.withGraph {g : Grammar} {graph : Graph} (hg : g.WellFormed)
    (hgraph : graph.WellFormed) (hsize : g.graph.size ≤ graph.size) :
    ({ g with graph } : Grammar).WellFormed :=
  ⟨hgraph, fun entry he => (hg.rules entry he).trans_le hsize,
    fun entry he => (hg.names entry he).trans_le hsize⟩

theorem wellFormed_initial : initial.WellFormed :=
  ⟨Graph.wellFormed_initial, by simp [initial], by simp [initial]⟩

variable {α β : Type}

/-! ## Running actions -/

theorem run_bind (x : GrammarM α) (f : α → GrammarM β) (g : Grammar) :
    (x >>= f).run.run g =
      match x.run.run g with
      | (.ok a, g') => (f a).run.run g'
      | (.error e, g') => (.error e, g') := by
  rw [ExceptT.run_bind, StateT.run_bind]
  rcases x.run.run g with ⟨_ | a, g'⟩ <;> rfl

theorem run_pure (a : α) (g : Grammar) : (pure a : GrammarM α).run.run g = (.ok a, g) := rfl

theorem run_throw (e : Failure) (g : Grammar) :
    (throw e : GrammarM α).run.run g = (.error e, g) := rfl

theorem run_get (g : Grammar) : (get : GrammarM Grammar).run.run g = (.ok g, g) := rfl

theorem run_modify (f : Grammar → Grammar) (g : Grammar) :
    (modify f : GrammarM Unit).run.run g = (.ok (), f g) := rfl

theorem run_onGraph (f : Graph → α × Graph) (g : Grammar) :
    (onGraph f).run.run g = (.ok (f g.graph).1, { g with graph := (f g.graph).2 }) := rfl

theorem run_tryCatch (x : GrammarM α) (f : Failure → GrammarM α) (g : Grammar) :
    (tryCatch x f).run.run g =
      match x.run.run g with
      | (.ok a, g') => (.ok a, g')
      | (.error e, g') => (f e).run.run g' := by
  change (ExceptT.tryCatch x f).run.run g = _
  unfold ExceptT.tryCatch
  change (x.run >>= _).run g = _
  rw [StateT.run_bind]
  rcases x.run.run g with ⟨_ | a, g'⟩ <;> rfl

/-! ## Sound actions -/

/-- From a grammar, an action leaves a well-formed grammar in which the graph has changed in a
certain way only, and a result has a property in it. -/
structure Sound (Rel : Graph → Graph → Prop) (action : GrammarM α) (Q : α → Grammar → Prop)
    (g : Grammar) : Prop where
  wellFormed : (action.run.run g).2.WellFormed
  change : Rel g.graph (action.run.run g).2.graph
  result : ∀ a g', action.run.run g = (.ok a, g') → Q a g'

namespace Sound

variable {Rel : Graph → Graph → Prop} [Graph.Change Rel] {g : Grammar} {Q R : α → Grammar → Prop}
  {x : GrammarM α}

omit [Graph.Change Rel] in
theorem mono (h : Sound Rel x Q g) (hQR : ∀ a g', Rel g.graph g'.graph → Q a g' → R a g') :
    Sound Rel x R g :=
  ⟨h.wellFormed, h.change, fun a g' he => hQR a g' (by simpa [he] using h.change) (h.result a g' he)⟩

theorem grows (h : Sound Graph.Prefix x Q g) : Sound Graph.Grows x Q g :=
  ⟨h.wellFormed, .of_extends h.change, h.result⟩

theorem pure (hg : g.WellFormed) {a : α} (ha : Q a g) : Sound Rel (pure a) Q g :=
  ⟨hg, Graph.Change.refl _, fun b g' he => by rw [run_pure] at he; cases he; exact ha⟩

theorem throw (hg : g.WellFormed) {e : Failure} : Sound Rel (throw e : GrammarM α) Q g :=
  ⟨hg, Graph.Change.refl _, fun b g' he => by rw [run_throw] at he; cases he⟩

theorem bind {S : β → Grammar → Prop} {f : α → GrammarM β} (hx : Sound Rel x Q g)
    (hf : ∀ a g', g'.WellFormed → Rel g.graph g'.graph → Q a g' → Sound Rel (f a) S g') :
    Sound Rel (x >>= f) S g := by
  have hrun := run_bind x f g
  have hw := hx.wellFormed
  have hchange := hx.change
  rcases he : x.run.run g with ⟨e | a, g'⟩ <;> rw [he] at hrun hw hchange
  · refine ⟨by rwa [hrun], by rwa [hrun], fun b g'' hb => ?_⟩
    rw [hrun] at hb
    cases hb
  · have hrest := hf a g' hw hchange (hx.result a g' he)
    exact ⟨by rw [hrun]; exact hrest.wellFormed,
      by rw [hrun]; exact Graph.Change.trans hchange hrest.change,
      fun b g'' hb => hrest.result b g'' (hrun.symm.trans hb)⟩

theorem get (hg : g.WellFormed) :
    Sound Rel (get : GrammarM Grammar) (fun a g' => g = a ∧ g = g') g :=
  ⟨hg, Graph.Change.refl _, fun b g' he => by rw [run_get] at he; cases he; exact ⟨rfl, rfl⟩⟩

omit [Graph.Change Rel] in
theorem modify {f : Grammar → Grammar} (hg : (f g).WellFormed) (hchange : Rel g.graph (f g).graph) :
    Sound Rel (modify f) (fun _ g' => g' = f g) g :=
  ⟨hg, hchange, fun b g' he => by rw [run_modify] at he; cases he; rfl⟩

theorem onGraph {f : Graph → α × Graph} (hg : g.WellFormed) (hw : (f g.graph).2.WellFormed)
    (hchange : Rel g.graph (f g.graph).2)
    (hQ : Q (f g.graph).1 { g with graph := (f g.graph).2 }) : Sound Rel (onGraph f) Q g where
  wellFormed := hg.withGraph hw (Graph.Change.size_le hchange)
  change := hchange
  result a g' he := by
    rw [run_onGraph] at he
    cases he
    exact hQ

theorem tryCatch {f : Failure → GrammarM α} (hx : Sound Rel x Q g)
    (hf : ∀ e g', g'.WellFormed → Rel g.graph g'.graph → Sound Rel (f e) Q g') :
    Sound Rel (tryCatch x f) Q g := by
  have hrun := run_tryCatch x f g
  have hw := hx.wellFormed
  have hchange := hx.change
  rcases he : x.run.run g with ⟨e | a, g'⟩ <;> rw [he] at hrun hw hchange
  · have hrest := hf e g' hw hchange
    exact ⟨by rw [hrun]; exact hrest.wellFormed,
      by rw [hrun]; exact Graph.Change.trans hchange hrest.change,
      fun b g'' hb => hrest.result b g'' (hrun.symm.trans hb)⟩
  · refine ⟨by rwa [hrun], by rwa [hrun], fun b g'' hb => hx.result b g'' ?_⟩
    rw [he, ← hb, hrun]

end Sound

/-! ## Building -/

/-- A handle is within the graph of a grammar. -/
def Has (h : Handle) (g : Grammar) : Prop := h.index < g.graph.size

/-- An operand is a text, or a handle within the graph. -/
def HasOperand : Operand → Grammar → Prop
  | .handle h, g => g.Has h
  | .text _, _ => True

section Change

variable {Rel : Graph → Graph → Prop} [Graph.Change Rel] {g g' : Grammar}

theorem Has.change {h : Handle} (hh : g.Has h) (hchange : Rel g.graph g'.graph) : g'.Has h :=
  hh.trans_le (Graph.Change.size_le hchange)

theorem HasOperand.change {o : Operand} (ho : HasOperand o g) (hchange : Rel g.graph g'.graph) :
    HasOperand o g' := by
  cases o with
  | handle h => exact Has.change ho hchange
  | text t => trivial

end Change

variable {g : Grammar}

namespace WellFormed

variable {Rel : Graph → Graph → Prop} [Graph.Adds Rel]

theorem has_nil (hg : g.WellFormed) : g.Has .nil := hg.graph.nil_lt

theorem has_empty (hg : g.WellFormed) : g.Has .empty := hg.graph.empty_lt

theorem has_any (hg : g.WellFormed) : g.Has .any := hg.graph.any_lt

/-- The handle of a made node is within the graph. -/
theorem make_lt {graph : Graph} (hg : graph.WellFormed) {n : Node} :
    (graph.make n).1.index < (graph.make n).2.size := Graph.slot?_lt hg.slot?_make

theorem make (hg : g.WellFormed) {n : Node} (hn : ∀ k ∈ n.children, g.Has k)
    (htoken : n ≠ .token []) : Sound Rel (make n) Has g :=
  .onGraph hg (hg.graph.make hn htoken) (Graph.Adds.make hg.graph hn) (make_lt hg.graph)

theorem alloc (hg : g.WellFormed) {s : Slot} (hs : s.references = [])
    (htoken : s ≠ .node (.token [])) : Sound Rel (alloc s) Has g := by
  refine .onGraph hg (hg.graph.alloc (fun k hk => ?_) htoken) (Graph.Adds.alloc hs) ?_
  · rw [hs] at hk
    cases hk
  · simp [Has]

theorem char (hg : g.WellFormed) (c : Char) : Sound Rel (char c) Has g :=
  hg.make (by simp [Node.children]) (by simp)

theorem range (hg : g.WellFormed) (first last : Char) : Sound Rel (range first last) Has g := by
  unfold Grammar.range
  split
  · exact .throw hg
  · split
    · exact hg.char first
    · exact hg.make (by simp [Node.children]) (by simp)

theorem children_literalNode (text : List Char) : (literalNode text).children = [] := by
  unfold literalNode
  split <;> rfl

theorem literalNode_ne (text : List Char) : literalNode text ≠ .token [] := by
  unfold literalNode
  split
  · simp
  · simp
  · next hnil _ => exact fun he => hnil (Node.token.inj he)

theorem lit (hg : g.WellFormed) (text : String) : Sound Rel (lit text) Has g :=
  hg.make (by simp [children_literalNode]) (literalNode_ne _)

theorem token (hg : g.WellFormed) (text : String) : Sound Rel (token text) Has g := by
  unfold Grammar.token
  split
  · exact .throw hg
  · exact hg.lit text

theorem coerce (hg : g.WellFormed) {o : Operand} (ho : HasOperand o g) : Sound Rel (coerce o) Has g := by
  cases o with
  | handle h => exact .pure hg ho
  | text text => exact hg.lit text

/-- Operands are joined by nodes with two operands. -/
theorem joinFrom (hg : g.WellFormed) {join : Handle → Handle → Node}
    (hjoin : ∀ a b, (join a b).children = [a, b]) {acc : Handle} (hacc : g.Has acc)
    {ps : List Operand} (hps : ∀ o ∈ ps, HasOperand o g) : Sound Rel (joinFrom join acc ps) Has g := by
  have htoken : ∀ a b, join a b ≠ .token [] := fun a b he => by
    have := hjoin a b
    rw [he] at this
    cases this
  induction ps generalizing g acc with
  | nil => exact .pure hg hacc
  | cons p ps ih =>
      refine (hg.coerce (hps p (by simp))).bind fun h g₁ hg₁ hgrows₁ hh => ?_
      refine (hg₁.make ?_ (htoken acc h)).bind fun acc' g₂ hg₂ hgrows₂ hacc' => ?_
      · simpa [hjoin] using ⟨hacc.change hgrows₁, hh⟩
      · exact ih hg₂ hacc' fun o ho =>
          (hps o (by simp [ho])).change (Graph.Change.trans hgrows₁ hgrows₂)

theorem alternatives (hg : g.WellFormed) {ps : List Operand} (hps : ∀ o ∈ ps, HasOperand o g) :
    Sound Rel (alternatives ps) Has g := by
  cases ps with
  | nil => exact .pure hg hg.has_nil
  | cons p ps =>
      refine (hg.coerce (hps p (by simp))).bind fun h g₁ hg₁ hgrows hh => ?_
      exact hg₁.joinFrom (fun _ _ => rfl) hh fun o ho => (hps o (by simp [ho])).change hgrows

theorem sequence (hg : g.WellFormed) {ps : List Operand} (hps : ∀ o ∈ ps, HasOperand o g) :
    Sound Rel (sequence ps) Has g := by
  cases ps with
  | nil => exact .pure hg hg.has_empty
  | cons p ps =>
      refine (hg.coerce (hps p (by simp))).bind fun h g₁ hg₁ hgrows hh => ?_
      exact hg₁.joinFrom (fun _ _ => rfl) hh fun o ho => (hps o (by simp [ho])).change hgrows

theorem unary (hg : g.WellFormed) {node : Handle → Node} (hnode : ∀ a, (node a).children = [a])
    {o : Operand} (ho : HasOperand o g) : Sound Rel (unary node o) Has g := by
  refine (hg.coerce ho).bind fun h g₁ hg₁ _ hh => ?_
  refine hg₁.make (by simpa [hnode] using hh) fun he => ?_
  have := hnode h
  rw [he] at this
  cases this

theorem plus (hg : g.WellFormed) {o : Operand} (ho : HasOperand o g) : Sound Rel (plus o) Has g := by
  refine (hg.coerce ho).bind fun h g₁ hg₁ _ hh => ?_
  refine (hg₁.make (n := .star h) (by simpa [Node.children] using hh) (by simp)).bind
    fun rest g₂ hg₂ hgrows hrest => ?_
  exact hg₂.make (by simpa [Node.children] using ⟨hh.change hgrows, hrest⟩) (by simp)

theorem lookup_has {entries : List (String × Handle)} {name : String} {h : Handle}
    (hentries : ∀ entry ∈ entries, entry.2.index < g.graph.size)
    (hlookup : entries.lookup name = some h) : g.Has h := by
  induction entries with
  | nil => cases hlookup
  | cons entry entries ih =>
      obtain ⟨name', h'⟩ := entry
      rw [List.lookup_cons] at hlookup
      split at hlookup
      · cases hlookup
        exact hentries (name', h) (by simp)
      · exact ih (fun e he => hentries e (by simp [he])) hlookup

theorem rule (hg : g.WellFormed) (name : String) : Sound Rel (rule name) Has g := by
  refine (Sound.get hg).bind ?_
  rintro _ _ - - ⟨rfl, rfl⟩
  split
  · next h hlookup => exact .pure hg (lookup_has hg.rules hlookup)
  · refine (hg.alloc rfl (by simp)).bind fun h g₁ hg₁ _ hh => ?_
    refine (Sound.modify ⟨hg₁.graph, ?_, hg₁.names⟩ (Graph.Change.refl _)).bind ?_
    · intro entry he
      rcases List.mem_append.1 he with he | he
      · exact hg₁.rules entry he
      · rw [List.mem_singleton.1 he]
        exact hh
    · rintro - g₂ hg₂ - rfl
      exact .pure hg₂ hh

theorem rename_has {name : String} {h : Handle} (hh : g.Has h) {entries : List (String × Handle)}
    (hentries : ∀ entry ∈ entries, entry.2.index < g.graph.size) :
    ∀ entry ∈ rename name h entries, entry.2.index < g.graph.size := by
  induction entries with
  | nil =>
      intro entry he
      rw [List.mem_singleton.1 he]
      exact hh
  | cons e entries ih =>
      unfold Grammar.rename
      intro entry he
      split at he
      · rcases List.mem_cons.1 he with rfl | he
        · exact hh
        · exact hentries entry (by simp [he])
      · rcases List.mem_cons.1 he with rfl | he
        · exact hentries _ (by simp)
        · exact ih (fun e he => hentries e (by simp [he])) entry he

theorem bindName (hg : g.WellFormed) (name : String) {h : Handle} (hh : g.Has h) :
    Sound Rel (bindName name h) (fun _ _ => True) g :=
  (Sound.modify ⟨hg.graph, hg.rules, rename_has hh hg.names⟩ (Graph.Change.refl _)).mono
    fun _ _ _ _ => trivial

theorem named (hg : g.WellFormed) (name : String) : Sound Rel (named name) Has g := by
  refine (Sound.get hg).bind ?_
  rintro _ _ - - ⟨rfl, rfl⟩
  split
  · next h hlookup => exact .pure hg (lookup_has hg.names hlookup)
  · exact .throw hg

theorem asOperand (_ : g.WellFormed) {action : GrammarM Handle} (ha : Sound Rel action Has g) :
    Sound Rel (asOperand action) HasOperand g :=
  ha.bind fun _ _ hg₁ _ hh => .pure hg₁ hh

theorem iterate (hg : g.WellFormed) (name : String) {layer : GrammarM Operand}
    (hlayer : ∀ g' : Grammar, g'.WellFormed → Sound Rel layer HasOperand g') {times : Nat} {h : Handle}
    (hh : g.Has h) : Sound Rel (iterate name layer times h) Has g := by
  induction times generalizing g h with
  | zero => exact .pure hg hh
  | succ times ih =>
      refine (hg.bindName name hh).bind fun _ g₁ hg₁ _ _ => ?_
      refine (hlayer g₁ hg₁).bind fun o g₂ hg₂ _ ho => ?_
      exact (hg₂.coerce ho).bind fun h' g₃ hg₃ _ hh' => ih hg₃ hh'

mutual

/-- Building a description is sound. -/
theorem build (p : Description) : ∀ {g : Grammar}, g.WellFormed → Sound Rel (build p) HasOperand g := by
  intro g hg
  cases p with
  | text text => exact .pure hg trivial
  | nil => exact .pure hg hg.has_nil
  | empty => exact .pure hg hg.has_empty
  | any => exact .pure hg hg.has_any
  | char c => exact hg.asOperand (hg.char c)
  | range first last => exact hg.asOperand (hg.range first last)
  | token text => exact hg.asOperand (hg.token text)
  | lit text => exact hg.asOperand (hg.lit text)
  | alternatives ps =>
      exact (buildEach ps hg).bind fun os g₁ hg₁ _ hos => hg₁.asOperand (hg₁.alternatives hos)
  | sequence ps =>
      exact (buildEach ps hg).bind fun os g₁ hg₁ _ hos => hg₁.asOperand (hg₁.sequence hos)
  | star p =>
      exact (build p hg).bind fun o g₁ hg₁ _ ho => hg₁.asOperand (hg₁.unary (fun _ => rfl) ho)
  | rep p count =>
      exact (build p hg).bind fun o g₁ hg₁ _ ho => hg₁.asOperand (hg₁.unary (fun _ => rfl) ho)
  | not p =>
      exact (build p hg).bind fun o g₁ hg₁ _ ho => hg₁.asOperand (hg₁.unary (fun _ => rfl) ho)
  | plus p => exact (build p hg).bind fun o g₁ hg₁ _ ho => hg₁.asOperand (hg₁.plus ho)
  | reduction p reducer =>
      exact (build p hg).bind fun o g₁ hg₁ _ ho => hg₁.asOperand (hg₁.unary (fun _ => rfl) ho)
  | nullability p =>
      exact (build p hg).bind fun o g₁ hg₁ _ ho => hg₁.asOperand (hg₁.unary (fun _ => rfl) ho)
  | emptyReduction trees => exact hg.asOperand (hg.make (by simp [Node.children]) (by simp))
  | rule name => exact hg.asOperand (hg.rule name)
  | named name => exact hg.asOperand (hg.named name)
  | suspended body => exact hg.asOperand (hg.alloc rfl (by simp))
  | nest times name layer seed =>
      refine (build seed hg).bind fun o g₁ hg₁ _ ho => ?_
      refine (hg₁.coerce ho).bind fun h g₂ hg₂ _ hh => ?_
      exact hg₂.asOperand (hg₂.iterate name (fun g hg => build layer hg) hh)
  | malformed ps => exact (buildEach ps hg).bind fun _ g₁ hg₁ _ _ => .throw hg₁

theorem buildEach (ps : List Description) : ∀ {g : Grammar}, g.WellFormed →
    Sound Rel (buildEach ps) (fun os g => ∀ o ∈ os, HasOperand o g) g := by
  intro g hg
  cases ps with
  | nil => exact .pure hg (by simp)
  | cons p ps =>
      refine (build p hg).bind fun o g₁ hg₁ _ ho => ?_
      refine (buildEach ps hg₁).bind fun os g₂ hg₂ hgrows hos => ?_
      exact .pure hg₂ (List.forall_mem_cons.2 ⟨ho.change hgrows, hos⟩)

end

/-- Building what a suspended reference stands for is sound. -/
theorem force (hg : g.WellFormed) (body : Description) : Sound Rel (force body) Has g := by
  refine (Sound.modify ⟨hg.graph, hg.rules, hg.names⟩ (Graph.Change.refl _)).bind ?_
  rintro - _ hg₁ - rfl
  refine .tryCatch ((build body hg₁).bind fun o g₂ hg₂ _ ho => hg₂.coerce ho) ?_
  exact fun _ g₂ hg₂ _ => .pure hg₂ hg₂.has_nil

/-- Defining a rule is sound: only the slot of a rule without a body becomes a forward. -/
theorem define (hg : g.WellFormed) (name : String) {body : Operand} (hbody : HasOperand body g) :
    Sound Graph.Grows (define name body) Has g := by
  refine (hg.rule name).grows.bind fun h g₁ hg₁ hgrows hh => ?_
  refine (Sound.get hg₁).bind ?_
  rintro _ _ - - ⟨rfl, rfl⟩
  split
  · exact Sound.bind (.throw hg₁) (Q := fun _ _ => False) fun _ _ _ _ h => h.elim
  · next hopen =>
      have hopen : isOpen g₁.graph h = true := by simpa using hopen
      have hcoerce : Sound Graph.Grows (Grammar.coerce body)
          (fun t g' => g'.Has t ∧ g₁.graph.Prefix g'.graph) g₁ :=
        ((hg₁.coerce (hbody.change hgrows)).mono fun t g' hchange ht => ⟨ht, hchange⟩).grows
      refine hcoerce.bind fun target g₂ hg₂ _ ⟨ht, hkept⟩ => ?_
      refine (Sound.get hg₂).bind ?_
      rintro _ _ - - ⟨rfl, rfl⟩
      split
      · exact Sound.bind (.throw hg₂) (Q := fun _ _ => False) fun _ _ _ _ h => h.elim
      · have hslot : ∃ name, g₂.graph.slot? h = some (.undefined name) := by
          rw [hkept.2 h hh]
          unfold isOpen at hopen
          split at hopen
          · next name hs => exact ⟨name, hs⟩
          · cases hopen
        obtain ⟨name, hslot⟩ := hslot
        have hnode : ∀ n, g₂.graph.slot? h ≠ some (.node n) := fun n => by simp [hslot]
        have hforward : ∀ t, g₂.graph.slot? h ≠ some (.forward t) := fun t => by simp [hslot]
        refine Sound.bind (.onGraph hg₂ (hg₂.graph.setForward ht hnode)
          (.of_setForward hnode hforward) (Q := fun _ g => g.Has h) ?_) ?_
        · simpa [Has] using Graph.slot?_lt hslot
        · exact fun _ g₃ hg₃ _ hh => .pure hg₃ hh

end WellFormed

end Grammar

end DerivativeParsing
