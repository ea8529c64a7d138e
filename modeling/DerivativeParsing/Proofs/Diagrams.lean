import DerivativeParsing.Proofs.Complements
import DerivativeParsing.Proofs.DiagramText
import DerivativeParsing.Proofs.Forcing

/-!
# What a diagram shows

The diagram of an expression shows the nodes that can be reached from it, and nothing else
(`Graph.Draws`): each node is declared once, under a label that reads back as the text of the node,
the root alone has a double circle, and the edges of a node lead to its operands, in order.

Drawing visits handles from a stack.  A node is on the stack once for each edge to it that has been
drawn, so that most visits find a node that has been drawn before; an edge back to the root is no
exception.  The invariant is said of the handles that are drawn from a point on (`Visits`).  If
nothing has been drawn before, they are the nodes that can be reached (`Visits.mem_iff`).

Main statement: the diagram of an expression that can be prepared is a text that reads as statements
that draw it (`Grammar.diagram_draws`).
-/

set_option autoImplicit false

namespace DerivativeParsing

open Diagram

variable {g : Graph} {root h k r : Handle} {n : Node}

/-! ## What is to be drawn -/

/-- The text that a diagram shows for a node. -/
inductive Node.Shows : Node → String → Prop where
  | nil : Shows .nil "∅"
  | empty : Shows .empty "ε"
  | any : Shows .any "."
  | char (c : Char) : Shows (.char c) (Text.quotedChar c)
  | range (first last : Char) :
      Shows (.range first last) ("[" ++ Text.quotedChar first ++ "-" ++ Text.quotedChar last ++ "]")
  | token (text : List Char) : Shows (.token text) (Text.quotedString text)
  | alt (left right : Handle) : Shows (.alt left right) "|"
  | seq (first second : Handle) : Shows (.seq first second) "◦"
  | star (operand : Handle) : Shows (.star operand) "*"
  | exactly (operand : Handle) (n : Nat) :
      Shows (.rep operand (.exactly n)) ("\x7b" ++ toString n ++ "\x7d")
  | unbounded (operand : Handle) : Shows (.rep operand .unbounded) "\x7b∞\x7d"
  | not (operand : Handle) : Shows (.not operand) "¬"
  | nullability (operand : Handle) : Shows (.nullability operand) "δ"
  | emptyReduction (trees : Forest) : Shows (.emptyReduction trees)
      ("ε↓\x7b" ++ ", ".intercalate (trees.trees.map Tree.render) ++ "\x7d")
  | reduction (operand : Handle) (reducer : Reducer) :
      Shows (.reduction operand reducer) ("→ " ++ reducer.name)

/-- The label of a node is the text that is to be shown. -/
theorem Diagram.shows_label (n : Node) : n.Shows (label n) := by
  cases n with
  | rep operand count => cases count <;> constructor
  | _ => constructor

namespace Diagram.Statement

/-- The node that a statement declares. -/
def declared? : Statement → Option Handle
  | .node name _ _ => some name
  | .edge _ _ _ => none

/-- The node that an edge starts at. -/
def source? : Statement → Option Handle
  | .node _ _ _ => none
  | .edge source _ _ => some source

end Diagram.Statement

namespace Graph

/-- A slot with a node that can be reached. -/
def ReachesNode (g : Graph) (root h : Handle) : Prop :=
  g.Reaches root h ∧ ∃ n, g.slot? h = some (.node n)

theorem ReachesNode.lt (hh : g.ReachesNode root h) : h.index < g.size := by
  obtain ⟨-, n, hs⟩ := hh
  exact slot?_lt hs

/-- The operands of a node that can be reached lead to such nodes. -/
theorem ReachesNode.operand (hh : g.ReachesNode root h) (hready : g.Ready root)
    (hk : k ∈ (g.node h).children) : g.Leads k (g.endOf k) ∧ g.ReachesNode root (g.endOf k) := by
  obtain ⟨hreach, n, hs⟩ := hh
  rw [node_eq hs, ← references_of_node hs] at hk
  obtain ⟨m, hl, hm⟩ := hready.leads_endOf (hreach.tail hk)
  exact ⟨hl, (hreach.tail hk).trans hl.reaches, m, hm⟩

/-- The operands of a node that can be reached may be put on a stack of such nodes. -/
theorem ReachesNode.pushed (hh : g.ReachesNode root h) (hready : g.Ready root) {todo : List Handle}
    (htodo : ∀ k ∈ todo, g.ReachesNode root k) :
    ∀ k ∈ ((g.node h).children.map g.endOf).reverse ++ todo, g.ReachesNode root k := by
  intro k hk
  rcases List.mem_append.1 hk with hk | hk
  · obtain ⟨c, hc, rfl⟩ := List.mem_map.1 (List.mem_reverse.1 hk)
    exact (hh.operand hready hc).2
  · exact htodo k hk

/-- The edges of a node lead to the nodes of its operands, those of a sequence as the first and the
second. -/
def outgoing (g : Graph) (h : Handle) : Node → List Statement
  | .seq a b => [.edge h (g.endOf a) (some ['1']), .edge h (g.endOf b) (some ['2'])]
  | n => n.children.map fun k => .edge h (g.endOf k) none

/-- Statements draw an expression. -/
structure Draws (g : Graph) (root : Handle) (statements : List Statement) : Prop where
  /-- No node is declared twice. -/
  nodup : (statements.filterMap Statement.declared?).Nodup
  /-- The nodes that can be reached are declared, and nothing else. -/
  declared_iff : ∀ h, h ∈ statements.filterMap Statement.declared? ↔ g.ReachesNode root h
  /-- A label reads back as the text of its node, and has no quote that would end it. -/
  label : ∀ h label doubled, .node h label doubled ∈ statements →
    (∃ text, (g.node h).Shows text ∧ unescape label = text.toList) ∧ hasBareQuote label = false
  /-- The root has a double circle, and no other node has. -/
  doubled : ∀ h label doubled, .node h label doubled ∈ statements →
    (doubled = true ↔ g.Leads root h)
  /-- There is one edge for each operand of a node. -/
  edges : ∀ h n, g.Reaches root h → g.slot? h = some (.node n) →
    statements.filter (fun s => s.source? = some h) = g.outgoing h n
  /-- Edges are between nodes that are declared. -/
  ends : ∀ source target label, .edge source target label ∈ statements →
    source ∈ statements.filterMap Statement.declared? ∧
      target ∈ statements.filterMap Statement.declared?

end Graph

/-! ## Visits -/

namespace Diagram

/-- The lines of a node and of its edges. -/
def nodeLines (g : Graph) (root h : Handle) : List String :=
  [nodeLine root h (g.node h),
    edgeLines h (isNumbered (g.node h)) 1 ((g.node h).children.map g.endOf)]

/-- The handles `hs` are those that are drawn in front of the handles `drawn` and the stack
`todo`. -/
structure Visits (g : Graph) (root : Handle) (drawn : Std.TreeSet Handle)
    (todo hs : List Handle) : Prop where
  nodup : hs.Nodup
  fresh : ∀ h ∈ hs, h ∉ drawn
  reached : ∀ h ∈ hs, g.ReachesNode root h
  pending : ∀ h ∈ todo, h ∈ drawn ∨ h ∈ hs
  operands : ∀ h ∈ hs, ∀ k ∈ (g.node h).children, g.endOf k ∈ drawn ∨ g.endOf k ∈ hs

namespace Visits

variable {drawn : Std.TreeSet Handle} {todo hs : List Handle}

/-- Nothing is drawn for an empty stack. -/
theorem nil : Visits g root drawn [] [] :=
  ⟨.nil, by simp, by simp, by simp, by simp⟩

/-- A handle that has been drawn is passed over. -/
theorem skip (hv : Visits g root drawn todo hs) (hdrawn : h ∈ drawn) :
    Visits g root drawn (h :: todo) hs :=
  { hv with pending := List.forall_mem_cons.2 ⟨.inl hdrawn, hv.pending⟩ }

/-- A node is drawn before its operands, which go on top of the stack. -/
theorem draw (hv : Visits g root (drawn.insert h)
      (((g.node h).children.map g.endOf).reverse ++ todo) hs)
    (hdrawn : h ∉ drawn) (hh : g.ReachesNode root h) :
    Visits g root drawn (h :: todo) (h :: hs) := by
  have hmem {k : Handle} (hk : k ∈ drawn.insert h ∨ k ∈ hs) : k ∈ drawn ∨ k ∈ h :: hs := by
    rcases hk with hk | hk
    · rw [Std.TreeSet.mem_insert] at hk
      rcases hk with hk | hk
      · exact .inr (by rw [Std.LawfulEqOrd.eq_of_compare hk]; exact List.mem_cons_self)
      · exact .inl hk
    · exact .inr (List.mem_cons_of_mem h hk)
  have hself : h ∈ drawn.insert h := Std.TreeSet.mem_insert_self
  refine
    { nodup := List.nodup_cons.2 ⟨fun hin => hv.fresh h hin hself, hv.nodup⟩
      fresh := List.forall_mem_cons.2 ⟨hdrawn, ?fresh⟩
      reached := List.forall_mem_cons.2 ⟨hh, hv.reached⟩
      pending := List.forall_mem_cons.2 ⟨.inr List.mem_cons_self, ?pending⟩
      operands := List.forall_mem_cons.2 ⟨?pushed, ?later⟩ }
  case fresh =>
    intro k hk hin
    exact hv.fresh k hk (Std.TreeSet.mem_insert.2 (.inr hin))
  case pending =>
    intro k hk
    exact hmem (hv.pending k (List.mem_append_right _ hk))
  case pushed =>
    -- The operands of the node itself are on the stack when it has been drawn.
    intro k hk
    have hpushed : g.endOf k ∈ ((g.node h).children.map g.endOf).reverse :=
      List.mem_reverse.2 (List.mem_map_of_mem hk)
    exact hmem (hv.pending (g.endOf k) (List.mem_append_left todo hpushed))
  case later =>
    intro q hq k hk
    exact hmem (hv.operands q hq k hk)

/-- Everything that can be reached ends at a node that is drawn, if drawing starts at the root. -/
theorem endOf_mem (hv : Visits g root ∅ [r] hs) (hready : g.Ready root) (hl : g.Leads root r)
    (hh : g.Reaches root h) : g.endOf h ∈ hs := by
  -- The induction is along the path: an edge of the path is an operand or one link of a chain.
  induction hh with
  | refl =>
      rw [hl.endOf]
      exact (hv.pending r List.mem_cons_self).resolve_left (by simp)
  | @tail h k hh hk ih =>
      obtain ⟨n, hlh, hs⟩ := hready.leads_endOf hh
      generalize g.endOf h = q at hlh hs ih
      cases hlh with
      | here =>
          rw [Graph.references_of_node hs, ← Graph.node_eq hs] at hk
          exact (hv.operands h ih k hk).resolve_left (by simp)
      | step hst hrest =>
          rw [Graph.references_of_forward hst, List.mem_singleton] at hk
          subst hk
          rwa [hrest.endOf]

/-- If drawing starts at the root, then the nodes that can be reached are drawn. -/
theorem mem_iff (hv : Visits g root ∅ [r] hs) (hready : g.Ready root) (hl : g.Leads root r) :
    h ∈ hs ↔ g.ReachesNode root h := by
  refine ⟨hv.reached h, fun ⟨hh, n, hs⟩ => ?_⟩
  have hmem := hv.endOf_mem hready hl hh
  rwa [(Graph.Leads.of_node hs).endOf] at hmem

end Visits

/-- Chains of references from operands are followed to their ends. -/
theorem mapM_resolve {ks : List Handle} (h : ∀ k ∈ ks, g.resolve k = some (g.endOf k)) :
    ks.mapM g.resolve = some (ks.map g.endOf) := by
  induction ks with
  | nil => rfl
  | cons k ks ih =>
      rw [List.mapM_cons, h k List.mem_cons_self, ih fun q hq => h q (List.mem_cons_of_mem k hq)]
      rfl

/-- Drawing needs one step for each handle on the stack, and two for each slot that has not been
drawn yet. -/
theorem exists_visits {steps : Nat} {drawn : Std.TreeSet Handle} {todo : List Handle}
    (hready : g.Ready root) (htodo : ∀ h ∈ todo, g.ReachesNode root h)
    (hsteps : todo.length + 2 * (Grammar.unseen g.size drawn).card ≤ steps) :
    ∃ hs, Visits g root drawn todo hs ∧
      linesWithin g r steps drawn todo = some (hs.flatMap (nodeLines g r)) := by
  induction steps generalizing drawn todo with
  | zero =>
      cases todo with
      | nil => exact ⟨[], .nil, by rw [linesWithin]; rfl⟩
      | cons h todo => simp at hsteps
  | succ steps ih =>
      cases todo with
      | nil => exact ⟨[], .nil, by rw [linesWithin]; rfl⟩
      | cons h todo =>
          obtain ⟨hh, htodo⟩ := List.forall_mem_cons.1 htodo
          rw [List.length_cons] at hsteps
          unfold linesWithin
          split
          · next hdrawn =>
              have hsteps' : todo.length + 2 * (Grammar.unseen g.size drawn).card ≤ steps := by
                omega
              obtain ⟨hs, hv, hlines⟩ := ih htodo hsteps'
              exact ⟨hs, hv.skip hdrawn, hlines⟩
          · next hdrawn =>
              have htargets : (g.node h).children.mapM g.resolve =
                  some ((g.node h).children.map g.endOf) :=
                mapM_resolve fun k hk => Graph.resolve_eq_some.2 (hh.operand hready hk).1
              have hsteps' : (((g.node h).children.map g.endOf).reverse ++ todo).length +
                  2 * (Grammar.unseen g.size (drawn.insert h)).card ≤ steps := by
                have hlt := Grammar.card_unseen_insert_lt hh.lt hdrawn
                have hchildren := Grammar.length_children_le (g.node h)
                rw [List.length_append, List.length_reverse, List.length_map]
                omega
              obtain ⟨hs, hv, hlines⟩ := ih (hh.pushed hready htodo) hsteps'
              refine ⟨h :: hs, hv.draw hdrawn hh, ?_⟩
              simp only [htargets, Option.bind_eq_bind, Option.bind_some, hlines]
              rfl

/-! ## What has been written -/

/-- The statements of a node and of its edges. -/
def nodeStatements (g : Graph) (root h : Handle) : List Statement :=
  .node h ((label (g.node h)).toList.flatMap escapeChar) (decide (h = root)) ::
    g.outgoing h (g.node h)

theorem edgesFrom_eq_outgoing (g : Graph) (h : Handle) (n : Node) :
    edgesFrom h (isNumbered n) 1 (n.children.map g.endOf) = g.outgoing h n := by
  cases n <;> rfl

/-- The lines of nodes and of their edges read as their statements. -/
theorem readsAs_nodeLines (g : Graph) (root : Handle) (hs : List Handle) :
    ReadsAs (String.join (hs.flatMap (nodeLines g root))).toList
      (hs.flatMap (nodeStatements g root)) := by
  have hlines (h : Handle) : ReadsAs ((nodeLines g root h).flatMap String.toList)
      (nodeStatements g root h) := by
    have hnode := readsAs_nodeLine root h (g.node h)
    have hedges := readsAs_edgeLines h (isNumbered (g.node h)) 1
      ((g.node h).children.map g.endOf)
    rw [edgesFrom_eq_outgoing] at hedges
    simpa [nodeLines, nodeStatements] using hnode.append hedges
  rw [String.toList_join, List.flatMap_assoc]
  exact .flatMap fun h _ => hlines h

/-- The edges of a node start there and lead to its operands. -/
theorem mem_outgoing {s : Statement} (hs : s ∈ g.outgoing h n) :
    ∃ k ∈ n.children, ∃ label, s = .edge h (g.endOf k) label := by
  unfold Graph.outgoing at hs
  split at hs
  · next a b =>
      rw [List.mem_cons, List.mem_singleton] at hs
      rcases hs with rfl | rfl
      · exact ⟨a, by simp [Node.children], _, rfl⟩
      · exact ⟨b, by simp [Node.children], _, rfl⟩
  · obtain ⟨k, hk, rfl⟩ := List.mem_map.1 hs
    exact ⟨k, hk, none, rfl⟩

theorem mem_nodeStatements {s : Statement} {hs : List Handle}
    (h : s ∈ hs.flatMap (nodeStatements g root)) :
    ∃ h ∈ hs, s = .node h ((label (g.node h)).toList.flatMap escapeChar) (decide (h = root)) ∨
      ∃ k ∈ (g.node h).children, ∃ label, s = .edge h (g.endOf k) label := by
  obtain ⟨h, hh, hs⟩ := List.mem_flatMap.1 h
  rcases List.mem_cons.1 hs with hs | hs
  · exact ⟨h, hh, .inl hs⟩
  · exact ⟨h, hh, .inr (mem_outgoing hs)⟩

/-- The nodes that are declared are those whose lines are written. -/
theorem declared_nodeStatements (g : Graph) (root : Handle) (hs : List Handle) :
    (hs.flatMap (nodeStatements g root)).filterMap Statement.declared? = hs := by
  have hnode (h : Handle) : (nodeStatements g root h).filterMap Statement.declared? = [h] := by
    refine congrArg (h :: ·) (List.filterMap_eq_nil_iff.2 fun s hs => ?_)
    obtain ⟨k, -, label, rfl⟩ := mem_outgoing hs
    rfl
  rw [List.filterMap_flatMap]
  simp only [hnode, List.flatMap_singleton']

/-- The edges at a node are those that are written with it, if it is written once. -/
theorem filter_nodeStatements (g : Graph) (root : Handle) {hs : List Handle} (hnodup : hs.Nodup)
    (hh : h ∈ hs) : (hs.flatMap (nodeStatements g root)).filter (fun s => s.source? = some h) =
      g.outgoing h (g.node h) := by
  have hother {ks : List Handle} (hks : h ∉ ks) :
      (ks.flatMap (nodeStatements g root)).filter (fun s => s.source? = some h) = [] := by
    refine List.filter_eq_nil_iff.2 fun s hs => ?_
    obtain ⟨k, hk, rfl | ⟨c, -, label, rfl⟩⟩ := mem_nodeStatements hs
    · simp [Statement.source?]
    · have hne : k ≠ h := fun he => hks (he ▸ hk)
      simpa [Statement.source?] using hne
  have hself : (nodeStatements g root h).filter (fun s => s.source? = some h) =
      g.outgoing h (g.node h) := by
    refine (List.filter_cons_of_neg (by simp [Statement.source?])).trans ?_
    refine List.filter_eq_self.2 fun s hs => ?_
    obtain ⟨c, -, label, rfl⟩ := mem_outgoing hs
    simp [Statement.source?]
  obtain ⟨before, after, rfl⟩ := List.append_of_mem hh
  obtain ⟨-, hafter, hdisjoint⟩ := List.nodup_append.1 hnodup
  have hbefore : h ∉ before := fun hin => hdisjoint h hin h List.mem_cons_self rfl
  have hafter : h ∉ after := (List.nodup_cons.1 hafter).1
  rw [List.flatMap_append, List.flatMap_cons, List.filter_append, List.filter_append,
    hother hbefore, hself, hother hafter, List.nil_append, List.append_nil]

/-- The handles that are drawn from the root on are written as statements that draw its graph. -/
theorem Visits.draws {hs : List Handle} (hv : Visits g root ∅ [r] hs) (hready : g.Ready root)
    (hl : g.Leads root r) : g.Draws root (hs.flatMap (nodeStatements g r)) where
  nodup := by
    rw [declared_nodeStatements]
    exact hv.nodup
  declared_iff h := by
    rw [declared_nodeStatements]
    exact hv.mem_iff hready hl
  label h label doubled hmem := by
    obtain ⟨k, -, he | ⟨c, -, l, he⟩⟩ := mem_nodeStatements hmem
    · cases he
      exact ⟨⟨_, shows_label _, unescape_escape _⟩, hasBareQuote_escape _⟩
    · cases he
  doubled h label doubled hmem := by
    obtain ⟨k, -, he | ⟨c, -, l, he⟩⟩ := mem_nodeStatements hmem
    · cases he
      rw [decide_eq_true_eq]
      exact ⟨fun he => he ▸ hl, fun hk => hk.unique hl⟩
    · cases he
  edges h n hh hs := by
    rw [filter_nodeStatements g r hv.nodup ((hv.mem_iff hready hl).2 ⟨hh, n, hs⟩),
      Graph.node_eq hs]
  ends source target label hmem := by
    rw [declared_nodeStatements]
    obtain ⟨k, hk, he | ⟨c, hc, l, he⟩⟩ := mem_nodeStatements hmem
    · cases he
    · cases he
      exact ⟨hk, (hv.mem_iff hready hl).2 ((hv.reached _ hk).operand hready hc).2⟩

end Diagram

/-! ## Drawing an expression -/

/-- The diagram of a handle that is ready reads as statements that draw it. -/
theorem Graph.Ready.diagram (hready : g.Ready root) (hl : g.Leads root r) :
    ∃ text statements, g.diagram r = some text ∧ Diagram.read text = some statements ∧
      g.Draws root statements := by
  obtain ⟨n, hlr, hs⟩ := hready.leads_endOf .refl
  obtain rfl := hlr.unique hl
  have hroot : ∀ h ∈ [g.endOf root], g.ReachesNode root h :=
    List.forall_mem_singleton.2 ⟨hl.reaches, n, hs⟩
  have hcard : (Grammar.unseen g.size ∅).card ≤ g.size :=
    (Finset.card_filter_le _ _).trans (Finset.card_range _).le
  have hsteps : [g.endOf root].length + 2 * (Grammar.unseen g.size ∅).card ≤ 2 * g.size + 2 := by
    rw [List.length_singleton]
    omega
  obtain ⟨hs, hv, hlines⟩ := exists_visits hready hroot hsteps
  refine ⟨_, _, ?_, (readsAs_nodeLines g (g.endOf root) hs).read, hv.draws hready hl⟩
  unfold Graph.diagram
  rw [hlines]
  rfl

namespace Grammar

variable {g g₁ : Grammar}

/-- The diagram of an expression that can be prepared reads as statements that draw it. -/
theorem diagram_draws (hg : g.WellFormed) (hroot : g.Has root)
    (hprepare : (prepare root).run.run g = (.ok r, g₁)) :
    ∃ text statements, (diagram root).run.run g = (.ok text, g₁) ∧
      Diagram.read text = some statements ∧ g₁.graph.Draws root statements := by
  obtain ⟨-, -, hl, hready⟩ := hg.of_prepare hroot hprepare
  obtain ⟨text, statements, htext, hread, hdraws⟩ := hready.diagram hl
  refine ⟨text, statements, ?_, hread, hdraws⟩
  unfold Grammar.diagram
  rw [run_bind, hprepare]
  exact run_answer.2 ⟨htext, rfl⟩

namespace Quoting

/-- The grammar of `s = '"' s | ε`, with a reducer whose name has quotes, a backslash and a line
break in it. -/
def grammar : Grammar :=
  ⟨⟨#[.node .nil, .node .empty, .node .any, .forward ⟨7⟩, .node (.char '"'),
      .node (.seq ⟨4⟩ ⟨3⟩), .node (.alt ⟨5⟩ ⟨1⟩),
      .node (.reduction ⟨6⟩ { name := "\"] id1\n\\\"", action := id })]⟩, [("s", ⟨3⟩)], [], 0⟩

theorem wellFormed_grammar : grammar.WellFormed where
  graph := .of_fits rfl rfl rfl (by decide)
  rules := by decide
  names := by decide

/-- An edge leads back to the root, whose label would end after two characters if quotes were not
escaped. -/
theorem diagram_draws_quoting :
    grammar.WellFormed ∧ grammar.Has ⟨3⟩ ∧
      (prepare ⟨3⟩).run.run grammar = (.ok ⟨7⟩, grammar) ∧
      ∃ text statements, (diagram ⟨3⟩).run.run grammar = (.ok text, grammar) ∧
        Diagram.read text = some statements ∧ grammar.graph.Draws ⟨3⟩ statements := by
  have hroot : grammar.Has ⟨3⟩ := (by decide : 3 < 8)
  have hprepare : (prepare ⟨3⟩).run.run grammar = (.ok ⟨7⟩, grammar) := rfl
  exact ⟨wellFormed_grammar, hroot, hprepare, diagram_draws wellFormed_grammar hroot hprepare⟩

end Quoting

end Grammar

end DerivativeParsing
