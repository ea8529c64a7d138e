import DerivativeParsing.Notation.Program
import DerivativeParsing.Proofs.Construction

/-!
# The expressions of rule bodies

What the code for the body of a rule leaves in a grammar: `Term.Builds`, `Branch.Builds` and
`Alternatives.Builds` say of a handle that it is the expression of a term, a branch or a choice.
They follow the notation and not the code, so that a group is what it encloses, one part needs no
sequence, and three or more parts are made flat.

The code for a body without mistakes always succeeds and leaves such an expression
(`Alternatives.succeeds_express`).  It adds nodes and open rules only, and a slot that is not a node
is always that of a rule (`Tidy`).
-/

set_option autoImplicit false

namespace DerivativeParsing.Notation

open Grammar DerivativeParsing.Graph

/-! ## What code leaves behind -/

/-- Operands have been joined from the left. -/
def Joined (graph : Graph) (join : Handle → Handle → Node) : Handle → List Handle → Handle → Prop
  | acc, [], h => h = acc
  | acc, k :: ks, h =>
    ∃ a, graph.slot? a = some (.node (join acc k)) ∧ Joined graph join a ks h

/-- The trees of a sequence of three or more parts have been made flat. -/
def Flattened (graph : Graph) (parts : Nat) (s h : Handle) : Prop :=
  if 3 ≤ parts then graph.slot? h = some (.node (.reduction s (.flatten parts))) else h = s

/-- Parts have been put in sequence. -/
def Sequenced (graph : Graph) : List Handle → Handle → Prop
  | [], h => h = .empty
  | k :: ks, h => ∃ s, Joined graph .seq k ks s ∧ Flattened graph (ks.length + 1) s h

/-- The reducer of a branch has been added, with the name of its path.  What it does to trees is no
matter of words. -/
def Reduced (graph : Graph) : Option Path → Handle → Handle → Prop
  | none, k, h => h = k
  | some path, k, h =>
    ∃ f : Reducer, f.name = path.reducerName ∧ graph.slot? h = some (.node (.reduction k f))

/-- The node of a range. -/
def rangeNode (first last : Char) : Node := if first = last then .char first else .range first last

mutual

/-- A handle is the expression of a term. -/
def Term.Builds (g : Grammar) : Term → Handle → Prop
  | .rule name, h => g.rules.lookup name = some h
  | .any, h => h = .any
  | .char c, h => g.graph.slot? h = some (.node (.char c.value))
  | .range first last, h => g.graph.slot? h = some (.node (rangeNode first.value last.value))
  | .text text, h => g.graph.slot? h = some (.node (literalNode text.value.toList))
  | .group body, h => body.Builds g h
  | .star t, h => ∃ k, t.Builds g k ∧ g.graph.slot? h = some (.node (.star k))
  | .plus t, h => ∃ k s, t.Builds g k ∧ g.graph.slot? s = some (.node (.star k)) ∧
      g.graph.slot? h = some (.node (.seq k s))
  | .optional t, h => ∃ k, t.Builds g k ∧ g.graph.slot? h = some (.node (.alt k .empty))
  | .rep t n, h => ∃ k, t.Builds g k ∧ g.graph.slot? h = some (.node (.rep k (.exactly n.magnitude)))
  | .not t, h => ∃ k, t.Builds g k ∧ g.graph.slot? h = some (.node (.not k))

/-- A handle is the expression of a branch. -/
def Branch.Builds (g : Grammar) : Branch → Handle → Prop
  | ⟨terms, reducer⟩, h =>
    ∃ ks k, BuildsTerms g terms ks ∧ Sequenced g.graph ks k ∧ Reduced g.graph reducer k h

/-- A handle is the expression of a choice. -/
def Alternatives.Builds (g : Grammar) : Alternatives → Handle → Prop
  | ⟨first, rest⟩, h =>
    ∃ k ks, first.Builds g k ∧ BuildsBranches g rest ks ∧ Joined g.graph .alt k ks h

/-- Handles are the expressions of terms. -/
def BuildsTerms (g : Grammar) : List Term → List Handle → Prop
  | [], hs => hs = []
  | t :: ts, hs => ∃ k ks, hs = k :: ks ∧ t.Builds g k ∧ BuildsTerms g ts ks

/-- Handles are the expressions of branches. -/
def BuildsBranches (g : Grammar) : List Branch → List Handle → Prop
  | [], hs => hs = []
  | b :: bs, hs => ∃ k ks, hs = k :: ks ∧ b.Builds g k ∧ BuildsBranches g bs ks

end

theorem Joined.exists_node {graph : Graph} {join : Handle → Handle → Node} {acc k h : Handle}
    {ks : List Handle} (hj : Joined graph join acc (k :: ks) h) :
    ∃ n, graph.slot? h = some (.node n) := by
  induction ks generalizing acc k with
  | nil =>
      obtain ⟨a, hs, rfl⟩ := hj
      exact ⟨_, hs⟩
  | cons k' ks ih =>
      obtain ⟨a, -, hrest⟩ := hj
      exact ih hrest

/-- Two or more parts in sequence are a node. -/
theorem Sequenced.exists_node {graph : Graph} {k k' h : Handle} {ks : List Handle}
    (hs : Sequenced graph (k :: k' :: ks) h) : ∃ n, graph.slot? h = some (.node n) := by
  obtain ⟨s, hj, hflat⟩ := hs
  unfold Flattened at hflat
  split at hflat
  · exact ⟨_, hflat⟩
  · rw [hflat]
    exact hj.exists_node

/-! ### Closed regions -/

section Closed

variable {g : Graph} {D : Set Handle} {acc h k s : Handle} {ks : List Handle} {n : Node}

theorem mem_of_closed (hD : g.Closed D) (hh : h ∈ D) (hs : g.slot? h = some (.node n))
    (hk : k ∈ n.children) : k ∈ D :=
  hD h hh k (by rwa [references_of_node hs])

/-- A closed region with an expression has the expressions that it is joined from. -/
theorem Joined.mem {join : Handle → Handle → Node} (hD : g.Closed D)
    (hjoin : ∀ a b, (join a b).children = [a, b]) (hj : Joined g join acc ks h) (hh : h ∈ D) :
    acc ∈ D ∧ ∀ k ∈ ks, k ∈ D := by
  induction ks generalizing acc with
  | nil =>
      obtain rfl : h = acc := hj
      exact ⟨hh, by simp⟩
  | cons k ks ih =>
      obtain ⟨a, hs, hrest⟩ := hj
      obtain ⟨ha, hks⟩ := ih hrest
      have hacc : acc ∈ D := mem_of_closed hD ha hs (by simp [hjoin])
      have hk : k ∈ D := mem_of_closed hD ha hs (by simp [hjoin])
      exact ⟨hacc, List.forall_mem_cons.2 ⟨hk, hks⟩⟩

theorem Flattened.mem {parts : Nat} (hD : g.Closed D) (hf : Flattened g parts s h) (hh : h ∈ D) :
    s ∈ D := by
  unfold Flattened at hf
  split at hf
  · exact mem_of_closed hD hh hf (by simp [Node.children])
  · exact hf ▸ hh

theorem Sequenced.mem (hD : g.Closed D) (hs : Sequenced g ks h) (hh : h ∈ D) : ∀ k ∈ ks, k ∈ D := by
  cases ks with
  | nil => simp
  | cons k ks =>
      obtain ⟨s, hj, hflat⟩ := hs
      exact List.forall_mem_cons.2 (hj.mem hD (fun _ _ => rfl) (hflat.mem hD hh))

theorem Reduced.mem {reducer : Option Path} (hD : g.Closed D) (hr : Reduced g reducer k h)
    (hh : h ∈ D) : k ∈ D := by
  cases reducer with
  | none =>
      obtain rfl : h = k := hr
      exact hh
  | some path =>
      obtain ⟨f, -, hs⟩ := hr
      exact mem_of_closed hD hh hs (by simp [Node.children])

end Closed

/-! ### Later grammars -/

section Later

variable {g g' : Grammar} {h k s : Handle} {ks : List Handle} {join : Handle → Handle → Node}

/-- Nodes and rules are still there in another grammar. -/
structure Keeps (g g' : Grammar) : Prop where
  node : ∀ h n, g.graph.slot? h = some (.node n) → g'.graph.slot? h = some (.node n)
  rule : ∀ name h, g.rules.lookup name = some h → g'.rules.lookup name = some h

theorem Keeps.of_enlarges (h : Enlarges g g') : Keeps g g' where
  node k _ hs := (h.kept.2 k (slot?_lt hs)).trans hs
  rule _ _ := lookup_lengthened h.rules

theorem Joined.keeps (hkeeps : Keeps g g') (hj : Joined g.graph join k ks h) :
    Joined g'.graph join k ks h := by
  induction ks generalizing k with
  | nil => exact hj
  | cons k' ks ih =>
      obtain ⟨a, hs, hrest⟩ := hj
      exact ⟨a, hkeeps.node a _ hs, ih hrest⟩

theorem Flattened.keeps {parts : Nat} (hkeeps : Keeps g g') (hf : Flattened g.graph parts s h) :
    Flattened g'.graph parts s h := by
  unfold Flattened at hf ⊢
  by_cases hparts : 3 ≤ parts
  · rw [if_pos hparts] at hf ⊢
    exact hkeeps.node h _ hf
  · rwa [if_neg hparts] at hf ⊢

theorem Sequenced.keeps (hkeeps : Keeps g g') (hs : Sequenced g.graph ks h) :
    Sequenced g'.graph ks h := by
  cases ks with
  | nil => exact hs
  | cons k ks =>
      obtain ⟨s, hj, hflat⟩ := hs
      exact ⟨s, hj.keeps hkeeps, hflat.keeps hkeeps⟩

theorem Reduced.keeps {reducer : Option Path} (hkeeps : Keeps g g')
    (hr : Reduced g.graph reducer k h) : Reduced g'.graph reducer k h := by
  cases reducer with
  | none => exact hr
  | some path =>
      obtain ⟨f, hf, hs⟩ := hr
      exact ⟨f, hf, hkeeps.node h _ hs⟩

mutual

/-- The expression of a term stays that of the term. -/
theorem Term.Builds.keeps {t : Term} {h : Handle} (hb : t.Builds g h) (hkeeps : Keeps g g') :
    t.Builds g' h := by
  cases t with
  | rule name => exact hkeeps.rule name h hb
  | any => exact hb
  | char c => exact hkeeps.node h _ hb
  | range first last => exact hkeeps.node h _ hb
  | text text => exact hkeeps.node h _ hb
  | group body => exact Alternatives.Builds.keeps hb hkeeps
  | star t =>
      obtain ⟨k, hk, hs⟩ := hb
      exact ⟨k, Term.Builds.keeps hk hkeeps, hkeeps.node h _ hs⟩
  | plus t =>
      obtain ⟨k, s, hk, hrest, hs⟩ := hb
      exact ⟨k, s, Term.Builds.keeps hk hkeeps, hkeeps.node s _ hrest, hkeeps.node h _ hs⟩
  | optional t =>
      obtain ⟨k, hk, hs⟩ := hb
      exact ⟨k, Term.Builds.keeps hk hkeeps, hkeeps.node h _ hs⟩
  | rep t n =>
      obtain ⟨k, hk, hs⟩ := hb
      exact ⟨k, Term.Builds.keeps hk hkeeps, hkeeps.node h _ hs⟩
  | not t =>
      obtain ⟨k, hk, hs⟩ := hb
      exact ⟨k, Term.Builds.keeps hk hkeeps, hkeeps.node h _ hs⟩

theorem Branch.Builds.keeps {b : Branch} {h : Handle} (hb : b.Builds g h) (hkeeps : Keeps g g') :
    b.Builds g' h := by
  obtain ⟨terms, reducer⟩ := b
  obtain ⟨ks, k, hks, hs, hr⟩ := hb
  exact ⟨ks, k, BuildsTerms.keeps hks hkeeps, hs.keeps hkeeps, hr.keeps hkeeps⟩

theorem Alternatives.Builds.keeps {body : Alternatives} {h : Handle} (hb : body.Builds g h)
    (hkeeps : Keeps g g') : body.Builds g' h := by
  obtain ⟨first, rest⟩ := body
  obtain ⟨k, ks, hk, hks, hj⟩ := hb
  exact ⟨k, ks, Branch.Builds.keeps hk hkeeps, BuildsBranches.keeps hks hkeeps, hj.keeps hkeeps⟩

theorem BuildsTerms.keeps {ts : List Term} {hs : List Handle} (hb : BuildsTerms g ts hs)
    (hkeeps : Keeps g g') : BuildsTerms g' ts hs := by
  cases ts with
  | nil => exact hb
  | cons t ts =>
      obtain ⟨k, ks, rfl, hk, hks⟩ := hb
      exact ⟨k, ks, rfl, Term.Builds.keeps hk hkeeps, BuildsTerms.keeps hks hkeeps⟩

theorem BuildsBranches.keeps {bs : List Branch} {hs : List Handle} (hb : BuildsBranches g bs hs)
    (hkeeps : Keeps g g') : BuildsBranches g' bs hs := by
  cases bs with
  | nil => exact hb
  | cons b bs =>
      obtain ⟨k, ks, rfl, hk, hks⟩ := hb
      exact ⟨k, ks, rfl, Branch.Builds.keeps hk hkeeps, BuildsBranches.keeps hks hkeeps⟩

end

end Later

/-! ## Tidy grammars -/

/-- What holds of a grammar that code for bodies builds, if the bodies refer to `names` only: every
slot holds a node or belongs to a rule, each rule has a slot of its own, and nodes are made after
their operands. -/
structure Tidy (names : List String) (g : Grammar) : Prop where
  plain : Plain g
  declared : ∀ name h, g.rules.lookup name = some h → name ∈ names
  distinct : ∀ name name' h, g.rules.lookup name = some h → g.rules.lookup name' = some h →
    name = name'
  slots : ∀ h s, g.graph.slot? h = some s →
    (∃ n, s = .node n) ∨ ∃ name, g.rules.lookup name = some h
  descends : ∀ h n, g.graph.slot? h = some (.node n) → ∀ k ∈ n.children, k.index < h.index

section Tidy

variable {names : List String} {g g' : Grammar} {h : Handle} {n : Node} {name : String}

theorem tidy_initial : Tidy names initial where
  plain := plain_initial
  declared _ _ hlookup := by cases hlookup
  distinct _ _ _ hlookup := by cases hlookup
  slots := by
    rintro ⟨i⟩ s hs
    rcases i with _ | _ | _ | i <;> cases hs
    all_goals exact .inl ⟨_, rfl⟩
  descends := by
    rintro ⟨i⟩ n hs k hk
    rcases i with _ | _ | _ | i <;> cases hs <;> cases hk

theorem Tidy.has_of_lookup (hg : Tidy names g) (hlookup : g.rules.lookup name = some h) : g.Has h :=
  WellFormed.lookup_has hg.plain.wellFormed.rules hlookup

theorem Tidy.make (hg : Tidy names g) (hn : ∀ k ∈ n.children, g.Has k) (htoken : n ≠ .token []) :
    Tidy names { g with graph := (g.graph.make n).2 } := by
  have hsound : Sound Graph.Prefix (Grammar.make n) Has g := hg.plain.wellFormed.make hn htoken
  have hwf := hsound.wellFormed
  have henlarges : Enlarges g { g with graph := (g.graph.make n).2 } := moves_make n g
  refine ⟨hg.plain.enlarge hwf henlarges, hg.declared, hg.distinct, fun h s hs => ?_,
    fun h m hs k hk => ?_⟩
  all_goals
    change (g.graph.make n).2.slot? h = _ at hs
    rcases g.graph.make_cases n with ⟨h', he, -⟩ | he <;> rw [he] at hs
  · exact hg.slots h s hs
  · rw [slot?_alloc] at hs
    split at hs
    · exact .inl ⟨n, (Option.some.inj hs).symm⟩
    · exact hg.slots h s hs
  · exact hg.descends h m hs k hk
  · rw [slot?_alloc] at hs
    split at hs
    · next hnew =>
        obtain rfl : n = m := Slot.node.inj (Option.some.inj hs)
        rw [hnew]
        exact hn k hk
    · exact hg.descends h m hs k hk

/-- An entry has been added for a name that had none. -/
theorem lookup_added {entries : List (String × Handle)} {name' : String} {new : Handle}
    (hlookup : (entries ++ [(name, new)]).lookup name' = some h) :
    entries.lookup name' = some h ∨ name' = name ∧ h = new := by
  rw [List.lookup_append] at hlookup
  rcases hold : entries.lookup name' with _ | h' <;> rw [hold] at hlookup
  · by_cases hname : name' = name
    · exact .inr ⟨hname, by simpa [hname] using hlookup.symm⟩
    · have hne : (name' == name) = false := by simpa using hname
      simp [List.lookup_cons, hne] at hlookup
  · exact .inl hlookup

theorem lookup_added_self {entries : List (String × Handle)} {new : Handle}
    (hlookup : entries.lookup name = none) :
    (entries ++ [(name, new)]).lookup name = some new := by
  simp [List.lookup_append, hlookup]

theorem Tidy.rule (hg : Tidy names g) (hname : name ∈ names)
    (hlookup : g.rules.lookup name = none) :
    Tidy names { g with graph := (g.graph.alloc (.undefined name)).2
                        rules := g.rules ++ [(name, ⟨g.graph.size⟩)] } := by
  have hsound : Sound Graph.Prefix (Grammar.rule name) Has g := hg.plain.wellFormed.rule name
  have hwf := hsound.wellFormed
  have henlarges := moves_rule name g
  rw [run_rule_of_new hlookup] at hwf henlarges
  have hold {name' : String} (h : g.rules.lookup name' = some ⟨g.graph.size⟩) : False :=
    Nat.lt_irrefl _ (hg.has_of_lookup h)
  refine ⟨hg.plain.enlarge hwf henlarges, fun name' h hl => ?_, fun name₁ name₂ h h₁ h₂ => ?_,
    fun h s hs => ?_, fun h m hs k hk => ?_⟩
  · rcases lookup_added hl with hl | ⟨rfl, -⟩
    · exact hg.declared name' h hl
    · exact hname
  · rcases lookup_added h₁ with hl₁ | ⟨hn₁, he₁⟩ <;> rcases lookup_added h₂ with hl₂ | ⟨hn₂, he₂⟩
    · exact hg.distinct name₁ name₂ h hl₁ hl₂
    · exact (hold (he₂ ▸ hl₁)).elim
    · exact (hold (he₁ ▸ hl₂)).elim
    · rw [hn₁, hn₂]
  · change (g.graph.alloc (.undefined name)).2.slot? h = _ at hs
    rw [slot?_alloc] at hs
    split at hs
    · next hnew =>
        obtain rfl : h = ⟨g.graph.size⟩ := Handle.ext_index hnew
        exact .inr ⟨name, lookup_added_self hlookup⟩
    · exact (hg.slots h s hs).imp_right fun ⟨name', hl⟩ =>
        ⟨name', lookup_lengthened henlarges.rules hl⟩
  · change (g.graph.alloc (.undefined name)).2.slot? h = _ at hs
    rw [slot?_alloc] at hs
    split at hs
    · cases hs
    · exact hg.descends h m hs k hk

/-- A rule whose slot is open gets its body. -/
theorem Tidy.setForward {t r : Handle} {name' : String} (hg : Tidy names g)
    (hlookup : g.rules.lookup name = some h) (hopen : g.graph.slot? h = some (.undefined name'))
    (ht : g.Has t) (hl : g.graph.Leads t r) (hne : r ≠ h) :
    Tidy names { g with graph := g.graph.setForward h t } := by
  refine ⟨hg.plain.setForward hopen ht hl hne, hg.declared, hg.distinct, fun k s hs => ?_,
    fun k n hs => ?_⟩
  all_goals
    change (g.graph.setForward h t).slot? k = _ at hs
    by_cases hk : k = h
  · exact .inr ⟨name, hk ▸ hlookup⟩
  · rw [slot?_setForward_of_ne hk] at hs
    exact hg.slots k s hs
  · rw [hk, slot?_setForward_self (slot?_lt hopen)] at hs
    cases hs
  · rw [slot?_setForward_of_ne hk] at hs
    exact hg.descends k n hs

end Tidy

/-! ## Carrying out the code of a body -/

/-- An action succeeds in a grammar, which it keeps tidy and only enlarges, and its result has a
property. -/
def Succeeds {α : Type} (names : List String) (x : GrammarM α) (Q : α → Grammar → Prop)
    (g : Grammar) : Prop :=
  ∃ a g', x.run.run g = (.ok a, g') ∧ Tidy names g' ∧ Enlarges g g' ∧ Q a g'

section Succeeds

variable {names : List String} {α β : Type} {g : Grammar} {x : GrammarM α}
  {Q R : α → Grammar → Prop} {S : β → Grammar → Prop} {f : α → GrammarM β}

theorem Succeeds.pure {a : α} (hg : Tidy names g) (ha : Q a g) : Succeeds names (pure a) Q g :=
  ⟨a, g, rfl, hg, .refl g, ha⟩

theorem Succeeds.bind (hx : Succeeds names x Q g)
    (hf : ∀ a g', Tidy names g' → Enlarges g g' → Q a g' → Succeeds names (f a) S g') :
    Succeeds names (x >>= f) S g := by
  obtain ⟨a, g₁, hrun, hg₁, henlarges, ha⟩ := hx
  obtain ⟨b, g₂, hrun', hg₂, henlarges', hb⟩ := hf a g₁ hg₁ henlarges ha
  refine ⟨b, g₂, ?_, hg₂, henlarges.trans henlarges', hb⟩
  rw [run_bind, hrun]
  exact hrun'

theorem Succeeds.mono (hx : Succeeds names x Q g)
    (hQR : ∀ a g', Tidy names g' → Q a g' → R a g') : Succeeds names x R g := by
  obtain ⟨a, g', hrun, hg', henlarges, ha⟩ := hx
  exact ⟨a, g', hrun, hg', henlarges, hQR a g' hg' ha⟩

/-- A handle is within the grammar and has a property there. -/
def At (P : Grammar → Handle → Prop) (h : Handle) (g : Grammar) : Prop := g.Has h ∧ P g h

/-- A node is stored at a handle. -/
def Holds (n : Node) (g : Grammar) (h : Handle) : Prop := g.graph.slot? h = some (.node n)

theorem succeeds_make {n : Node} (hg : Tidy names g) (hn : ∀ k ∈ n.children, g.Has k)
    (htoken : n ≠ .token []) : Succeeds names (make n) (At (Holds n)) g := by
  have hs := hg.plain.wellFormed.graph.slot?_make (n := n)
  exact ⟨_, _, rfl, hg.make hn htoken, moves_make n g, slot?_lt hs, hs⟩

theorem succeeds_rule {name : String} (hg : Tidy names g) (hname : name ∈ names) :
    Succeeds names (Grammar.rule name)
      (At fun g h => g.rules.lookup name = some h) g := by
  rcases hlookup : g.rules.lookup name with _ | h
  · have hnew : (g.rules ++ [(name, _)]).lookup name = some ⟨g.graph.size⟩ :=
      lookup_added_self hlookup
    have henlarges := moves_rule name g
    rw [run_rule_of_new hlookup] at henlarges
    refine ⟨_, _, run_rule_of_new hlookup, hg.rule hname hlookup, henlarges, ?_, hnew⟩
    exact (hg.rule hname hlookup).has_of_lookup hnew
  · exact ⟨h, g, run_rule_of_lookup hlookup, hg, .refl g, hg.has_of_lookup hlookup, hlookup⟩

theorem succeeds_unary {node : Handle → Node} {k : Handle} (hg : Tidy names g) (hk : g.Has k)
    (hnode : (node k).children = [k]) :
    Succeeds names (unary node (.handle k)) (At (Holds (node k))) g := by
  refine succeeds_make hg (by simpa [hnode] using hk) fun he => ?_
  rw [he] at hnode
  cases hnode

/-- Joining expressions of the grammar succeeds. -/
theorem succeeds_joinFrom {acc : Handle} {ks : List Handle} (join : Handle → Handle → Node)
    (hjoin : ∀ a b, (join a b).children = [a, b]) (hg : Tidy names g) (hacc : g.Has acc)
    (hks : ∀ k ∈ ks, g.Has k) :
    Succeeds names (joinFrom join acc (ks.map .handle))
      (At fun g h => Joined g.graph join acc ks h) g := by
  induction ks generalizing g acc with
  | nil => exact .pure hg ⟨hacc, rfl⟩
  | cons k ks ih =>
      have htoken : join acc k ≠ .token [] := fun he => by
        have := hjoin acc k
        rw [he] at this
        cases this
      refine Succeeds.bind (Q := fun a g' => a = k ∧ g' = g) ⟨k, g, rfl, hg, .refl g, rfl, rfl⟩ ?_
      rintro k' g' - - ⟨hk', hg'⟩
      rw [hk', hg']
      refine (succeeds_make hg ?_ htoken).bind fun a g₁ hg₁ henlarges ⟨ha, hs⟩ => ?_
      · simpa [hjoin] using ⟨hacc, hks k (by simp)⟩
      have hgrows : Graph.Prefix g.graph g₁.graph := henlarges.kept
      have hks₁ : ∀ k' ∈ ks, g₁.Has k' := fun k' hk' => (hks k' (by simp [hk'])).change hgrows
      obtain ⟨h, g₂, hrun, hg₂, henlarges₂, hh, hj⟩ := ih hg₁ ha hks₁
      exact ⟨h, g₂, hrun, hg₂, henlarges₂, hh, a, (Keeps.of_enlarges henlarges₂).node a _ hs, hj⟩

end Succeeds

/-! ## The code of a body -/

/-- An operand is an expression of the grammar with a property. -/
def Yields (P : Grammar → Handle → Prop) (o : Operand) (g : Grammar) : Prop :=
  ∃ h, o = .handle h ∧ At P h g

/-- Operands are expressions of the grammar with a property that they have together. -/
def YieldsEach (P : Grammar → List Handle → Prop) (os : List Operand) (g : Grammar) : Prop :=
  ∃ hs : List Handle, os = hs.map .handle ∧ (∀ h ∈ hs, g.Has h) ∧ P g hs

section Code

variable {actions : Actions} {names : List String} {g : Grammar} {p : Description}
  {ps : List Description}
  {x : GrammarM Handle} {P Q : Grammar → Handle → Prop}

theorem Succeeds.asOperand (hx : Succeeds names x (At P) g) :
    Succeeds names (Grammar.asOperand x) (Yields P) g :=
  hx.bind fun h _ hg' _ hh => .pure hg' ⟨h, rfl, hh⟩

theorem Succeeds.yields (hp : Succeeds names (build p) (Yields P) g)
    (hPQ : ∀ g' h, P g' h → Q g' h) : Succeeds names (build p) (Yields Q) g :=
  hp.mono fun _ g' _ ⟨h, ho, hh, hP⟩ => ⟨h, ho, hh, hPQ g' h hP⟩

/-- Adding a node with one operand to what a description yields. -/
theorem Succeeds.unary (node : Handle → Node) (hnode : ∀ k, (node k).children = [k])
    (hP : ∀ {g g' h}, P g h → Keeps g g' → P g' h) (hp : Succeeds names (build p) (Yields P) g) :
    Succeeds names (do Grammar.asOperand (Grammar.unary node (← build p)))
      (Yields fun g h => ∃ k, P g k ∧ Holds (node k) g h) g := by
  refine hp.bind fun _ g₁ hg₁ _ ⟨k, ho, hk, hPk⟩ => ?_
  obtain rfl := ho
  refine Succeeds.asOperand ?_
  obtain ⟨h, g₂, hrun, hg₂, henlarges, hh, hs⟩ := succeeds_unary hg₁ hk (hnode k)
  exact ⟨h, g₂, hrun, hg₂, henlarges, hh, k, hP hPk (.of_enlarges henlarges), hs⟩

/-- Repeating what a description yields at least once. -/
theorem Succeeds.plus (hP : ∀ {g g' h}, P g h → Keeps g g' → P g' h)
    (hp : Succeeds names (build p) (Yields P) g) :
    Succeeds names (build (.plus p))
      (Yields fun g h => ∃ k s, P g k ∧ Holds (.star k) g s ∧ Holds (.seq k s) g h) g := by
  refine hp.bind fun _ g₁ hg₁ _ ⟨k, ho, hk, hPk⟩ => ?_
  obtain rfl := ho
  refine Succeeds.asOperand ?_
  change Succeeds names (make (.star k) >>= fun s => make (.seq k s)) _ g₁
  refine Succeeds.bind (succeeds_make hg₁ (by simpa [Node.children] using hk) (by simp))
    fun s g₂ hg₂ henlarges ⟨hs, hstar⟩ => ?_
  have hgrows : Graph.Prefix g₁.graph g₂.graph := henlarges.kept
  have hk₂ : g₂.Has k := hk.change hgrows
  obtain ⟨h, g₃, hrun, hg₃, henlarges', hh, hseq⟩ :=
    succeeds_make hg₂ (n := .seq k s) (by simpa [Node.children] using ⟨hk₂, hs⟩) (by simp)
  have hkeeps := Keeps.of_enlarges henlarges'
  have hPk₃ := hP (hP hPk (.of_enlarges henlarges)) hkeeps
  exact ⟨h, g₃, hrun, hg₃, henlarges', hh, k, s, hPk₃, hkeeps.node s _ hstar, hseq⟩

/-- Adding `ε` as an alternative to what a description yields. -/
theorem Succeeds.optional (hP : ∀ {g g' h}, P g h → Keeps g g' → P g' h)
    (hp : Succeeds names (build p) (Yields P) g) :
    Succeeds names (build (.optional p))
      (Yields fun g h => ∃ k, P g k ∧ Holds (.alt k .empty) g h) g := by
  have heach : Succeeds names (buildEach [p, .empty])
      (fun os g => ∃ k, os = [.handle k, .handle .empty] ∧ At P k g) g :=
    hp.bind fun _ g₁ hg₁ _ ⟨k, ho, hk⟩ => ⟨_, g₁, rfl, hg₁, .refl g₁, k, by rw [ho], hk⟩
  refine heach.bind fun _ g₁ hg₁ _ ⟨k, hos, hk, hPk⟩ => ?_
  obtain rfl := hos
  refine Succeeds.asOperand ?_
  have hempty : g₁.Has .empty := hg₁.plain.wellFormed.has_empty
  obtain ⟨h, g₂, hrun, hg₂, henlarges, hh, a, hs, he⟩ :=
    succeeds_joinFrom .alt (fun _ _ => rfl) hg₁ hk (List.forall_mem_singleton.2 hempty)
  obtain rfl : h = a := he
  exact ⟨h, g₂, hrun, hg₂, henlarges, hh, k, hP hPk (.of_enlarges henlarges), hs⟩

/-- Building one description after the other. -/
theorem Succeeds.cons {R S : Grammar → List Handle → Prop}
    (hP : ∀ {g g' h}, P g h → Keeps g g' → P g' h) (hp : Succeeds names (build p) (Yields P) g)
    (hps : ∀ g', Tidy names g' → Succeeds names (buildEach ps) (YieldsEach R) g')
    (hS : ∀ g' k ks, P g' k → R g' ks → S g' (k :: ks)) :
    Succeeds names (buildEach (p :: ps)) (YieldsEach S) g := by
  refine hp.bind fun _ g₁ hg₁ _ ⟨k, ho, hk, hPk⟩ => ?_
  obtain rfl := ho
  refine (hps g₁ hg₁).bind fun _ g₂ hg₂ henlarges ⟨ks, hos, hks, hRks⟩ => ?_
  obtain rfl := hos
  have hgrows : Graph.Prefix g₁.graph g₂.graph := henlarges.kept
  have hk₂ : g₂.Has k := hk.change hgrows
  have hPk₂ := hP hPk (.of_enlarges henlarges)
  refine .pure hg₂ ⟨k :: ks, rfl, fun h hh => ?_, hS g₂ k ks hPk₂ hRks⟩
  rcases List.mem_cons.1 hh with rfl | hh
  · exact hk₂
  · exact hks h hh

/-- Joining what several descriptions yield. -/
theorem Succeeds.joined {combine : List Operand → GrammarM Handle}
    {R : Grammar → List Handle → Prop} (join : Handle → Handle → Node)
    (hjoin : ∀ a b, (join a b).children = [a, b])
    (hcombine : ∀ k os, combine (.handle k :: os) = joinFrom join k os)
    (hR : ∀ {g g' hs}, R g hs → Keeps g g' → R g' hs) (hne : ∀ g, ¬ R g [])
    (hps : Succeeds names (buildEach ps) (YieldsEach R) g) :
    Succeeds names (do Grammar.asOperand (combine (← buildEach ps)))
      (Yields fun g h => ∃ k ks, R g (k :: ks) ∧ Joined g.graph join k ks h) g := by
  refine hps.bind fun _ g₁ hg₁ _ ⟨hs, hos, hhas, hRs⟩ => ?_
  obtain rfl := hos
  refine Succeeds.asOperand ?_
  obtain _ | ⟨k, ks⟩ := hs
  · exact absurd hRs (hne g₁)
  rw [List.map_cons, hcombine]
  have hks : ∀ k' ∈ ks, g₁.Has k' := fun k' hk' => hhas k' (by simp [hk'])
  obtain ⟨h, g₂, hrun, hg₂, henlarges, hh, hj⟩ :=
    succeeds_joinFrom join hjoin hg₁ (hhas k (by simp)) hks
  exact ⟨h, g₂, hrun, hg₂, henlarges, hh, k, ks, hR hRs (.of_enlarges henlarges), hj⟩

/-- Putting what two or more pieces of code yield in sequence. -/
theorem succeeds_parts {cs : List Code} {R : Grammar → List Handle → Prop} (hcs : 2 ≤ cs.length)
    (hR : ∀ {g g' hs}, R g hs → Keeps g g' → R g' hs)
    (hlength : ∀ g hs, R g hs → hs.length = cs.length)
    (hps : Succeeds names (buildEach (descriptions actions cs)) (YieldsEach R) g) :
    Succeeds names (build ((codeOfParts cs).description actions))
      (Yields fun g h => ∃ ks, R g ks ∧ Sequenced g.graph ks h) g := by
  have hne (g : Grammar) : ¬ R g [] := fun hR => by
    have := hlength g [] hR
    simp only [List.length_nil] at this
    omega
  have hseq : Succeeds names (do asOperand (sequence (← buildEach (descriptions actions cs)))) _ g :=
    hps.joined (R := R) .seq (fun _ _ => rfl) (fun _ _ => rfl) hR hne
  -- Two parts stay the pair that they are, and three or more are flattened.
  match cs with
  | [] | [_] => simp at hcs
  | [c, d] =>
      refine Succeeds.yields (p := .sequence (descriptions actions [c, d])) hseq fun g' h => ?_
      rintro ⟨k, ks, hRs, hj⟩
      have hks : ¬ 3 ≤ ks.length + 1 := by
        have := hlength g' _ hRs
        simp only [List.length_cons, List.length_nil] at this
        omega
      exact ⟨k :: ks, hRs, h, hj, by rw [Flattened, if_neg hks]⟩
  | c :: d :: e :: cs =>
      let parts := c :: d :: e :: cs
      have hflat := Succeeds.unary (p := .sequence (descriptions actions parts))
        (.reduction · (.flatten parts.length)) (fun _ => rfl) ?_ hseq
      · refine Succeeds.yields
          (p := .reduction (.sequence (descriptions actions parts)) (.flatten parts.length)) hflat
          fun g' h => ?_
        rintro ⟨s, ⟨k, ks, hRs, hj⟩, hs⟩
        have hlen := hlength g' _ hRs
        have hks : 3 ≤ ks.length + 1 := by
          simp only [List.length_cons] at hlen
          omega
        refine ⟨k :: ks, hRs, s, hj, ?_⟩
        rw [Flattened, if_pos hks, ← List.length_cons, hlen]
        exact hs
      · rintro g g' h ⟨k, ks, hRs, hj⟩ hkeeps
        exact ⟨k, ks, hR hRs hkeeps, hj.keeps hkeeps⟩

theorem length_codeOfTerms (ts : List Term) : (codeOfTerms ts).length = ts.length := by
  induction ts with
  | nil => rfl
  | cons t ts ih => simp [codeOfTerms, ih]

theorem BuildsTerms.length {ts : List Term} {hs : List Handle} (hb : BuildsTerms g ts hs) :
    hs.length = ts.length := by
  induction ts generalizing hs with
  | nil =>
      obtain rfl : hs = [] := hb
      rfl
  | cons t ts ih =>
      obtain ⟨k, ks, rfl, -, hks⟩ := hb
      simp [ih hks]

end Code

section Bodies

variable {actions : Actions}

mutual

/-- The code of a term without mistakes succeeds and leaves the expression of the term. -/
theorem Term.succeeds_build {names : List String} {t : Term} {g : Grammar}
    (ht : t.mistakes names = []) (hg : Tidy names g) :
    Succeeds names (build (t.code.description actions)) (Yields fun g h => t.Builds g h) g := by
  cases t with
  | rule name =>
      have hname : name ∈ names := by
        by_contra hname
        simp [Term.mistakes, hname] at ht
      exact (succeeds_rule hg hname).asOperand
  | any => exact .pure hg ⟨.any, rfl, hg.plain.wellFormed.has_any, rfl⟩
  | char c => exact (succeeds_make hg (by simp [Node.children]) (by simp)).asOperand
  | range first last =>
      have hle : ¬ last.value < first.value := fun hlt => by
        simp [Term.mistakes, rangeMistakes, hlt] at ht
      have hrange :
          Grammar.range first.value last.value = make (rangeNode first.value last.value) := by
        unfold Grammar.range rangeNode
        rw [if_neg hle]
        split <;> rfl
      refine Succeeds.asOperand (P := Holds (rangeNode first.value last.value)) ?_
      rw [hrange]
      unfold rangeNode
      split <;> exact succeeds_make hg (by simp [Node.children]) (by simp)
  | text text =>
      refine Succeeds.asOperand (succeeds_make hg ?_ (WellFormed.literalNode_ne _))
      simp [WellFormed.children_literalNode]
  | group body => exact Alternatives.succeeds_build ht hg
  | star t => exact (Term.succeeds_build (t := t) ht hg).unary .star (fun _ => rfl) (·.keeps)
  | plus t => exact (Term.succeeds_build (t := t) ht hg).plus (·.keeps)
  | optional t => exact (Term.succeeds_build (t := t) ht hg).optional (·.keeps)
  | rep t n =>
      obtain ⟨ht, hn⟩ := List.append_eq_nil_iff.1 ht
      -- A count with a mistake would have the code of its operand.
      have hvalue : n.value? = .ok n.magnitude := by
        revert hn
        unfold CountLiteral.mistakes CountLiteral.value?
        split_ifs <;> simp
      have hcode : (Term.rep t n).code = .rep t.code n.magnitude := by
        show codeOfCount t.code n = _
        rw [codeOfCount, hvalue]
      rw [hcode]
      exact (Term.succeeds_build (t := t) ht hg).unary (.rep · (.exactly n.magnitude))
        (fun _ => rfl) (·.keeps)
  | not t => exact (Term.succeeds_build (t := t) ht hg).unary .not (fun _ => rfl) (·.keeps)

/-- So does the code of a branch. -/
theorem Branch.succeeds_build {names : List String} {b : Branch} {g : Grammar}
    (hb : b.mistakes names = []) (hg : Tidy names g) :
    Succeeds names (build (b.code.description actions)) (Yields fun g h => b.Builds g h) g := by
  obtain ⟨terms, reducer⟩ := b
  have hparts : Succeeds names (build ((codeOfParts (codeOfTerms terms)).description actions))
      (Yields fun g h => ∃ ks, BuildsTerms g terms ks ∧ Sequenced g.graph ks h) g := by
    match terms with
    | [] => exact .pure hg ⟨.empty, rfl, hg.plain.wellFormed.has_empty, [], rfl, rfl⟩
    | [t] =>
        refine (Term.succeeds_build (List.append_eq_nil_iff.1 hb).1 hg).yields fun g' h hh => ?_
        exact ⟨[h], ⟨h, [], rfl, hh, rfl⟩, h, rfl, rfl⟩
    | t :: t' :: ts =>
        refine succeeds_parts ?_ (·.keeps) (fun g hs hb => ?_) (succeeds_buildTerms hb hg)
        · simp [codeOfTerms]
        · rw [hb.length, length_codeOfTerms]
  cases reducer with
  | none => exact hparts.yields fun g' h ⟨ks, hks, hs⟩ => ⟨ks, h, hks, hs, rfl⟩
  | some path =>
      have hreduced := hparts.unary (.reduction · (path.reducer actions)) (fun _ => rfl) ?_
      · refine hreduced.yields (p := .reduction _ (path.reducer actions)) fun g' h => ?_
        rintro ⟨k, ⟨ks, hks, hs⟩, hr⟩
        exact ⟨ks, k, hks, hs, _, rfl, hr⟩
      · rintro g g' h ⟨ks, hks, hs⟩ hkeeps
        exact ⟨ks, hks.keeps hkeeps, hs.keeps hkeeps⟩

/-- So does the code of a choice. -/
theorem Alternatives.succeeds_build {names : List String} {body : Alternatives} {g : Grammar}
    (hbody : body.mistakes names = []) (hg : Tidy names g) :
    Succeeds names (build (body.code.description actions)) (Yields fun g h => body.Builds g h) g := by
  obtain ⟨first, rest⟩ := body
  obtain ⟨hfirst, hrest⟩ := List.append_eq_nil_iff.1 hbody
  match rest with
  | [] =>
      refine (Branch.succeeds_build hfirst hg).yields fun g' h hh => ?_
      exact ⟨h, [], hh, rfl, rfl⟩
  | b :: bs =>
      have heach : Succeeds names (buildEach (descriptions actions (first.code :: codeOfBranches (b :: bs))))
          (YieldsEach fun g hs => BuildsBranches g (first :: b :: bs) hs) g :=
        (Branch.succeeds_build hfirst hg).cons (·.keeps)
          (fun g' hg' => succeeds_buildBranches hrest hg') fun g' k ks hk hks => ⟨k, ks, rfl, hk, hks⟩
      have hjoined : Succeeds names
          (do
            asOperand (alternatives
              (← buildEach (descriptions actions (first.code :: codeOfBranches (b :: bs))))))
          _ g :=
        heach.joined .alt (fun _ _ => rfl) (fun _ _ => rfl) (·.keeps) ?_
      · refine hjoined.yields (p := .alternatives _) fun g' h => ?_
        rintro ⟨k, ks, ⟨k', ks', he, hk, hks⟩, hj⟩
        cases he
        exact ⟨k, ks, hk, hks, hj⟩
      · rintro g ⟨k, ks, he, -⟩
        cases he

/-- So does the code of several terms. -/
theorem succeeds_buildTerms {names : List String} {ts : List Term} {g : Grammar}
    (hts : termMistakes names ts = []) (hg : Tidy names g) :
    Succeeds names (buildEach (descriptions actions (codeOfTerms ts)))
      (YieldsEach fun g hs => BuildsTerms g ts hs) g := by
  cases ts with
  | nil => exact .pure hg ⟨[], rfl, by simp, rfl⟩
  | cons t ts =>
      obtain ⟨ht, hts⟩ := List.append_eq_nil_iff.1 hts
      exact (Term.succeeds_build ht hg).cons (fun hb => hb.keeps)
        (fun g' hg' => succeeds_buildTerms hts hg') fun g' k ks hk hks => ⟨k, ks, rfl, hk, hks⟩

/-- So does the code of several branches. -/
theorem succeeds_buildBranches {names : List String} {bs : List Branch} {g : Grammar}
    (hbs : branchMistakes names bs = []) (hg : Tidy names g) :
    Succeeds names (buildEach (descriptions actions (codeOfBranches bs)))
      (YieldsEach fun g hs => BuildsBranches g bs hs) g := by
  cases bs with
  | nil => exact .pure hg ⟨[], rfl, by simp, rfl⟩
  | cons b bs =>
      obtain ⟨hb, hbs⟩ := List.append_eq_nil_iff.1 hbs
      exact (Branch.succeeds_build hb hg).cons (·.keeps)
        (fun g' hg' => succeeds_buildBranches hbs hg') fun g' k ks hk hks => ⟨k, ks, rfl, hk, hks⟩

end

/-- Running the code of a body without mistakes succeeds, and leaves the expression of the body. -/
theorem Alternatives.succeeds_express {names : List String} {body : Alternatives} {g : Grammar}
    (hbody : body.mistakes names = []) (hg : Tidy names g) :
    Succeeds names (express (body.code.description actions)) (At fun g h => body.Builds g h) g := by
  refine (Alternatives.succeeds_build hbody hg).bind fun _ g₁ hg₁ _ ⟨h, ho, hh⟩ => ?_
  rw [ho]
  exact .pure hg₁ hh

end Bodies

end DerivativeParsing.Notation
