import DerivativeParsing.Proofs.Declarations
import DerivativeParsing.Proofs.Words

/-!
# The languages that a declaration gives its rules

A body says which words it stands for once it is known what the rules stand for: a choice is a
union, a sequence a product, `~` a complement (`Term.words`).  The rules of a declaration solve
these equations, and as with the equations of a graph a complement does not grow with its operand.
So they are solved in strata, in the same way: in each stratum, a complement is taken of what its
operand stood for in the stratum below (`Declaration.stratum`).

The grammar that a declaration is carried out to has many more equations, one for each node, and
those of the rules are taken apart in it.  They have the same least solution in each stratum
(`Defined.stratum_eq`), whatever passes through complements.
-/

set_option autoImplicit false

namespace DerivativeParsing.Meaning

/-! ## Forwards as constants -/

section Held

variable {X : Type} [CompleteLattice X] {M : Meaning X} {g : Graph} {C : Handle → X} {h t : Handle}
  {n : Node}

/-- What a slot stands for when it is given what forwards stand for. -/
def heldSlot (M : Meaning X) (V : Handle → X) (constant : X) : Option Slot → X
  | some (.node n) => M.node n V
  | some (.forward _) => constant
  | _ => ⊥

/-- The equations of the nodes of a graph, with forwards held at `C`. -/
def heldStep (M : Meaning X) (g : Graph) (C : Handle → X) : (Handle → X) →o (Handle → X) where
  toFun V h := M.heldSlot V (C h) (g.slot? h)
  monotone' V W hVW h := by
    dsimp only
    rcases g.slot? h with _ | (n | body | name | t)
    · exact le_rfl
    · exact M.mono n V W fun k _ => hVW k
    · exact le_rfl
    · exact le_rfl
    · exact le_rfl

/-- The least solution with forwards held at `C`. -/
def held (M : Meaning X) (g : Graph) (C : Handle → X) : Handle → X := (M.heldStep g C).lfp

theorem held_eq (h : Handle) : M.held g C h = M.heldSlot (M.held g C) (C h) (g.slot? h) :=
  congrFun (M.heldStep g C).map_lfp.symm h

theorem held_node (hs : g.slot? h = some (.node n)) : M.held g C h = M.node n (M.held g C) := by
  rw [held_eq, hs, heldSlot]

theorem held_forward (hs : g.slot? h = some (.forward t)) : M.held g C h = C h := by
  rw [held_eq, hs, heldSlot]

/-- If forwards are held at no less than what their targets come to, nothing stands for more than
it does with forwards held. -/
theorem value_le_held (hC : ∀ h t, g.slot? h = some (.forward t) → M.held g C t ≤ C h) :
    M.value g ≤ M.held g C := by
  refine fun h => M.value_le (D := Set.univ) (fun _ _ _ _ => trivial) (fun k _ => ?_) h trivial
  rcases hs : g.slot? k with _ | (n | body | name | t)
  · exact bot_le
  · exact (held_node hs).ge
  · exact bot_le
  · exact bot_le
  · exact (hC k t hs).trans (held_forward hs).ge

end Held

end DerivativeParsing.Meaning

namespace DerivativeParsing.Notation

open Grammar DerivativeParsing.Graph
open scoped Computability

/-! ## What bodies stand for -/

mutual

/-- The words of a term, if rules stand for `V` and the operands of complements for what `operand`
says. -/
def Term.words (operand : Term → WordSet) (V : String → WordSet) : Term → WordSet
  | .rule name => V name
  | .any => {w | ∃ c, w = [c]}
  | .char c => {w | w = [c.value]}
  | .range first last => {w | ∃ c, first.value ≤ c ∧ c ≤ last.value ∧ w = [c]}
  | .text text => {w | w = text.value.toList}
  | .group body => body.words operand V
  | .star t => (t.words operand V)∗
  | .plus t => t.words operand V * (t.words operand V)∗
  | .optional t => t.words operand V + 1
  | .rep t n => t.words operand V ^ n.magnitude
  | .not t => (operand t)ᶜ

/-- The words of a branch.  A branch without terms stands for the empty word, and a reducer makes no
difference. -/
def Branch.words (operand : Term → WordSet) (V : String → WordSet) : Branch → WordSet
  | ⟨terms, _⟩ => wordsOfTerms operand V terms

/-- The words of a choice. -/
def Alternatives.words (operand : Term → WordSet) (V : String → WordSet) : Alternatives → WordSet
  | ⟨first, rest⟩ => first.words operand V + wordsOfBranches operand V rest

/-- The words of several terms in sequence. -/
def wordsOfTerms (operand : Term → WordSet) (V : String → WordSet) : List Term → WordSet
  | [] => 1
  | t :: ts => t.words operand V * wordsOfTerms operand V ts

/-- The words of any of several branches. -/
def wordsOfBranches (operand : Term → WordSet) (V : String → WordSet) : List Branch → WordSet
  | [] => 0
  | b :: bs => b.words operand V + wordsOfBranches operand V bs

end

section Mono

variable {operand : Term → WordSet} {V W : String → WordSet}

mutual

/-- A term stands for more if the rules do. -/
theorem Term.words_mono (hVW : V ≤ W) (t : Term) : t.words operand V ≤ t.words operand W := by
  cases t with
  | rule name => exact hVW name
  | group body => exact Alternatives.words_mono hVW body
  | star t => exact kstar_mono (Term.words_mono hVW t)
  | plus t => exact mul_le_mul' (Term.words_mono hVW t) (kstar_mono (Term.words_mono hVW t))
  | optional t => exact add_le_add_left (Term.words_mono hVW t) 1
  | rep t n => exact pow_le_pow_left' (Term.words_mono hVW t) n.magnitude
  | any | char c | range first last | text text | not t => exact le_rfl

theorem Branch.words_mono (hVW : V ≤ W) (b : Branch) : b.words operand V ≤ b.words operand W := by
  obtain ⟨terms, reducer⟩ := b
  exact wordsOfTerms_mono hVW terms

theorem Alternatives.words_mono (hVW : V ≤ W) (body : Alternatives) :
    body.words operand V ≤ body.words operand W := by
  obtain ⟨first, rest⟩ := body
  exact add_le_add (Branch.words_mono hVW first) (wordsOfBranches_mono hVW rest)

theorem wordsOfTerms_mono (hVW : V ≤ W) (ts : List Term) :
    wordsOfTerms operand V ts ≤ wordsOfTerms operand W ts := by
  cases ts with
  | nil => exact le_rfl
  | cons t ts => exact mul_le_mul' (Term.words_mono hVW t) (wordsOfTerms_mono hVW ts)

theorem wordsOfBranches_mono (hVW : V ≤ W) (bs : List Branch) :
    wordsOfBranches operand V bs ≤ wordsOfBranches operand W bs := by
  cases bs with
  | nil => exact le_rfl
  | cons b bs => exact add_le_add (Branch.words_mono hVW b) (wordsOfBranches_mono hVW bs)

end

end Mono

namespace Declaration

/-- The equations of the rules: a rule stands for the words of its body. -/
def equations (d : Declaration) (operand : Term → WordSet) :
    (String → WordSet) →o (String → WordSet) where
  toFun V name := {w | ∃ r ∈ d.rules, r.name = name ∧ w ∈ r.body.words operand V}
  monotone' _ _ hVW _ _ := fun ⟨r, hr, hname, hw⟩ => ⟨r, hr, hname, r.body.words_mono hVW hw⟩

/-- The least solution of the equations of the rules. -/
def solution (d : Declaration) (operand : Term → WordSet) : String → WordSet :=
  (d.equations operand).lfp

/-- The words of a term in a stratum. -/
def stratum (d : Declaration) : Nat → Term → WordSet
  | 0, _ => 0
  | n + 1, t => t.words (d.stratum n) (d.solution (d.stratum n))

/-- The language of a term: the words that belong to it in all strata from some stratum on. -/
def language (d : Declaration) (t : Term) : WordSet := {w | ∃ n, ∀ m ≥ n, w ∈ d.stratum m t}

end Declaration

/-! ## Bodies and their expressions -/

/-- What the handles in `D` stand for solves the equations of the nodes there, and agrees with what
is said of rules and of the operands of complements. -/
structure Agrees (g : Grammar) (D : Set Handle) (outer A : Handle → WordSet)
    (operand : Term → WordSet) (V : String → WordSet) : Prop where
  closed : g.graph.Closed D
  node : ∀ h ∈ D, ∀ n, g.graph.slot? h = some (.node n) → A h = n.words outer A
  rule : ∀ name h, g.rules.lookup name = some h → A h = V name
  operand : ∀ t k, t.Builds g k → outer k = operand t

section Agrees

variable {g : Grammar} {D : Set Handle} {outer A : Handle → WordSet} {operand : Term → WordSet}
  {V : String → WordSet} {acc h s : Handle} {ks : List Handle} {n : Node}

/-- Expressions that are joined as alternatives stand for the union. -/
theorem Joined.words_alt (hA : Agrees g D outer A operand V) (hj : Joined g.graph .alt acc ks h)
    (hh : h ∈ D) : A h = A acc + (ks.map A).sum := by
  induction ks generalizing acc with
  | nil =>
      obtain rfl : h = acc := hj
      simp
  | cons k ks ih =>
      obtain ⟨a, hs, hrest⟩ := hj
      have ha : a ∈ D := (hrest.mem hA.closed (fun _ _ => rfl) hh).1
      calc A h = A a + (ks.map A).sum := ih hrest
        _ = A acc + A k + (ks.map A).sum := by rw [hA.node a ha _ hs, Node.words]
        _ = A acc + ((k :: ks).map A).sum := by rw [List.map_cons, List.sum_cons, add_assoc]

/-- Expressions that are joined in sequence stand for the product. -/
theorem Joined.words_seq (hA : Agrees g D outer A operand V) (hj : Joined g.graph .seq acc ks h)
    (hh : h ∈ D) : A h = A acc * (ks.map A).prod := by
  induction ks generalizing acc with
  | nil =>
      obtain rfl : h = acc := hj
      simp
  | cons k ks ih =>
      obtain ⟨a, hs, hrest⟩ := hj
      have ha : a ∈ D := (hrest.mem hA.closed (fun _ _ => rfl) hh).1
      calc A h = A a * (ks.map A).prod := ih hrest
        _ = A acc * A k * (ks.map A).prod := by rw [hA.node a ha _ hs, Node.words]
        _ = A acc * ((k :: ks).map A).prod := by rw [List.map_cons, List.prod_cons, mul_assoc]

/-- Making trees flat makes no difference. -/
theorem Flattened.words {parts : Nat} (hA : Agrees g D outer A operand V)
    (hf : Flattened g.graph parts s h) (hh : h ∈ D) : A h = A s := by
  unfold Flattened at hf
  split at hf
  · exact hA.node h hh _ hf
  · rw [hf]

theorem Sequenced.words (hg : g.WellFormed) (hA : Agrees g D outer A operand V)
    (hs : Sequenced g.graph ks h) (hh : h ∈ D) : A h = (ks.map A).prod := by
  cases ks with
  | nil =>
      obtain rfl : h = .empty := hs
      exact hA.node .empty hh _ hg.graph.empty
  | cons k ks =>
      obtain ⟨s, hj, hflat⟩ := hs
      rw [hflat.words hA hh, hj.words_seq hA (hflat.mem hA.closed hh), List.map_cons, List.prod_cons]

/-- So does a reducer. -/
theorem Reduced.words {reducer : Option Path} {k : Handle} (hA : Agrees g D outer A operand V)
    (hr : Reduced g.graph reducer k h) (hh : h ∈ D) : A h = A k := by
  cases reducer with
  | none =>
      obtain rfl : h = k := hr
      rfl
  | some path =>
      obtain ⟨f, -, hs⟩ := hr
      exact hA.node h hh _ hs

theorem rangeNode_words (first last : Char) :
    (rangeNode first last).words outer A = {w | ∃ c, first ≤ c ∧ c ≤ last ∧ w = [c]} := by
  unfold rangeNode
  split
  · next he =>
      subst he
      ext w
      constructor
      · rintro rfl
        exact ⟨first, Char.le_refl first, Char.le_refl first, rfl⟩
      · rintro ⟨c, hle, hge, rfl⟩
        exact congrArg (fun c => [c]) (Char.le_antisymm hge hle)
  · rfl

mutual

/-- The expression of a term stands for the words of the term. -/
theorem Term.Builds.words {t : Term} {h : Handle} (hg : g.WellFormed)
    (hA : Agrees g D outer A operand V) (hb : t.Builds g h) (hh : h ∈ D) :
    A h = t.words operand V := by
  cases t with
  | rule name => exact hA.rule name h hb
  | any =>
      obtain rfl : h = .any := hb
      exact hA.node .any hh _ hg.graph.any
  | char c => exact hA.node h hh _ hb
  | range first last => exact (hA.node h hh _ hb).trans (rangeNode_words _ _)
  | text text => exact (hA.node h hh _ hb).trans (words_literalNode _)
  | group body => exact Alternatives.Builds.words hg hA hb hh
  | star t =>
      obtain ⟨k, hk, hs⟩ := hb
      have hkD : k ∈ D := mem_of_closed hA.closed hh hs (by simp [Node.children])
      rw [hA.node h hh _ hs, Node.words, Term.Builds.words hg hA hk hkD, Term.words]
  | plus t =>
      obtain ⟨k, s, hk, hstar, hs⟩ := hb
      have hkD : k ∈ D := mem_of_closed hA.closed hh hs (by simp [Node.children])
      have hsD : s ∈ D := mem_of_closed hA.closed hh hs (by simp [Node.children])
      rw [hA.node h hh _ hs, Node.words, hA.node s hsD _ hstar, Node.words,
        Term.Builds.words hg hA hk hkD, Term.words]
  | optional t =>
      obtain ⟨k, hk, hs⟩ := hb
      have hkD : k ∈ D := mem_of_closed hA.closed hh hs (by simp [Node.children])
      have heD : Handle.empty ∈ D := mem_of_closed hA.closed hh hs (by simp [Node.children])
      rw [hA.node h hh _ hs, Node.words, hA.node .empty heD _ hg.graph.empty, Node.words,
        Term.Builds.words hg hA hk hkD, Term.words]
  | rep t n =>
      obtain ⟨k, hk, hs⟩ := hb
      have hkD : k ∈ D := mem_of_closed hA.closed hh hs (by simp [Node.children])
      rw [hA.node h hh _ hs, Node.words, Term.Builds.words hg hA hk hkD, Term.words]
  | not t =>
      obtain ⟨k, hk, hs⟩ := hb
      rw [hA.node h hh _ hs, Node.words, hA.operand t k hk, Term.words]

theorem Branch.Builds.words {b : Branch} {h : Handle} (hg : g.WellFormed)
    (hA : Agrees g D outer A operand V) (hb : b.Builds g h) (hh : h ∈ D) :
    A h = b.words operand V := by
  obtain ⟨terms, reducer⟩ := b
  obtain ⟨ks, k, hks, hs, hr⟩ := hb
  have hk : k ∈ D := hr.mem hA.closed hh
  rw [hr.words hA hh, hs.words hg hA hk, BuildsTerms.words hg hA hks (hs.mem hA.closed hk),
    Branch.words]

theorem Alternatives.Builds.words {body : Alternatives} {h : Handle} (hg : g.WellFormed)
    (hA : Agrees g D outer A operand V) (hb : body.Builds g h) (hh : h ∈ D) :
    A h = body.words operand V := by
  obtain ⟨first, rest⟩ := body
  obtain ⟨k, ks, hk, hks, hj⟩ := hb
  obtain ⟨hkD, hksD⟩ := hj.mem hA.closed (fun _ _ => rfl) hh
  rw [hj.words_alt hA hh, Branch.Builds.words hg hA hk hkD, BuildsBranches.words hg hA hks hksD,
    Alternatives.words]

theorem BuildsTerms.words {ts : List Term} {hs : List Handle} (hg : g.WellFormed)
    (hA : Agrees g D outer A operand V) (hb : BuildsTerms g ts hs) (hhs : ∀ h ∈ hs, h ∈ D) :
    (hs.map A).prod = wordsOfTerms operand V ts := by
  cases ts with
  | nil =>
      obtain rfl : hs = [] := hb
      rfl
  | cons t ts =>
      obtain ⟨k, ks, rfl, hk, hks⟩ := hb
      obtain ⟨hkD, hksD⟩ := List.forall_mem_cons.1 hhs
      rw [List.map_cons, List.prod_cons, Term.Builds.words hg hA hk hkD,
        BuildsTerms.words hg hA hks hksD, wordsOfTerms]

theorem BuildsBranches.words {bs : List Branch} {hs : List Handle} (hg : g.WellFormed)
    (hA : Agrees g D outer A operand V) (hb : BuildsBranches g bs hs) (hhs : ∀ h ∈ hs, h ∈ D) :
    (hs.map A).sum = wordsOfBranches operand V bs := by
  cases bs with
  | nil =>
      obtain rfl : hs = [] := hb
      rfl
  | cons b bs =>
      obtain ⟨k, ks, rfl, hk, hks⟩ := hb
      obtain ⟨hkD, hksD⟩ := List.forall_mem_cons.1 hhs
      rw [List.map_cons, List.sum_cons, Branch.Builds.words hg hA hk hkD,
        BuildsBranches.words hg hA hks hksD, wordsOfBranches]

end

end Agrees

/-! ## Strata -/

section Strata

variable {d : Declaration} {g : Grammar} {outer : Handle → WordSet} {operand : Term → WordSet}
  {name : String} {h : Handle} {t : Term} {n : Nat}

/-- The equations of the rules and the equations of the slots have the same least solution. -/
theorem Defined.solution_eq (hg : Defined d.ruleNames d.rules g)
    (houter : ∀ t k, t.Builds g k → outer k = operand t) (hlookup : g.rules.lookup name = some h) :
    (wordMeaning outer).value g.graph h = d.solution operand name := by
  have hclosed : g.graph.Closed Set.univ := fun _ _ _ _ => trivial
  have hw := hg.tidy.plain.wellFormed
  refine le_antisymm ?_ ?_
  · -- The slots are compared with the solution of the rules, extended to the nodes.
    let C : Handle → WordSet := fun k => {w | ∃ name, g.rules.lookup name = some k ∧
      w ∈ d.solution operand name}
    have hC {name : String} {k : Handle} (hk : g.rules.lookup name = some k) :
        C k = d.solution operand name := by
      ext w
      refine ⟨fun ⟨name', hk', hw'⟩ => ?_, fun hw' => ⟨name, hk, hw'⟩⟩
      rwa [hg.tidy.distinct name name' k hk hk']
    have hrule (name : String) (k : Handle) (hk : g.rules.lookup name = some k) :
        (wordMeaning outer).held g.graph C k = d.solution operand name := by
      obtain ⟨r, -, -, t, hs, -⟩ := hg.of_lookup hk
      rw [Meaning.held_forward hs, hC hk]
    have hA : Agrees g Set.univ outer ((wordMeaning outer).held g.graph C) operand
        (d.solution operand) :=
      ⟨hclosed, fun k _ n hs => Meaning.held_node hs, hrule, houter⟩
    refine (Meaning.value_le_held (fun k t hs => ?_) h).trans (hrule name h hlookup).le
    rcases hg.tidy.slots k _ hs with ⟨n, hn⟩ | ⟨name, hk⟩
    · cases hn
    · obtain ⟨r, hr, rfl, t', hs', hb⟩ := hg.of_lookup hk
      obtain rfl := Slot.forward.inj (Option.some.inj (hs.symm.trans hs'))
      rw [hb.words hw hA trivial, hC hk]
      intro w hw
      exact (d.equations operand).map_lfp.le r.name ⟨r, hr, rfl, hw⟩
  · -- The solution of the slots, taken where the rules stand, solves the equations of the rules.
    let V : String → WordSet := fun name => {w | ∃ k, g.rules.lookup name = some k ∧
      w ∈ (wordMeaning outer).value g.graph k}
    have hV (name : String) (k : Handle) (hk : g.rules.lookup name = some k) :
        (wordMeaning outer).value g.graph k = V name := by
      ext w
      refine ⟨fun hw => ⟨k, hk, hw⟩, fun ⟨k', hk', hw⟩ => ?_⟩
      rwa [Option.some.inj (hk.symm.trans hk')]
    have hA : Agrees g Set.univ outer ((wordMeaning outer).value g.graph) operand V :=
      ⟨hclosed, fun k _ n hs => Meaning.value_node _ hs, hV, houter⟩
    have hle : d.solution operand ≤ V := by
      refine (d.equations operand).lfp_le fun name w => ?_
      rintro ⟨r, hr, rfl, hwords⟩
      obtain ⟨k, t, hk, hs, hb⟩ := hg.bodies r hr
      refine ⟨k, hk, ?_⟩
      rwa [Meaning.value_forward _ hs, hb.words hw hA trivial]
    exact (hle name).trans (hV name h hlookup).ge

/-- In every stratum, the expression of a term stands for what the term does. -/
theorem Defined.stratum_eq (hg : Defined d.ruleNames d.rules g) (hb : t.Builds g h) :
    g.graph.stratum n h = d.stratum n t := by
  induction n generalizing t h with
  | zero => rfl
  | succ n ih =>
      have hoperand : ∀ t k, t.Builds g k → g.graph.stratum n k = d.stratum n t := fun _ _ => ih
      have hA : Agrees g Set.univ (g.graph.stratum n) (g.graph.stratum (n + 1)) (d.stratum n)
          (d.solution (d.stratum n)) :=
        ⟨fun _ _ _ _ => trivial, fun k _ m hs => Meaning.value_node _ hs,
          fun name k hk => hg.solution_eq hoperand hk, hoperand⟩
      exact hb.words hg.tidy.plain.wellFormed hA trivial

/-- So the language of the expression is that of the term. -/
theorem Defined.language_eq (hg : Defined d.ruleNames d.rules g) (hb : t.Builds g h) :
    g.graph.language h = d.language t := by
  ext w
  exact exists_congr fun n => forall₂_congr fun m _ => by rw [hg.stratum_eq hb]

end Strata

end DerivativeParsing.Notation
