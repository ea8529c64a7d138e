import DerivativeParsing.Proofs.Residues

/-!
# Traces

A *trace* is a word with what a match of it leaves: a tree, or nothing.  The traces of the handles
of a graph are the least solution of one equation for each node (`Graph.traces`), like the residues,
which are the traces of the empty word (`Graph.nil_mem_traces`).

A sequence joins what its operands leave, and a repetition collects it.  A repetition of a given
length takes a character with its first match as long as there are characters, so that matches of
the empty word come last.  What has not been matched yet when the next operand of a sequence begins
has a tree, even if it would have left nothing at the end.
-/

set_option autoImplicit false

namespace DerivativeParsing

open DerivativeParsing.Graph Residue

/-! ## What matches leave -/

/-- A word, and what a match of it leaves. -/
abbrev Trace : Type := List Char × Residue

namespace Residue

/-- The tree of two matches in sequence, where the second one is of `word`.  Once that has a
character, the first match is finished and has a tree. -/
def joinBefore : List Char → Residue → Residue → Tree
  | [], x, y => join x y
  | _ :: _, x, y => join (some x.tree) y

/-- What a match of a literal text leaves: its characters, paired from the right. -/
def spelled : List Char → Residue
  | [] => none
  | c :: rest => some (join (some (.char c)) (spelled rest))

@[simp] theorem joinBefore_nil {x y : Residue} : joinBefore [] x y = join x y := rfl

@[simp] theorem joinBefore_cons {c : Char} {w : List Char} {x y : Residue} :
    joinBefore (c :: w) x y = join (some x.tree) y := rfl

/-- A match that has a tree is joined in the same way at all times. -/
@[simp] theorem joinBefore_some {w : List Char} {t : Tree} {y : Residue} :
    joinBefore w (some t) y = join (some t) y := by
  cases w <;> rfl

end Residue

namespace Trace

/-- The trace of two matches in sequence. -/
def append (a b : Trace) : Trace := (a.1 ++ b.1, some (joinBefore b.1 a.2 b.2))

/-- A match whose tree is transformed. -/
def map (f : Tree → Tree) (a : Trace) : Trace := (a.1, some (f a.2.tree))

/-- The matches of words that have a character. -/
def begun (A : Set Trace) : Set Trace := {a ∈ A | a.1 ≠ []}

/-- The matches of the empty word. -/
def blank (A : Set Trace) : Set Trace := {a ∈ A | a.1 = []}

/-- What the matches of the empty word leave. -/
def ended (A : Set Trace) : Set Residue := {x | ([], x) ∈ A}

/-- What is left of the matches of words that start with a character, after that character. -/
def after (c : Char) (A : Set Trace) : Set Trace := {a | (c :: a.1, a.2) ∈ A}

/-- The lists of the trees of so many matches of the empty word. -/
def lists (A : Set Trace) (n : Nat) : Set Trace :=
  {a | ∃ items : List Tree, items.length = n ∧ (∀ t ∈ items, t ∈ trees (ended A)) ∧
    ([], some (.list items)) = a}

/-- Any number of matches, each of them of at least one character. -/
inductive Repeated (A : Set Trace) : Trace → Prop where
  | none : Repeated A ([], some .unit)
  | more {a b : Trace} (ha : a ∈ begun A) (hb : Repeated A b) :
      Repeated A ((a.append b).map Reducer.prepend.apply)

/-- A number of matches.  Those of the empty word come last. -/
def counted (A : Set Trace) : Nat → Set Trace
  | 0 => {([], some .unit)}
  | 1 => begun A ∪ map id '' blank A
  | 2 => lists A 2 ∪ Set.image2 append (begun A) A
  | n + 3 => lists A (n + 3) ∪
      map Reducer.prepend.apply '' Set.image2 append (begun A) (counted A (n + 2))

variable {A B : Set Trace} {a b : Trace} {c : Char} {f : Tree → Tree} {n : Nat} {x : Residue}

/-! ### More matches -/

theorem begun_mono (h : A ⊆ B) : begun A ⊆ begun B := fun _ ha => ⟨h ha.1, ha.2⟩

theorem blank_mono (h : A ⊆ B) : blank A ⊆ blank B := fun _ ha => ⟨h ha.1, ha.2⟩

theorem ended_mono (h : A ⊆ B) : ended A ⊆ ended B := fun _ hx => h hx

theorem lists_mono (h : A ⊆ B) : lists A n ⊆ lists B n := by
  rintro a ⟨items, hlength, hitems, rfl⟩
  exact ⟨items, hlength, fun t ht => trees_mono (ended_mono h) (hitems t ht), rfl⟩

theorem Repeated.mono (h : A ⊆ B) (ha : Repeated A a) : Repeated B a := by
  induction ha with
  | none => exact .none
  | more ha _ ih => exact .more (begun_mono h ha) ih

theorem counted_mono (h : A ⊆ B) : ∀ n, counted A n ⊆ counted B n
  | 0 => Set.Subset.rfl
  | 1 => Set.union_subset_union (begun_mono h) (Set.image_mono (blank_mono h))
  | 2 => Set.union_subset_union (lists_mono h) (Set.image2_subset (begun_mono h) h)
  | n + 3 => Set.union_subset_union (lists_mono h)
      (Set.image_mono (Set.image2_subset (begun_mono h) (counted_mono h (n + 2))))

/-! ### Matches of the empty word -/

@[simp] theorem ended_union : ended (A ∪ B) = ended A ∪ ended B := rfl

@[simp] theorem ended_begun : ended (begun A) = ∅ :=
  Set.eq_empty_of_forall_notMem fun _ hx => hx.2 rfl

@[simp] theorem ended_blank : ended (blank A) = ended A :=
  Set.ext fun _ => ⟨fun hx => hx.1, fun hx => ⟨hx, rfl⟩⟩

theorem ended_map : ended (map f '' A) = some '' (f '' trees (ended A)) := by
  ext x
  constructor
  · rintro ⟨⟨w, y⟩, ha, he⟩
    obtain ⟨rfl, rfl⟩ := Prod.mk.inj he
    exact ⟨_, ⟨_, ⟨y, ha, rfl⟩, rfl⟩, rfl⟩
  · rintro ⟨_, ⟨_, ⟨y, hy, rfl⟩, rfl⟩, rfl⟩
    exact ⟨([], y), hy, rfl⟩

theorem ended_append :
    ended (Set.image2 append A B) = some '' Set.image2 join (ended A) (ended B) := by
  ext x
  constructor
  · rintro ⟨⟨u, y⟩, ha, ⟨v, z⟩, hb, he⟩
    obtain ⟨hnil, rfl⟩ := Prod.mk.inj he
    obtain ⟨rfl, rfl⟩ := List.append_eq_nil_iff.1 hnil
    exact ⟨_, ⟨y, ha, z, hb, rfl⟩, rfl⟩
  · rintro ⟨_, ⟨y, hy, z, hz, rfl⟩, rfl⟩
    exact ⟨([], y), hy, ([], z), hz, rfl⟩

theorem ended_lists : ended (lists A n) = some ''
    {t | ∃ items : List Tree, items.length = n ∧ (∀ s ∈ items, s ∈ trees (ended A)) ∧
      .list items = t} := by
  ext x
  constructor
  · rintro ⟨items, hlength, hitems, he⟩
    obtain ⟨-, rfl⟩ := Prod.mk.inj he
    exact ⟨_, ⟨items, hlength, hitems, rfl⟩, rfl⟩
  · rintro ⟨_, ⟨items, hlength, hitems, rfl⟩, rfl⟩
    exact ⟨items, hlength, hitems, rfl⟩

theorem ended_repeated : ended {a | Repeated A a} = {some .unit} := by
  ext x
  constructor
  · intro hx
    have hx : Repeated A ([], x) := hx
    generalize he : (([], x) : Trace) = a at hx
    cases hx with
    | none => exact (Prod.mk.inj he).2
    | more ha _ => exact absurd (List.append_eq_nil_iff.1 (Prod.mk.inj he).1.symm).1 ha.2
  · rintro rfl
    exact .none

/-! ### Matches after their first character -/

theorem mem_after : a ∈ after c A ↔ (c :: a.1, a.2) ∈ A := Iff.rfl

theorem after_union : after c (A ∪ B) = after c A ∪ after c B := rfl

@[simp] theorem after_begun : after c (begun A) = after c A :=
  Set.ext fun _ => ⟨fun h => h.1, fun h => ⟨h, List.cons_ne_nil _ _⟩⟩

@[simp] theorem after_blank : after c (blank A) = ∅ :=
  Set.eq_empty_of_forall_notMem fun _ h => List.cons_ne_nil _ _ h.2

@[simp] theorem after_lists : after c (lists A n) = ∅ := by
  refine Set.eq_empty_of_forall_notMem ?_
  rintro a ⟨items, -, -, he⟩
  cases he

theorem after_map : after c (map f '' A) = map f '' after c A := by
  ext ⟨w, x⟩
  constructor
  · rintro ⟨⟨u, y⟩, ha, he⟩
    obtain ⟨hw, hx⟩ := Prod.mk.inj he
    obtain rfl : u = c :: w := hw
    exact ⟨(w, y), ha, Prod.ext rfl hx⟩
  · rintro ⟨⟨u, y⟩, ha, he⟩
    obtain ⟨rfl, rfl⟩ := Prod.mk.inj he
    exact ⟨(c :: u, y), ha, rfl⟩

/-- The first of two matches has the character, or it is a match of the empty word and finished. -/
theorem after_append : after c (Set.image2 append A B) =
    Set.image2 append (after c A) B ∪ Set.image2 append (map id '' blank A) (after c B) := by
  ext ⟨w, x⟩
  constructor
  · rintro ⟨⟨u, y⟩, ha, ⟨v, z⟩, hb, he⟩
    obtain ⟨hw, rfl⟩ := Prod.mk.inj he
    cases u with
    | cons d u =>
        obtain ⟨rfl, rfl⟩ := List.cons.inj hw
        exact .inl ⟨(u, y), ha, (v, z), hb, rfl⟩
    | nil =>
        obtain rfl : v = c :: w := hw
        refine .inr ⟨([], some y.tree), ⟨([], y), ⟨ha, rfl⟩, rfl⟩, (w, z), hb, ?_⟩
        simp [append]
  · rintro (⟨⟨u, y⟩, ha, ⟨v, z⟩, hb, he⟩ | ⟨_, ⟨⟨u, y⟩, ⟨ha, hu⟩, rfl⟩, ⟨v, z⟩, hb, he⟩)
    · obtain ⟨rfl, rfl⟩ := Prod.mk.inj he
      exact ⟨(c :: u, y), ha, (v, z), hb, rfl⟩
    · obtain ⟨rfl, rfl⟩ := Prod.mk.inj he
      obtain rfl : u = [] := hu
      exact ⟨([], y), ha, (c :: v, z), hb, by simp [append, map]⟩

/-- A sequence whose first match has a character takes the character from it. -/
theorem after_append_begun : after c (Set.image2 append (begun A) B) =
    Set.image2 append (after c A) B := by
  have hblank : blank (begun A) = ∅ :=
    Set.eq_empty_of_forall_notMem fun _ ha => ha.1.2 ha.2
  rw [after_append, after_begun, hblank, Set.image_empty, Set.image2_empty_left, Set.union_empty]

theorem after_repeated : after c {a | Repeated A a} =
    map Reducer.prepend.apply '' Set.image2 append (after c A) {a | Repeated A a} := by
  ext ⟨w, x⟩
  constructor
  · intro ha
    generalize he : ((c :: w, x) : Trace) = z at ha
    cases (show Repeated A z from he ▸ ha) with
    | none => cases he
    | @more a b ha hb =>
        have hmem : ((w, x) : Trace) ∈ after c (map Reducer.prepend.apply ''
            Set.image2 append (begun A) {a | Repeated A a}) :=
          ⟨a.append b, ⟨a, ha, b, hb, rfl⟩, he.symm⟩
        rwa [after_map, after_append_begun] at hmem
  · intro ha
    rw [← after_append_begun, ← after_map] at ha
    obtain ⟨_, ⟨a, ha, b, hb, rfl⟩, he⟩ := ha
    rw [mem_after, ← he]
    exact .more ha hb

theorem after_once : after c (counted A 1) = after c A := by
  rw [counted, after_union, after_begun, after_map, after_blank, Set.image_empty, Set.union_empty]

theorem after_twice : after c (counted A 2) = Set.image2 append (after c A) A := by
  rw [counted, after_union, after_lists, after_append_begun, Set.empty_union]

theorem after_more : after c (counted A (n + 3)) =
    map Reducer.prepend.apply '' Set.image2 append (after c A) (counted A (n + 2)) := by
  rw [counted, after_union, after_lists, after_map, after_append_begun, Set.empty_union]

end Trace

/-! ## The traces of nodes -/

open Trace

namespace Node

/-- The traces of a node, given those of its operands.  A complement is taken of what `outer` says,
and leaves no tree but the empty list. -/
def traces (outer : Handle → WordSet) (V : Handle → Set Trace) : Node → Set Trace
  | .nil => ∅
  | .empty => {([], none)}
  | .any => {a | ∃ c, ([c], none) = a}
  | .char c => {([c], some (.char c))}
  | .range first last => {a | ∃ c, first ≤ c ∧ c ≤ last ∧ ([c], some (.char c)) = a}
  | .token text => {a | text ≠ [] ∧ (text, spelled text) = a}
  | .alt left right => map id '' (V left ∪ V right)
  | .seq first second => Set.image2 append (V first) (V second)
  | .star operand | .rep operand .unbounded => {a | Repeated (V operand) a}
  | .rep operand (.exactly n) => counted (V operand) n
  | .not operand => {a | a.1 ∉ outer operand ∧ a.2 = some .unit}
  | .nullability operand => map id '' blank (V operand)
  | .emptyReduction f => {a | ∃ t ∈ f, ([], some t) = a}
  | .reduction operand reducer => map reducer.apply '' V operand

variable {outer outer' : Handle → WordSet} {V W : Handle → Set Trace} {n : Node}

/-- A node that is related to another has no more traces than it, if that holds of the operands. -/
theorem Relates.traces_subset {R : Handle → Handle → Prop} {m : Node} (h : n.Relates R m)
    (hVW : ∀ a b, R a b → V a ⊆ W b)
    (houter : ∀ a b, n = .not a → m = .not b → R a b → outer' b ≤ outer a)
    (hreducer : ∀ a f b f', n = .reduction a f → m = .reduction b f' → f.name = f'.name →
      f.action = f'.action) : n.traces outer V ⊆ m.traces outer' W := by
  cases h with
  | nil => exact Set.Subset.rfl
  | empty => exact Set.Subset.rfl
  | any => exact Set.Subset.rfl
  | char c => exact Set.Subset.rfl
  | range first last => exact Set.Subset.rfl
  | token text => exact Set.Subset.rfl
  | alt h h' => exact Set.image_mono (Set.union_subset_union (hVW _ _ h) (hVW _ _ h'))
  | seq h h' => exact Set.image2_subset (hVW _ _ h) (hVW _ _ h')
  | star h =>
      intro a ha
      exact ha.mono (hVW _ _ h)
  | rep count h =>
      cases count with
      | exactly n => exact counted_mono (hVW _ _ h) n
      | unbounded =>
          intro a ha
          exact ha.mono (hVW _ _ h)
  | not h =>
      rintro a ⟨hmem, ha⟩
      exact ⟨fun hb => hmem (houter _ _ rfl rfl h hb), ha⟩
  | nullability h => exact Set.image_mono (blank_mono (hVW _ _ h))
  | emptyReduction trees => exact Set.Subset.rfl
  | @reduction a b f f' hname h =>
      have happly : f.apply = f'.apply := hreducer _ _ _ _ rfl rfl hname
      show map f.apply '' _ ⊆ map f'.apply '' _
      rw [happly]
      exact Set.image_mono (hVW _ _ h)

theorem traces_mono (outer : Handle → WordSet) (n : Node) (V W : Handle → Set Trace)
    (hVW : ∀ c ∈ n.children, V c ⊆ W c) : n.traces outer V ⊆ n.traces outer W := by
  have hrelates : n.Relates (fun a b => a = b ∧ a ∈ n.children) n := .refl fun a ha => ⟨rfl, ha⟩
  refine hrelates.traces_subset ?_ ?_ ?_
  · rintro a _ ⟨rfl, ha⟩
    exact hVW a ha
  · rintro a _ - - ⟨rfl, -⟩
    exact le_rfl
  · intro a f b f' hn hm _
    rw [hn] at hm
    cases hm
    rfl

/-- The outer languages matter to complements only. -/
theorem traces_congr (houter : ∀ p, n = .not p → outer p = outer' p) :
    n.traces outer V = n.traces outer' V := by
  cases n with
  | not p =>
      show {a : Trace | a.1 ∉ outer p ∧ _} = {a | a.1 ∉ outer' p ∧ _}
      rw [houter p rfl]
  | rep operand count => cases count <;> rfl
  | _ => rfl

/-- The matches of the empty word leave the residues of the node. -/
theorem ended_traces : ended (n.traces outer V) =
    n.residues (fun p => [] ∈ outer p) fun h => ended (V h) := by
  have hnone {A : Set Trace} (hA : ∀ a ∈ A, a.1 ≠ []) : ended A = some '' (∅ : Set Tree) := by
    rw [Set.image_empty]
    exact Set.eq_empty_of_forall_notMem fun x hx => hA _ hx rfl
  have hid {X : Set Residue} : some '' (id '' Residue.trees X) = some '' Residue.trees X := by
    rw [Set.image_id]
  have hunit : some '' ({.unit} : Set Tree) = {some .unit} := Set.image_singleton
  cases n with
  | nil => exact hnone fun a ha => ha.elim
  | empty =>
      ext x
      exact ⟨fun hx => (Prod.mk.inj hx).2, fun hx => Prod.ext rfl hx⟩
  | any =>
      refine hnone ?_
      rintro a ⟨c, rfl⟩
      exact List.cons_ne_nil _ _
  | char c =>
      refine hnone ?_
      rintro a rfl
      exact List.cons_ne_nil _ _
  | range first last =>
      refine hnone ?_
      rintro a ⟨c, -, -, rfl⟩
      exact List.cons_ne_nil _ _
  | token text =>
      refine hnone ?_
      rintro a ⟨hne, rfl⟩
      exact hne
  | alt left right =>
      show ended (map id '' (V left ∪ V right)) = some '' (Residue.trees _ ∪ Residue.trees _)
      rw [ended_map, hid, ended_union, Residue.trees, Set.image_union]
      rfl
  | seq first second => exact ended_append
  | star operand => exact ended_repeated.trans hunit.symm
  | rep operand count =>
      rcases count with (_ | _ | _ | k) | _
      · refine Eq.trans ?_ hunit.symm
        ext x
        exact ⟨fun hx => (Prod.mk.inj hx).2, fun hx => Prod.ext rfl hx⟩
      · show ended (counted (V operand) 1) = some '' Residue.trees _
        rw [counted, ended_union, ended_begun, Set.empty_union, ended_map, hid, ended_blank]
      · show ended (counted (V operand) 2) = _
        rw [counted, ended_union, ended_append, ended_begun, Set.image2_empty_left,
          Set.image_empty, Set.union_empty, ended_lists]
        rfl
      · show ended (counted (V operand) (k + 3)) = _
        rw [counted, ended_union, ended_map, ended_append, ended_begun, Set.image2_empty_left,
          Set.image_empty, trees_empty, Set.image_empty, Set.image_empty, Set.union_empty,
          ended_lists]
        rfl
      · exact ended_repeated.trans hunit.symm
  | not operand =>
      ext x
      constructor
      · rintro ⟨hmem, rfl⟩
        exact ⟨.unit, ⟨rfl, hmem⟩, rfl⟩
      · rintro ⟨_, ⟨rfl, hmem⟩, rfl⟩
        exact ⟨hmem, rfl⟩
  | nullability operand =>
      show ended (map id '' blank (V operand)) = some '' Residue.trees _
      rw [ended_map, hid, ended_blank]
  | emptyReduction f =>
      ext x
      constructor
      · rintro ⟨t, ht, he⟩
        exact ⟨t, ht, (Prod.mk.inj he).2⟩
      · rintro ⟨t, ht, rfl⟩
        exact ⟨t, ht, rfl⟩
  | reduction operand reducer => exact ended_map

end Node

/-- The traces of nodes when complements are taken of given languages. -/
def traceMeaning (outer : Handle → WordSet) : Meaning (Set Trace) where
  node n V := n.traces outer V
  mono := Node.traces_mono outer

namespace Graph

variable {g g' : Graph} {D : Set Handle} {h r t : Handle} {n : Node} {x : Residue}

/-- The words that a handle matches, with what the matches leave. -/
def traces (g : Graph) : Handle → Set Trace := (traceMeaning g.language).value g

/-- The trees that a handle gives to a word. -/
def treesOf (g : Graph) (h : Handle) (word : List Char) : Set Tree :=
  {t | ∃ x, (word, x) ∈ g.traces h ∧ x.tree = t}

theorem traces_node (hs : g.slot? h = some (.node n)) :
    g.traces h = n.traces g.language g.traces := Meaning.value_node _ hs

theorem traces_forward (hs : g.slot? h = some (.forward t)) : g.traces h = g.traces t :=
  Meaning.value_forward _ hs

theorem traces_leads (hl : g.Leads h r) : g.traces h = g.traces r := Meaning.value_leads _ hl

theorem traces_nodeAt (hn : g.nodeAt h = some n) : g.traces h = n.traces g.language g.traces := by
  obtain ⟨r, hl, rfl⟩ := nodeAt_eq_some.1 hn
  rw [traces_leads hl, traces, Meaning.value_eq, Meaning.slot_of_end _ rfl hl.end_ne_forward]
  rfl

/-- The traces of a closed set of slots depend on these slots only. -/
theorem traces_congr (hD : g.Closed D) (hslot : ∀ h ∈ D, g'.slot? h = g.slot? h) :
    ∀ h ∈ D, g'.traces h = g.traces h := by
  refine fun h hh => (Meaning.value_congr _ hD hslot (fun k hk n hs V => ?_) h hh).symm
  refine Node.traces_congr fun p hp => (language_congr hD hslot p (hD k hk p ?_)).symm
  rw [references_of_node hs, hp, Node.children, List.mem_singleton]

/-- Slots that are added make no difference. -/
theorem traces_extends (hg : g.WellFormed) (hext : g'.Extends g) (hh : h.index < g.size) :
    g'.traces h = g.traces h := traces_congr hg.closed_lt hext.2 h hh

/-- The matches of the empty word leave the residues. -/
theorem nil_mem_traces : ([], x) ∈ g.traces h ↔ x ∈ g.residues h := by
  constructor
  · let A : Handle → Set Trace := fun h => {a | a.1 = [] → a.2 ∈ g.residues h}
    suffices hA : ∀ h ∈ (Set.univ : Set Handle), g.traces h ≤ A h from
      fun hx => hA h trivial hx rfl
    refine Meaning.value_le _ (fun _ _ _ _ => trivial) fun k _ => ?_
    rintro ⟨w, y⟩ ha rfl
    have hended : (fun h => ended (A h)) = g.residues :=
      funext fun h => Set.ext fun y => ⟨fun hy => hy rfl, fun hy _ => hy⟩
    rcases hs : g.slot? k with _ | (n | body | name | t)
    · rw [hs] at ha
      exact ha.elim
    · rw [hs] at ha
      have hy : y ∈ ended (n.traces g.language A) := ha
      rwa [Node.ended_traces, hended, ← residues_node hs] at hy
    · rw [hs] at ha
      exact ha.elim
    · rw [hs] at ha
      exact ha.elim
    · rw [hs] at ha
      rw [residues_forward hs]
      exact ha rfl
  · suffices hle : ∀ h ∈ (Set.univ : Set Handle), g.residues h ≤ ended (g.traces h) from
      fun hx => hle h trivial hx
    refine Meaning.value_le _ (fun _ _ _ _ => trivial) fun k _ y hy => ?_
    rcases hs : g.slot? k with _ | (n | body | name | t)
    · rw [hs] at hy
      exact hy.elim
    · rw [hs] at hy
      rw [traces_node hs, Node.ended_traces]
      exact hy
    · rw [hs] at hy
      exact hy.elim
    · rw [hs] at hy
      exact hy.elim
    · rw [hs] at hy
      rw [traces_forward hs]
      exact hy

/-- The trees of the empty word. -/
theorem treesOf_nil : g.treesOf h [] = g.emptyTrees h := by
  ext t
  constructor
  · rintro ⟨x, hx, rfl⟩
    exact ⟨x, nil_mem_traces.1 hx, rfl⟩
  · rintro ⟨x, hx, rfl⟩
    exact ⟨x, nil_mem_traces.2 hx, rfl⟩

/-- Nothing is matched by what stands for `∅`. -/
theorem treesOf_of_isNil {word : List Char} (hnil : g.isNil h = some true) :
    g.treesOf h word = ∅ := by
  refine Set.eq_empty_of_forall_notMem ?_
  rintro t ⟨x, hx, -⟩
  rw [traces_nodeAt (nodeAt_of_isNil hnil)] at hx
  exact hx

/-! ### Equal expressions -/

variable {R : Handle → Handle → Prop} {a b : Handle}

theorem Simulates.traces_subset (hR : g.Simulates R) (hD : g.Closed D)
    (hRD : ∀ a b, R a b → a ∈ D ∧ b ∈ D) (hnames : g.NamesReducers D) (hab : R a b) :
    g.traces a ⊆ g.traces b := by
  refine hR.value_le (M := traceMeaning _) (fun _ => rfl)
    (fun a b r s hab hr hs hrelates V W hVW => ?_) hab
  obtain ⟨ha, hb⟩ := hRD a b hab
  refine hrelates.traces_subset hVW (fun c d _ _ hcd => ?_) fun c f d f' hc hd hname => ?_
  · exact (hR.language_eq hcd).ge
  · exact hnames f f' (.of_node hD ha hr hc) (.of_node hD hb hs hd) hname

/-- Expressions that are found to be equal have the same traces. -/
theorem traces_eq_of_similar (hD : g.Closed D) (hnames : g.NamesReducers D) (ha : a ∈ D)
    (hb : b ∈ D) (h : g.similar a b = some true) : g.traces a = g.traces b := by
  obtain ⟨R, hR, hab⟩ := exists_simulates_of_similar h
  have hR := hR.restrict hD
  exact Set.Subset.antisymm
    (hR.traces_subset hD (fun _ _ h => h.2) hnames ⟨hab, ha, hb⟩)
    (hR.symm.traces_subset hD (fun _ _ h => h.2.symm) hnames ⟨hab, ha, hb⟩)

end Graph

end DerivativeParsing
