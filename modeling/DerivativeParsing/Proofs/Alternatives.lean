import DerivativeParsing.Transform.Simplify
import DerivativeParsing.Proofs.SimilarWords
import DerivativeParsing.Proofs.Transforms

/-!
# What simplification looks at

Simplification looks at the nodes that operands stand for, flattens alternatives, drops those that
match nothing or are found to be equal to another one, and sorts them.  What is left is put together
again, from nodes that are there and from new ones (`Joins`).

Whatever a handle stands for, none of that makes a difference as long as alternatives unite what
their operands stand for (`Unites`, `Joins.mem_iff`, `Unites.mem_joined`).  Words are such a reading
of a graph (`unites_language`).
-/

set_option autoImplicit false

namespace DerivativeParsing

open Fixpoint DerivativeParsing.Graph
open scoped Computability

/-! ## What is looked at -/

namespace Graph

variable {g : Graph} {a h r : Handle} {n : Node}

theorem Layered.language_end (hh : g.Layered r) (hend : ∀ t, g.slot? r ≠ some (.forward t)) :
    g.language r = (g.node r).words g.language g.language := by
  rw [← slot_words_of_end hend]
  exact (hh.slot_language fun _ _ => rfl).symm

/-- An expression has the words of the node that it stands for. -/
theorem Layered.language_nodeAt (hh : g.Layered h) (hn : g.nodeAt h = some n) :
    g.language h = n.words g.language g.language := by
  obtain ⟨r, hl, rfl⟩ := nodeAt_eq_some.1 hn
  rw [hh.language_leads hl]
  exact (hh.reaches hl.reaches).language_end hl.end_ne_forward

theorem nodeAt_of_slot (hs : g.slot? h = some (.node n)) : g.nodeAt h = some n :=
  nodeAt_eq_some.2 ⟨h, .of_node hs, node_eq hs⟩

theorem isNil_of_nodeAt (hn : g.nodeAt h = some .nil) : g.isNil h = some true := by
  rw [isNil, hn]
  rfl

theorem isEmpty_of_nodeAt (hn : g.nodeAt h = some .empty) : g.isEmpty h = some true := by
  rw [isEmpty, hn]
  rfl

theorem nodeAt_of_isNil (h : g.isNil a = some true) : g.nodeAt a = some .nil := by
  unfold isNil at h
  obtain ⟨n, hn, he⟩ := Option.map_eq_some_iff.1 h
  cases n <;> first | exact hn | cases he

theorem nodeAt_of_isEmpty (h : g.isEmpty a = some true) : g.nodeAt a = some .empty := by
  unfold isEmpty at h
  obtain ⟨n, hn, he⟩ := Option.map_eq_some_iff.1 h
  cases n <;> first | exact hn | cases he

theorem WellFormed.lt_of_leads (hg : g.WellFormed) (hr : r = h ∨ g.Leads h r)
    (hh : h.index < g.size) : r.index < g.size :=
  hr.elim (fun he => he ▸ hh) fun hl => hg.lt_of_reaches hh hl.reaches

theorem isNil_eq_false (hn : g.nodeAt h = some n) (hne : n ≠ .nil) : g.isNil h = some false := by
  rw [isNil, hn]
  cases n <;> first | rfl | exact absurd rfl hne

theorem isEmpty_eq_false (hn : g.nodeAt h = some n) (hne : n ≠ .empty) :
    g.isEmpty h = some false := by
  rw [isEmpty, hn]
  cases n <;> first | rfl | exact absurd rfl hne

/-- The node that an expression stands for can be reached, unless it is `∅`. -/
theorem reaches_of_nodeAt (hn : g.nodeAt h = some n) (ha : a ∈ n.children) : g.Reaches h a := by
  obtain ⟨r, hl, rfl⟩ := nodeAt_eq_some.1 hn
  have hs : g.slot? r = some (.node (g.node r)) :=
    slot?_of_node_eq rfl fun he => by rw [he] at ha; cases ha
  exact hl.reaches.tail (by rwa [references_of_node hs])

end Graph

/-! ## Readings that unite alternatives -/

/-- A reading of the handles of a closed set under which alternatives are unions.  It is empty for
`∅`, and it does not tell expressions apart that are found to be equal. -/
structure Graph.Unites {α : Type} (g : Graph) (D : Set Handle) (X : Handle → Set α) : Prop where
  closed : g.Closed D
  leads : ∀ k ∈ D, ∀ r, g.Leads k r → X k = X r
  alt : ∀ k ∈ D, ∀ left right, g.slot? k = some (.node (.alt left right)) → X k = X left ∪ X right
  nil : ∀ k ∈ D, g.isNil k = some true → X k = ∅
  similar : ∀ a ∈ D, ∀ b ∈ D, g.similar a b = some true → X a = X b

theorem Graph.unites_language (g : Graph) : g.Unites {h | g.Layered h} g.language where
  closed _ hk _ hk' := hk.of_mem_references hk'
  leads _ hk _ hl := hk.language_leads hl
  alt _ hk _ _ hs := hk.language_node hs
  nil _ hk hnil := hk.language_nodeAt (nodeAt_of_isNil hnil)
  similar _ _ _ _ h := language_eq_of_similar h

theorem Graph.Unites.operands {α : Type} {g : Graph} {D : Set Handle} {X : Handle → Set α}
    (hX : g.Unites D X) {k left right : Handle} (hk : k ∈ D)
    (hs : g.slot? k = some (.node (.alt left right))) : left ∈ D ∧ right ∈ D := by
  have hreferences : g.references k = [left, right] := references_of_node hs
  exact ⟨hX.closed k hk left (by simp [hreferences]), hX.closed k hk right (by simp [hreferences])⟩

namespace Simplify

variable {α : Type} {g g' : Graph} {D : Set Handle} {X : Handle → Set α} {x : α}
  {a b h k left right e v : Handle} {items kept : List Handle} {existing : Option Handle}

/-! ## What is left of alternatives -/

theorem slot?_of_alternative (h : alternative? g e = some (left, right)) :
    g.slot? e = some (.node (.alt left right)) := by
  unfold alternative? at h
  split at h
  · next hs =>
      cases h
      exact stored?_eq_some.1 hs
  · cases h

/-- What is passed on from alternatives to their operands is passed on to the branches. -/
theorem of_mem_branches {P : Handle → Prop}
    (hP : ∀ h left right, g.slot? h = some (.node (.alt left right)) → P h → P left ∧ P right)
    (hh : P h) (hk : k ∈ branches g h) : P k := by
  induction h using branches.induct g with
  | case1 h left right hs hlt ihleft ihright =>
      rw [branches, hs] at hk
      simp only [hlt, and_self, dite_true, List.mem_append] at hk
      obtain ⟨hleft, hright⟩ := hP h left right (stored?_eq_some.1 hs) hh
      rcases hk with hk | hk
      · exact ihleft hleft hk
      · exact ihright hright hk
  | case2 h left right hs hlt =>
      rw [branches, hs] at hk
      simp only [hlt, dite_false, List.mem_singleton] at hk
      exact hk ▸ hh
  | case3 h hnot =>
      rw [branches] at hk
      split at hk
      · next left right hs => exact absurd hs (hnot left right)
      · rw [List.mem_singleton] at hk
        exact hk ▸ hh

theorem closed_branches (hD : g.Closed D) (hh : h ∈ D) : ∀ k ∈ branches g h, k ∈ D := by
  refine fun k hk => of_mem_branches (P := (· ∈ D)) (fun a left right hs ha => ?_) hh hk
  have hreferences : g.references a = [left, right] := references_of_node hs
  exact ⟨hD a ha left (by simp [hreferences]), hD a ha right (by simp [hreferences])⟩

/-- Nested alternatives stand for what their branches stand for. -/
theorem mem_branches (hX : g.Unites D X) (hh : h ∈ D) :
    x ∈ X h ↔ ∃ k ∈ branches g h, x ∈ X k := by
  induction h using branches.induct g with
  | case1 h left right hs hlt ihleft ihright =>
      have hslot := stored?_eq_some.1 hs
      obtain ⟨hleft, hright⟩ := hX.operands hh hslot
      rw [hX.alt h hh left right hslot, branches, hs]
      simp only [hlt, and_self, dite_true, List.mem_append, or_and_right, exists_or]
      rw [← ihleft hleft, ← ihright hright]
      rfl
  | case2 h left right hs hlt =>
      rw [branches, hs]
      simp only [hlt, dite_false, List.mem_singleton, exists_eq_left]
  | case3 h hnot =>
      rw [branches]
      split
      · next left right hs => exact absurd hs (hnot left right)
      · simp only [List.mem_singleton, exists_eq_left]

theorem mem_of_isKept (h : isKept g b kept = some true) : ∃ k ∈ kept, g.similar k b = some true := by
  induction kept with
  | nil => cases h
  | cons k kept ih =>
      rw [isKept] at h
      rcases hs : g.similar k b with _ | same
      · rw [hs] at h
        cases h
      · rw [hs] at h
        cases same with
        | true => exact ⟨k, by simp, hs⟩
        | false =>
            obtain ⟨k', hk', he⟩ := ih h
            exact ⟨k', by simp [hk'], he⟩

/-- A branch is new if it is equal to none that was kept. -/
theorem isKept_eq_false : isKept g b kept = some false ↔ ∀ k ∈ kept, g.similar k b = some false := by
  induction kept with
  | nil => simp [isKept]
  | cons k kept ih =>
      rw [isKept, List.forall_mem_cons, ← ih]
      rcases g.similar k b with _ | same
      · simp
      · cases same <;> simp

/-- A branch is dropped if it matches nothing, or is equal to one that was kept.  Otherwise it is
kept. -/
theorem distinct_cons {bs : List Handle} (h : distinct g kept (b :: bs) = some items) :
    (g.isNil b = some true ∨ ∃ k ∈ kept, g.similar k b = some true) ∧
        distinct g kept bs = some items ∨
      (g.isNil b = some false ∧ ∀ k ∈ kept, g.similar k b = some false) ∧
        distinct g (b :: kept) bs = some items := by
  rw [distinct] at h
  rcases hnil : g.isNil b with _ | isNil
  · rw [hnil] at h
    cases h
  rw [hnil] at h
  cases isNil with
  | true => exact .inl ⟨.inl rfl, h⟩
  | false =>
      rcases hkept : isKept g b kept.reverse with _ | isKept
      · simp [hkept] at h
      cases isKept with
      | true =>
          obtain ⟨k, hk, he⟩ := mem_of_isKept hkept
          simp only [hkept, Option.bind_eq_bind, Option.bind_some, Bool.false_eq_true, if_false,
            if_true] at h
          exact .inl ⟨.inr ⟨k, List.mem_reverse.1 hk, he⟩, h⟩
      | false =>
          simp only [hkept, Option.bind_eq_bind, Option.bind_some, Bool.false_eq_true,
            if_false] at h
          have hnew := isKept_eq_false.1 hkept
          exact .inr ⟨⟨rfl, fun k hk => hnew k (List.mem_reverse.2 hk)⟩, h⟩

/-- What is left without duplicates was among the branches. -/
theorem mem_of_distinct {bs : List Handle} (h : distinct g kept bs = some items) (hk : k ∈ items) :
    k ∈ kept ∨ k ∈ bs := by
  induction bs generalizing kept with
  | nil =>
      cases h
      exact .inl (List.mem_reverse.1 hk)
  | cons b bs ih =>
      rcases distinct_cons h with ⟨-, h⟩ | ⟨-, h⟩
      · exact (ih h).imp_right (List.mem_cons_of_mem b)
      · rcases ih h with hk | hk
        · rcases List.mem_cons.1 hk with rfl | hk
          · exact .inr (by simp)
          · exact .inl hk
        · exact .inr (List.mem_cons_of_mem b hk)

/-- Dropping duplicates and branches that match nothing makes no difference. -/
theorem mem_distinct (hX : g.Unites D X) {bs : List Handle} (hkept : ∀ k ∈ kept, k ∈ D)
    (hbs : ∀ b ∈ bs, b ∈ D) (h : distinct g kept bs = some items) :
    (∃ k ∈ items, x ∈ X k) ↔ (∃ k ∈ kept, x ∈ X k) ∨ ∃ b ∈ bs, x ∈ X b := by
  induction bs generalizing kept with
  | nil =>
      cases h
      simp
  | cons b bs ih =>
      have hb : b ∈ D := hbs b (by simp)
      have hrest : ∀ b ∈ bs, b ∈ D := fun b hb => hbs b (by simp [hb])
      simp only [List.exists_mem_cons_iff]
      rcases distinct_cons h with ⟨hdropped, h⟩ | ⟨-, h⟩
      · rw [ih hkept hrest h]
        refine or_congr_right' fun hnone => ?_
        refine (or_iff_right fun hx => ?_).symm
        rcases hdropped with hnil | ⟨k, hk, he⟩
        · rw [hX.nil b hb hnil] at hx
          exact hx
        · exact hnone ⟨k, hk, hX.similar k (hkept k hk) b hb he ▸ hx⟩
      · rw [ih (List.forall_mem_cons.2 ⟨hb, hkept⟩) hrest h]
        simp only [List.exists_mem_cons_iff, or_assoc, or_left_comm]

theorem map_snd_withHeights {bs : List Handle} {ranked : List (Nat × Handle)}
    (h : withHeights g bs = some ranked) : ranked.map (·.2) = bs := by
  unfold withHeights at h
  induction bs generalizing ranked with
  | nil =>
      rw [List.mapM_nil] at h
      cases h
      rfl
  | cons b bs ih =>
      rw [List.mapM_cons] at h
      simp only [Option.bind_eq_bind, Option.bind_eq_some_iff, Option.pure_def,
        Option.some.injEq] at h
      obtain ⟨pair, ⟨height, -, rfl⟩, rest, hrest, rfl⟩ := h
      rw [List.map_cons, ih hrest]

/-- Fewer than two branches are left as they are, and others are sorted by their heights. -/
theorem byHeight_cases {bs : List Handle} (h : byHeight g bs = some items) :
    bs.length < 2 ∧ items = bs ∨
      ∃ ranked, withHeights g bs = some ranked ∧
        items = (ranked.mergeSort fun a b => a.1 ≤ b.1).map (·.2) := by
  unfold byHeight at h
  split at h
  · next hfew => exact .inl ⟨hfew, (Option.some.inj h).symm⟩
  · obtain ⟨ranked, hranked, hitems⟩ := Option.bind_eq_some_iff.1 h
    exact .inr ⟨ranked, hranked, (Option.some.inj hitems).symm⟩

/-- Sorting branches permutes them. -/
theorem byHeight_perm {bs : List Handle} (h : byHeight g bs = some items) : items.Perm bs := by
  rcases byHeight_cases h with ⟨-, rfl⟩ | ⟨ranked, hranked, rfl⟩
  · exact .refl _
  · rw [← map_snd_withHeights hranked]
    exact (List.mergeSort_perm ranked _).map _

/-- Sorting branches keeps them. -/
theorem mem_byHeight {bs : List Handle} (h : byHeight g bs = some items) : k ∈ items ↔ k ∈ bs :=
  (byHeight_perm h).mem_iff

/-- What an operand is put together from after the first look at both of them. -/
def joined (g : Graph) (left right : Handle) : Option (List Handle) := do
  let kept ← distinct g [] (branches g left ++ branches g right)
  byHeight g kept

/-- What is joined are branches. -/
theorem mem_branches_of_joined (h : joined g left right = some items) (hk : k ∈ items) :
    k ∈ branches g left ∨ k ∈ branches g right := by
  unfold joined at h
  obtain ⟨kept, hkept, hitems⟩ := Option.bind_eq_some_iff.1 h
  rcases mem_of_distinct hkept ((mem_byHeight hitems).1 hk) with hk | hk
  · cases hk
  · exact List.mem_append.1 hk

/-- What is passed on from alternatives to their operands is passed on to what they are put together
from. -/
theorem of_mem_joined {P : Handle → Prop}
    (hP : ∀ h left right, g.slot? h = some (.node (.alt left right)) → P h → P left ∧ P right)
    (hleft : P left) (hright : P right) (h : joined g left right = some items) (hk : k ∈ items) :
    P k :=
  (mem_branches_of_joined h hk).elim (of_mem_branches hP hleft) (of_mem_branches hP hright)

theorem closed_joined (hD : g.Closed D) (hleft : left ∈ D) (hright : right ∈ D)
    (h : joined g left right = some items) : ∀ k ∈ items, k ∈ D := fun k hk =>
  (mem_branches_of_joined h hk).elim (closed_branches hD hleft k) (closed_branches hD hright k)

/-- Two operands stand for what the branches stand for that they are joined from. -/
theorem mem_joined (hX : g.Unites D X) (hleft : left ∈ D) (hright : right ∈ D)
    (h : joined g left right = some items) :
    (∃ k ∈ items, x ∈ X k) ↔ x ∈ X left ∨ x ∈ X right := by
  unfold joined at h
  obtain ⟨kept, hkept, hitems⟩ := Option.bind_eq_some_iff.1 h
  have hoperands : ∀ h left right, g.slot? h = some (.node (.alt left right)) → h ∈ D →
      left ∈ D ∧ right ∈ D := fun h left right hs hh => hX.operands hh hs
  have hbranches : ∀ b ∈ branches g left ++ branches g right, b ∈ D := fun b hb => by
    rcases List.mem_append.1 hb with hb | hb
    · exact of_mem_branches hoperands hleft hb
    · exact of_mem_branches hoperands hright hb
  have hsame : (∃ k ∈ items, x ∈ X k) ↔ ∃ k ∈ kept, x ∈ X k :=
    exists_congr fun k => and_congr_left' (mem_byHeight hitems)
  rw [hsame, mem_distinct hX (by simp) hbranches hkept, mem_branches hX hleft,
    mem_branches hX hright]
  simp only [List.not_mem_nil, false_and, exists_false, false_or, List.mem_append, or_and_right,
    exists_or]

/-! ## What is put together -/

/-- A handle is put together from alternatives.  An alternative that is there already may refer to
its operands through forwards. -/
inductive Joins (g : Graph) : List Handle → Handle → Prop where
  | nil : Joins g [] .nil
  | only (k : Handle) : Joins g [k] k
  | cons {first left tail right v : Handle} {items : List Handle}
      (hs : g.slot? v = some (.node (.alt left right))) (hleft : first = left ∨ g.Leads left first)
      (hright : tail = right ∨ g.Leads right tail) (hrest : Joins g items tail) :
      Joins g (first :: items) v

theorem leads_of_unchanged (h : unchanged g a b = some true) : a = b ∨ g.Leads b a := by
  unfold unchanged at h
  split at h
  · next he => exact .inl he
  · obtain ⟨r, hr, he⟩ := Option.bind_eq_some_iff.1 h
    rw [Option.pure_def, Option.some.injEq, beq_iff_eq] at he
    exact .inr (he ▸ resolve_eq_some.1 hr)

namespace Joins

/-- What is put together stands for what its alternatives stand for. -/
theorem mem_iff (h : Joins g items v) (hg : g.WellFormed) (hX : g.Unites D X) (hv : v ∈ D) :
    x ∈ X v ↔ ∃ k ∈ items, x ∈ X k := by
  induction h with
  | nil =>
      rw [hX.nil .nil hv (isNil_of_nodeAt (nodeAt_of_slot hg.nil))]
      simp
  | only k => simp
  | @cons first left tail right v items hs hleft hright _ ih =>
      obtain ⟨hl, hr⟩ := hX.operands hv hs
      have hfirst : X left = X first := hleft.elim (fun he => he ▸ rfl) (hX.leads left hl first)
      have htail : X right = X tail := hright.elim (fun he => he ▸ rfl) (hX.leads right hr tail)
      have htailD : tail ∈ D := hright.elim (fun he => he ▸ hr) fun hl =>
        hX.closed.of_reaches hr hl.reaches
      rw [hX.alt v hv left right hs, hfirst, htail, List.exists_mem_cons_iff, ← ih htailD]
      rfl

/-- What two operands are put together as stands for what they stand for. -/
theorem mem_operands {D' : Set Handle} {X' : Handle → Set α} (h : Joins g' items v)
    (hg' : g'.WellFormed) (hX' : g'.Unites D' X') (hv : v ∈ D') (hitems : joined g a b = some items)
    (hX : g.Unites D X) (ha : a ∈ D) (hb : b ∈ D) (hsame : ∀ k ∈ a :: b :: items, X' k = X k) :
    x ∈ X' v ↔ x ∈ X' a ∨ x ∈ X' b := by
  have hitem : (∃ k ∈ items, x ∈ X' k) ↔ ∃ k ∈ items, x ∈ X k :=
    exists_congr fun k => and_congr_right fun hk => by rw [hsame k (by simp [hk])]
  rw [h.mem_iff hg' hX' hv, hitem, mem_joined hX ha hb hitems, hsame a (by simp),
    hsame b (by simp)]

end Joins

/-- Alternatives are nested to the right.  Each of them is one of the given ones, which may refer to
its operands through forwards, or was made after its operands. -/
inductive Nests (g : Graph) (D : Set Handle) : List Handle → Handle → Prop where
  | only (k : Handle) : Nests g D [k] k
  | kept {first left tail right v : Handle} {items : List Handle} (hv : v ∈ D)
      (hs : g.slot? v = some (.node (.alt left right))) (hleft : first = left ∨ g.Leads left first)
      (hright : tail = right ∨ g.Leads right tail) (hrest : Nests g D items tail) :
      Nests g D (first :: items) v
  | made {first tail v : Handle} {items : List Handle}
      (hs : g.slot? v = some (.node (.alt first tail))) (hfirst : first.index < v.index)
      (htail : tail.index < v.index) (hrest : Nests g D items tail) : Nests g D (first :: items) v

namespace Nests

theorem joins (h : Nests g D items v) : Joins g items v := by
  induction h with
  | only k => exact .only k
  | kept hv hs hleft hright _ ih => exact .cons hs hleft hright ih
  | made hs hfirst htail _ ih => exact .cons hs (.inl rfl) (.inl rfl) ih

theorem extend (h : Nests g D items v) (hg : g.WellFormed) (hext : g'.Extends g)
    (hv : v.index < g.size) : Nests g' D items v := by
  induction h with
  | only k => exact .only k
  | @kept first left tail right v items hmem hs hleft hright _ ih =>
      have hlt : ∀ k ∈ [left, right], k.index < g.size := fun k hk =>
        hg.inRange v k (by rwa [references_of_node hs])
      have hleads {k r : Handle} (hk : k ∈ [left, right]) (hl : g.Leads k r) : g'.Leads k r :=
        hl.congr hg.closed_lt hext.2 (hlt k hk)
      exact .kept hmem ((hext.2 v hv).trans hs) (hleft.imp_right (hleads (by simp)))
        (hright.imp_right (hleads (by simp))) (ih (hg.lt_of_leads hright (hlt right (by simp))))
  | made hs hfirst htail _ ih =>
      exact .made ((hext.2 _ hv).trans hs) hfirst htail (ih (htail.trans hv))

end Nests

/-- Nodes that alternatives are put together with. -/
def IsAlternative (n : Node) : Prop := ∃ left right, n = .alt left right

variable {C : Contract Graph Handle Handle} {m : Memory Handle Handle}

/-- What putting alternatives together comes to, in a graph where a closed set of handles is
given. -/
abbrev JoinsAs (D : Set Handle) (g : Graph) (m : Memory Handle Handle) (items : List Handle) :
    Handle → Memory Handle Handle → Graph → Prop := fun v m' g' =>
  m' = m ∧ Builds D IsAlternative g g' ∧ Built D g g' v ∧ Joins g' items v

/-- What nesting alternatives comes to, in a graph where a closed set of handles is given. -/
abbrev NestsAs (D : Set Handle) (g : Graph) (m : Memory Handle Handle) (items : List Handle) :
    Handle → Memory Handle Handle → Graph → Prop := fun v m' g' =>
  m' = m ∧ Builds D IsAlternative g g' ∧ Built D g g' v ∧ (items = [] ∧ v = .nil ∨ Nests g' D items v)

theorem NestsAs.joinsAs {m' : Memory Handle Handle} (h : NestsAs D g m items v m' g') :
    JoinsAs D g m items v m' g' := by
  obtain ⟨hm, hbuilds, hv, ⟨rfl, rfl⟩ | hnests⟩ := h
  · exact ⟨hm, hbuilds, hv, .nil⟩
  · exact ⟨hm, hbuilds, hv, hnests.joins⟩

/-- An alternative is put in front of what has been put together. -/
theorem nests_cons {first tail : Handle} (hg : g.WellFormed) (hlt : ∀ k ∈ D, k.index < g.size)
    (hfirst : first ∈ D) (hne : items ≠ []) (h : NestsAs D g m items tail m g') :
    NestsAs D g m (first :: items) (g'.make (.alt first tail)).1 m
      (g'.make (.alt first tail)).2 := by
  obtain ⟨-, hbuilds, htail, hnests⟩ := h
  have hg' : g'.WellFormed := hbuilds.wellFormed (fun ⟨_, _, he⟩ => by cases he) hg hlt
  have hfirstlt : first.index < g'.size := (hlt first hfirst).trans_le hbuilds.kept.1
  have htaillt : tail.index < g'.size :=
    htail.elim (fun hk => (hlt tail hk).trans_le hbuilds.kept.1) And.right
  have hmake : Builds {c | Built D g g' c} IsAlternative g' (g'.make (.alt first tail)).2 :=
    .make (by simpa [Node.children] using ⟨.inl hfirst, htail⟩) ⟨first, tail, rfl⟩
  have hnew : g'.size < (g'.make (.alt first tail)).2.size := by simp [Graph.make]
  refine ⟨rfl, hbuilds.trans hmake fun _ => id, .inr ⟨hbuilds.kept.1, hnew⟩, .inr ?_⟩
  exact .made hg'.slot?_make hfirstlt htaillt
    ((hnests.resolve_left fun h => hne h.1).extend hg' extends_make htaillt)

/-- Whether an operand was given back as it was is known if its chain of forwards has an end. -/
theorem unchanged_ne_none (h : g.Leads b k) : unchanged g a b ≠ none := by
  rw [unchanged]
  split
  · simp
  · simp [resolve_eq_some.2 h]

/-- Whether two operands were given back as they were.  The second one is looked at only if the
first one was. -/
abbrev bothUnchanged (g : Graph) (a b c d : Handle) : Option Bool := do
  if ← unchanged g a b then unchanged g c d else some false

theorem bothUnchanged_eq_true {c d : Handle} : bothUnchanged g a b c d = some true ↔
    unchanged g a b = some true ∧ unchanged g c d = some true := by
  rcases h : unchanged g a b with _ | _ | _ <;> simp [bothUnchanged, h]

theorem bothUnchanged_eq_none {c d : Handle} (h : bothUnchanged g a b c d = none) :
    unchanged g a b = none ∨ unchanged g c d = none := by
  rcases hab : unchanged g a b with _ | _ | _ <;> simp_all [bothUnchanged]

/-- An alternative that is there is kept if it has the operands that a new one would have. -/
theorem ensures_kept {mayStop : Prop} {first tail : Handle} (hg : g.WellFormed) (hD : g.Closed D)
    (hlt : ∀ k ∈ D, k.index < g.size) (hstop : ∀ k ∈ D, g.resolve k = none → mayStop)
    (he : e ∈ D) (hs : g.slot? e = some (.node (.alt left right))) (hfirst : first ∈ D)
    (hne : items ≠ []) (h : NestsAs D g m items tail m g') :
    ((do
      if ← Transform.look (bothUnchanged · first left tail right) then pure e
      else Transform.make (.alt first tail) : TransformM Handle) g').Ensures C mayStop
        (NestsAs D g m (first :: items)) m := by
  obtain ⟨-, hbuilds, htail, hnests⟩ := h
  have hreferences : g.references e = [left, right] := references_of_node hs
  have hknown {k : Handle} (hk : k ∈ [left, right]) (a : Handle)
      (hnone : unchanged g' a k = none) : mayStop := by
    have hkD : k ∈ D := hD e he k (hreferences ▸ hk)
    refine hstop k hkD (Option.eq_none_iff_forall_ne_some.2 fun r hr => ?_)
    have hl : g'.Leads k r :=
      (resolve_eq_some.1 hr).congr hg.closed_lt hbuilds.kept.2 (hlt k hkD)
    exact unchanged_ne_none hl hnone
  refine ensures_look (fun hnone => ?_) fun same hsame => ?_
  · exact (bothUnchanged_eq_none hnone).elim (hknown (by simp) first) (hknown (by simp) tail)
  cases same with
  | false => exact nests_cons hg hlt hfirst hne ⟨rfl, hbuilds, htail, hnests⟩
  | true =>
      obtain ⟨hleft, hright⟩ := bothUnchanged_eq_true.1 hsame
      refine ⟨rfl, hbuilds, .inl he, .inr (.kept he ?_ (leads_of_unchanged hleft)
        (leads_of_unchanged hright) (hnests.resolve_left fun h => hne h.1))⟩
      exact (hbuilds.kept.2 e (hlt e he)).trans hs

/-- Alternatives are put together from what there is and from new nodes. -/
theorem ensures_rebuild {mayStop : Prop} (hg : g.WellFormed) (hD : g.Closed D)
    (hlt : ∀ k ∈ D, k.index < g.size) (hstop : ∀ k ∈ D, g.resolve k = none → mayStop)
    (hnil : .nil ∈ D) (hitems : ∀ k ∈ items, k ∈ D) (hexisting : ∀ e, existing = some e → e ∈ D) :
    (rebuild items existing g).Ensures C mayStop (NestsAs D g m items) m := by
  induction items generalizing existing with
  | nil => exact ⟨rfl, .refl D _ g, .inl hnil, .inl ⟨rfl, rfl⟩⟩
  | cons first items ih =>
      have hfirst := hitems first (by simp)
      have hrest : ∀ k ∈ items, k ∈ D := fun k hk => hitems k (by simp [hk])
      rcases items with _ | ⟨second, items⟩
      · exact ⟨rfl, .refl D _ g, .inl hfirst, .inr (.only first)⟩
      rw [rebuild]
      swap
      · simp
      refine ensures_look (fun hnone => by cases hnone) fun shape hshape => ?_
      rcases shape with _ | ⟨e, left, right⟩
      · dsimp only
        rw [Rule.bind_apply]
        refine Plan.Ensures.bind ((ih hrest (by simp)).mono ?_)
        rintro tail _ g' - ⟨rfl, h⟩
        exact nests_cons hg hlt hfirst (List.cons_ne_nil _ _) ⟨rfl, h⟩
      · obtain ⟨rfl, hs⟩ : existing = some e ∧ g.slot? e = some (.node (.alt left right)) := by
          rcases existing with _ | e'
          · cases hshape
          · obtain ⟨operands, hoperands, he⟩ := Option.map_eq_some_iff.1 (Option.some.inj hshape)
            cases he
            exact ⟨rfl, slot?_of_alternative hoperands⟩
        have he := hexisting e rfl
        have hright : right ∈ D := hD e he right (by simp [references_of_node hs, Node.children])
        dsimp only
        refine ensures_look (hstop right hright) fun r hr => ?_
        rw [Rule.bind_apply]
        refine Plan.Ensures.bind ((ih hrest fun e' he' => ?_).mono ?_)
        · cases he'
          exact hD.of_reaches hright (resolve_eq_some.1 hr).reaches
        · rintro tail _ g' - ⟨rfl, h⟩
          exact ensures_kept hg hD hlt hstop he hs hfirst (List.cons_ne_nil _ _) ⟨rfl, h⟩

/-- Two operands are put together from their branches, nested to the right. -/
theorem ensures_nested {mayStop : Prop} (hg : g.WellFormed) (hD : g.Closed D)
    (hlt : ∀ k ∈ D, k.index < g.size) (hstop : ∀ k ∈ D, g.resolve k = none → mayStop)
    (hjoined : joined g left right = none → mayStop) (hnil : .nil ∈ D) (he : e ∈ D)
    (hleft : left ∈ D) (hright : right ∈ D) :
    (alternatives e left right g).Ensures C mayStop
      (fun v m' g' => ∃ items, joined g left right = some items ∧ NestsAs D g m items v m' g') m := by
  unfold alternatives
  refine ensures_look hjoined fun items hitems => ?_
  replace hitems : joined g left right = some items := hitems
  refine (ensures_rebuild hg hD hlt hstop hnil (closed_joined hD hleft hright hitems) ?_).mono ?_
  · rintro e' he'
    cases he'
    exact he
  · exact fun v m' g' _ h => ⟨items, hitems, h⟩

/-- Two operands are put together from their branches. -/
theorem ensures_alternatives (hg : g.WellFormed) (hD : g.Closed D)
    (hlt : ∀ k ∈ D, k.index < g.size) (hnil : .nil ∈ D) (he : e ∈ D) (hleft : left ∈ D)
    (hright : right ∈ D) :
    (alternatives e left right g).Ensures C True
      (fun v m' g' => ∃ items, joined g left right = some items ∧ JoinsAs D g m items v m' g') m :=
  (ensures_nested hg hD hlt (fun _ _ _ => trivial) (fun _ => trivial) hnil he hleft hright).mono
    fun _ _ _ _ ⟨items, hitems, h⟩ => ⟨items, hitems, h.joinsAs⟩

/-! ## Repetitions -/

theorem starred?_eq_some {n : Node} (h : starred? a n = some e) :
    e = .empty ∧ (n = .nil ∨ n = .empty) ∨ e = a ∧ ∃ q, n = .star q := by
  unfold starred? at h
  split at h
  · cases h; exact .inl ⟨rfl, .inl rfl⟩
  · cases h; exact .inl ⟨rfl, .inr rfl⟩
  · next q => cases h; exact .inr ⟨rfl, q, rfl⟩
  · cases h

theorem starred?_eq_none {n : Node} :
    starred? a n = none ↔ (n ≠ .nil ∧ n ≠ .empty) ∧ ∀ q, n ≠ .star q := by
  cases n <;> simp [starred?]

end Simplify
end DerivativeParsing
