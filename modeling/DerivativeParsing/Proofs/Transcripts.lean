import Mathlib.Algebra.FreeMonoid.Basic
import Mathlib.Algebra.Group.Submonoid.Pointwise
import DerivativeParsing.Proofs.EmptyTrees

/-!
# Transcripts

A transcript is a pair of a word that is still to be read and of the text that is recorded once it
has been read.  Before anything has been read, what is recorded is what is read.  Later on some
characters have been read already: they have been recorded, and are no longer in the word.

Not every expression has a finite number of transcripts, and through cycles an expression speaks of
itself.  So a bound on transcripts is not computed but certified: a certificate claims of handles
that their transcripts belong to sets, and each claim follows from claims about the operands
(`Graph.Certifies`).  A placeholder may be claimed to have no other transcripts than those that
its result will turn out to have.
-/

set_option autoImplicit false

namespace DerivativeParsing

open Fixpoint DerivativeParsing.Graph
open scoped Pointwise

/-! ## Words and recorded texts -/

/-- A word that is to be read, and the text that is recorded for it. -/
abbrev Transcript := FreeMonoid Char × FreeMonoid Char

/-- Sets of transcripts. -/
abbrev Transcripts := Set Transcript

namespace Transcript

/-- A word that is recorded as it is read. -/
def verbatim (w : List Char) : Transcript := (.ofList w, .ofList w)

/-- A text that has been recorded, with nothing left to be read. -/
def recorded (text : List Char) : Transcript := (1, .ofList text)

/-- A word that has been read, with nothing recorded. -/
def skipped (w : List Char) : Transcript := (.ofList w, 1)

theorem verbatim_append (w w' : List Char) :
    verbatim (w ++ w') = verbatim w * verbatim w' := rfl

theorem recorded_append (s t : List Char) : recorded (s ++ t) = recorded s * recorded t := rfl

theorem skipped_append (w w' : List Char) : skipped (w ++ w') = skipped w * skipped w' := rfl

theorem verbatim_eq (w : List Char) : verbatim w = skipped w * recorded w :=
  Prod.ext (mul_one _).symm (one_mul _).symm

/-- What has nothing left to be read commutes with what is only read. -/
theorem mul_skipped {x : Transcript} (hx : x.1 = 1) (w : List Char) :
    skipped w * x = x * skipped w := by
  refine Prod.ext ?_ ?_
  · simp [skipped, hx]
  · simp [skipped]

end Transcript

namespace Transcripts

open Transcript

/-- The transcripts in which what is recorded is what is read. -/
def faithful : Submonoid Transcript where
  carrier := {x | x.1 = x.2}
  mul_mem' {x y} hx hy := by
    show x.1 * y.1 = x.2 * y.2
    rw [show x.1 = x.2 from hx, show y.1 = y.2 from hy]
  one_mem' := rfl

theorem verbatim_mem_faithful (w : List Char) : verbatim w ∈ faithful := rfl

/-- The transcripts that are left once a word has been read. -/
def after (w : List Char) (R : Transcripts) : Transcripts := {x | skipped w * x ∈ R}

/-- The transcripts with nothing left to be read. -/
def finished (R : Transcripts) : Transcripts := {x ∈ R | x.1 = 1}

variable {A B R R' : Transcripts} {w : List Char}

theorem after_mono (h : R ⊆ R') : after w R ⊆ after w R' := fun _ hx => h hx

theorem after_append (w w' : List Char) (R : Transcripts) :
    after w' (after w R) = after (w ++ w') R := by
  ext x
  show skipped w * (skipped w' * x) ∈ R ↔ skipped (w ++ w') * x ∈ R
  rw [skipped_append, mul_assoc]

theorem after_nil (R : Transcripts) : after [] R = R := by
  ext x
  show (1 : Transcript) * x ∈ R ↔ x ∈ R
  rw [one_mul]

theorem after_mul_subset : after w A * B ⊆ after w (A * B) := by
  rintro _ ⟨x, hx, y, hy, rfl⟩
  exact ⟨skipped w * x, hx, y, hy, mul_assoc _ _ _⟩

theorem finished_mul_after_subset : finished A * after w B ⊆ after w (A * B) := by
  rintro _ ⟨x, ⟨hx, hread⟩, y, hy, rfl⟩
  refine ⟨x, hx, skipped w * y, hy, ?_⟩
  show x * (skipped w * y) = skipped w * (x * y)
  rw [← mul_assoc, ← mul_assoc, mul_skipped hread]

/-- The transcripts of any number of parts. -/
def repeated (A : Transcripts) : Transcripts := Submonoid.closure A

theorem subset_repeated : A ⊆ repeated A := Submonoid.subset_closure

theorem one_mem_repeated : 1 ∈ repeated A := one_mem (Submonoid.closure A)

theorem mul_repeated_subset : A * repeated A ⊆ repeated A := by
  rintro _ ⟨x, hx, y, hy, rfl⟩
  exact mul_mem (Submonoid.subset_closure hx) hy

end Transcripts

open Transcript Transcripts

/-! ## Bounds on transcripts -/

/-- A reducer that keeps the characters of every tree. -/
def Reducer.KeepsText (f : Reducer) : Prop := ∀ t, (f.apply t).chars = t.chars

/-- The transcripts of a node are within a set, if those of its operands are within sets as claimed.
Nothing is known of a complement, whose trees do not depend on those of its operand. -/
def Node.Within (Γ : Handle → Transcripts → Prop) : Node → Transcripts → Prop
  | .nil, _ => True
  | .empty, R => 1 ∈ R
  | .any, R => ∀ c, skipped [c] ∈ R
  | .char c, R => verbatim [c] ∈ R
  | .range first last, R => ∀ c, first ≤ c → c ≤ last → verbatim [c] ∈ R
  | .token text, R => verbatim text ∈ R
  | .alt left right, R => Γ left R ∧ Γ right R
  | .seq first second, R => ∃ A B, Γ first A ∧ Γ second B ∧ A * B ⊆ R
  | .star operand, R | .rep operand .unbounded, R => ∃ A, Γ operand A ∧ repeated A ⊆ R
  | .rep operand (.exactly n), R => ∃ A, Γ operand A ∧ A ^ n ⊆ R
  | .not _, _ => False
  | .nullability operand, R => ∃ A, Γ operand A ∧ finished A ⊆ R
  | .emptyReduction trees, R => ∀ t ∈ trees, recorded t.chars ∈ R
  | .reduction operand reducer, R => reducer.KeepsText ∧ Γ operand R

theorem Node.Within.mono {Γ Γ' : Handle → Transcripts → Prop} {n : Node} {R R' : Transcripts}
    (h : n.Within Γ R) (hR : R ⊆ R')
    (hΓ : ∀ k ∈ n.children, ∀ A A', A ⊆ A' → Γ k A → Γ' k A') : n.Within Γ' R' := by
  have hsame {k : Handle} {A : Transcripts} (hk : k ∈ n.children) (h : Γ k A) : Γ' k A :=
    hΓ k hk A A (fun _ => id) h
  cases n with
  | nil => trivial
  | empty => exact hR h
  | any => exact fun c => hR (h c)
  | char c => exact hR h
  | range first last => exact fun c hle hge => hR (h c hle hge)
  | token text => exact hR h
  | alt left right =>
      exact ⟨hΓ left (by simp [children]) _ _ hR h.1, hΓ right (by simp [children]) _ _ hR h.2⟩
  | seq first second =>
      obtain ⟨A, B, hA, hB, hsub⟩ := h
      exact ⟨A, B, hsame (by simp [children]) hA, hsame (by simp [children]) hB, hsub.trans hR⟩
  | star operand =>
      obtain ⟨A, hA, hsub⟩ := h
      exact ⟨A, hsame (by simp [children]) hA, hsub.trans hR⟩
  | rep operand count =>
      cases count with
      | exactly n =>
          obtain ⟨A, hA, hsub⟩ := h
          exact ⟨A, hsame (by simp [children]) hA, hsub.trans hR⟩
      | unbounded =>
          obtain ⟨A, hA, hsub⟩ := h
          exact ⟨A, hsame (by simp [children]) hA, hsub.trans hR⟩
  | not operand => exact h
  | nullability operand =>
      obtain ⟨A, hA, hsub⟩ := h
      exact ⟨A, hsame (by simp [children]) hA, hsub.trans hR⟩
  | emptyReduction trees => exact fun t ht => hR (h t ht)
  | reduction operand reducer => exact ⟨h.1, hΓ operand (by simp [children]) _ _ hR h.2⟩

namespace Graph

variable {g g' g₀ : Graph} {K K' Γ : Handle → Transcripts → Prop} {h r t p v : Handle} {n : Node}
  {R R' A : Transcripts}

/-- Claims that follow from each other.  Some handles are only claimed to have transcripts within
sets for which `K` holds. -/
structure Certifies (K : Handle → Transcripts → Prop) (g : Graph)
    (Γ : Handle → Transcripts → Prop) : Prop where
  inRange : ∀ h R, Γ h R → h.index < g.size
  mono : ∀ h R R', R ⊆ R' → Γ h R → Γ h R'
  node : ∀ h R n, Γ h R → g.slot? h = some (.node n) → n.Within Γ R
  forward : ∀ h R t, Γ h R → g.slot? h = some (.forward t) → Γ t R
  allowed : ∀ h R, Γ h R → K h R

/-- The transcripts of an expression are within a set. -/
def Transcribes (K : Handle → Transcripts → Prop) (g : Graph) (h : Handle) (R : Transcripts) :
    Prop := ∃ Γ, Certifies K g Γ ∧ Γ h R

/-- The transcripts of an expression are within a set, where anything may be claimed. -/
abbrev Records (g : Graph) (h : Handle) (R : Transcripts) : Prop := g.Transcribes (fun _ _ => True) h R

namespace Transcribes

theorem lt (h' : g.Transcribes K h R) : h.index < g.size := by
  obtain ⟨Γ, hΓ, h'⟩ := h'
  exact hΓ.inRange h R h'

theorem mono (h' : g.Transcribes K h R) (hR : R ⊆ R') : g.Transcribes K h R' := by
  obtain ⟨Γ, hΓ, h'⟩ := h'
  exact ⟨Γ, hΓ, hΓ.mono h R R' hR h'⟩

theorem allowed (h' : g.Transcribes K h R) : K h R := by
  obtain ⟨Γ, hΓ, h'⟩ := h'
  exact hΓ.allowed h R h'

theorem node (h' : g.Transcribes K h R) (hs : g.slot? h = some (.node n)) :
    n.Within (g.Transcribes K) R := by
  obtain ⟨Γ, hΓ, h'⟩ := h'
  exact (hΓ.node h R n h' hs).mono (fun _ => id) fun k _ A A' hA hk => ⟨Γ, hΓ, hΓ.mono k A A' hA hk⟩

theorem forward (h' : g.Transcribes K h R) (hs : g.slot? h = some (.forward t)) :
    g.Transcribes K t R := by
  obtain ⟨Γ, hΓ, h'⟩ := h'
  exact ⟨Γ, hΓ, hΓ.forward h R t h' hs⟩

theorem leads (h' : g.Transcribes K h R) (hl : g.Leads h r) : g.Transcribes K r R := by
  induction hl with
  | here => exact h'
  | step hs _ ih => exact ih (h'.forward hs)

/-- One more claim, about a slot whose claims follow from certified ones. -/
theorem extend (hlt : h.index < g.size) (hK : ∀ R', R ⊆ R' → K h R')
    (hnode : ∀ n, g.slot? h = some (.node n) → n.Within (g.Transcribes K) R)
    (hforward : ∀ t, g.slot? h = some (.forward t) → g.Transcribes K t R) :
    g.Transcribes K h R := by
  refine ⟨fun k A => g.Transcribes K k A ∨ k = h ∧ R ⊆ A, ?_, .inr ⟨rfl, fun _ => id⟩⟩
  constructor
  · rintro k A (hk | ⟨rfl, -⟩)
    · exact hk.lt
    · exact hlt
  · rintro k A A' hA (hk | ⟨rfl, hR⟩)
    · exact .inl (hk.mono hA)
    · exact .inr ⟨rfl, hR.trans hA⟩
  · rintro k A n (hk | ⟨rfl, hR⟩) hs
    · exact (hk.node hs).mono (fun _ => id) fun k _ A A' hA hk => .inl (hk.mono hA)
    · exact (hnode n hs).mono hR fun k _ A A' hA hk => .inl (hk.mono hA)
  · rintro k A t (hk | ⟨rfl, hR⟩) hs
    · exact .inl (hk.forward hs)
    · exact .inl ((hforward t hs).mono hR)
  · rintro k A (hk | ⟨rfl, hR⟩)
    · exact hk.allowed
    · exact hK A hR

/-- The bound of a node follows from those of its operands. -/
theorem of_node (hs : g.slot? h = some (.node n)) (hK : ∀ R, K h R)
    (hn : n.Within (g.Transcribes K) R) : g.Transcribes K h R := by
  refine extend (slot?_lt hs) (fun R' _ => hK R') (fun n' hs' => ?_) fun t hs' => ?_
  · cases hs.symm.trans hs'
    exact hn
  · cases hs.symm.trans hs'

theorem of_forward (hs : g.slot? h = some (.forward t)) (hK : ∀ R', R ⊆ R' → K h R')
    (ht : g.Transcribes K t R) : g.Transcribes K h R := by
  refine extend (slot?_lt hs) hK (fun n' hs' => ?_) fun t' hs' => ?_
  · cases hs.symm.trans hs'
  · cases hs.symm.trans hs'
    exact ht

/-- Claims stay certified when slots are added. -/
theorem of_extends (h' : g.Transcribes K h R) (hg : g'.Extends g)
    (hK : ∀ k A, k.index < g.size → K k A → K' k A) : g'.Transcribes K' h R := by
  refine ⟨g.Transcribes K, ?_, h'⟩
  constructor
  · exact fun k A hk => hk.lt.trans_le hg.1
  · exact fun k A A' hA hk => hk.mono hA
  · exact fun k A n hk hs => hk.node ((hg.2 k hk.lt).symm.trans hs)
  · exact fun k A t hk hs => hk.forward ((hg.2 k hk.lt).symm.trans hs)
  · exact fun k A hk => hK k A hk.lt hk.allowed

/-- What is certified of an expression of a graph in a larger one is certified in the graph. -/
theorem restrict (h' : g.Transcribes K h R) (hg : g.Extends g₀) (hg₀ : g₀.WellFormed)
    (hlt : h.index < g₀.size) (hK : ∀ k A, k.index < g₀.size → K k A → K' k A) :
    g₀.Transcribes K' h R := by
  have hreference {k k' : Handle} (hk : k' ∈ g₀.references k) : k'.index < g₀.size :=
    hg₀.inRange k k' hk
  refine ⟨fun k A => g.Transcribes K k A ∧ k.index < g₀.size, ?_, h', hlt⟩
  constructor
  · exact fun k A hk => hk.2
  · exact fun k A A' hA hk => ⟨hk.1.mono hA, hk.2⟩
  · intro k A n hk hs
    refine (hk.1.node ((hg.2 k hk.2).trans hs)).mono (fun _ => id) fun k' hk' A A' hA hA' => ?_
    exact ⟨hA'.mono hA, hreference (by rwa [references_of_node hs])⟩
  · intro k A t hk hs
    exact ⟨hk.1.forward ((hg.2 k hk.2).trans hs),
      hreference (k := k) (by simp [references_of_forward hs])⟩
  · exact fun k A hk => hK k A hk.2 hk.1.allowed

/-- Claims stay certified when a placeholder is sent on to a handle of which the claims about the
placeholder can be certified. -/
theorem redirect (h' : g.Transcribes K h R) (hp : ∃ t, g.slot? p = some (.forward t))
    (hv : ∀ A, K p A → g.Transcribes K v A) (hK : ∀ k A, K k A → K' k A) :
    (g.redirect p v).Transcribes K' h R := by
  refine ⟨g.Transcribes K, ?_, h'⟩
  have hold {k : Handle} {s : Slot} (hs : (g.redirect p v).slot? k = some s) :
      g.slot? k = some s ∨ k = p ∧ s = .forward v := by
    by_cases hk : k = p
    · subst hk
      unfold Graph.redirect at hs
      split at hs
      · exact .inl hs
      · obtain ⟨t, ht⟩ := hp
        rw [slot?_setForward_self (slot?_lt ht)] at hs
        exact .inr ⟨rfl, (Option.some.inj hs).symm⟩
    · rw [slot?_redirect_of_ne hk] at hs
      exact .inl hs
  constructor
  · exact fun k A hk => hk.lt.trans_le (by simp)
  · exact fun k A A' hA hk => hk.mono hA
  · intro k A n hk hs
    rcases hold hs with hs' | ⟨-, hs'⟩
    · exact hk.node hs'
    · cases hs'
  · intro k A t hk hs
    rcases hold hs with hs' | ⟨rfl, hs'⟩
    · exact hk.forward hs'
    · cases hs'
      exact hv A hk.allowed
  · exact fun k A hk => hK k A hk.allowed

/-- A slot without a node reads as `∅`. -/
theorem read (h' : g.Transcribes K h R) : (g.node h).Within (g.Transcribes K) R := by
  by_cases hnil : g.node h = .nil
  · rw [hnil]
    trivial
  · exact h'.node (slot?_of_node_eq rfl hnil)

/-- The transcripts of the node that an expression stands for. -/
theorem nodeAt (h' : g.Transcribes K h R) (hn : g.nodeAt h = some n) :
    n.Within (g.Transcribes K) R := by
  obtain ⟨r, hl, rfl⟩ := nodeAt_eq_some.1 hn
  exact (h'.leads hl).read

end Transcribes

end Graph

/-! ## Reducers -/

namespace Reducer

/-- `prepend` keeps the text of every tree, whatever its shape. -/
theorem keepsText_prepend : prepend.KeepsText := by
  intro t
  show (prependAction t).chars = t.chars
  unfold prependAction
  split
  · simp [Tree.chars, Tree.charsOfList]
  · rfl

theorem chars_unnest? {n : Nat} {t : Tree} {parts parts' : List Tree}
    (h : unnest? n t parts = some parts') :
    Tree.charsOfList parts' = t.chars ++ Tree.charsOfList parts := by
  induction n generalizing t parts with
  | zero =>
      cases h
      rfl
  | succ n ih =>
      unfold unnest? at h
      split at h
      · next => contradiction
      · next init last parts heq =>
          cases heq
          rw [ih h]
          simp [Tree.chars, Tree.charsOfList]
      · cases h

/-- `flatten` keeps the text of every tree, whatever its shape. -/
theorem keepsText_flatten (n : Nat) : (flatten n).KeepsText := by
  intro t
  show (flattenAction n t).chars = t.chars
  unfold flattenAction
  split
  · next parts hparts =>
      rw [Tree.chars, chars_unnest? hparts]
      exact List.append_nil _
  · rfl

end Reducer

/-! ## The trees of the empty word -/

namespace EmptyParses

variable {g : Graph} {h : Handle} {n : Node} {fuel : Nat} {F : Forest} {R A : Transcripts}
  {answers : Handle → Forest → Prop} {t : Tree}

/-- As many trees as there are repetitions record what the repetitions record. -/
theorem recorded_mem_pow {items : List Tree} (h : ∀ x ∈ items, recorded x.chars ∈ A) :
    recorded (Tree.charsOfList items) ∈ A ^ items.length := by
  induction items with
  | nil => exact Set.mem_one.2 rfl
  | cons x items ih =>
      rw [Tree.charsOfList, recorded_append, List.length_cons, pow_succ']
      exact Set.mul_mem_mul (h x (by simp)) (ih fun y hy => h y (by simp [hy]))

/-- From answers that record what they should, the rule of a node makes trees that record what they
should. -/
theorem recorded_of_yields (h : (ofNode fuel g n ()).Yields answers F)
    (hanswers : ∀ r v A, answers r v → g.Records r A → ∀ t ∈ v, recorded t.chars ∈ A)
    (hn : n.Within g.Records R) (ht : t ∈ F) : recorded t.chars ∈ R := by
  have hoperand {c r : Handle} {v : Forest} {A : Transcripts} {t : Tree} (hc : g.Records c A)
      (hl : g.Leads c r) (hv : answers r v) (ht : t ∈ v) : recorded t.chars ∈ A :=
    hanswers r v A hv (hc.leads hl) t ht
  cases made_of_yields h with
  | nothing _ => exact absurd ht (Forest.not_mem_empty t)
  | unit hunit =>
      rw [unit, Forest.mem_singleton] at ht
      have hone : recorded t.chars = 1 := by rw [ht]; rfl
      rw [hone]
      cases n with
      | empty => exact hn
      | star operand =>
          obtain ⟨A, -, hsub⟩ := hn
          exact hsub one_mem_repeated
      | rep operand count =>
          rcases count with (_ | k) | _
          · obtain ⟨A, -, hsub⟩ := hn
            exact hsub (Set.mem_one.2 rfl)
          · exact hunit.elim
          · obtain ⟨A, -, hsub⟩ := hn
            exact hsub one_mem_repeated
      | _ => exact hunit.elim
  | forest f => exact hn t ht
  | union hl hv hr hw =>
      rcases Forest.mem_union.1 ht with ht | ht
      · exact hoperand hn.1 hl hv ht
      · exact hoperand hn.2 hr hw ht
  | second he hl hv =>
      obtain ⟨A, B, hA, hB, hsub⟩ := hn
      have hone : 1 ∈ A := hA.nodeAt (nodeAt_of_isEmpty he)
      have hmem := Set.mul_mem_mul hone (hoperand hB hl hv ht)
      rw [one_mul] at hmem
      exact hsub hmem
  | first _ he hl hv =>
      obtain ⟨A, B, hA, hB, hsub⟩ := hn
      have hone : 1 ∈ B := hB.nodeAt (nodeAt_of_isEmpty he)
      have hmem := Set.mul_mem_mul (hoperand hA hl hv ht) hone
      rw [mul_one] at hmem
      exact hsub hmem
  | product _ _ hl hv hr hw =>
      obtain ⟨A, B, hA, hB, hsub⟩ := hn
      obtain ⟨a, ha, b, hb, rfl⟩ := Forest.mem_product.1 ht
      have hchars : (Tree.pair a b).chars = a.chars ++ b.chars := by
        simp [Tree.pair, Tree.chars, Tree.charsOfList]
      rw [hchars, recorded_append]
      exact hsub (Set.mul_mem_mul (hoperand hA hl hv ha) (hoperand hB hr hw hb))
  | once hl hv =>
      obtain ⟨A, hA, hsub⟩ := hn
      rw [pow_one] at hsub
      exact hsub (hoperand hA hl hv ht)
  | lists hl hv =>
      obtain ⟨A, hA, hsub⟩ := hn
      obtain ⟨items, hlength, hitems, rfl⟩ := Forest.mem_power.1 ht
      have hmem := recorded_mem_pow fun x hx => hoperand hA hl hv (hitems x hx)
      rw [hlength] at hmem
      exact hsub hmem
  | matched _ => exact hn.elim
  | unmatched _ => exact hn.elim
  | copy hl hv =>
      obtain ⟨A, hA, hsub⟩ := hn
      exact hsub ⟨hoperand hA hl hv ht, rfl⟩
  | image hl hv =>
      obtain ⟨hkeeps, hA⟩ := hn
      obtain ⟨s, hs, rfl⟩ := Forest.mem_map.1 ht
      rw [hkeeps s]
      exact hoperand hA hl hv hs

theorem keeps_recorded : Keeps ((table fuel).rules g)
    (fun k v => ∀ A, g.Records k A → ∀ t ∈ v, recorded t.chars ∈ A) (fun _ _ => True) where
  bottom _ _ _ t ht := absurd ⟨t, ht⟩ Forest.not_hasTree_empty
  rule _ _ _ hyields _ hk _ ht :=
    recorded_of_yields hyields (fun _ _ A hv hr => hv A hr) hk.read ht

end EmptyParses

open EmptyParses in
/-- The trees that an expression gives to the empty word record what its transcripts say. -/
theorem Graph.Transcribes.emptyParses {g : Graph} {h : Handle} {fuel : Nat} {F : Forest}
    {R : Transcripts} {t : Tree} (hh : g.Records h R) (hF : g.emptyParses fuel h = some F)
    (ht : t ∈ F) : recorded t.chars ∈ R := by
  rcases hr : g.resolve h with _ | r
  · rw [Graph.emptyParses, Table.evaluate, hr] at hF
    cases hF
  have hl := resolve_eq_some.1 hr
  have hrun := (Table.evaluate_eq_some hl).1 hF
  have hallowed : ∀ e, RunSettles ((table fuel).rules g) e (g.size + 1) r fuel .empty →
      (fun _ : Settlement Unit Handle Forest => True) e := fun _ _ => trivial
  obtain ⟨m₀, m₁, hm₀, -, hvisit, hstale⟩ := run_last_pass
    (J := Memory.Within fun k v => ∀ A, g.Records k A → ∀ t ∈ v, recorded t.chars ∈ A)
    (fun m v m' hm _ hv => visit_within keeps_recorded (m := m.nextPass) hm (fun _ _ => trivial) hv)
    Memory.within_empty hallowed hrun
  have hvalue := (visit_traced hvisit hstale).1.2
  have hwithin := visit_within keeps_recorded (m := m₀.nextPass) hm₀ (fun _ _ => trivial) hvisit
  exact hwithin r F hvalue R (hh.leads hl) t ht

end DerivativeParsing
