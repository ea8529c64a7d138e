import DerivativeParsing.Proofs.Derivatives

/-!
# The language of a derivative

The words of the derivative of an expression by `c` are what remains of the words of the expression
that start with `c`, after that character.

The languages before and after are least solutions of two systems of equations, and each inclusion
is a bound on one of them:

* `after_mem` — a word `c w` of an expression leaves `w` in the derivative, from the equations of
  the graph that was found;
* `cons_mem` — a word of the derivative comes from a word that starts with `c`, from the equations
  of the graph that was made.

Both use that the derivative of the operand of a complement is exact.  `mem_derivative_iff` puts
them together by induction on the nesting of complements.
-/

set_option autoImplicit false

namespace DerivativeParsing

open Fixpoint DerivativeParsing.Graph
open scoped Computability

/-! ## Words that start with a character -/

section Words

variable {L M : WordSet} {c : Char} {w : List Char} {n : Nat}

theorem cons_mem_mul : c :: w ∈ L * M ↔
    (∃ u v, c :: u ∈ L ∧ v ∈ M ∧ u ++ v = w) ∨ [] ∈ L ∧ c :: w ∈ M := by
  rw [Language.mem_mul]
  constructor
  · rintro ⟨u, hu, v, hv, he⟩
    cases u with
    | nil =>
        rw [List.nil_append] at he
        exact .inr ⟨hu, he ▸ hv⟩
    | cons d u =>
        rw [List.cons_append, List.cons.injEq] at he
        obtain ⟨rfl, rfl⟩ := he
        exact .inl ⟨u, v, hu, hv, rfl⟩
  · rintro (⟨u, v, hu, hv, rfl⟩ | ⟨hnil, hw⟩)
    · exact ⟨c :: u, hu, v, hv, rfl⟩
    · exact ⟨[], hnil, c :: w, hw, rfl⟩

theorem cons_mem_kstar : c :: w ∈ L∗ ↔ ∃ u v, c :: u ∈ L ∧ v ∈ L∗ ∧ u ++ v = w := by
  constructor
  · rw [Language.mem_kstar_iff_exists_nonempty]
    rintro ⟨parts, he, hparts⟩
    cases parts with
    | nil => cases he
    | cons first rest =>
        obtain ⟨hfirst, hne⟩ := hparts first (by simp)
        cases first with
        | nil => exact absurd rfl hne
        | cons d u =>
            rw [List.flatten_cons, List.cons_append, List.cons.injEq] at he
            obtain ⟨rfl, rfl⟩ := he
            have hrest : rest.flatten ∈ L∗ :=
              Language.join_mem_kstar fun v hv => (hparts v (by simp [hv])).1
            exact ⟨u, rest.flatten, hfirst, hrest, rfl⟩
  · rintro ⟨u, v, hu, hv, rfl⟩
    have hle : L * L∗ ≤ L∗ := mul_kstar_le_kstar
    exact hle (Language.append_mem_mul hu hv)

/-- If the first of several matches need not have a character, the rest of them may stand for fewer
matches just as well. -/
theorem cons_mem_pow : c :: w ∈ L ^ (n + 1) ↔ ∃ u v, c :: u ∈ L ∧ v ∈ L ^ n ∧ u ++ v = w := by
  constructor
  · intro hw
    induction n generalizing w with
    | zero => exact ⟨w, [], by simpa using hw, by simp, by simp⟩
    | succ n ih =>
        rw [pow_succ', cons_mem_mul] at hw
        rcases hw with hw | ⟨hnil, hw⟩
        · exact hw
        · obtain ⟨u, v, hu, hv, he⟩ := ih hw
          have hv' : [] ++ v ∈ L * L ^ n := Language.append_mem_mul hnil hv
          exact ⟨u, v, hu, by rw [pow_succ']; exact hv', he⟩
  · rintro ⟨u, v, hu, hv, rfl⟩
    rw [pow_succ']
    exact Language.append_mem_mul hu hv

/-- No word of a node starts with a character if the rule of the derivative knows that. -/
theorem Node.Dead.not_mem {node : Node} {outer V : Handle → WordSet} (hn : node.Dead c) :
    c :: w ∉ node.words outer V := by
  intro hw
  unfold Dead at hn
  split at hn
  · exact hw
  · cases hw
  · cases hw.2
  · cases hw
  · cases hw
  · cases hw
  · cases hw
    exact hn rfl
  · obtain ⟨d, hfirst, hlast, he⟩ := hw
    cases he
    exact hn ⟨hfirst, hlast⟩
  · cases hw
    exact hn rfl
  · exact hn

theorem Grammar.words_literalNode {outer V : Handle → WordSet} (text : List Char) :
    (literalNode text).words outer V = {w | w = text} := by
  unfold literalNode
  split <;> rfl

end Words

/-! ## The graphs of a derivative -/

section Differentiated

variable {c : Char} {g₀ g : Graph} {S : Set Handle} {m : Memory Handle Handle}
  {h y z r v a : Handle} {n : Node} {i : Nat} {u w : List Char} {A V : Handle → WordSet}

/-- The derivatives of the operands of complements are exact, as far as complements are nested at
most so deep. -/
def ComplementsExact (c : Char) (g₀ : Graph) (S : Set Handle) (m : Memory Handle Handle) (g : Graph)
    (i : Nat) : Prop :=
  ∀ y q a, y ∈ S → g₀.NestsAtMost i y → g₀.slot? y = some (.node (.not q)) →
    StandsFor g₀ m g q a → ∀ w, w ∈ g.language a ↔ c :: w ∈ g₀.language q

namespace Differentiated

theorem layered₀ (hd : Differentiated c g₀ S m g) (hh : h ∈ S) : g₀.Layered h :=
  hd.tame.layered hd.part.closed hh

theorem layered (hd : Differentiated c g₀ S m g) (hh : h ∈ grown g₀ S g) : g.Layered h :=
  hd.inv.firm.tameComplements.layered hd.working.closed hh

theorem mem_grown (hd : Differentiated c g₀ S m g) (hh : h ∈ S) : h ∈ grown g₀ S g :=
  hd.part.mem_grown hd.working.kept hh

theorem slot?_eq (hd : Differentiated c g₀ S m g) (hh : h ∈ S) : g.slot? h = g₀.slot? h :=
  hd.working.kept.2 h (hd.part.inRange h hh)

/-- The languages of what was there are what they were. -/
theorem language_eq (hd : Differentiated c g₀ S m g) (hh : h ∈ S) :
    g.language h = g₀.language h :=
  language_congr hd.part.closed (fun _ hk => hd.slot?_eq hk) h hh

theorem finished_mem (hd : Differentiated c g₀ S m g) (hv : m.Finished y v) :
    y ∈ S ∧ v ∈ grown g₀ S g := hd.working.asked y v hv.holds

/-- What was given for a derivative has the language of the derivative. -/
theorem language_of_stands (hd : Differentiated c g₀ S m g) (ha : Stands m g y a) :
    ∃ v, m.Finished y v ∧ g.language a = g.language v := by
  rcases ha with ha | ⟨v, hv, hs, -⟩
  · exact ⟨a, (Memory.holds_iff.1 ha).resolve_right (hd.idle y a), rfl⟩
  · have hlayered : g.Layered a := (hd.layered (hd.finished_mem hv).2).of_forward hs
    exact ⟨v, hv, hlayered.language_forward hs⟩

/-! ## What remains of a word is in the derivative -/

/-- From the words that the operands of a node have at a stage, the node has no word that starts
with `c` without its derivative having the rest. -/
theorem after_mem_of_derived (hd : Differentiated c g₀ S m g)
    (hexact : ComplementsExact c g₀ S m g i) (hy : y ∈ S) (hnests : g₀.NestsAtMost i y)
    (hs : g₀.slot? y = some (.node n)) (hv : v ∈ grown g₀ S g)
    (hderived : Derived c g (StandsFor g₀ m g) y n v)
    (hA : ∀ z ∈ n.children, A z ≤ g₀.language z)
    (hans : ∀ z ∈ n.children, ∀ a, StandsFor g₀ m g z a → ∀ u, c :: u ∈ A z → u ∈ g.language a)
    (hw : c :: w ∈ n.words g₀.language A) : w ∈ g.language v := by
  have hnode {k : Handle} {n' : Node} (hk : k ∈ grown g₀ S g) (hks : g.slot? k = some (.node n')) :
      g.language k = n'.words g.language g.language := (hd.layered hk).language_node hks
  have hold : ∀ z ∈ n.children, A z ≤ g.language z := fun z hz => by
    have hzS : z ∈ S := hd.part.closed y hy z (by rwa [references_of_node hs])
    rw [hd.language_eq hzS]
    exact hA z hz
  have hself : n.words g₀.language A ≤ g.language y := by
    rw [hd.language_eq hy, (hd.layered₀ hy).language_node hs]
    exact n.words_mono _ _ _ hA
  have hmem {k k' : Handle} {n' : Node} (hk : k ∈ grown g₀ S g)
      (hks : g.slot? k = some (.node n')) (hk' : k' ∈ n'.children) : k' ∈ grown g₀ S g :=
    hd.working.closed k hk k' (by rwa [references_of_node hks])
  cases hderived with
  | dead hn => exact absurd hw hn.not_mem
  | any =>
      obtain ⟨d, he⟩ := hw
      cases he
      rw [hnode hv hd.working.wellFormed.empty]
      exact Language.nil_mem_one
  | char hvs =>
      cases hw
      rw [hnode hv hvs]
      exact Language.nil_mem_one
  | range hfirst hlast hvs =>
      obtain ⟨d, -, -, he⟩ := hw
      cases he
      rw [hnode hv hvs]
      exact Language.nil_mem_one
  | @token rest x x' v hx hx' hvs =>
      cases hw
      have hnil : [] ∈ g.language x := by
        rw [hnode (hmem hv hvs (by simp [Node.children])) hx]
        exact Language.nil_mem_one
      have hrest : w ∈ g.language x' := by
        rw [hnode (hmem hv hvs (by simp [Node.children])) hx', Grammar.words_literalNode]
        rfl
      rw [hnode hv hvs]
      exact Language.append_mem_mul hnil hrest
  | alt ha hb hvs =>
      rw [hnode hv hvs]
      rcases hw with hw | hw
      · exact .inl (hans _ (by simp [Node.children]) _ ha w hw)
      · exact .inr (hans _ (by simp [Node.children]) _ hb w hw)
  | @seq first second a b x x' x'' v ha hb hx hx' hx'' hvs =>
      have hxv : x ∈ grown g₀ S g := hmem hv hvs (by simp [Node.children])
      have hxv'' : x'' ∈ grown g₀ S g := hmem hv hvs (by simp [Node.children])
      have hxv' : x' ∈ grown g₀ S g := hmem hxv'' hx'' (by simp [Node.children])
      rw [hnode hv hvs]
      rcases cons_mem_mul.1 hw with ⟨u, t, hu, ht, rfl⟩ | ⟨hnil, hw⟩
      · refine .inl ?_
        rw [hnode hxv hx]
        exact Language.append_mem_mul (hans first (by simp [Node.children]) a ha u hu)
          (hold second (by simp [Node.children]) ht)
      · have hskip : [] ∈ g.language x' := by
          rw [hnode hxv' hx']
          exact ⟨hold first (by simp [Node.children]) hnil, Language.nil_mem_one⟩
        refine .inr ?_
        rw [hnode hxv'' hx'']
        exact Language.append_mem_mul hskip (hans second (by simp [Node.children]) b hb w hw)
  | not ha hvs =>
      rw [hnode hv hvs]
      exact fun hwa => hw ((hexact y _ _ hy hnests hs ha w).1 hwa)
  | @star operand a x v ha hx hvs =>
      obtain ⟨u, t, hu, ht, rfl⟩ := cons_mem_kstar.1 hw
      rw [hnode hv hvs]
      change u ++ t ∈ g.language x
      rw [hnode (hmem hv hvs (by simp [Node.children])) hx]
      exact Language.append_mem_mul (hans operand (by simp [Node.children]) a ha u hu) (hself ht)
  | @unbounded operand a x v ha hx hvs =>
      obtain ⟨u, t, hu, ht, rfl⟩ := cons_mem_kstar.1 hw
      rw [hnode hv hvs]
      change u ++ t ∈ g.language x
      rw [hnode (hmem hv hvs (by simp [Node.children])) hx]
      exact Language.append_mem_mul (hans operand (by simp [Node.children]) a ha u hu) (hself ht)
  | @once operand a ha =>
      refine hans operand (by simp [Node.children]) _ ha w ?_
      have hone : (Node.rep operand (.exactly 1)).words g₀.language A = A operand :=
        pow_one (A operand)
      rwa [hone] at hw
  | @twice operand a v ha hvs =>
      obtain ⟨u, t, hu, ht, rfl⟩ := cons_mem_pow.1 hw
      rw [pow_one] at ht
      rw [hnode hv hvs]
      exact Language.append_mem_mul (hans operand (by simp [Node.children]) a ha u hu)
        (hold operand (by simp [Node.children]) ht)
  | @more operand a x x' v k ha hx hx' hvs =>
      obtain ⟨u, t, hu, ht, rfl⟩ := cons_mem_pow.1 hw
      have hxv' : x' ∈ grown g₀ S g := hmem hv hvs (by simp [Node.children])
      have hpow : A operand ^ (k + 2) ≤ g.language x := by
        rw [hnode (hmem hxv' hx' (by simp [Node.children])) hx]
        exact pow_le_pow_left' (hold operand (by simp [Node.children])) (k + 2)
      rw [hnode hv hvs]
      change u ++ t ∈ g.language x'
      rw [hnode hxv' hx']
      exact Language.append_mem_mul (hans operand (by simp [Node.children]) a ha u hu) (hpow ht)
  | reduction ha hvs =>
      rw [hnode hv hvs]
      exact hans _ (by simp [Node.children]) _ ha w hw

/-- If a word of an expression starts with `c`, what remains is in the derivative. -/
theorem after_mem (hd : Differentiated c g₀ S m g) (hexact : ComplementsExact c g₀ S m g i)
    (hnests : g₀.NestsAtMost i y) (hv : m.Finished y v) (hw : c :: w ∈ g₀.language y) :
    w ∈ g.language v := by
  let D : Set Handle := {h | h ∈ S ∧ g₀.NestsAtMost i h}
  have hD : g₀.Closed D := fun h hh k hk =>
    ⟨hd.part.closed h hh.1 k hk, hh.2.reaches (.single hk)⟩
  -- A stage is within the languages, and leaves in the derivatives what it should.
  let A : Handle → WordSet := fun h =>
    {w | w ∈ g₀.language h ∧
      ∀ r v u, g₀.Leads h r → m.Finished r v → w = c :: u → u ∈ g.language v}
  have hA : ∀ h ∈ D, (wordMeaning g₀.language).value g₀ h ≤ A h := by
    refine Meaning.value_le _ hD fun h hh w hw => ⟨?_, ?_⟩
    · have hle : (wordMeaning g₀.language).slot A (g₀.slot? h) ≤
          (wordMeaning g₀.language).slot g₀.language (g₀.slot? h) :=
        Meaning.slot_mono _ fun k _ _ hk => hk.1
      rw [(hd.layered₀ hh.1).slot_language fun _ _ => rfl] at hle
      exact hle hw
    · rintro r v u hl hrv rfl
      obtain ⟨n, hs, hderived⟩ := hd.inv.derived hrv
      cases hl with
      | step hf hrest =>
          rw [hf] at hw
          exact hw.2 r v u hrest hrv rfl
      | here =>
          rw [hs] at hw
          refine hd.after_mem_of_derived hexact hh.1 hh.2 hs (hd.finished_mem hrv).2 hderived
            (A := A) (fun z _ _ hz => hz.1) (fun z _ a ha u hu => ?_) hw
          obtain ⟨r', hl', hstands⟩ := ha
          obtain ⟨v', hv', he⟩ := hd.language_of_stands hstands
          rw [he]
          exact hu.2 r' v' u hl' hv' rfl
  have hyS : y ∈ S := (hd.finished_mem hv).1
  rw [(hd.layered₀ hyS).language_eq] at hw
  obtain ⟨n, hs, -⟩ := hd.inv.derived hv
  exact (hA y ⟨hyS, hnests⟩ hw).2 y v w (.of_node hs) hv rfl

/-! ## A word of the derivative is what remains of a word -/

/-- From the words that the handles of the derivative have at a stage, the derivative of a node has
no more than what remains of the words of the node. -/
theorem cons_mem_of_derived (hd : Differentiated c g₀ S m g)
    (hexact : ComplementsExact c g₀ S m g i) (hy : y ∈ S) (hnests : g₀.NestsAtMost i y)
    (hs : g₀.slot? y = some (.node n)) (honce : ∀ z, n ≠ .rep z (.exactly 1))
    (hv : v ∈ grown g₀ S g) (hderived : Derived c g (StandsFor g₀ m g) y n v)
    (hstep : ∀ h ∈ grown g₀ S g, V h ≤ (wordMeaning g.language).slot V (g.slot? h))
    (hold : ∀ h ∈ S, V h ≤ g₀.language h)
    (hans : ∀ z ∈ n.children, ∀ a ∈ grown g₀ S g, StandsFor g₀ m g z a →
      ∀ u ∈ V a, c :: u ∈ g₀.language z)
    (hw : w ∈ (wordMeaning g.language).slot V (g.slot? v)) : c :: w ∈ g₀.language y := by
  rw [(hd.layered₀ hy).language_node hs]
  have hnode {k : Handle} {n' : Node} (hk : k ∈ grown g₀ S g) (hks : g.slot? k = some (.node n')) :
      V k ≤ n'.words g.language V := by
    have hle := hstep k hk
    rwa [hks] at hle
  have hoperand : ∀ z ∈ n.children, V z ≤ g₀.language z := fun z hz =>
    hold z (hd.part.closed y hy z (by rwa [references_of_node hs]))
  have hself : V y ≤ n.words g₀.language g₀.language := by
    rw [← (hd.layered₀ hy).language_node hs]
    exact hold y hy
  have hmem {k k' : Handle} {n' : Node} (hk : k ∈ grown g₀ S g)
      (hks : g.slot? k = some (.node n')) (hk' : k' ∈ n'.children) : k' ∈ grown g₀ S g :=
    hd.working.closed k hk k' (by rwa [references_of_node hks])
  cases hderived with
  | dead hn =>
      rw [hd.working.wellFormed.nil] at hw
      exact hw.elim
  | any =>
      rw [hd.working.wellFormed.empty] at hw
      cases hw
      exact ⟨c, rfl⟩
  | char hvs =>
      rw [hvs] at hw
      cases hw
      rfl
  | range hfirst hlast hvs =>
      rw [hvs] at hw
      cases hw
      exact ⟨c, hfirst, hlast, rfl⟩
  | @token rest x x' v hx hx' hvs =>
      rw [hvs] at hw
      obtain ⟨u, hu, t, ht, rfl⟩ := hw
      cases hnode (hmem hv hvs (by simp [Node.children])) hx hu
      have ht := hnode (hmem hv hvs (by simp [Node.children])) hx' ht
      rw [Grammar.words_literalNode] at ht
      cases ht
      rfl
  | alt ha hb hvs =>
      have hav := hmem hv hvs (List.mem_cons_self ..)
      have hbv := hmem hv hvs (List.mem_cons_of_mem _ (List.mem_cons_self ..))
      rw [hvs] at hw
      rcases hw with hw | hw
      · exact .inl (hans _ (by simp [Node.children]) _ hav ha w hw)
      · exact .inr (hans _ (by simp [Node.children]) _ hbv hb w hw)
  | @seq first second a b x x' x'' v ha hb hx hx' hx'' hvs =>
      have hxv : x ∈ grown g₀ S g := hmem hv hvs (by simp [Node.children])
      have hxv'' : x'' ∈ grown g₀ S g := hmem hv hvs (by simp [Node.children])
      have hxv' : x' ∈ grown g₀ S g := hmem hxv'' hx'' (by simp [Node.children])
      rw [hvs] at hw
      refine cons_mem_mul.2 ?_
      rcases hw with hw | hw
      · obtain ⟨u, hu, t, ht, he⟩ := hnode hxv hx hw
        have hav : a ∈ grown g₀ S g := hmem hxv hx (by simp [Node.children])
        exact .inl ⟨u, t, hans first (by simp [Node.children]) a hav ha u hu,
          hoperand second (by simp [Node.children]) ht, he⟩
      · obtain ⟨u, hu, t, ht, rfl⟩ := hnode hxv'' hx'' hw
        obtain ⟨hu, rfl⟩ := hnode hxv' hx' hu
        have hbv : b ∈ grown g₀ S g := hmem hxv'' hx'' (by simp [Node.children])
        exact .inr ⟨hoperand first (by simp [Node.children]) hu,
          hans second (by simp [Node.children]) b hbv hb t ht⟩
  | not ha hvs =>
      rw [hvs] at hw
      exact fun hwa => hw ((hexact y _ _ hy hnests hs ha w).2 hwa)
  | @star operand a x v ha hx hvs =>
      have hxv : x ∈ grown g₀ S g := hmem hv hvs (by simp [Node.children])
      have hav : a ∈ grown g₀ S g := hmem hxv hx (by simp [Node.children])
      rw [hvs] at hw
      obtain ⟨u, hu, t, ht, he⟩ := hnode hxv hx hw
      exact cons_mem_kstar.2
        ⟨u, t, hans operand (by simp [Node.children]) a hav ha u hu, hself ht, he⟩
  | @unbounded operand a x v ha hx hvs =>
      have hxv : x ∈ grown g₀ S g := hmem hv hvs (by simp [Node.children])
      have hav : a ∈ grown g₀ S g := hmem hxv hx (by simp [Node.children])
      rw [hvs] at hw
      obtain ⟨u, hu, t, ht, he⟩ := hnode hxv hx hw
      exact cons_mem_kstar.2
        ⟨u, t, hans operand (by simp [Node.children]) a hav ha u hu, hself ht, he⟩
  | once ha => exact absurd rfl (honce _)
  | @twice operand a v ha hvs =>
      have hav : a ∈ grown g₀ S g := hmem hv hvs (by simp [Node.children])
      rw [hvs] at hw
      obtain ⟨u, hu, t, ht, he⟩ := hw
      refine cons_mem_pow.2 ⟨u, t, hans operand (by simp [Node.children]) a hav ha u hu, ?_, he⟩
      rw [pow_one]
      exact hoperand operand (by simp [Node.children]) ht
  | @more operand a x x' v k ha hx hx' hvs =>
      have hxv' : x' ∈ grown g₀ S g := hmem hv hvs (by simp [Node.children])
      have hpow : V x ≤ g₀.language operand ^ (k + 2) :=
        (hnode (hmem hxv' hx' (by simp [Node.children])) hx).trans
          (pow_le_pow_left' (hoperand operand (by simp [Node.children])) (k + 2))
      have hav : a ∈ grown g₀ S g := hmem hxv' hx' (by simp [Node.children])
      rw [hvs] at hw
      obtain ⟨u, hu, t, ht, he⟩ := hnode hxv' hx' hw
      exact cons_mem_pow.2
        ⟨u, t, hans operand (by simp [Node.children]) a hav ha u hu, hpow ht, he⟩
  | reduction ha hvs =>
      have hav := hmem hv hvs (List.mem_cons_self ..)
      rw [hvs] at hw
      exact hans _ (by simp [Node.children]) _ hav ha w hw

/-- A word of the derivative remains of a word that starts with `c`. -/
theorem cons_mem (hd : Differentiated c g₀ S m g) (hexact : ComplementsExact c g₀ S m g i)
    (hnests : g₀.NestsAtMost i y) (hv : m.Finished y v) (hw : w ∈ g.language v) :
    c :: w ∈ g₀.language y := by
  let A : Handle → WordSet := fun h =>
    {w | (h ∈ S → w ∈ g₀.language h) ∧
      ∀ y, g₀.NestsAtMost i y → Stands m g y h → c :: w ∈ g₀.language y}
  have hA : ∀ h ∈ grown g₀ S g, (wordMeaning g.language).value g h ≤ A h := by
    refine Meaning.value_le_of_unfolding _ hd.working.closed fun V hVA _ hstep h hh w hw => ⟨?_, ?_⟩
    · -- What was there has the words that it had.
      intro hhS
      rw [← hd.language_eq hhS]
      have hle : (wordMeaning g.language).slot V (g.slot? h) ≤
          (wordMeaning g.language).slot g.language (g.slot? h) :=
        Meaning.slot_mono _ fun k hk => by
          have hkS : k ∈ S := by
            rw [references_congr (hd.slot?_eq hhS)] at hk
            exact hd.part.closed h hhS k hk
          rw [hd.language_eq hkS]
          exact fun u hu => (hVA k (hd.mem_grown hkS) hu).1 hkS
      rw [(hd.layered hh).slot_language fun _ _ => rfl] at hle
      exact hle hw
    · intro y hnests hstands
      -- What has been sent on is what it has been sent on to.
      have hsent {y v : Handle} (hv : m.Finished y v) (hnests : g₀.NestsAtMost i y)
          (hs : g.slot? h = some (.forward v)) : c :: w ∈ g₀.language y := by
        rw [hs] at hw
        exact (hVA v (hd.finished_mem hv).2 hw).2 y hnests (.inl hv.holds)
      rcases hstands with hholds | ⟨v, hv, hs, -⟩
      · have hfinished : m.Finished y h := (Memory.holds_iff.1 hholds).resolve_right (hd.idle y h)
        -- Single repetitions are followed to the node that was made.
        have hsource := hd.inv.source hfinished
        have hyS : y ∈ S := (hd.finished_mem hfinished).1
        clear hholds hfinished
        induction hsource with
        | @made y _ n hs honce hderived =>
            refine hd.cons_mem_of_derived hexact hyS hnests hs honce hh hderived hstep
              (fun k hkS u hu => (hVA k (hd.mem_grown hkS) hu).1 hkS)
              (fun z hz a ha hstands u hu => ?_) hw
            obtain ⟨r, hl, hstands⟩ := hstands
            have hyz : g₀.Reaches y z := .single (by rwa [references_of_node hs])
            have hzS : z ∈ S := hd.part.closed.of_reaches hyS hyz
            rw [(hd.layered₀ hzS).language_leads hl]
            exact (hVA a ha hu).2 r (hnests.reaches (hyz.trans hl.reaches)) hstands
        | @once y z r _ hs hl _ ih =>
            have hyz : g₀.Reaches y z :=
              .single (by rw [references_of_node hs, Node.children, List.mem_singleton])
            have hzS : z ∈ S := hd.part.closed.of_reaches hyS hyz
            have hlanguage : g₀.language y = g₀.language r := by
              rw [(hd.layered₀ hyS).language_node hs, ← (hd.layered₀ hzS).language_leads hl]
              exact pow_one _
            rw [hlanguage]
            exact ih hh hw (hnests.reaches (hyz.trans hl.reaches)) hsent
              (hd.part.closed.of_reaches hzS hl.reaches)
        | held hp => exact absurd hp (hd.idle _ _)
        | sent hv hs _ => exact hsent hv hnests hs
        | stuck hs _ =>
            rw [hs] at hw
            have hnil := hstep .nil (hd.mem_grown hd.part.nil) hw
            rw [hd.working.wellFormed.nil] at hnil
            exact hnil.elim
      · exact hsent hv hnests hs
  have hvg := (hd.finished_mem hv).2
  rw [(hd.layered hvg).language_eq] at hw
  exact (hA v hvg hw).2 y hnests (.inl hv.holds)

/-! ## Both together -/

/-- Where the operands of complements have exact derivatives, so have all expressions in which
complements are nested no deeper. -/
theorem mem_language_iff_of_exact (hd : Differentiated c g₀ S m g)
    (hexact : ComplementsExact c g₀ S m g i) (hnests : g₀.NestsAtMost i y) (hv : m.Finished y v)
    (w : List Char) : w ∈ g.language v ↔ c :: w ∈ g₀.language y :=
  ⟨hd.cons_mem hexact hnests hv, hd.after_mem hexact hnests hv⟩

/-- The derivatives of the operands of complements are exact. -/
theorem complementsExact (hd : Differentiated c g₀ S m g) (i : Nat) :
    ComplementsExact c g₀ S m g i := by
  induction i with
  | zero => exact fun y q a _ hnests hs => absurd hs (hnests y q .refl)
  | succ i ih =>
      rintro y q a hy hnests hs ⟨r, hl, hstands⟩ w
      have hyq : g₀.Reaches y q := .single (by simp [references_of_node hs, Node.children])
      have hq : q ∈ S := hd.part.closed.of_reaches hy hyq
      have hr : g₀.NestsAtMost i r := (hnests y q .refl hs).reaches hl.reaches
      obtain ⟨v, hv, he⟩ := hd.language_of_stands hstands
      rw [he, (hd.layered₀ hq).language_leads hl]
      exact hd.mem_language_iff_of_exact ih hr hv w

/-- The words of a derivative are what remains of the words that start with `c`. -/
theorem mem_language_iff (hd : Differentiated c g₀ S m g) (hv : m.Finished y v) (w : List Char) :
    w ∈ g.language v ↔ c :: w ∈ g₀.language y := by
  obtain ⟨i, hnests⟩ := hd.layered₀ (hd.finished_mem hv).1
  exact hd.mem_language_iff_of_exact (hd.complementsExact i) hnests hv w

end Differentiated

end Differentiated

/-! ## The action on a grammar -/

namespace Grammar

variable {g g₁ : Grammar} {root r : Handle} {c : Char}

/-- The derivative of an expression that can be prepared, and in which no cycle can be reached from
the operand of a complement, comes to a result.  The words of the result are what remains of the
words of the expression that start with the character.  Nothing that was there is changed. -/
theorem mem_derivative_iff (hg : g.WellFormed) (hroot : g.Has root)
    (hprepare : (prepare root).run.run g = (.ok r, g₁)) (htame : g₁.graph.ComplementsTame root)
    (c : Char) :
    ∃ d g₂, (Grammar.derivative root c).run.run g = (.ok d, g₂) ∧ g₁.graph.Prefix g₂.graph ∧
      g₂.graph.language root = g₁.graph.language root ∧
      ∀ w, w ∈ g₂.graph.language d ↔ c :: w ∈ g₁.graph.language root := by
  obtain ⟨hl, hS, htame⟩ := part_of_prepare hg hroot hprepare htame
  have hrootS : root ∈ g₁.graph.scope root := .inl .refl
  have hrS : r ∈ g₁.graph.scope root := .inl hl.reaches
  obtain ⟨d, graph, m, hrun, hd, hv⟩ :=
    derivative_differentiates (c := c) hS htame hrS hl.self_end
  refine ⟨d, { g₁ with graph }, ?_, hd.working.kept, hd.language_eq hrootS, fun w => ?_⟩
  · unfold Grammar.derivative
    rw [run_bind, hprepare]
    exact run_onGraph? hrun
  · rw [(hd.layered₀ hrootS).language_leads hl]
    exact hd.mem_language_iff hv w

/-! ## A rule that starts with itself

The rule `l = l 'a' | (~'b'){2}` is left-recursive, and repeats a complement that matches `ε`. -/

namespace LeftRecursion

/-- The grammar `l = l 'a' | (~'b'){2}`. -/
def grammar : Grammar :=
  ⟨⟨#[.node .nil, .node .empty, .node .any, .forward ⟨9⟩, .node (.char 'a'), .node (.seq ⟨3⟩ ⟨4⟩),
      .node (.char 'b'), .node (.not ⟨6⟩), .node (.rep ⟨7⟩ (.exactly 2)), .node (.alt ⟨5⟩ ⟨8⟩)]⟩,
    [("l", ⟨3⟩)], [], 0⟩

/-- The handle of `l`. -/
def start : Handle := ⟨3⟩

theorem wellFormed_grammar : grammar.WellFormed where
  graph := .of_fits rfl rfl rfl (by decide)
  rules := by decide
  names := by decide

theorem complementsTame : grammar.graph.ComplementsTame start := by
  -- The complement is the only one, and its operand refers to nothing.
  intro k p _ hs
  have hp : p = ⟨6⟩ := by
    rcases k with ⟨_ | _ | _ | _ | _ | _ | _ | _ | _ | _ | k⟩ <;> cases hs
    rfl
  subst hp
  have hclosed : grammar.graph.Closed {h | h ∈ ([⟨6⟩] : List Handle)} :=
    Graph.closed_of_list (by decide)
  intro k hk hcycle
  obtain rfl : k = ⟨6⟩ := List.mem_singleton.1 (hclosed.of_reaches (by decide) hk)
  obtain ⟨c, hc, -⟩ := Relation.TransGen.head'_iff.1 hcycle
  cases hc

/-- The derivative of `l` by `'a'`. -/
theorem mem_derivative_iff_start :
    (grammar.WellFormed ∧ grammar.Has start ∧
        (prepare start).run.run grammar = (.ok ⟨9⟩, grammar) ∧
        grammar.graph.ComplementsTame start) ∧
      ∃ d g₂, (Grammar.derivative start 'a').run.run grammar = (.ok d, g₂) ∧
        grammar.graph.Prefix g₂.graph ∧
        g₂.graph.language start = grammar.graph.language start ∧
        ∀ w, w ∈ g₂.graph.language d ↔ 'a' :: w ∈ grammar.graph.language start :=
  ⟨⟨wellFormed_grammar, (by decide : 3 < 10), rfl, complementsTame⟩,
    mem_derivative_iff wellFormed_grammar (by decide : 3 < 10) rfl complementsTame 'a'⟩

end LeftRecursion

end Grammar

end DerivativeParsing
