import DerivativeParsing.Recognition
import DerivativeParsing.Proofs.LeastForests

/-!
# Higher limits

Simplification is given a number of passes for its queries about nullability, the repetition of
simplification a number of rounds, and parsing both.  Where there is a result, higher limits give
the same one (`normaliseWithin_mono`, `parses_mono`).
-/

set_option autoImplicit false

namespace DerivativeParsing

open Fixpoint

/-! ## The parses of the empty word -/

/-- The rule of a node gives up later if queries are given more passes. -/
theorem EmptyParses.ofNode_below {fuel fuel' : Nat} (hle : fuel ≤ fuel') (g : Graph) (n : Node) :
    (ofNode fuel g n ()).Below (ofNode fuel' g n ()) := by
  cases n with
  | not operand =>
      have hquery :
          (Rule.query (fun _ => g.nullable fuel operand) () : Plan Unit Handle Forest Bool).Below
            (Rule.query (fun _ => g.nullable fuel' operand) ()) :=
        Rule.query_below fun _ hb => Graph.nullable_mono hb hle
      exact hquery.bind fun _ _ => .refl _
  | rep operand count => rcases count with (_ | _ | k) | _ <;> exact .refl _
  | _ => exact .refl _

/-! ## Simplification -/

namespace Simplify

open Transform

variable {fuel fuel' : Nat}

/-- The rule of a node gives up later if queries are given more passes. -/
theorem ofNode_below (hle : fuel ≤ fuel') (self : Handle) (n : Node) (g : Graph) :
    (ofNode fuel self n g).Below (ofNode fuel' self n g) := by
  cases n with
  | nullability operand =>
      have hquery :
          (Rule.query (fun g => g.nullable fuel operand) g : Plan Graph Handle Handle Bool).Below
            (Rule.query (fun g => g.nullable fuel' operand) g) :=
        Rule.query_below fun _ hb => Graph.nullable_mono hb hle
      exact hquery.bind fun _ _ => .refl _
  | rep operand count => rcases count with (_ | _ | k) | _ <;> exact .refl _
  | _ => exact .refl _

end Simplify

namespace Graph

variable {g g' : Graph} {h s : Handle} {fuel fuel' rounds rounds' : Nat} {word : List Char}
  {F : Forest}

/-- The parses of the empty word are the same with more passes. -/
theorem emptyParses_mono (hF : g.emptyParses fuel h = some F) (hle : fuel ≤ fuel') :
    g.emptyParses fuel' h = some F :=
  Table.evaluate_mono hF hle (fun key => EmptyParses.ofNode_below hle g (g.node key)) rfl

/-- A simplified form is the same if queries are given more passes. -/
theorem simplify_mono (hs : g.simplify fuel h = some (s, g')) (hle : fuel ≤ fuel') :
    g.simplify fuel' h = some (s, g') := by
  unfold Graph.simplify Transform.apply at hs ⊢
  obtain ⟨r, hr, hs⟩ := Option.bind_eq_some_iff.1 hs
  refine Option.bind_eq_some_iff.2 ⟨r, hr, ?_⟩
  unfold runOnce at hs ⊢
  split at hs
  · next v m g₁ hvisit =>
      have hrule (key : Handle) (g : Graph) :
          ((Simplify.rules fuel).rule key g).Below ((Simplify.rules fuel').rule key g) :=
        Plan.Below.bind (.refl _) fun n g' => Simplify.ofNode_below hle key n g'
      have hbottom : (Simplify.rules fuel').bottom = (Simplify.rules fuel).bottom := rfl
      have hsettle : (Simplify.rules fuel').settle = (Simplify.rules fuel).settle := rfl
      rw [visit_below hbottom hsettle hrule _ _ _ _ hvisit]
      exact hs
  · cases hs

/-- What repeated simplification comes to is the same with higher limits. -/
theorem normaliseWithin_mono (hs : g.normaliseWithin fuel rounds h = some (s, g'))
    (hle : fuel ≤ fuel') (hrounds : rounds ≤ rounds') :
    g.normaliseWithin fuel' rounds' h = some (s, g') := by
  induction rounds generalizing g h rounds' with
  | zero => cases hs
  | succ rounds ih =>
      obtain ⟨rounds', rfl⟩ := Nat.exists_eq_add_of_le' (Nat.le_of_add_left_le hrounds)
      rw [normaliseWithin] at hs ⊢
      obtain ⟨⟨d, g₁⟩, hd, hs⟩ := Option.bind_eq_some_iff.1 hs
      refine Option.bind_eq_some_iff.2 ⟨⟨d, g₁⟩, simplify_mono hd hle, ?_⟩
      dsimp only at hs ⊢
      split
      · next he => rwa [if_pos he] at hs
      · next hne =>
          rw [if_neg hne] at hs
          obtain ⟨same, hsame, hs⟩ := Option.bind_eq_some_iff.1 hs
          refine Option.bind_eq_some_iff.2 ⟨same, hsame, ?_⟩
          cases same with
          | true => exact hs
          | false => exact ih hs (by omega)

theorem normalise_mono (hs : g.normalise fuel h = some (s, g')) (hle : fuel ≤ fuel') :
    g.normalise fuel' h = some (s, g') := normaliseWithin_mono hs hle hle

/-! ## Parsing -/

theorem parsesFrom_mono (hF : g.parsesFrom fuel h word = some (F, g')) (hle : fuel ≤ fuel') :
    g.parsesFrom fuel' h word = some (F, g') := by
  induction word generalizing g h with
  | nil =>
      obtain ⟨F', hF', he⟩ := Option.bind_eq_some_iff.1 hF
      exact Option.bind_eq_some_iff.2 ⟨F', emptyParses_mono hF' hle, he⟩
  | cons c rest ih =>
      rw [parsesFrom] at hF ⊢
      obtain ⟨⟨d, g₁⟩, hd, hF⟩ := Option.bind_eq_some_iff.1 hF
      obtain ⟨⟨s, g₂⟩, hs, hF⟩ := Option.bind_eq_some_iff.1 hF
      obtain ⟨nil, hnil, hF⟩ := Option.bind_eq_some_iff.1 hF
      refine Option.bind_eq_some_iff.2 ⟨(d, g₁), hd, Option.bind_eq_some_iff.2 ⟨(s, g₂), ?_,
        Option.bind_eq_some_iff.2 ⟨nil, hnil, ?_⟩⟩⟩
      · exact normalise_mono hs hle
      · cases nil with
        | true => exact hF
        | false => exact ih hF

/-- The parses of a word are the same with higher limits. -/
theorem parses_mono (hF : g.parses fuel h word = some (F, g')) (hle : fuel ≤ fuel') :
    g.parses fuel' h word = some (F, g') := by
  obtain ⟨⟨s, g₁⟩, hs, hF⟩ := Option.bind_eq_some_iff.1 hF
  exact Option.bind_eq_some_iff.2 ⟨(s, g₁), normalise_mono hs hle, parsesFrom_mono hF hle⟩

end Graph

end DerivativeParsing
