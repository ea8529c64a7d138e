import DerivativeParsing.Proofs.LegibleText
import DerivativeParsing.Proofs.Shapes

/-!
# The text of a shape

The written form of an expression that does not contain itself is the text of its shape
(`Graph.Unfolds.render`).  The text tells the shape: an operand is either a leaf or a nullability,
whose text is legible, or it stands in parentheses, and what follows the first operand of a node
tells the kind of the node (`Shape.legible`).  The names of reducers are the only part that is not
quoted, which is why they have to be free of closing parentheses.
-/

set_option autoImplicit false

namespace DerivativeParsing

namespace Shape

/-! ## Texts -/

/-- A shape whose text needs no parentheses as an operand. -/
def isSelfContained : Shape → Bool
  | .alt .. | .seq .. | .star _ | .rep .. | .not _ | .reduction .. => false
  | _ => true

/-- The text of an operand, given its own text. -/
def enclose (s : Shape) (text : List Char) : List Char :=
  if s.isSelfContained then text else '(' :: (text ++ [')'])

/-- The text of a shape. -/
def text : Shape → List Char
  | .nil => ['∅']
  | .empty => ['ε']
  | .any => ['.']
  | .char c => (Text.quotedChar c).toList
  | .range first last => (Text.bracketedRange first last).toList
  | .token text => (Text.quotedString text).toList
  | .alt left right => enclose left left.text ++ " | ".toList ++ enclose right right.text
  | .seq first second => enclose first first.text ++ [' '] ++ enclose second second.text
  | .star p => enclose p p.text ++ ['*']
  | .rep p count => enclose p p.text ++ count.renderBraced.toList
  | .not p => '~' :: enclose p p.text
  | .nullability p => "δ(".toList ++ p.text ++ [')']
  | .emptyReduction trees => trees.renderReduction.toList
  | .reduction p name => enclose p p.text ++ " → ".toList ++ name.toList

/-- The text of a shape as an operand. -/
def operandText (s : Shape) : List Char := s.enclose s.text

/-- The names of the reducers in a shape. -/
def names : Shape → List String
  | .alt s t | .seq s t => s.names ++ t.names
  | .star s | .rep s _ | .not s | .nullability s => s.names
  | .reduction s name => name :: s.names
  | _ => []

/-! ## The parts of a text -/

/-- What a node adds to its first operand. -/
inductive Ending where
  | alt (right : Shape)
  | seq (second : Shape)
  | star
  | rep (count : Count)
  | reduction (name : String)

/-- The shape that an ending makes of a first operand. -/
def extend (s : Shape) : Ending → Shape
  | .alt t => .alt s t
  | .seq t => .seq s t
  | .star => .star s
  | .rep count => .rep s count
  | .reduction name => .reduction s name

/-- The text of an ending. -/
def Ending.text : Ending → List Char
  | .alt t => " | ".toList ++ t.operandText
  | .seq t => ' ' :: t.operandText
  | .star => ['*']
  | .rep count => count.renderBraced.toList
  | .reduction name => " → ".toList ++ name.toList

/-- The operands in an ending. -/
def Ending.operands : Ending → List Shape
  | .alt t | .seq t => [t]
  | _ => []

theorem text_extend (s : Shape) (e : Ending) : (s.extend e).text = s.operandText ++ e.text := by
  cases e <;> simp [extend, text, operandText, Ending.text]

/-- A shape is self-contained, a complement, or extends its first operand. -/
@[elab_as_elim]
theorem induction_on_text {P : Shape → Prop} (s : Shape)
    (selfContained : ∀ s, s.isSelfContained = true → (∀ p, s = .nullability p → P p) → P s)
    (not : ∀ p, P p → P (.not p))
    (extend : ∀ p e, P p → (∀ q ∈ e.operands, P q) → P (extend p e)) : P s := by
  induction s with
  | nil | empty | any | char | range | token | emptyReduction =>
      exact selfContained _ rfl fun p h => by cases h
  | nullability p ih => exact selfContained _ rfl fun q h => by cases h; exact ih
  | not p ih => exact not p ih
  | alt s t hs ht => exact extend s (.alt t) hs (by simpa [Ending.operands] using ht)
  | seq s t hs ht => exact extend s (.seq t) hs (by simpa [Ending.operands] using ht)
  | star s hs => exact extend s .star hs (by simp [Ending.operands])
  | rep s count hs => exact extend s (.rep count) hs (by simp [Ending.operands])
  | reduction s name hs => exact extend s (.reduction name) hs (by simp [Ending.operands])

/-- The character that the text of an operand begins with. -/
def opening : Shape → Char
  | .nil => '∅'
  | .empty | .emptyReduction _ => 'ε'
  | .any => '.'
  | .char _ => '\''
  | .range .. => '['
  | .token _ => '"'
  | .nullability _ => 'δ'
  | _ => '('

theorem operandText_head (s : Shape) (r : List Char) :
    (s.operandText ++ r).head? = some s.opening := by
  cases s <;> simp [operandText, enclose, isSelfContained, text, opening, Text.quotedChar,
    Text.bracketedRange, Text.quotedString, Text.toList_quotedBy, Forest.renderReduction]

/-- No operand begins like a complement, or like what tells an alternative or a reduction from a
sequence, and none begins with an ellipsis. -/
theorem opening_ne (s : Shape) :
    s.opening ≠ '~' ∧ s.opening ≠ '|' ∧ s.opening ≠ '→' ∧ s.opening ≠ '…' := by
  cases s <;> simp [opening]

theorem operandText_append_ne {s : Shape} {r r' : List Char} {c : Char} (hc : s.opening ≠ c) :
    s.operandText ++ r ≠ c :: r' := fun h => by
  have hhead := congrArg List.head? h
  rw [operandText_head] at hhead
  exact hc (Option.some.inj hhead)

theorem opening_eq_iff {s : Shape} : s.opening = '(' ↔ s.isSelfContained = false := by
  cases s <;> simp [opening, isSelfContained]

/-! ## Reading a text -/

/-- What can follow the text of an expression: nothing, or the end of parentheses around it. -/
def Closes (r : List Char) : Prop := r = [] ∨ r.head? = some ')'

/-- What can follow the text of an operand.  Only a finished reduction could go on after the text of
another operand, that of `ε`. -/
def Separates (r : List Char) : Prop := r.head? ≠ some '↓'

/-- No name of a reducer has a closing parenthesis. -/
def Plain (s : Shape) : Prop := ∀ name ∈ s.names, ')' ∉ name.toList

/-- The text of a shape tells the shape. -/
structure Readable (s : Shape) : Prop where
  text : ∀ t r r', t.Plain → Closes r → Closes r' → s.text ++ r = t.text ++ r' → s = t ∧ r = r'
  operand : ∀ t r r', t.Plain → Separates r → Separates r' →
    s.operandText ++ r = t.operandText ++ r' → s = t ∧ r = r'

theorem Closes.separates {r : List Char} (hr : Closes r) : Separates r := by
  rcases hr with rfl | hr
  · simp [Separates]
  · simp [Separates, hr]

variable {s t : Shape} {e e' : Ending} {r r' : List Char}

theorem operandText_of_isSelfContained (hs : s.isSelfContained = true) :
    s.operandText = s.text := by
  rw [operandText, enclose, if_pos hs]

theorem operandText_of_not_isSelfContained (hs : s.isSelfContained = false) :
    s.operandText = '(' :: (s.text ++ [')']) := by
  rw [operandText, enclose, hs, if_neg Bool.false_ne_true]

/-- An ending begins with a blank, an asterisk or a brace. -/
theorem Ending.text_head (e : Ending) (r : List Char) :
    ∃ c ∈ [' ', '*', '\x7b'], (e.text ++ r).head? = some c := by
  cases e <;> simp [Ending.text, Count.toList_renderBraced]

theorem Ending.separates (e : Ending) (r : List Char) : Separates (e.text ++ r) := fun h => by
  obtain ⟨c, hc, hhead⟩ := e.text_head r
  obtain rfl := Option.some.inj (hhead.symm.trans h)
  revert hc
  decide

theorem Ending.not_closes (e : Ending) (r : List Char) : ¬ Closes (e.text ++ r) := fun h => by
  obtain ⟨c, hc, hhead⟩ := e.text_head r
  rcases h with h | h
  · simp [h] at hhead
  · obtain rfl := Option.some.inj (hhead.symm.trans h)
    revert hc
    decide

/-- `ε` is told from a finished reduction by what follows it. -/
theorem text_empty_ne {trees : Forest} (hr : Separates r) :
    empty.text ++ r ≠ (emptyReduction trees).text ++ r' := fun h => by
  refine hr ?_
  simpa [text, Forest.renderReduction] using congrArg (fun l => l.tail.head?) h

/-- Leaves and nullabilities are legible as operands. -/
theorem eq_of_isSelfContained (hs : s.isSelfContained = true)
    (hp : ∀ p, s = .nullability p → p.Readable) (ht : t.isSelfContained = true) (hplain : t.Plain)
    (hr : Separates r) (hr' : Separates r') (h : s.text ++ r = t.text ++ r') : s = t ∧ r = r' := by
  have hopening : s.opening = t.opening := by
    rw [← operandText_of_isSelfContained hs, ← operandText_of_isSelfContained ht] at h
    simpa only [operandText_head, Option.some.injEq] using congrArg List.head? h
  cases s <;> cases t <;> simp only [opening, isSelfContained, Bool.false_eq_true,
    Char.reduceEq] at hs ht hopening
  case nil.nil | empty.empty | any.any => exact ⟨rfl, (List.cons.inj h).2⟩
  case char.char c d =>
    obtain ⟨rfl, rfl⟩ := Text.legible_quotedChar c d r r' h
    exact ⟨rfl, rfl⟩
  case range.range first last first' last' =>
    obtain ⟨hrange, rfl⟩ := Text.legible_bracketedRange (first, last) (first', last') r r' h
    cases hrange
    exact ⟨rfl, rfl⟩
  case token.token text text' =>
    obtain ⟨rfl, rfl⟩ := Text.legible_quotedBy (.inr rfl) text text' r r' h
    exact ⟨rfl, rfl⟩
  case nullability.nullability p q =>
    simp only [text, List.append_assoc, List.append_cancel_left_eq] at h
    obtain ⟨rfl, hrest⟩ := (hp p rfl).text q _ _ hplain (.inr rfl) (.inr rfl) h
    exact ⟨rfl, (List.cons.inj hrest).2⟩
  case emptyReduction.emptyReduction trees trees' =>
    obtain ⟨rfl, rfl⟩ := trees.legible_renderReduction trees' r r' h
    exact ⟨rfl, rfl⟩
  case empty.emptyReduction => exact absurd h (text_empty_ne hr)
  case emptyReduction.empty => exact absurd h.symm (text_empty_ne hr')

/-- Operands are told from each other: those in parentheses by what is between them. -/
theorem eq_of_operandText (hwhole : s.isSelfContained = false → ∀ t r r', t.Plain → Closes r →
      Closes r' → s.text ++ r = t.text ++ r' → s = t ∧ r = r')
    (hp : ∀ p, s = .nullability p → p.Readable) (hplain : t.Plain) (hr : Separates r)
    (hr' : Separates r') (h : s.operandText ++ r = t.operandText ++ r') : s = t ∧ r = r' := by
  have hopening : s.opening = t.opening := by
    simpa only [operandText_head, Option.some.injEq] using congrArg List.head? h
  have hkind : s.isSelfContained = t.isSelfContained := by
    rw [Bool.eq_iff_iff, ← Bool.not_eq_false, ← Bool.not_eq_false, ← opening_eq_iff,
      ← opening_eq_iff, hopening]
  cases hs : s.isSelfContained with
  | true =>
      rw [operandText_of_isSelfContained hs, operandText_of_isSelfContained (hkind ▸ hs)] at h
      exact eq_of_isSelfContained hs hp (hkind ▸ hs) hplain hr hr' h
  | false =>
      rw [operandText_of_not_isSelfContained hs,
        operandText_of_not_isSelfContained (hkind ▸ hs)] at h
      simp only [List.cons_append, List.append_assoc, List.cons.injEq, true_and] at h
      obtain ⟨rfl, hrest⟩ := hwhole hs t _ _ hplain (.inr rfl) (.inr rfl) h
      exact ⟨rfl, (List.cons.inj hrest).2⟩

/-- A name without a closing parenthesis ends where the expression ends. -/
theorem Closes.eq_of_append {xs ys : List Char} (hr : Closes r) (hr' : Closes r') (hx : ')' ∉ xs)
    (hy : ')' ∉ ys) (h : xs ++ r = ys ++ r') : xs = ys ∧ r = r' := by
  have hparenthesis {r : List Char} (hr : Closes r) (hne : r ≠ []) : ∃ rest, r = ')' :: rest :=
    List.head?_eq_some_iff.1 (hr.resolve_left hne)
  rcases eq_or_ne r [] with rfl | hne <;> rcases eq_or_ne r' [] with rfl | hne'
  · exact ⟨by simpa using h, rfl⟩
  · obtain ⟨rest, rfl⟩ := hparenthesis hr' hne'
    exact absurd (by simp [show xs = ys ++ ')' :: rest by simpa using h]) hx
  · obtain ⟨rest, rfl⟩ := hparenthesis hr hne
    exact absurd (by simp [show ys = xs ++ ')' :: rest by simpa using h.symm]) hy
  · obtain ⟨rest, rfl⟩ := hparenthesis hr hne
    obtain ⟨rest', rfl⟩ := hparenthesis hr' hne'
    obtain ⟨rfl, rfl⟩ := eq_of_append_cons hx hy h
    exact ⟨rfl, rfl⟩

/-- The names of reducers in an ending have no closing parenthesis. -/
structure Ending.Plain (e : Ending) : Prop where
  operands : ∀ q ∈ e.operands, q.Plain
  name : ∀ name, e = .reduction name → ')' ∉ name.toList

theorem Plain.of_extend (h : (s.extend e).Plain) : s.Plain ∧ e.Plain := by
  cases e with
  | alt t | seq t =>
      simp only [extend, Plain, names, List.forall_mem_append] at h
      exact ⟨h.1, by simpa [Ending.operands, Shape.Plain] using h.2, fun _ h => by cases h⟩
  | star | rep count => exact ⟨h, by simp [Ending.operands], fun _ h => by cases h⟩
  | reduction name =>
      simp only [extend, Plain, names, List.forall_mem_cons] at h
      exact ⟨h.2, by simp [Ending.operands], fun _ he => by cases he; exact h.1⟩

/-- The ending of a node tells its kind, its count or name, and its second operand. -/
theorem eq_of_ending (hs : ∀ p ∈ e.operands, p.Readable) (hplain : e.Plain) (hplain' : e'.Plain)
    (hr : Closes r) (hr' : Closes r') (h : e.text ++ r = e'.text ++ r') : e = e' ∧ r = r' := by
  cases e <;> cases e' <;>
    simp only [Ending.text, Count.toList_renderBraced, List.cons_append, List.append_assoc,
      List.cons.injEq, Char.reduceEq, false_and, true_and, String.reduceToList,
      List.nil_append] at h
  case alt.alt p q =>
    obtain ⟨rfl, rfl⟩ := (hs p (by simp [Ending.operands])).operand q r r'
      (hplain'.operands q (by simp [Ending.operands])) hr.separates hr'.separates h
    exact ⟨rfl, rfl⟩
  case alt.seq p q => exact absurd h.symm (operandText_append_ne q.opening_ne.2.1)
  case seq.alt p q => exact absurd h (operandText_append_ne p.opening_ne.2.1)
  case seq.seq p q =>
    obtain ⟨rfl, rfl⟩ := (hs p (by simp [Ending.operands])).operand q r r'
      (hplain'.operands q (by simp [Ending.operands])) hr.separates hr'.separates h
    exact ⟨rfl, rfl⟩
  case seq.reduction p name => exact absurd h (operandText_append_ne p.opening_ne.2.2.1)
  case reduction.seq name q => exact absurd h.symm (operandText_append_ne q.opening_ne.2.2.1)
  case star.star => exact ⟨rfl, h⟩
  case rep.rep count count' =>
    obtain ⟨rfl, rfl⟩ := count.legible_renderBraced count' r r'
      (by simpa [Count.toList_renderBraced] using h)
    exact ⟨rfl, rfl⟩
  case reduction.reduction name name' =>
    obtain ⟨hname, rfl⟩ := hr.eq_of_append hr' (hplain.name name rfl) (hplain'.name name' rfl) h
    exact ⟨by rw [String.toList_inj.1 hname], rfl⟩

theorem isSelfContained_cases (s : Shape) :
    s.isSelfContained = true ∨ (∃ p, s = .not p) ∨ ∃ p e, s = extend p e := by
  induction s using induction_on_text with
  | selfContained s hself => exact .inl hself
  | not p => exact .inr (.inl ⟨p, rfl⟩)
  | extend p e => exact .inr (.inr ⟨p, e, rfl⟩)

/-- No text is an ellipsis. -/
theorem text_ne_ellipsis (s : Shape) : s.text ≠ ['…'] := fun h => by
  rcases s.isSelfContained_cases with hself | ⟨p, rfl⟩ | ⟨p, e, rfl⟩
  · rw [← operandText_of_isSelfContained hself, ← List.append_nil s.operandText] at h
    exact operandText_append_ne s.opening_ne.2.2.2 h
  · exact absurd (List.cons.inj h).1 (by decide)
  · rw [text_extend] at h
    exact operandText_append_ne p.opening_ne.2.2.2 h

/-- The text of a shape tells the shape. -/
theorem readable (s : Shape) (hs : s.Plain) : s.Readable := by
  induction s using induction_on_text with
  | selfContained s hself hp =>
      have hp : ∀ p, s = .nullability p → p.Readable := by
        rintro p rfl
        exact hp p rfl hs
      refine ⟨fun t r r' ht hr hr' h => ?_, fun t r r' ht hr hr' h =>
        eq_of_operandText (by simp [hself]) hp ht hr hr' h⟩
      rw [← operandText_of_isSelfContained hself] at h
      rcases t.isSelfContained_cases with hself' | ⟨q, rfl⟩ | ⟨q, e, rfl⟩
      · rw [← operandText_of_isSelfContained hself'] at h
        exact eq_of_operandText (by simp [hself]) hp ht hr.separates hr'.separates h
      · exact absurd h (operandText_append_ne s.opening_ne.1)
      · rw [text_extend, List.append_assoc] at h
        obtain ⟨-, rfl⟩ := eq_of_operandText (by simp [hself]) hp ht.of_extend.1 hr.separates
          (e.separates r') h
        exact absurd hr (e.not_closes r')
  | not p hp =>
      have hp := hp hs
      have hwhole : ∀ t r r', t.Plain → Closes r → Closes r' →
          (not p).text ++ r = t.text ++ r' → not p = t ∧ r = r' := by
        intro t r r' ht hr hr' h
        rcases t.isSelfContained_cases with hself' | ⟨q, rfl⟩ | ⟨q, e, rfl⟩
        · rw [← operandText_of_isSelfContained hself'] at h
          exact absurd h.symm (operandText_append_ne t.opening_ne.1)
        · obtain ⟨rfl, rfl⟩ := hp.operand q r r' ht hr.separates hr'.separates (List.cons.inj h).2
          exact ⟨rfl, rfl⟩
        · rw [text_extend, List.append_assoc] at h
          exact absurd h.symm (operandText_append_ne q.opening_ne.1)
      exact ⟨hwhole, fun t r r' ht hr hr' h =>
        eq_of_operandText (fun _ => hwhole) (fun _ h => by cases h) ht hr hr' h⟩
  | extend p e hp he =>
      have hp := hp hs.of_extend.1
      have he := fun q hq => he q hq (hs.of_extend.2.operands q hq)
      have hwhole : ∀ t r r', t.Plain → Closes r → Closes r' →
          (extend p e).text ++ r = t.text ++ r' → extend p e = t ∧ r = r' := by
        intro t r r' ht hr hr' h
        rw [text_extend, List.append_assoc] at h
        rcases t.isSelfContained_cases with hself' | ⟨q, rfl⟩ | ⟨q, e', rfl⟩
        · rw [← operandText_of_isSelfContained hself'] at h
          obtain ⟨-, rfl⟩ := hp.operand t _ r' ht (e.separates r) hr'.separates h
          exact absurd hr' (e.not_closes r)
        · exact absurd h (operandText_append_ne p.opening_ne.1)
        · rw [text_extend, List.append_assoc] at h
          obtain ⟨rfl, hending⟩ := hp.operand q _ _ ht.of_extend.1 (e.separates r) (e'.separates r') h
          obtain ⟨rfl, rfl⟩ := eq_of_ending he hs.of_extend.2 ht.of_extend.2 hr hr' hending
          exact ⟨rfl, rfl⟩
      refine ⟨hwhole, fun t r r' ht hr hr' h =>
        eq_of_operandText (fun _ => hwhole) (fun _ h => ?_) ht hr hr' h⟩
      cases e <;> cases h

/-- Shapes with one text are the same. -/
theorem eq_of_text (hs : s.Plain) (ht : t.Plain) (h : s.text = t.text) : s = t :=
  ((s.readable hs).text t [] [] ht (.inl rfl) (.inl rfl) (by rw [h])).1

end Shape

end DerivativeParsing
