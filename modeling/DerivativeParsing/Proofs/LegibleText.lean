import Mathlib.Data.List.Basic
import DerivativeParsing.Rendering.Expression

/-!
# Written texts that can be read back

A thing is written *legibly* if its text tells what was written and where the text ends, whatever
follows it (`Legible`).  Characters in quoted text are legible, since an escape ends where it says
so; hence so are quoted characters and texts, parse trees, which end in the bracket that they begin
with, forests and counts.
-/

set_option autoImplicit false

namespace DerivativeParsing

variable {α : Type}

/-- What was written as `write a`, and what follows it, can be told from the whole. -/
def Legible (write : α → List Char) (a : α) : Prop :=
  ∀ b r r', write a ++ r = write b ++ r' → a = b ∧ r = r'

/-- A character that occurs in neither of two texts ends them at one place. -/
theorem eq_of_append_cons {d : Char} {xs ys r r' : List Char} (hx : d ∉ xs) (hy : d ∉ ys)
    (h : xs ++ d :: r = ys ++ d :: r') : xs = ys ∧ r = r' := by
  induction xs generalizing ys with
  | nil =>
      cases ys with
      | nil => exact ⟨rfl, (List.cons.inj h).2⟩
      | cons y ys => exact absurd (List.cons.inj h).1 fun hdy => hy (hdy ▸ List.mem_cons_self)
  | cons x xs ih =>
      cases ys with
      | nil => exact absurd (List.cons.inj h).1.symm fun hdx => hx (hdx ▸ List.mem_cons_self)
      | cons y ys =>
          obtain ⟨rfl, hrest⟩ := List.cons.inj h
          obtain ⟨rfl, rfl⟩ := ih (List.not_mem_of_not_mem_cons hx)
            (List.not_mem_of_not_mem_cons hy) hrest
          exact ⟨rfl, rfl⟩

/-! ## Lists with separators -/

theorem intercalate_cons (sep x : List Char) (xs : List (List Char)) :
    sep.intercalate (x :: xs) = x ++ xs.flatMap (sep ++ ·) := by
  induction xs generalizing x with
  | nil => simp
  | cons y ys ih => simp only [List.intercalate_cons_cons, ih y, List.flatMap_cons, List.append_assoc]

section Lists

variable {write : α → List Char} {items items' : List α} {d : Char} {r r' : List Char}

/-- Items that each follow a separator are legible in front of a character that is no separator. -/
theorem eq_of_flatMap (hitems : ∀ a ∈ items, Legible write a) (hd : d ≠ ',')
    (h : items.flatMap (fun a => ", ".toList ++ write a) ++ d :: r =
      items'.flatMap (fun a => ", ".toList ++ write a) ++ d :: r') : items = items' ∧ r = r' := by
  induction items generalizing items' with
  | nil =>
      cases items' with
      | nil => exact ⟨rfl, (List.cons.inj h).2⟩
      | cons b bs => exact absurd (List.cons.inj h).1 hd
  | cons a as ih =>
      cases items' with
      | nil => exact absurd (List.cons.inj h).1.symm hd
      | cons b bs =>
          simp only [List.flatMap_cons, List.append_assoc, List.append_cancel_left_eq] at h
          obtain ⟨rfl, hrest⟩ := hitems a List.mem_cons_self b _ _ h
          obtain ⟨rfl, rfl⟩ := ih (fun a ha => hitems a (List.mem_cons_of_mem _ ha)) hrest
          exact ⟨rfl, rfl⟩

/-- A list of legible items with separators is legible in front of a character that neither
separates items nor begins one. -/
theorem eq_of_intercalate (hitems : ∀ a ∈ items, Legible write a) (hd : d ≠ ',')
    (hhead : ∀ a r, (write a ++ r).head? ≠ some d)
    (h : ", ".toList.intercalate (items.map write) ++ d :: r =
      ", ".toList.intercalate (items'.map write) ++ d :: r') : items = items' ∧ r = r' := by
  cases items with
  | nil =>
      cases items' with
      | nil => exact ⟨rfl, (List.cons.inj h).2⟩
      | cons b bs =>
          rw [List.map_cons, intercalate_cons, List.append_assoc] at h
          exact absurd (congrArg List.head? h).symm (hhead b _)
  | cons a as =>
      cases items' with
      | nil =>
          rw [List.map_cons, intercalate_cons, List.append_assoc] at h
          exact absurd (congrArg List.head? h) (hhead a _)
      | cons b bs =>
          simp only [List.map_cons, intercalate_cons, List.flatMap_map, List.append_assoc] at h
          obtain ⟨rfl, hrest⟩ := hitems a List.mem_cons_self b _ _ h
          obtain ⟨rfl, rfl⟩ :=
            eq_of_flatMap (fun a ha => hitems a (List.mem_cons_of_mem _ ha)) hd hrest
          exact ⟨rfl, rfl⟩

end Lists

/-! ## Quoted characters -/

namespace Text

theorem digitChar_injective :
    ∀ m < 16, ∀ n < 16, m.digitChar = n.digitChar → m = n := by decide

theorem mem_toDigits {n : Nat} {c : Char} (h : c ∈ Nat.toDigits 16 n) :
    ∃ k < 16, c = k.digitChar := by
  induction n using Nat.strongRecOn with
  | ind n ih =>
      rw [Nat.toDigits_eq_if (by omega)] at h
      split at h
      · exact ⟨n, ‹_›, by simpa using h⟩
      · rcases List.mem_append.1 h with h | h
        · exact ih (n / 16) (by omega) h
        · exact ⟨n % 16, by omega, by simpa using h⟩

/-- A number can be read off its hexadecimal digits, the last one first. -/
theorem toDigits_injective {m n : Nat} (h : Nat.toDigits 16 m = Nat.toDigits 16 n) : m = n := by
  induction m using Nat.strongRecOn generalizing n with
  | ind m ih =>
      have hlong (k : Nat) (hk : ¬ k < 16) (c : Char) : [c] ≠ Nat.toDigits 16 k := fun h => by
        rw [Nat.toDigits_of_base_le (by omega) (by omega), ← List.nil_append [c]] at h
        exact Nat.toDigits_ne_nil (List.append_inj' h rfl).1.symm
      by_cases hm : m < 16 <;> by_cases hn : n < 16
      · rw [Nat.toDigits_of_lt_base hm, Nat.toDigits_of_lt_base hn] at h
        exact digitChar_injective m hm n hn (List.cons.inj h).1
      · rw [Nat.toDigits_of_lt_base hm] at h
        exact absurd h (hlong n hn _)
      · rw [Nat.toDigits_of_lt_base hn] at h
        exact absurd h.symm (hlong m hm _)
      · rw [Nat.toDigits_of_base_le (by omega) (by omega : 16 ≤ m),
          Nat.toDigits_of_base_le (by omega) (by omega : 16 ≤ n)] at h
        obtain ⟨hdiv, hmod⟩ := List.append_inj' h rfl
        have hdiv := ih (m / 16) (by omega) hdiv
        have hmod := digitChar_injective _ (by omega) _ (by omega) (List.cons.inj hmod).1
        omega

variable {quote c d : Char} {r r' : List Char}

theorem escapeByNumber_append (c : Char) (r : List Char) :
    escapeByNumber c ++ r = '\\' :: 'u' :: '\x7b' :: (Nat.toDigits 16 c.toNat ++ '\x7d' :: r) := by
  simp [escapeByNumber]

theorem escapeByNumber_injective (h : escapeByNumber c ++ r = escapeByNumber d ++ r') :
    c = d ∧ r = r' := by
  simp only [escapeByNumber_append, List.cons.injEq, true_and] at h
  have hdigit (n : Nat) : '\x7d' ∉ Nat.toDigits 16 n := fun hmem => by
    obtain ⟨k, hk, h⟩ := mem_toDigits hmem
    revert k
    decide
  obtain ⟨hdigits, rfl⟩ := eq_of_append_cons (hdigit _) (hdigit _) h
  exact ⟨Char.toNat_inj.1 (toDigits_injective hdigits), rfl⟩

/-- The character that a letter after a backslash stands for. -/
def unescape : Char → Char
  | '0' => '\x00'
  | 't' => '\t'
  | 'r' => '\r'
  | 'n' => '\n'
  | c => c

/-- The two characters that enclose text. -/
def IsQuote (quote : Char) : Prop := quote = '\'' ∨ quote = '"'

/-- A character is written by a letter after a backslash, as itself, or by its number. -/
theorem escape_cases (hquote : IsQuote quote) (c : Char) :
    (∃ x, escape quote c = ['\\', x] ∧ x ≠ 'u' ∧ unescape x = c) ∨
      (escape quote c = [c] ∧ c ≠ '\\' ∧ c ≠ quote) ∨ escape quote c = escapeByNumber c := by
  unfold escape
  split_ifs with h0 ht hr hn hb hq hp
  · exact .inl ⟨'0', rfl, by decide, h0.symm⟩
  · exact .inl ⟨'t', rfl, by decide, ht.symm⟩
  · exact .inl ⟨'r', rfl, by decide, hr.symm⟩
  · exact .inl ⟨'n', rfl, by decide, hn.symm⟩
  · exact .inl ⟨'\\', rfl, by decide, hb.symm⟩
  · rcases hquote with rfl | rfl
    · exact .inl ⟨'\'', rfl, by decide, hq.symm⟩
    · exact .inl ⟨'"', rfl, by decide, hq.symm⟩
  · exact .inr (.inl ⟨rfl, hb, hq⟩)
  · exact .inr (.inr rfl)

theorem legible_escape (hquote : IsQuote quote) (c : Char) :
    Legible (escape quote) c := by
  rintro d r r' h
  rcases escape_cases hquote c with ⟨x, hc, hxu, rfl⟩ | ⟨hc, hcb, -⟩ | hc <;>
    rcases escape_cases hquote d with ⟨y, hd, hyu, rfl⟩ | ⟨hd, hdb, -⟩ | hd <;>
    rw [hc, hd] at h
  · obtain ⟨rfl, rfl⟩ := List.cons.inj (List.cons.inj h).2
    exact ⟨rfl, rfl⟩
  · exact absurd (List.cons.inj h).1.symm hdb
  · rw [escapeByNumber_append] at h
    exact absurd (List.cons.inj (List.cons.inj h).2).1 hxu
  · exact absurd (List.cons.inj h).1 hcb
  · exact List.cons.inj h
  · rw [escapeByNumber_append] at h
    exact absurd (List.cons.inj h).1 hcb
  · rw [escapeByNumber_append] at h
    exact absurd (List.cons.inj (List.cons.inj h).2).1.symm hyu
  · rw [escapeByNumber_append] at h
    exact absurd (List.cons.inj h).1.symm hdb
  · exact escapeByNumber_injective h

/-- No escape begins with the quote, so that the quote ends a text. -/
theorem escape_append_head? (hquote : IsQuote quote) (c : Char) (r : List Char) :
    (escape quote c ++ r).head? ≠ some quote := by
  have hne : '\\' ≠ quote := by rcases hquote with rfl | rfl <;> decide
  rcases escape_cases hquote c with ⟨x, hc, -, -⟩ | ⟨hc, -, hcq⟩ | hc <;> rw [hc]
  · simpa using hne
  · simpa using hcq
  · simpa [escapeByNumber_append] using hne

theorem toList_quotedBy (quote : Char) (text : List Char) :
    (quotedBy quote text).toList = quote :: (text.flatMap (escape quote) ++ [quote]) := by
  simp [quotedBy]

/-- Text between quotes is legible. -/
theorem legible_quotedBy (hquote : IsQuote quote) (text : List Char) :
    Legible (fun text => (quotedBy quote text).toList) text := by
  rintro text' r r' h
  simp only [toList_quotedBy, List.cons_append, List.cons.injEq, true_and, List.append_assoc,
    List.nil_append] at h
  induction text generalizing text' with
  | nil =>
      cases text' with
      | nil => exact ⟨rfl, (List.cons.inj h).2⟩
      | cons d ds =>
          rw [List.flatMap_cons, List.append_assoc] at h
          exact absurd (congrArg List.head? h).symm (escape_append_head? hquote d _)
  | cons c cs ih =>
      cases text' with
      | nil =>
          rw [List.flatMap_cons, List.append_assoc] at h
          exact absurd (congrArg List.head? h) (escape_append_head? hquote c _)
      | cons d ds =>
          simp only [List.flatMap_cons, List.append_assoc] at h
          obtain ⟨rfl, hrest⟩ := legible_escape hquote c d _ _ h
          obtain ⟨rfl, rfl⟩ := ih ds hrest
          exact ⟨rfl, rfl⟩

theorem legible_quotedChar (c : Char) :
    Legible (fun c => (quotedChar c).toList) c := fun d r r' h => by
  obtain ⟨hc, hr⟩ := legible_quotedBy (.inl rfl) [c] [d] r r' h
  exact ⟨(List.cons.inj hc).1, hr⟩

theorem legible_bracketedRange (range : Char × Char) :
    Legible (fun range : Char × Char => (bracketedRange range.1 range.2).toList) range := by
  rintro range' r r' h
  simp only [bracketedRange, String.toList_append, List.append_assoc,
    List.append_cancel_left_eq] at h
  obtain ⟨hfirst, hrest⟩ := legible_quotedChar range.1 range'.1 _ _ h
  rw [List.append_cancel_left_eq] at hrest
  obtain ⟨hlast, hrest⟩ := legible_quotedChar range.2 range'.2 _ _ hrest
  exact ⟨Prod.ext hfirst hlast, List.append_cancel_left hrest⟩

end Text

/-! ## Trees, forests and counts -/

theorem Tree.toList_render_append_head? (t : Tree) (r : List Char) :
    (t.render.toList ++ r).head? = some '\'' ∨ (t.render.toList ++ r).head? = some '[' := by
  cases t with
  | char c => exact .inl (by simp [render, Text.quotedChar, Text.toList_quotedBy])
  | list items => exact .inr (by simp [render])

theorem Tree.renderList_eq_map (items : List Tree) : renderList items = items.map render := by
  induction items with
  | nil => rfl
  | cons item items ih => rw [renderList, ih, List.map_cons]

/-- The text of a tree is legible: a leaf is quoted, and a list ends in the bracket that closes it.
-/
theorem Tree.legible_render (t : Tree) :
    Legible (fun t : Tree => t.render.toList) t := by
  let P (t : Tree) : Prop := Legible (fun t : Tree => t.render.toList) t
  refine @Tree.rec P (fun items => ∀ t ∈ items, P t) ?char ?list ?nil ?cons t
  case char =>
    rintro c (d | items) r r' h
    · simpa [render] using Text.legible_quotedChar c d r r' (by simpa [render] using h)
    · simp [render, Text.quotedChar, Text.toList_quotedBy] at h
  case list =>
    rintro items hitems (d | items') r r' h
    · simp [render, Text.quotedChar, Text.toList_quotedBy] at h
    · simp only [render, renderList_eq_map, String.toList_append, String.toList_intercalate,
        List.map_map, List.append_assoc, List.append_cancel_left_eq] at h
      obtain ⟨rfl, rfl⟩ := eq_of_intercalate hitems (d := ']') (by decide)
        (fun t r => by rcases t.toList_render_append_head? r with h | h <;> simp [h]) h
      exact ⟨rfl, rfl⟩
  case nil => simp
  case cons => exact fun t items ht hitems => List.forall_mem_cons.2 ⟨ht, hitems⟩

/-- The text of a forest is legible. -/
theorem Forest.legible_renderReduction (f : Forest) :
    Legible (fun f : Forest => f.renderReduction.toList) f := by
  rintro f' r r' h
  simp only [renderReduction, renderEach, String.toList_append, String.toList_intercalate,
    List.map_map, List.append_assoc, List.append_cancel_left_eq] at h
  obtain ⟨htrees, rfl⟩ := eq_of_intercalate (fun t _ => t.legible_render) (d := '\x7d')
    (by decide) (fun t r => by rcases t.toList_render_append_head? r with h | h <;> simp [h]) h
  exact ⟨ext_mem fun t => by rw [mem_def, mem_def, htrees], rfl⟩

namespace Count

/-- What stands between the braces of a count. -/
def digits : Count → List Char
  | .exactly n => Nat.toDigits 10 n
  | .unbounded => ['∞']

theorem toList_renderBraced (count : Count) :
    count.renderBraced.toList = '\x7b' :: (count.digits ++ ['\x7d']) := by
  cases count with
  | exactly n => simp [renderBraced, digits]
  | unbounded => rfl

theorem not_mem_toDigits {n : Nat} {c : Char} (hc : c.isDigit = false) :
    c ∉ Nat.toDigits 10 n := fun h => by
  simp [Nat.isDigit_of_mem_toDigits (by decide) (by decide) h] at hc

theorem digits_injective {count count' : Count} (h : count.digits = count'.digits) :
    count = count' := by
  have hne (n : Nat) : Nat.toDigits 10 n ≠ ['∞'] := fun h =>
    not_mem_toDigits (n := n) (c := '∞') (by decide) (h ▸ List.mem_cons_self)
  cases count with
  | exactly n =>
      cases count' with
      | exactly m =>
          have h : n = m := by
            simpa [digits] using congrArg (Nat.ofDigitChars 10 · 0) h
          rw [h]
      | unbounded => exact absurd h (hne n)
  | unbounded =>
      cases count' with
      | exactly m => exact absurd h.symm (hne m)
      | unbounded => rfl

/-- The text of a count is legible. -/
theorem legible_renderBraced (count : Count) :
    Legible (fun count : Count => count.renderBraced.toList) count := by
  have hbrace (count : Count) : '\x7d' ∉ count.digits := by
    cases count with
    | exactly n => exact not_mem_toDigits (by decide)
    | unbounded => decide
  rintro count' r r' h
  simp only [toList_renderBraced, List.cons_append, List.cons.injEq, true_and, List.append_assoc,
    List.nil_append] at h
  obtain ⟨hdigits, rfl⟩ := eq_of_append_cons (hbrace count) (hbrace count') h
  exact ⟨digits_injective hdigits, rfl⟩

end Count

end DerivativeParsing
