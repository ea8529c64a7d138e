import Mathlib.Data.List.Basic
import DerivativeParsing.Rendering.Diagram

/-!
# Reading diagrams

The text of a diagram is a list of statements in braces.  A statement declares a node, with its
label and perhaps with a double circle, or an edge, perhaps with a label (`Diagram.Statement`).  The
attributes in a declaration are those of the node that it names.

`Diagram.read` reads a text of this form, and knows neither graphs nor how diagrams are written.  A
label ends at the first quote that is not escaped, so that the quotes, backslashes and line breaks
of the text that it stands for neither end it nor make up statements of their own.

`ReadsAs text statements` says what a text reads as in front of any other text.  It holds of the
lines of nodes (`readsAs_nodeLine`) and of edges (`readsAs_edgeLines`).
-/

set_option autoImplicit false

namespace DerivativeParsing.Diagram

/-! ## Labels -/

/-- The characters in front of the first quote that is not escaped, and what follows the quote. -/
def takeLabel : List Char → Option (List Char × List Char)
  | [] => none
  | '"' :: rest => some ([], rest)
  | '\\' :: c :: rest => (takeLabel rest).map fun (label, rest) => ('\\' :: c :: label, rest)
  | c :: rest => (takeLabel rest).map fun (label, rest) => (c :: label, rest)

/-- A label with every escaped character in the place of its escape. -/
def unescape : List Char → List Char
  | [] => []
  | '\\' :: c :: rest => c :: unescape rest
  | c :: rest => c :: unescape rest

/-- Whether a label has a quote that is not escaped. -/
def hasBareQuote : List Char → Bool
  | [] => false
  | '\\' :: _ :: rest => hasBareQuote rest
  | c :: rest => c == '"' || hasBareQuote rest

/-- A character is escaped by a backslash, or it is neither a backslash nor a quote. -/
theorem escapeChar_cases (c : Char) :
    escapeChar c = ['\\', c] ∨ escapeChar c = [c] ∧ c ≠ '\\' ∧ c ≠ '"' := by
  unfold escapeChar
  split
  · exact .inl rfl
  · next h => exact .inr ⟨rfl, by simpa using h⟩

theorem takeLabel_escape (text rest : List Char) :
    takeLabel (text.flatMap escapeChar ++ ("\"".toList ++ rest)) =
      some (text.flatMap escapeChar, rest) := by
  induction text with
  | nil => rfl
  | cons c text ih =>
      rcases escapeChar_cases c with hc | ⟨hc, hbackslash, hquote⟩
      · rw [List.flatMap_cons, hc, List.append_assoc]
        simp only [List.cons_append, List.nil_append, takeLabel, ih, Option.map_some]
      · have hread (text : List Char) : takeLabel (c :: text) =
            (takeLabel text).map fun (label, rest) => (c :: label, rest) := by
          rw [takeLabel]
          · exact hquote
          · intro _ _ hc' _
            exact hbackslash hc'
        rw [List.flatMap_cons, hc, List.append_assoc, List.singleton_append, hread, ih]
        rfl

theorem unescape_escape (text : List Char) : unescape (text.flatMap escapeChar) = text := by
  induction text with
  | nil => rfl
  | cons c text ih =>
      rcases escapeChar_cases c with hc | ⟨hc, hbackslash, -⟩
      · simp [hc, unescape, ih]
      · simp [hc, unescape, ih, hbackslash]

theorem hasBareQuote_escape (text : List Char) :
    hasBareQuote (text.flatMap escapeChar) = false := by
  induction text with
  | nil => rfl
  | cons c text ih =>
      rcases escapeChar_cases c with hc | ⟨hc, hbackslash, hquote⟩
      · simp [hc, hasBareQuote, ih]
      · simp [hc, hasBareQuote, ih, hbackslash, hquote]

theorem toList_escapeLabel (text : String) :
    (escapeLabel text).toList = text.toList.flatMap escapeChar := by
  simp [escapeLabel]

/-! ## Names -/

/-- A node's name and what follows it. -/
def readName (text : List Char) : Option (Handle × List Char) := do
  let rest ← text.dropPrefix? "id".toList
  let digits := rest.takeWhile Char.isDigit
  if digits.isEmpty then none
  else some (⟨Nat.ofDigitChars 10 digits 0⟩, rest.dropWhile Char.isDigit)

theorem dropPrefix?_append (word rest : List Char) :
    (word ++ rest).dropPrefix? word = some rest :=
  List.dropPrefix?_append_of_beq rest (by simp)

theorem isDigit_of_mem_toString {n : Nat} {c : Char} (hc : c ∈ (toString n).toList) :
    c.isDigit = true := by
  rw [Nat.toString_eq_repr, Nat.toList_repr] at hc
  exact Nat.isDigit_of_mem_toDigits (by decide) (by decide) hc

/-- A name ends where something else than a digit follows. -/
theorem readName_nodeName (h : Handle) {rest : List Char}
    (hrest : ∀ c ∈ rest.head?, c.isDigit = false) :
    readName ((nodeName h).toList ++ rest) = some (h, rest) := by
  have hdigits : ∀ d ∈ (toString h.index).toList, d.isDigit = true := fun d =>
    isDigit_of_mem_toString
  have hstop : rest.takeWhile Char.isDigit = [] ∧ rest.dropWhile Char.isDigit = rest := by
    cases rest with
    | nil => exact ⟨rfl, rfl⟩
    | cons c rest =>
        have hc : ¬ c.isDigit = true := by simp [hrest c rfl]
        exact ⟨List.takeWhile_cons_of_neg hc, List.dropWhile_cons_of_neg hc⟩
  have htake : ((toString h.index).toList ++ rest).takeWhile Char.isDigit =
      (toString h.index).toList := by
    rw [List.takeWhile_append_of_pos hdigits, hstop.1, List.append_nil]
  have hdrop : ((toString h.index).toList ++ rest).dropWhile Char.isDigit = rest := by
    rw [List.dropWhile_append_of_pos hdigits, hstop.2]
  have hne : (toString h.index).toList.isEmpty = false := by
    simp [Nat.toDigits_ne_nil]
  unfold readName nodeName
  rw [String.toList_append, List.append_assoc, dropPrefix?_append]
  simp only [Option.bind_eq_bind, Option.bind_some, htake, hdrop, hne, Bool.false_eq_true, if_false]
  simp

/-! ## Statements -/

/-- A statement of a diagram.  Labels are kept as they stand between their quotes. -/
inductive Statement where
  | node (name : Handle) (label : List Char) (doubled : Bool)
  | edge (source target : Handle) (label : Option (List Char))
deriving DecidableEq

/-- The declaration of a node, after the quote in front of its label. -/
def readNode (text : List Char) : Option (Statement × List Char) := do
  let (label, rest) ← takeLabel text
  let circle := rest.dropPrefix? ", shape=doublecircle".toList
  let rest ← (circle.getD rest).dropPrefix? "] ".toList
  let (name, rest) ← readName rest
  let rest ← rest.dropPrefix? "\n".toList
  some (.node name label circle.isSome, rest)

/-- An edge, after the names of its ends. -/
def readEdgeFrom (source target : Handle) (text : List Char) : Option (Statement × List Char) :=
  match text.dropPrefix? " [label=\"".toList with
  | some rest => do
    let (label, rest) ← takeLabel rest
    let rest ← rest.dropPrefix? "]\n".toList
    some (.edge source target (some label), rest)
  | none => do
    let rest ← text.dropPrefix? "\n".toList
    some (.edge source target none, rest)

/-- An edge. -/
def readEdge (text : List Char) : Option (Statement × List Char) := do
  let (source, rest) ← readName text
  let rest ← rest.dropPrefix? " -> ".toList
  let (target, rest) ← readName rest
  readEdgeFrom source target rest

/-- A statement and what follows it. -/
def readStatement (text : List Char) : Option (Statement × List Char) :=
  match text.dropPrefix? "node[label=\"".toList with
  | some rest => readNode rest
  | none => readEdge text

/-- Statements up to the closing brace, which ends the text.  Each one uses up one of the steps. -/
def readStatements : Nat → List Char → Option (List Statement)
  | 0, _ => none
  | steps + 1, text =>
    if text = "\x7d\n".toList then some []
    else
      match readStatement text with
      | some (statement, rest) => (readStatements steps rest).map (statement :: ·)
      | none => none

/-- The statements of a diagram.  There are no more of them than characters. -/
def read (text : String) : Option (List Statement) :=
  match text.toList.dropPrefix? "digraph \x7b\n".toList with
  | some rest => readStatements rest.length rest
  | none => none

/-! ## What is written and what is read -/

/-- A text reads as the given statements, whatever follows it. -/
structure ReadsAs (text : List Char) (statements : List Statement) : Prop where
  length_le : statements.length ≤ text.length
  reads : ∀ steps rest, readStatements (statements.length + steps) (text ++ rest) =
    (readStatements steps rest).map (statements ++ ·)

namespace ReadsAs

variable {text text' : List Char} {statement : Statement} {statements statements' : List Statement}

theorem nil : ReadsAs [] [] := ⟨Nat.le_refl _, by simp⟩

theorem append (h : ReadsAs text statements) (h' : ReadsAs text' statements') :
    ReadsAs (text ++ text') (statements ++ statements') where
  length_le := by
    have hlength := h.length_le
    have hlength' := h'.length_le
    simp only [List.length_append]
    omega
  reads steps rest := by
    rw [List.length_append, Nat.add_assoc, List.append_assoc, h.reads, h'.reads, Option.map_map]
    simp only [Function.comp_def, List.append_assoc]

theorem single (hstatement : ∀ rest, readStatement (text ++ rest) = some (statement, rest)) :
    ReadsAs text [statement] where
  length_le := by
    refine List.length_pos_of_ne_nil fun he => ?_
    have hempty := hstatement []
    rw [he] at hempty
    cases hempty
  reads steps rest := by
    -- The closing brace is no statement, so the text does not end here.
    have hopen : text ++ rest ≠ "\x7d\n".toList := fun he => by
      have hclosed := hstatement rest
      rw [he] at hclosed
      cases hclosed
    rw [List.length_singleton, Nat.add_comm, readStatements, if_neg hopen, hstatement rest]
    rfl

theorem flatMap {α : Type} {items : List α} {write : α → List Char} {meaning : α → List Statement}
    (h : ∀ a ∈ items, ReadsAs (write a) (meaning a)) :
    ReadsAs (items.flatMap write) (items.flatMap meaning) := by
  induction items with
  | nil => exact nil
  | cons a items ih =>
      exact (h a List.mem_cons_self).append (ih fun b hb => h b (List.mem_cons_of_mem a hb))

/-- Statements between the braces of a diagram are what it reads as. -/
theorem read {body : String} (h : ReadsAs body.toList statements) :
    Diagram.read ("digraph \x7b\n" ++ body ++ "\x7d\n") = some statements := by
  have hlength := h.length_le
  -- The closing brace takes a step of its own, and the text has a character more for it.
  have hsteps : (body.toList ++ "\x7d\n".toList).length =
      statements.length + (body.toList.length - statements.length + 2) := by
    rw [List.length_append, show "\x7d\n".toList.length = 2 from rfl]
    omega
  unfold Diagram.read
  rw [String.toList_append, String.toList_append, List.append_assoc, dropPrefix?_append]
  dsimp only
  rw [hsteps, h.reads, readStatements, if_pos rfl, Option.map_some, List.append_nil]

end ReadsAs

example : read
    "digraph \x7b\nnode[label=\"\\\"\n\\\\\", shape=doublecircle] id10\nid10 -> id3\n\x7d\n" =
      some [.node ⟨10⟩ ['\\', '"', '\n', '\\', '\\'] true, .edge ⟨10⟩ ⟨3⟩ none] := by
  decide

/-- The line of a node declares it. -/
theorem readsAs_nodeLine (root h : Handle) (n : Node) :
    ReadsAs (nodeLine root h n).toList
      [.node h ((label n).toList.flatMap escapeChar) (decide (h = root))] := by
  refine .single fun rest => ?_
  have hname : readName ((nodeName h).toList ++ ("\n".toList ++ rest)) =
      some (h, "\n".toList ++ rest) := readName_nodeName h (by simp)
  have hplain (text : List Char) :
      ("] ".toList ++ text).dropPrefix? ", shape=doublecircle".toList = none := rfl
  unfold nodeLine readStatement
  simp only [String.toList_append, List.append_assoc, toList_escapeLabel, dropPrefix?_append]
  unfold readNode
  by_cases hroot : h = root
  · subst hroot
    simp only [if_true, takeLabel_escape, dropPrefix?_append, Option.bind_eq_bind,
      Option.bind_some, Option.getD_some, hname, Option.isSome_some, decide_true]
  · simp only [hroot, if_false, takeLabel_escape, dropPrefix?_append, Option.bind_eq_bind,
      Option.bind_some, Option.getD_none, String.toList_empty, List.nil_append, hplain, hname,
      Option.isSome_none, decide_false]

/-- The statements of the edges to operands, labelled from `position` on if they are numbered. -/
def edgesFrom (source : Handle) (numbered : Bool) : Nat → List Handle → List Statement
  | _, [] => []
  | position, target :: rest =>
    .edge source target (if numbered then some (toString position).toList else none) ::
      edgesFrom source numbered (position + 1) rest

/-- What starts with two names and an arrow between them is an edge. -/
theorem readStatement_ends (source target : Handle) {rest : List Char}
    (hrest : ∀ c ∈ rest.head?, c.isDigit = false) :
    readStatement ((nodeName source).toList ++ (" -> ".toList ++ ((nodeName target).toList ++
      rest))) = readEdgeFrom source target rest := by
  have hedge (text : List Char) : readStatement ((nodeName source).toList ++ text) =
      readEdge ((nodeName source).toList ++ text) := by
    rw [nodeName, String.toList_append, List.append_assoc]
    rfl
  rw [hedge]
  unfold readEdge
  rw [readName_nodeName source (by simp)]
  simp only [dropPrefix?_append, Option.bind_eq_bind, Option.bind_some]
  rw [readName_nodeName target hrest]
  rfl

/-- The line of an edge with a label, if the label has nothing to escape. -/
theorem readsAs_labelledEdge (source target : Handle) {label : List Char}
    (hlabel : label.flatMap escapeChar = label) :
    ReadsAs ((nodeName source).toList ++ (" -> ".toList ++ ((nodeName target).toList ++
        (" [label=\"".toList ++ (label ++ ("\"".toList ++ "]\n".toList))))))
      [.edge source target (some label)] := by
  refine .single fun rest => ?_
  have htake := takeLabel_escape label ("]\n".toList ++ rest)
  rw [hlabel] at htake
  simp only [List.append_assoc]
  rw [readStatement_ends source target (by simp)]
  unfold readEdgeFrom
  simp only [dropPrefix?_append, Option.bind_eq_bind, Option.bind_some, htake]

/-- The line of an edge without a label. -/
theorem readsAs_plainEdge (source target : Handle) :
    ReadsAs ((nodeName source).toList ++ (" -> ".toList ++ ((nodeName target).toList ++
      "\n".toList))) [.edge source target none] := by
  refine .single fun rest => ?_
  have hplain : ("\n".toList ++ rest).dropPrefix? " [label=\"".toList = none := rfl
  simp only [List.append_assoc]
  rw [readStatement_ends source target (by simp)]
  unfold readEdgeFrom
  simp only [hplain, dropPrefix?_append, Option.bind_eq_bind, Option.bind_some]

/-- Digits are not escaped. -/
theorem escape_toString (n : Nat) :
    (toString n).toList.flatMap escapeChar = (toString n).toList := by
  have hdigit : ∀ c ∈ (toString n).toList, escapeChar c = [c] := by
    intro c hc
    have hc := isDigit_of_mem_toString hc
    refine if_neg fun hspecial => ?_
    rw [Bool.or_eq_true, decide_eq_true_eq, decide_eq_true_eq] at hspecial
    rcases hspecial with rfl | rfl
    · exact absurd hc (by decide)
    · exact absurd hc (by decide)
  rw [List.flatMap_congr hdigit, List.flatMap_singleton']

/-- The lines of the edges to operands. -/
theorem readsAs_edgeLines (source : Handle) (numbered : Bool) (position : Nat)
    (targets : List Handle) :
    ReadsAs (edgeLines source numbered position targets).toList
      (edgesFrom source numbered position targets) := by
  induction targets generalizing position with
  | nil => exact .nil
  | cons target rest ih =>
      cases numbered with
      | true =>
          have hlabel := escape_toString position
          have hline := (readsAs_labelledEdge source target hlabel).append (ih (position + 1))
          simpa [edgeLines, edgesFrom] using hline
      | false =>
          have hline := (readsAs_plainEdge source target).append (ih (position + 1))
          simpa [edgeLines, edgesFrom] using hline

end DerivativeParsing.Diagram
