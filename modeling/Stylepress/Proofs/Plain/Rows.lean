import Stylepress.Css.Spacing
import Stylepress.Proofs.Plain.Spelling
import Stylepress.Proofs.TextLaws

/-!
Lexemes and rows of a plain stylesheet: which characters a lexeme holds, which lexemes a row holds,
how a spelling divides where its lexemes do, and which rows may follow one another. A row that opens
a block is followed by a rule, and a row that closes one follows a rule (`Sheet.rows_follow`), because
blocks are not empty and statements stand outside of them.
-/
namespace Stylepress.Plain
open Css

/-! ### Characters of lexemes -/

theorem isSolid_iff {c : Char} :
    isSolid c = true ↔ isSpacing c = false ∧
      c ≠ '{' ∧ c ≠ '}' ∧ c ≠ ';' ∧ c ≠ ',' ∧ c ≠ '*' := by
  have spaces : isSpacing c = false ↔ Text.isBlank c = false ∧ c.toNat ≠ 0x180E := by
    simp only [isSpacing, Text.isBlank, Text.isVertical, Text.isHorizontal, Bool.or_eq_false_iff,
      Bool.and_eq_false_iff, decide_eq_false_iff_not, beq_eq_false_iff_ne]
    omega
  rw [spaces]
  simp [isSolid, and_assoc]

theorem isBlank_of_not_isSpacing {c : Char} (solid : isSpacing c = false) :
    Text.isBlank c = false := by
  cases blank : Text.isBlank c with
  | false => rfl
  | true =>
    rcases (Text.isBlank_iff c).mp blank with vertical | ⟨horizontal, _⟩
    · simp [isSpacing, vertical] at solid
    · simp [isSpacing, horizontal] at solid

theorem isBlank_of_isSolid {c : Char} (solid : isSolid c = true) : Text.isBlank c = false :=
  isBlank_of_not_isSpacing (isSolid_iff.mp solid).1

theorem ne_of_isSolid {c d : Char} (solid : isSolid c = true) (other : isSolid d = false) : c ≠ d := by
  rintro rfl
  simp [solid] at other

/-- A text whose first character belongs to a word. -/
def StartsSolid (t : Text) : Prop := ∃ c rest, t = c :: rest ∧ isSolid c = true

theorem StartsSolid.append {t : Text} (starts : StartsSolid t) (rest : Text) : StartsSolid (t ++ rest) := by
  obtain ⟨c, u, rfl, solid⟩ := starts
  exact ⟨c, u ++ rest, rfl, solid⟩

theorem StartsSolid.ne_nil {t : Text} (starts : StartsSolid t) : t ≠ [] := by
  obtain ⟨c, rest, rfl, _⟩ := starts
  simp

theorem StartsSolid.solid_of_head {t : Text} (starts : StartsSolid t) : ∀ c ∈ t.head?, isSolid c = true := by
  obtain ⟨c, rest, rfl, solid⟩ := starts
  intro d member
  obtain rfl := Option.some.inj member
  exact solid

theorem Word.starts_solid {kind : WordKind} (word : Word kind) : StartsSolid word.text := by
  obtain ⟨c, rest, shape⟩ := List.exists_cons_of_ne_nil word.filled
  exact ⟨c, rest, shape, WordKind.isSolid_of_allows (word.allowed c (by simp [shape]))⟩

theorem Word.not_mem {kind : WordKind} (word : Word kind) {c : Char} (other : isSolid c = false) :
    c ∉ word.text := by
  intro member
  simp [WordKind.isSolid_of_allows (word.allowed c member)] at other

namespace Lexeme

theorem text_ne_nil (l : Lexeme) : l.text ≠ [] := by
  cases l with
  | word w => exact w.filled
  | _ => simp [text]

/-- No lexeme holds spacing or an asterisk. -/
theorem solid_of_mem {l : Lexeme} {c : Char} (member : c ∈ l.text) :
    isSpacing c = false ∧ c ≠ '*' := by
  cases l with
  | word w =>
    obtain ⟨solid, _, _, _, _, star⟩ := isSolid_iff.mp (w.allowed c member)
    exact ⟨solid, star⟩
  | _ =>
    obtain rfl := List.mem_singleton.mp member
    decide

/-- The marks that need no space beside them are the lexemes of one such character. -/
theorem isMark_of_mem {l : Lexeme} {c : Char} (member : c ∈ l.text) : Spacing.isMark c = l.isMark := by
  cases l with
  | word w =>
    obtain ⟨_, brace, close, semicolon, _⟩ := isSolid_iff.mp (w.allowed c member)
    simp [Spacing.isMark, isMark, brace, close, semicolon]
  | _ =>
    obtain rfl := List.mem_singleton.mp member
    decide

/-- A mark stands in no other lexeme. -/
theorem eq_of_isMark {l : Lexeme} (mark : Lexeme) {c : Char} (isMark : mark.isMark = true)
    (shape : mark.text = [c]) (member : c ∈ l.text) : l = mark := by
  have same : l.isMark = true := by
    have own : c ∈ mark.text := by simp [shape]
    rw [← isMark_of_mem member, isMark_of_mem own, isMark]
  cases l <;> cases mark <;> simp_all [Lexeme.isMark, text]

theorem ne_of_isMark {l mark : Lexeme} (other : l.isMark = false) (isMark : mark.isMark = true) :
    l ≠ mark := by
  rintro rfl
  simp [isMark] at other

theorem exists_cons (l : Lexeme) : ∃ c rest, l.text = c :: rest :=
  List.exists_cons_of_ne_nil l.text_ne_nil

end Lexeme

/-- A row ends with a mark. -/
theorem Row.exists_mark (row : Row) (ended : Bool) :
    ∃ front mark, row.lexemes ended = front ++ [mark] ∧ mark.isMark = true := by
  cases row with
  | statement name words => exact ⟨.word name.keyword :: words.lexemes, .semicolon, rfl, rfl⟩
  | opening name headed =>
    exact ⟨.word name.keyword :: headed.parts.flatMap Part.lexemes, .openBrace, rfl, rfl⟩
  | ruleset selectors declarations =>
    refine ⟨selectors.lexemes ++ .openBrace ::
      (bodyLexemes declarations ++ if ended then [.semicolon] else []), .closeBrace, ?_, rfl⟩
    simp [Row.lexemes]
  | closing => exact ⟨[], .closeBrace, rfl, rfl⟩

/-! ### Lexemes of rows -/

/-- A lexeme inside a row: no mark, and no at-keyword. -/
structure Lexeme.Inner (l : Lexeme) : Prop where
  notMark : l.isMark = false
  noAt : '@' ∉ l.text

theorem Word.inner {kind : WordKind} (known : kind ≠ .any) (word : Word kind) :
    (Lexeme.word word.anywhere).Inner := by
  refine ⟨rfl, ?_⟩
  intro member
  have allowed := word.allowed '@' member
  cases kind <;> simp_all [WordKind.allows]

theorem Phrase.inner_of_mem {kind : WordKind} (known : kind ≠ .any) {phrase : Phrase kind} {l : Lexeme}
    (member : l ∈ phrase.lexemes) : l.Inner := by
  obtain ⟨w, _, rfl⟩ := List.mem_map.mp member
  exact w.inner known

theorem Series.inner_of_mem {series : Series} {l : Lexeme} (member : l ∈ series.lexemes) : l.Inner := by
  rcases List.mem_append.mp member with inside | inside
  · exact Phrase.inner_of_mem (by simp) inside
  · obtain ⟨phrase, _, inside⟩ := List.mem_flatMap.mp inside
    rcases List.mem_cons.mp inside with rfl | inside
    · exact ⟨rfl, by decide⟩
    · exact Phrase.inner_of_mem (by simp) inside

theorem Declaration.inner_of_mem {declaration : Declaration} {l : Lexeme}
    (member : l ∈ declaration.lexemes) : l.Inner := by
  rcases List.mem_cons.mp member with rfl | member
  · exact declaration.property.inner (by simp)
  · rcases List.mem_cons.mp member with rfl | member
    · exact ⟨rfl, by decide⟩
    · exact Series.inner_of_mem member

theorem Part.inner_of_mem {part : Part} {l : Lexeme} (member : l ∈ part.lexemes) : l.Inner := by
  cases part with
  | word w =>
    obtain rfl := List.mem_singleton.mp member
    exact w.inner (by simp)
  | condition feature value =>
    simp only [Part.lexemes, List.mem_cons, List.mem_append, List.not_mem_nil, or_false] at member
    rcases member with rfl | rfl | rfl | inside | rfl
    · exact ⟨rfl, by decide⟩
    · exact feature.inner (by simp)
    · exact ⟨rfl, by decide⟩
    · exact Phrase.inner_of_mem (by simp) inside
    · exact ⟨rfl, by decide⟩

/-- The only marks among declarations are the semicolons between them. -/
theorem body_inner_of_mem {declarations : Several Declaration} {l : Lexeme}
    (member : l ∈ bodyLexemes declarations) : l = .semicolon ∨ l.Inner := by
  rcases List.mem_append.mp member with inside | inside
  · exact .inr (Declaration.inner_of_mem inside)
  · obtain ⟨declaration, _, inside⟩ := List.mem_flatMap.mp inside
    rcases List.mem_cons.mp inside with rfl | inside
    · exact .inl rfl
    · exact .inr (Declaration.inner_of_mem inside)

/-- Lexemes of which the last is a word. -/
def EndsWithWord (lexemes : List Lexeme) : Prop := ∃ front w, lexemes = front ++ [.word w]

theorem EndsWithWord.append {lexemes : List Lexeme} (ends : EndsWithWord lexemes)
    (before : List Lexeme) : EndsWithWord (before ++ lexemes) := by
  obtain ⟨front, w, rfl⟩ := ends
  exact ⟨before ++ front, w, by simp⟩

theorem endsWithWord_flatMap {α : Type} {first : List Lexeme} {others : List α} (sep : Lexeme)
    {f : α → List Lexeme} (ends : EndsWithWord first) (later : ∀ x ∈ others, EndsWithWord (f x)) :
    EndsWithWord (first ++ others.flatMap fun x => sep :: f x) := by
  rcases others.eq_nil_or_concat with rfl | ⟨front, last, rfl⟩
  · simpa using ends
  · have finish := (later last (by simp)).append (first ++ front.flatMap (fun x => sep :: f x) ++ [sep])
    simpa using finish

theorem Phrase.endsWithWord {kind : WordKind} (phrase : Phrase kind) : EndsWithWord phrase.lexemes := by
  rcases phrase.toList.eq_nil_or_concat with none | ⟨front, last, shape⟩
  · cases none
  · refine ⟨front.map (.word ·.anywhere), last.anywhere, ?_⟩
    rw [Phrase.lexemes, shape]
    simp

theorem Series.endsWithWord (series : Series) : EndsWithWord series.lexemes :=
  endsWithWord_flatMap .comma series.first.endsWithWord fun phrase _ => phrase.endsWithWord

theorem Declaration.endsWithWord (declaration : Declaration) : EndsWithWord declaration.lexemes :=
  declaration.value.endsWithWord.append [.word declaration.property.anywhere, .colon]

theorem body_endsWithWord (declarations : Several Declaration) :
    EndsWithWord (bodyLexemes declarations) :=
  endsWithWord_flatMap .semicolon declarations.first.endsWithWord fun next _ => next.endsWithWord

theorem body_exists_word (declarations : Several Declaration) :
    ∃ w lexemes, bodyLexemes declarations = .word w :: lexemes := ⟨_, _, rfl⟩

/-- A row that does not close a block starts with a word. -/
theorem Row.exists_word {row : Row} (other : row ≠ .closing) (ended : Bool) :
    ∃ w lexemes, row.lexemes ended = .word w :: lexemes := by
  cases row with
  | closing => exact absurd rfl other
  | _ => exact ⟨_, _, rfl⟩

/-! ### Dividing a spelling -/

section
variable {J : Lexeme → Lexeme → Text → Prop} {a : Lexeme}

theorem Spaced.append_inv {xs ys : List Lexeme} {t : Text} (spaced : Spaced J a (xs ++ ys) t) :
    ∃ u v, Spaced J a xs u ∧ Spaced J (xs.getLastD a) ys v ∧ t = u ++ v := by
  induction xs generalizing a t with
  | nil => exact ⟨[], t, .nil, spaced, rfl⟩
  | cons b xs ih =>
    cases spaced with
    | @cons _ _ _ gap rest join later =>
      obtain ⟨u, v, front, back, rfl⟩ := ih later
      refine ⟨gap ++ b.text ++ u, v, .cons join front, ?_, by simp⟩
      rwa [List.getLastD_cons]

theorem Spaced.cons_inv {b : Lexeme} {lexemes : List Lexeme} {t : Text}
    (spaced : Spaced J a (b :: lexemes) t) :
    ∃ gap rest, J a b gap ∧ Spaced J b lexemes rest ∧ t = gap ++ b.text ++ rest := by
  cases spaced with
  | cons join later => exact ⟨_, _, join, later, rfl⟩

theorem Spaced.nil_inv {t : Text} (spaced : Spaced J a [] t) : t = [] := by
  cases spaced
  rfl

theorem Spaced.getLast?_eq {front : List Lexeme} {l : Lexeme} {t : Text}
    (spaced : Spaced J a (front ++ [l]) t) : t.getLast? = l.text.getLast? := by
  obtain ⟨u, v, _, back, rfl⟩ := spaced.append_inv
  obtain ⟨gap, rest, _, last, rfl⟩ := back.cons_inv
  obtain rfl := last.nil_inv
  rw [List.append_nil, ← List.append_assoc, List.getLast?_append]
  cases atEnd : l.text.getLast? with
  | none => exact absurd (List.getLast?_eq_none_iff.mp atEnd) l.text_ne_nil
  | some c => rfl

/-- What is written behind a lexeme depends on the lexeme through its gaps only. -/
theorem Spaced.congr {b : Lexeme} (same : ∀ c gap, J a c gap → J b c gap) {lexemes : List Lexeme}
    {t : Text} (spaced : Spaced J a lexemes t) : Spaced J b lexemes t := by
  cases spaced with
  | nil => exact .nil
  | cons join later => exact .cons (same _ _ join) later

theorem Spaced.words (single : ∀ {v w : Word .any} {gap : Text}, J (.word v) (.word w) gap → gap = [' '])
    {kind : WordKind} {v : Word .any} {words : List (Word kind)} {lexemes : List Lexeme} {t : Text}
    (spaced : Spaced J (.word v) (words.map (.word ·.anywhere) ++ lexemes) t) :
    ∃ w u, Spaced J (.word w) lexemes u ∧ t = words.flatMap (' ' :: ·.text) ++ u := by
  induction words generalizing v t with
  | nil => exact ⟨v, t, spaced, rfl⟩
  | cons next words ih =>
    obtain ⟨gap, rest, join, later, rfl⟩ := spaced.cons_inv
    obtain ⟨w, u, spacedLater, rfl⟩ := ih later
    obtain rfl := single join
    exact ⟨w, u, spacedLater, by simp [Lexeme.text, Word.anywhere]⟩

/-- Where words are one space apart, a phrase is written as in the canonical layout. -/
theorem Spaced.phrase (single : ∀ {v w : Word .any} {gap : Text}, J (.word v) (.word w) gap → gap = [' '])
    {kind : WordKind} {phrase : Phrase kind} {lexemes : List Lexeme} {t : Text}
    (spaced : Spaced J a (phrase.lexemes ++ lexemes) t) :
    ∃ gap w u, J a (.word phrase.first.anywhere) gap ∧ Spaced J (.word w) lexemes u ∧
      t = gap ++ phrase.written ++ u := by
  obtain ⟨gap, rest, join, later, rfl⟩ := spaced.cons_inv
  obtain ⟨w, u, spacedLater, rfl⟩ := later.words single
  refine ⟨gap, w, u, join, spacedLater, ?_⟩
  simp [Phrase.written, Several.toList, Text.join_cons, Lexeme.text, Word.anywhere,
    List.flatMap_map]

/-- Gaps of characters in `p` only. -/
def GapsOf (p : Char → Prop) (J : Lexeme → Lexeme → Text → Prop) : Prop :=
  ∀ {a b : Lexeme} {gap : Text}, J a b gap → ∀ c ∈ gap, p c

/-- Gaps of spacing only. -/
abbrev Bare := GapsOf (isSpacing · = true)

/-- A character of a spelling stands in a gap or belongs to a lexeme. -/
theorem Spaced.of_mem {p : Char → Prop} (gaps : GapsOf p J) {lexemes : List Lexeme} {t : Text}
    (spaced : Spaced J a lexemes t) {c : Char} (member : c ∈ t) :
    p c ∨ ∃ l ∈ lexemes, c ∈ l.text := by
  induction spaced with
  | nil => cases member
  | @cons a b lexemes gap rest join later ih =>
    rcases List.mem_append.mp member with front | inside
    · rcases List.mem_append.mp front with inside | inside
      · exact .inl (gaps join c inside)
      · exact .inr ⟨b, by simp, inside⟩
    · rcases ih inside with space | ⟨l, inList, inside⟩
      · exact .inl space
      · exact .inr ⟨l, by simp [inList], inside⟩

/-- A mark that is none of the lexemes stands nowhere in a spelling of them. -/
theorem Spaced.not_mem (gaps : Bare J) {lexemes : List Lexeme} {t : Text}
    (spaced : Spaced J a lexemes t) (mark : Lexeme) {c : Char}
    (isMark : mark.isMark = true) (shape : mark.text = [c]) (absent : ∀ l ∈ lexemes, l ≠ mark) :
    c ∉ t := by
  intro member
  rcases spaced.of_mem gaps member with space | ⟨l, inList, inside⟩
  · have solid := (Lexeme.solid_of_mem (l := mark) (c := c) (by simp [shape])).1
    simp [solid] at space
  · exact absent l inList (Lexeme.eq_of_isMark mark isMark shape inside)

end

/-! ### Neighbouring rows -/

namespace Row

def isOpening : Row → Bool
  | opening .. => true
  | _ => false

def isClosing : Row → Bool
  | closing => true
  | _ => false

def startsRule : Row → Bool
  | opening .. | ruleset .. => true
  | _ => false

def endsRule : Row → Bool
  | ruleset .. | closing => true
  | _ => false

/-- The row `b` may follow the row `a`: a rule stands behind an opening and before a closing. -/
structure Follows (a b : Row) : Prop where
  opened : a.isOpening = true → b.startsRule = true
  closed : b.isClosing = true → a.endsRule = true

theorem follows_of_not {a b : Row} (ends : a.isOpening = false) (starts : b.isClosing = false) :
    Follows a b :=
  ⟨by simp [ends], by simp [starts]⟩

theorem isOpening_of_endsRule {a : Row} (ends : a.endsRule = true) : a.isOpening = false := by
  cases a <;> simp_all [endsRule, isOpening]

theorem isClosing_of_startsRule {a : Row} (starts : a.startsRule = true) : a.isClosing = false := by
  cases a <;> simp_all [startsRule, isClosing]

theorem follows_of_ends_starts {a b : Row} (ends : a.endsRule = true) (starts : b.startsRule = true) :
    Follows a b :=
  follows_of_not (isOpening_of_endsRule ends) (isClosing_of_startsRule starts)

end Row

/-- Rows that may stand in this order, of which the first and the last are of a kind. -/
structure Linked (starts ends : Row → Prop) (rows : List Row) : Prop where
  follow : rows.IsChain Row.Follows
  first : ∀ row ∈ rows.head?, starts row
  last : ∀ row ∈ rows.getLast?, ends row

theorem Linked.append {starts ends : Row → Prop} {a b : List Row} (left : Linked starts ends a)
    (right : Linked starts ends b) (follows : ∀ {x y}, ends x → starts y → Row.Follows x y) :
    Linked starts ends (a ++ b) := by
  refine ⟨?_, ?_, ?_⟩
  · rw [List.isChain_append]
    exact ⟨left.follow, right.follow, fun x atEnd y atStart =>
      follows (left.last x atEnd) (right.first y atStart)⟩
  · intro row member
    cases a with
    | nil => exact right.first row member
    | cons x a => exact left.first row member
  · intro row member
    rw [List.getLast?_append] at member
    cases atEnd : b.getLast? with
    | none => exact left.last row (by simpa [atEnd] using member)
    | some last => exact right.last row (by simpa [atEnd] using member)

/-- Rows of whole rules. -/
abbrev RuleRows := Linked (·.startsRule = true) (·.endsRule = true)

/-- Rows of members of a stylesheet. -/
abbrev SheetRows := Linked (·.isClosing = false) (·.isOpening = false)

theorem RuleRows.sheetRows {rows : List Row} (rules : RuleRows rows) : SheetRows rows :=
  ⟨rules.follow, fun row member => Row.isClosing_of_startsRule (rules.first row member),
    fun row member => Row.isOpening_of_endsRule (rules.last row member)⟩

theorem RuleRows.block {rows : List Row} (inside : RuleRows rows) (filled : rows ≠ [])
    (name : BlockName) (headed : Prelude) :
    RuleRows (.opening name headed :: (rows ++ [.closing])) := by
  refine ⟨?_, by simp [Row.startsRule], ?_⟩
  · rw [List.isChain_cons, List.isChain_append]
    refine ⟨?_, inside.follow, by simp, ?_⟩
    · intro y atStart
      obtain ⟨x, rest, rfl⟩ := List.exists_cons_of_ne_nil filled
      have starts := inside.first y (by simpa using atStart)
      exact ⟨fun _ => starts, by simp [Row.isClosing_of_startsRule starts]⟩
    · intro x atEnd y atStart
      obtain rfl : y = .closing := by simpa [eq_comm] using atStart
      have ends := inside.last x atEnd
      exact ⟨by simp [Row.isOpening_of_endsRule ends], fun _ => ends⟩
  · rw [← List.cons_append, List.getLast?_concat]
    simp [Row.endsRule]

mutual

theorem Rule.rows_rule : (rule : Rule) → RuleRows rule.rows ∧ rule.rows ≠ []
  | .ruleset selectors declarations =>
    ⟨⟨by simp [Rule.rows], by simp [Rule.rows, Row.startsRule], by simp [Rule.rows, Row.endsRule]⟩,
      by simp [Rule.rows]⟩
  | .block name headed first others => by
    obtain ⟨firstRows, filled⟩ := Rule.rows_rule first
    have inside := firstRows.append (rulesRows_rule others) Row.follows_of_ends_starts
    refine ⟨?_, by simp [Rule.rows]⟩
    rw [Rule.rows]
    exact RuleRows.block inside (by simp [filled]) name headed

theorem rulesRows_rule : (rules : List Rule) → RuleRows (rulesRows rules)
  | [] => ⟨by simp [rulesRows], by simp [rulesRows], by simp [rulesRows]⟩
  | rule :: others => by
    rw [rulesRows]
    exact (Rule.rows_rule rule).1.append (rulesRows_rule others) Row.follows_of_ends_starts

end

theorem Item.rows_sheet (item : Item) : SheetRows item.rows := by
  cases item with
  | statement name words =>
    exact ⟨by simp [Item.rows], by simp [Item.rows, Row.isClosing], by simp [Item.rows, Row.isOpening]⟩
  | rule r => exact (Rule.rows_rule r).1.sheetRows

theorem Sheet.rows_ne_nil (sheet : Sheet) : sheet.rows ≠ [] := by
  rw [Sheet.rows, Several.toList, List.flatMap_cons]
  cases sheet.first with
  | statement name words => simp [Item.rows]
  | rule r => simp [Item.rows, (Rule.rows_rule r).2]

/-- In a stylesheet a rule stands behind every opening and before every closing, no closing stands
    first and no opening last. -/
theorem Sheet.rows_follow (sheet : Sheet) : SheetRows sheet.rows := by
  rw [Sheet.rows]
  induction sheet.toList with
  | nil => exact ⟨by simp, by simp, by simp⟩
  | cons item items ih =>
    rw [List.flatMap_cons]
    exact item.rows_sheet.append ih Row.follows_of_not

end Stylepress.Plain
