import Stylepress.Proofs.Plain.Cleaning

/-!
Segmenting a tidy spelling. Semicolons are settled row by row, so that every ruleset ends its last
declaration as the level wants it (`Spelled.settle`), and each row gets a line of its own
(`segment_rows`): a line ends after statements and closing braces, and before the rule behind an
opening.
-/
namespace Stylepress.Plain
open Css

/-! ### The text of a row -/

/-- The tidy texts of a row; `ended` tells whether the last declaration has its semicolon. -/
inductive RowText (ended : Bool) : Row → Text → Prop where
  | statement {name : StatementName} {words : Phrase .plain} :
      RowText ended (.statement name words) ('@' :: name.text ++ ' ' :: words.written ++ [';'])
  | opening {name : BlockName} {headed : Prelude} {t : Text}
      (spaced : Spaced Tidy (.word name.keyword) (headed.parts.flatMap Part.lexemes) t) :
      RowText ended (.opening name headed) ('@' :: name.text ++ t ++ ['{'])
  | ruleset {selectors : Series} {declarations : Several Declaration} {t body : Text}
      (chosen : Spaced Tidy .semicolon selectors.lexemes t)
      (declared : Spaced Tidy .semicolon (bodyLexemes declarations) body) :
      RowText ended (.ruleset selectors declarations)
        (t ++ '{' :: body ++ (if ended then [';'] else []) ++ ['}'])
  | closing : RowText ended .closing ['}']

theorem Tidy.between_words {v w : Word .any} {gap : Text} (tidy : Tidy (.word v) (.word w) gap) :
    gap = [' '] := tidy.wide rfl

theorem Tidy.spaces : GapsOf (· = ' ') Tidy := by
  intro a b gap tidy c member
  rcases tidy.single with rfl | rfl
  · cases member
  · exact List.mem_singleton.mp member

theorem Tidy.bare : Bare Tidy := by
  intro a b gap tidy c member
  obtain rfl := tidy.spaces c member
  decide

/-- Marks have the same gaps behind them. -/
theorem Tidy.of_isMark {a b c : Lexeme} {gap : Text} (left : a.isMark = true) (right : b.isMark = true)
    (tidy : Tidy a c gap) : Tidy b c gap := by
  obtain rfl := tidy.mark (.inl left)
  refine ⟨⟨.inl rfl, ?_, fun _ => rfl⟩, fun _ => rfl⟩
  intro wide
  simp [(not_isMark_of_wide wide).1] at right

/-- A mark is written right behind what stands before it. -/
theorem Spaced.mark_inv {a mark : Lexeme} (isMark : mark.isMark = true) {lexemes : List Lexeme}
    {t : Text} (spaced : Spaced Tidy a (mark :: lexemes) t) :
    ∃ rest, Spaced Tidy mark lexemes rest ∧ t = mark.text ++ rest := by
  obtain ⟨gap, rest, join, later, rfl⟩ := spaced.cons_inv
  obtain rfl := join.mark (.inr isMark)
  exact ⟨rest, later, rfl⟩

theorem Spaced.last_mark_inv {a mark : Lexeme} (isMark : mark.isMark = true) {t : Text}
    (spaced : Spaced Tidy a [mark] t) : t = mark.text := by
  obtain ⟨rest, later, rfl⟩ := spaced.mark_inv isMark
  obtain rfl := later.nil_inv
  simp

/-- A tidy row is written in one of these ways. -/
theorem Spaced.rowText {row : Row} {ended : Bool} {t : Text}
    (spaced : Spaced Tidy .semicolon (row.lexemes ended) t) : RowText ended row t := by
  cases row with
  | statement name words =>
    obtain ⟨gap, rest, join, later, rfl⟩ := spaced.cons_inv
    obtain ⟨between, w, last, wide, back, rfl⟩ := later.phrase Tidy.between_words
    obtain rfl := join.mark (.inl rfl)
    obtain rfl := wide.between_words
    obtain rfl := back.last_mark_inv rfl
    have shape : RowText ended (.statement name words) _ := .statement
    simpa [Lexeme.text, StatementName.keyword] using shape
  | opening name headed =>
    obtain ⟨gap, rest, join, later, rfl⟩ := spaced.cons_inv
    obtain ⟨u, last, front, back, rfl⟩ := later.append_inv
    obtain rfl := join.mark (.inl rfl)
    obtain rfl := back.last_mark_inv rfl
    have shape : RowText ended (.opening name headed) _ := .opening front
    simpa [Lexeme.text, BlockName.keyword] using shape
  | ruleset selectors declarations =>
    obtain ⟨u, v, chosen, back, rfl⟩ := spaced.append_inv
    obtain ⟨rest, inBody, rfl⟩ := back.mark_inv rfl
    obtain ⟨body, last, declared, ending, rfl⟩ := inBody.append_inv
    have declaredBehindMark := declared.congr (b := .semicolon) fun _ _ => Tidy.of_isMark rfl rfl
    have finish : last = (if ended then [';'] else []) ++ ['}'] := by
      cases ended with
      | false => exact ending.last_mark_inv rfl
      | true =>
        obtain ⟨closing, only, rfl⟩ := ending.mark_inv rfl
        rw [only.last_mark_inv rfl]
        rfl
    subst finish
    have shape : RowText ended (.ruleset selectors declarations) _ := .ruleset chosen declaredBehindMark
    simpa [Lexeme.text] using shape
  | closing =>
    obtain rfl := spaced.last_mark_inv rfl
    exact .closing

/-! ### Characters of rows -/

/-- A text without braces, at-signs and line ends. -/
structure Inline (t : Text) : Prop where
  noOpen : '{' ∉ t
  noClose : '}' ∉ t
  noAt : '@' ∉ t
  noBreak : '\n' ∉ t

theorem Spaced.inline {a : Lexeme} {lexemes : List Lexeme} {t : Text} (spaced : Spaced Tidy a lexemes t)
    (inner : ∀ l ∈ lexemes, l = .semicolon ∨ l.Inner) : Inline t := by
  have other : ∀ mark : Lexeme, mark.isMark = true → mark ≠ .semicolon → ∀ l ∈ lexemes, l ≠ mark := by
    intro mark isMark different l member
    rcases inner l member with rfl | inside
    · exact different.symm
    · exact Lexeme.ne_of_isMark inside.notMark isMark
  refine ⟨?_, ?_, ?_, ?_⟩
  · exact spaced.not_mem Tidy.bare .openBrace rfl rfl (other _ rfl (by simp))
  · exact spaced.not_mem Tidy.bare .closeBrace rfl rfl (other _ rfl (by simp))
  · intro member
    rcases spaced.of_mem Tidy.spaces member with space | ⟨l, inList, inside⟩
    · exact absurd space (by decide)
    · rcases inner l inList with rfl | inner
      · exact absurd inside (by decide)
      · exact inner.noAt inside
  · intro member
    rcases spaced.of_mem Tidy.spaces member with space | ⟨l, _, inside⟩
    · exact absurd space (by decide)
    · exact absurd (Lexeme.solid_of_mem inside).1 (by decide)

theorem inline_of_forall {t : Text} (plain : ∀ c ∈ t, c = ' ' ∨ WordKind.plain.allows c = true) :
    Inline t := by
  refine ⟨?_, ?_, ?_, ?_⟩ <;> intro member <;> exact absurd (plain _ member) (by decide)

theorem Phrase.of_mem_written {kind : WordKind} {phrase : Phrase kind} {c : Char}
    (member : c ∈ phrase.written) : c = ' ' ∨ kind.allows c = true := by
  rw [Phrase.written, Several.toList, List.map_cons, Text.join_cons] at member
  rcases List.mem_append.mp member with inside | inside
  · exact .inr (phrase.first.allowed c inside)
  · obtain ⟨t, inList, inside⟩ := List.mem_flatMap.mp inside
    obtain ⟨w, _, rfl⟩ := List.mem_map.mp inList
    rcases List.mem_cons.mp inside with rfl | inside
    · exact .inl rfl
    · exact .inr (w.allowed c inside)

theorem Phrase.inline (phrase : Phrase .plain) : Inline phrase.written :=
  inline_of_forall fun _ => Phrase.of_mem_written

theorem Spaced.selectors_inline {a : Lexeme} {series : Series} {t : Text}
    (spaced : Spaced Tidy a series.lexemes t) : Inline t :=
  spaced.inline fun _ member => .inr (Series.inner_of_mem member)

theorem Spaced.body_inline {a : Lexeme} {declarations : Several Declaration} {t : Text}
    (spaced : Spaced Tidy a (bodyLexemes declarations) t) : Inline t :=
  spaced.inline fun _ => body_inner_of_mem

theorem Spaced.header_inline {a : Lexeme} {headed : Prelude} {t : Text}
    (spaced : Spaced Tidy a (headed.parts.flatMap Part.lexemes) t) : Inline t := by
  refine spaced.inline fun l member => .inr ?_
  obtain ⟨part, _, inside⟩ := List.mem_flatMap.mp member
  exact Part.inner_of_mem inside

theorem BlockName.inline (name : BlockName) : Inline name.text := by
  refine inline_of_forall fun c member => .inr ?_
  have allowed := name.allowed c member
  simp_all [WordKind.allows]

theorem StatementName.inline (name : StatementName) : Inline name.text := by
  cases name <;> exact ⟨by decide, by decide, by decide, by decide⟩

/-! ### Semicolons -/

theorem restoreFrom_append {t : Text} (absent : '}' ∉ t) (filled : t ≠ []) (ended : Bool) (rest : Text) :
    Semicolon.restoreFrom ended (t ++ rest) = t ++ Semicolon.restoreFrom (t.endsWith ';') rest := by
  induction t generalizing ended with
  | nil => exact absurd rfl filled
  | cons c t ih =>
    have other : c ≠ '}' := fun same => absent (by simp [same])
    cases t with
    | nil => simp [Semicolon.restoreFrom, other, Text.endsWith]
    | cons d t =>
      have later := ih (fun member => absent (List.mem_cons_of_mem c member)) (by simp) (c == ';')
      have last : Text.endsWith (c :: d :: t) ';' = Text.endsWith (d :: t) ';' := by
        simp [Text.endsWith]
      rw [List.cons_append, Semicolon.restoreFrom, if_neg other, later, last]
      rfl

theorem drop_append {t rest : Text} (absent : '}' ∉ t)
    (apart : t.getLast? = some ';' → rest.head? ≠ some '}') :
    Semicolon.drop (t ++ rest) = t ++ Semicolon.drop rest := by
  induction t with
  | nil => rfl
  | cons c t ih =>
    have noPair : ∀ later, c = ';' → t ++ rest = '}' :: later → False := by
      rintro later rfl shape
      cases t with
      | nil => exact apart rfl (by rw [← List.nil_append rest, shape]; rfl)
      | cons d t =>
        obtain ⟨rfl, _⟩ := List.cons.inj shape
        exact absent (by simp)
    have laterApart : t.getLast? = some ';' → rest.head? ≠ some '}' := by
      cases t with
      | nil => simp
      | cons d t => simpa using apart
    have later := ih (fun member => absent (List.mem_cons_of_mem c member)) laterApart
    rw [List.cons_append, Semicolon.drop.eq_3 _ _ noPair, later, List.cons_append]

theorem Spaced.exists_last {J : Lexeme → Lexeme → Text → Prop} {a : Lexeme} {lexemes : List Lexeme}
    {t : Text} (spaced : Spaced J a lexemes t) (ends : EndsWithWord lexemes) :
    ∃ c, t.getLast? = some c ∧ isSolid c = true := by
  obtain ⟨front, w, rfl⟩ := ends
  cases atEnd : w.text.getLast? with
  | none => exact absurd (List.getLast?_eq_none_iff.mp atEnd) w.filled
  | some c =>
    exact ⟨c, by rw [spaced.getLast?_eq]; exact atEnd, w.allowed c (List.mem_of_getLast? atEnd)⟩

/-- The selectors of a ruleset, its brace and its declarations do not end with a semicolon. -/
theorem getLast?_declarations (t : Text) {body : Text} {declarations : Several Declaration}
    (declared : Spaced Tidy .semicolon (bodyLexemes declarations) body) :
    (t ++ '{' :: body).getLast? ≠ some ';' := by
  obtain ⟨c, atEnd, solid⟩ := declared.exists_last (body_endsWithWord declarations)
  have last : (t ++ '{' :: body).getLast? = some c := by
    rw [← List.singleton_append, ← List.append_assoc, List.getLast?_append, atEnd]
    rfl
  rw [last]
  intro same
  obtain rfl := Option.some.inj same
  exact absurd solid (by decide)

theorem Row.noClose_statement (name : StatementName) (words : Phrase .plain) :
    '}' ∉ '@' :: name.text ++ ' ' :: words.written ++ [';'] := by
  simp [name.inline.noClose, words.inline.noClose]

theorem Row.noClose_opening {name : BlockName} {headed : Prelude} {t : Text}
    (spaced : Spaced Tidy (.word name.keyword) (headed.parts.flatMap Part.lexemes) t) :
    '}' ∉ '@' :: name.text ++ t ++ ['{'] := by
  simp [name.inline.noClose, spaced.header_inline.noClose]

theorem Row.noClose_declarations {selectors : Series} {declarations : Several Declaration} {t body : Text}
    (chosen : Spaced Tidy .semicolon selectors.lexemes t)
    (declared : Spaced Tidy .semicolon (bodyLexemes declarations) body) : '}' ∉ t ++ '{' :: body := by
  simp [chosen.selectors_inline.noClose, declared.body_inline.noClose]

/-- Restoring semicolons ends the last declaration of a row, whatever stands behind the row. -/
theorem RowText.restore {ended : Bool} {row : Row} {t : Text} (text : RowText ended row t)
    (before : Bool) (closes : row.isClosing = true → before = true) :
    ∃ u, RowText true row u ∧ ∀ rest,
      Semicolon.restoreFrom before (t ++ rest) = u ++ Semicolon.restoreFrom (!row.isOpening) rest := by
  cases text with
  | @statement name words =>
    refine ⟨_, .statement, ?_⟩
    intro rest
    rw [restoreFrom_append (Row.noClose_statement name words) (by simp), Text.endsWith,
      List.getLast?_concat]
    rfl
  | opening spaced =>
    refine ⟨_, .opening spaced, ?_⟩
    intro rest
    rw [restoreFrom_append (Row.noClose_opening spaced) (by simp), Text.endsWith,
      List.getLast?_concat]
    rfl
  | @ruleset selectors declarations t body chosen declared =>
    refine ⟨_, .ruleset chosen declared, ?_⟩
    intro rest
    have noClose := Row.noClose_declarations chosen declared
    have unended : Text.endsWith (t ++ '{' :: body) ';' = false := by
      simpa [Text.endsWith] using getLast?_declarations t declared
    simp only [List.append_assoc]
    rw [← List.append_assoc, restoreFrom_append noClose (by simp), unended]
    cases ended <;> simp [Semicolon.restoreFrom, Row.isOpening]
  | closing =>
    refine ⟨_, .closing, ?_⟩
    intro rest
    simp [Semicolon.restoreFrom, closes rfl, Row.isOpening]

/-- Dropping semicolons leaves the last declaration of a row without one. -/
theorem RowText.drop {ended : Bool} {row : Row} {t : Text} (text : RowText ended row t) :
    ∃ u, RowText false row u ∧ ∀ rest, (row.endsRule = false → rest.head? ≠ some '}') →
      Semicolon.drop (t ++ rest) = u ++ Semicolon.drop rest := by
  cases text with
  | @statement name words =>
    refine ⟨_, .statement, ?_⟩
    intro rest behind
    exact drop_append (Row.noClose_statement name words) fun _ => behind rfl
  | opening spaced =>
    refine ⟨_, .opening spaced, ?_⟩
    intro rest _
    exact drop_append (Row.noClose_opening spaced) (by rw [List.getLast?_concat]; simp)
  | @ruleset selectors declarations t body chosen declared =>
    refine ⟨_, .ruleset chosen declared, ?_⟩
    intro rest _
    have noClose := Row.noClose_declarations chosen declared
    simp only [List.append_assoc]
    rw [← List.append_assoc,
      drop_append noClose fun last => absurd last (getLast?_declarations t declared)]
    cases ended <;> simp [Semicolon.drop]
  | closing =>
    refine ⟨_, .closing, ?_⟩
    intro rest _
    simp [Semicolon.drop]

theorem Spaced.starts_solid {w : Word .any} {lexemes : List Lexeme} {t : Text}
    (spaced : Spaced Tidy .semicolon (.word w :: lexemes) t) : StartsSolid t := by
  obtain ⟨gap, rest, join, _, rfl⟩ := spaced.cons_inv
  obtain rfl := join.mark (.inl rfl)
  exact w.starts_solid.append rest

/-- A row that closes no block starts with a character of a word. -/
theorem RowText.starts_solid {ended : Bool} {row : Row} {t : Text} (text : RowText ended row t)
    (other : row.isClosing = false) : StartsSolid t := by
  cases text with
  | statement => exact ⟨_, _, rfl, by decide⟩
  | opening spaced => exact ⟨_, _, rfl, by decide⟩
  | ruleset chosen declared =>
    simp only [List.append_assoc]
    exact chosen.starts_solid.append _
  | closing => cases other

theorem Spelled.head?_ne {row : Row} {rows : List Row} {t : Text} (spelled : Spelled Tidy (row :: rows) t)
    (other : row.isClosing = false) : t.head? ≠ some '}' := by
  cases spelled with
  | @cons _ _ t rest ended here later =>
    have starts := (here.rowText.starts_solid other).append rest
    intro same
    exact absurd (starts.solid_of_head '}' same) (by decide)

theorem Spelled.restore {rows : List Row} {t : Text} (spelled : Spelled Tidy rows t)
    (follow : rows.IsChain Row.Follows) (before : Bool)
    (closes : ∀ row ∈ rows.head?, row.isClosing = true → before = true) :
    ∃ ts, List.Forall₂ (RowText true) rows ts ∧ Semicolon.restoreFrom before t = ts.flatten := by
  induction spelled generalizing before with
  | nil => exact ⟨[], .nil, rfl⟩
  | @cons row rows t rest ended here later ih =>
    obtain ⟨u, text, written⟩ := here.rowText.restore before (closes row rfl)
    obtain ⟨behind, follow⟩ := List.isChain_cons.mp follow
    have laterCloses : ∀ next ∈ rows.head?, next.isClosing = true → (!row.isOpening) = true := by
      intro next member closing
      rw [Row.isOpening_of_endsRule ((behind next member).closed closing)]
      rfl
    obtain ⟨ts, texts, same⟩ := ih follow _ laterCloses
    exact ⟨u :: ts, .cons text texts, by rw [written, same, List.flatten_cons]⟩

theorem Spelled.drop {rows : List Row} {t : Text} (spelled : Spelled Tidy rows t)
    (follow : rows.IsChain Row.Follows) :
    ∃ ts, List.Forall₂ (RowText false) rows ts ∧ Semicolon.drop t = ts.flatten := by
  induction spelled with
  | nil => exact ⟨[], .nil, rfl⟩
  | @cons row rows t rest ended here later ih =>
    obtain ⟨u, text, written⟩ := here.rowText.drop
    obtain ⟨behind, follow⟩ := List.isChain_cons.mp follow
    have apart : row.endsRule = false → rest.head? ≠ some '}' := by
      intro unended
      cases rows with
      | nil => cases later; simp
      | cons next rows =>
        refine later.head?_ne ?_
        cases closing : next.isClosing with
        | false => rfl
        | true => simp [(behind next rfl).closed closing] at unended
    obtain ⟨ts, texts, same⟩ := ih follow
    exact ⟨u :: ts, .cons text texts, by rw [written rest apart, same, List.flatten_cons]⟩

/-- Every row of a tidy stylesheet ends its last declaration as the level wants it, once its
    semicolons are settled. -/
theorem Spelled.settle {rows : List Row} {lead t : Text} (spelled : Spelled Tidy rows t)
    (sheetRows : SheetRows rows) (start : lead = [] ∨ lead = [' ']) (level : Level) :
    ∃ ts, List.Forall₂ (RowText level.keepsLastSemicolon) rows ts ∧
      Semicolon.settle level (lead ++ t) = lead ++ ts.flatten := by
  rw [Semicolon.settle]
  cases level.keepsLastSemicolon with
  | true =>
    obtain ⟨ts, texts, same⟩ := spelled.restore sheetRows.follow false fun row member closing => by
      simp [sheetRows.first row member] at closing
    refine ⟨ts, texts, ?_⟩
    rcases start with rfl | rfl
    · simpa [Semicolon.restore] using same
    · simpa [Semicolon.restore, Semicolon.restoreFrom] using same
  | false =>
    obtain ⟨ts, texts, same⟩ := spelled.drop sheetRows.follow
    refine ⟨ts, texts, ?_⟩
    rcases start with rfl | rfl
    · simpa using same
    · simpa [Semicolon.drop] using same

/-! ### Line ends -/

theorem statement?_of_ne {c : Char} (other : c ≠ '@') (rest : Text) :
    Segment.statement? (c :: rest) = none := by
  simp [Segment.statement?, other]

theorem afterStatements_append {t : Text} (absent : '@' ∉ t) (rest : Text) :
    Segment.afterStatements (t ++ rest) = t ++ Segment.afterStatements rest := by
  refine Text.pass_append_of_forall ?_ rest
  intro c member rest
  refine statement?_of_ne ?_ rest
  rintro rfl
  exact absent member

theorem StatementName.find? (name : StatementName) (rest : Text) :
    Segment.statementNames.find? (·.isPrefixOf (name.text ++ rest)) = some name.text := by
  cases name <;> simp [Segment.statementNames, StatementName.text, List.isPrefixOf]

/-- A line ends after a statement. -/
theorem afterStatements_statement (name : StatementName) (words : Phrase .plain) (rest : Text) :
    Segment.afterStatements ('@' :: name.text ++ ' ' :: words.written ++ [';'] ++ rest) =
      '@' :: name.text ++ ' ' :: words.written ++ [';'] ++ '\n' :: Segment.afterStatements rest := by
  have absent : ';' ∉ ' ' :: words.written := by
    intro member
    rcases List.mem_cons.mp member with space | member
    · exact absurd space (by decide)
    · exact absurd (Phrase.of_mem_written member) (by decide)
  have cut := Text.splitFirst_append absent rest
  have found : Segment.statement? ('@' :: name.text ++ ' ' :: words.written ++ [';'] ++ rest) =
      some ⟨name.text.length + (' ' :: words.written).length + 1,
        '@' :: name.text ++ ' ' :: words.written ++ [';', '\n']⟩ := by
    simp only [List.append_assoc, List.cons_append, List.nil_append] at cut ⊢
    simp only [Segment.statement?, name.find?, List.drop_left, cut]
    simp
  have step := Text.pass_append_of_some found (by simp; omega)
  simpa [Segment.afterStatements] using step

theorem Spaced.header_starts {name : BlockName} {headed : Prelude} {t : Text}
    (spaced : Spaced Tidy (.word name.keyword) (headed.parts.flatMap Part.lexemes) t) (rest : Text) :
    ∃ c u, t ++ '{' :: rest = c :: u ∧ (c = ' ' ∨ c = '(' ∨ c = '{') := by
  cases shape : headed.parts with
  | nil =>
    rw [shape] at spaced
    obtain rfl := spaced.nil_inv
    exact ⟨'{', rest, rfl, by simp⟩
  | cons part parts =>
    rw [shape, List.flatMap_cons] at spaced
    cases part with
    | word w =>
      obtain ⟨gap, later, join, _, rfl⟩ := spaced.cons_inv
      obtain rfl := join.between_words
      exact ⟨' ', _, rfl, by simp⟩
    | condition feature value =>
      obtain ⟨gap, later, join, _, rfl⟩ := spaced.cons_inv
      rcases join.single with rfl | rfl
      · exact ⟨'(', _, rfl, by simp⟩
      · exact ⟨' ', _, rfl, by simp⟩

theorem StatementName.letters (name : StatementName) {c : Char} (other : c = ' ' ∨ c = '(' ∨ c = '{') :
    c ∉ name.text := by
  rcases other with rfl | rfl | rfl <;> cases name <;> decide

/-- A block's name is no statement's, whatever stands behind it. -/
theorem BlockName.find? (name : BlockName) {c : Char} (other : c = ' ' ∨ c = '(' ∨ c = '{') (u : Text) :
    Segment.statementNames.find? (·.isPrefixOf (name.text ++ c :: u)) = none := by
  have named : ∀ statement : StatementName, ¬ statement.text <+: name.text ++ c :: u := by
    intro statement inFront
    -- A statement's name that reaches beyond the block's holds the character behind it.
    rcases List.prefix_or_prefix_of_prefix inFront (List.prefix_append name.text (c :: u)) with
      short | ⟨more, long⟩
    · exact name.other statement short
    · rw [← long, List.prefix_append_right_inj] at inFront
      cases more with
      | nil => exact name.other statement (by simp [← long])
      | cons d more =>
        obtain ⟨rfl, _⟩ := List.cons_prefix_cons.mp inFront
        exact statement.letters other (by simp [← long])
  rw [List.find?_eq_none]
  intro t member
  rw [List.isPrefixOf_iff_prefix]
  simp only [Segment.statementNames, List.mem_cons, List.not_mem_nil, or_false] at member
  rcases member with rfl | rfl | rfl
  · exact named .charset
  · exact named .imports
  · exact named .namespaces

theorem afterStatements_opening {name : BlockName} {headed : Prelude} {t : Text}
    (spaced : Spaced Tidy (.word name.keyword) (headed.parts.flatMap Part.lexemes) t) (rest : Text) :
    Segment.afterStatements ('@' :: name.text ++ t ++ ['{'] ++ rest) =
      '@' :: name.text ++ t ++ ['{'] ++ Segment.afterStatements rest := by
  obtain ⟨c, u, shape, other⟩ := spaced.header_starts rest
  have none : Segment.statement? ('@' :: (name.text ++ t ++ ['{'] ++ rest)) = none := by
    simp only [List.append_assoc, List.singleton_append, shape]
    simp only [Segment.statement?, name.find? other]
  have absent : '@' ∉ name.text ++ t ++ ['{'] := by
    simp [name.inline.noAt, spaced.header_inline.noAt]
  have step := afterStatements_append absent rest
  rw [Segment.afterStatements] at step ⊢
  simp only [List.cons_append] at none ⊢
  rw [Text.pass_cons, none]
  simpa using step

theorem afterClosings_append (a b : Text) :
    Segment.afterClosings (a ++ b) = Segment.afterClosings a ++ Segment.afterClosings b := by
  induction a with
  | nil => rfl
  | cons c a ih =>
    by_cases closing : c = '}' <;> simp [Segment.afterClosings, closing, ih]

theorem afterClosings_of_not_mem {t : Text} (absent : '}' ∉ t) : Segment.afterClosings t = t := by
  induction t with
  | nil => rfl
  | cons c t ih =>
    have other : c ≠ '}' := fun same => absent (by simp [same])
    rw [Segment.afterClosings, if_neg other, ih fun member => absent (by simp [member])]

/-- The line end that statements and closing braces write behind a row. -/
def Row.lineEnd (row : Row) : Text := if row.isOpening then [] else ['\n']

/-- Lines end behind every row but an opening, before nested rules are looked at. -/
theorem RowText.lineEnd {ended : Bool} {row : Row} {t : Text} (text : RowText ended row t)
    (rest : Text) :
    Segment.afterClosings (Segment.afterStatements (t ++ rest)) =
      t ++ row.lineEnd ++ Segment.afterClosings (Segment.afterStatements rest) := by
  cases text with
  | @statement name words =>
    have same := afterClosings_of_not_mem (Row.noClose_statement name words)
    rw [afterStatements_statement, afterClosings_append, same]
    simp [Segment.afterClosings, Row.lineEnd, Row.isOpening]
  | opening spaced =>
    have same := afterClosings_of_not_mem (Row.noClose_opening spaced)
    rw [afterStatements_opening spaced, afterClosings_append, same]
    simp [Row.lineEnd, Row.isOpening]
  | @ruleset selectors declarations t body chosen declared =>
    have noAt : '@' ∉ t ++ '{' :: body ++ (if ended then [';'] else []) ++ ['}'] := by
      cases ended <;> simp [chosen.selectors_inline.noAt, declared.body_inline.noAt]
    have noClose : '}' ∉ t ++ '{' :: body ++ (if ended then [';'] else []) := by
      cases ended <;> simp [chosen.selectors_inline.noClose, declared.body_inline.noClose]
    rw [afterStatements_append noAt, afterClosings_append, afterClosings_append,
      afterClosings_of_not_mem noClose]
    simp [Segment.afterClosings, Row.lineEnd, Row.isOpening]
  | closing =>
    rw [afterStatements_append (by decide), afterClosings_append]
    simp [Segment.afterClosings, Row.lineEnd, Row.isOpening]

theorem nestLine_append {t : Text} (absent : '{' ∉ t) (rest : Text) :
    Segment.nestLine (t ++ rest) = t ++ Segment.nestLine rest := by
  induction t with
  | nil => rfl
  | cons c t ih =>
    have other : c ≠ '{' := fun same => absent (by simp [same])
    have later := ih fun member => absent (by simp [member])
    rw [List.cons_append, List.cons_append, ← later]
    cases t ++ rest with
    | nil => rfl
    | cons d u => rw [Segment.nestLine, if_neg other]

/-- A line of one opening brace stays one line. -/
theorem nestLine_single {a b : Text} (before : '{' ∉ a) (after : '{' ∉ b) :
    Segment.nestLine (a ++ '{' :: b) = a ++ '{' :: b := by
  rw [nestLine_append before]
  cases b with
  | nil => rfl
  | cons d b =>
    have none : b.contains '{' = false := by
      simpa using fun member => after (List.mem_cons_of_mem d member)
    rw [Segment.nestLine, if_pos rfl, none, if_neg (by simp)]

/-- A line ends behind a brace that another one follows. -/
theorem nestLine_nested {d : Char} {s : Text} (other : d ≠ '{') (rest : Text) :
    Segment.nestLine ('{' :: d :: (s ++ '{' :: rest)) =
      '{' :: '\n' :: Segment.nestLine (d :: (s ++ '{' :: rest)) := by
  have last : Segment.nestLine (d :: (s ++ '{' :: rest)) =
      d :: Segment.nestLine (s ++ '{' :: rest) := by
    simpa using nestLine_append (t := [d]) (by simpa using other.symm) (s ++ '{' :: rest)
  rw [Segment.nestLine, if_pos rfl, if_pos (by simp), last]

theorem beforeNested_of_pieces {t first : Text} {others : List Text}
    (cut : Text.pieces '\n' t = first :: others) :
    Segment.beforeNested t = Segment.nestLine first ++ (others.map Segment.nestLine).flatMap ('\n' :: ·) := by
  rw [Segment.beforeNested, cut, List.map_cons, Text.join_cons]
  rfl

theorem exists_pieces (sep : Char) (t : Text) : ∃ first others, Text.pieces sep t = first :: others :=
  List.exists_cons_of_ne_nil (Text.pieces_ne_nil sep t)

theorem beforeNested_append {t : Text} (noOpen : '{' ∉ t) (noBreak : '\n' ∉ t) (rest : Text) :
    Segment.beforeNested (t ++ rest) = t ++ Segment.beforeNested rest := by
  obtain ⟨first, others, cut⟩ := exists_pieces '\n' rest
  rw [beforeNested_of_pieces cut, beforeNested_of_pieces (Text.pieces_append_of_not_mem noBreak cut),
    nestLine_append noOpen, List.append_assoc]

theorem beforeNested_line {t : Text} (noBreak : '\n' ∉ t) (rest : Text) :
    Segment.beforeNested (t ++ '\n' :: rest) =
      Segment.nestLine t ++ '\n' :: Segment.beforeNested rest := by
  obtain ⟨first, others, cut⟩ := exists_pieces '\n' rest
  have cutAll := Text.pieces_append noBreak rest
  rw [cut] at cutAll
  rw [beforeNested_of_pieces cutAll, beforeNested_of_pieces cut]
  simp

theorem beforeNested_nested {d : Char} {s : Text} (other : d ≠ '{') (noBreak : '\n' ∉ d :: s) (rest : Text) :
    Segment.beforeNested ('{' :: d :: (s ++ '{' :: rest)) =
      '{' :: '\n' :: Segment.beforeNested (d :: (s ++ '{' :: rest)) := by
  obtain ⟨first, others, cut⟩ := exists_pieces '\n' rest
  have long : '\n' ∉ '{' :: d :: (s ++ ['{']) := by simpa using noBreak
  have short : '\n' ∉ d :: (s ++ ['{']) := by simpa using noBreak
  have cutLong := Text.pieces_append_of_not_mem long cut
  have cutShort := Text.pieces_append_of_not_mem short cut
  simp only [List.cons_append, List.append_assoc, List.nil_append] at cutLong cutShort
  rw [beforeNested_of_pieces cutLong, beforeNested_of_pieces cutShort, nestLine_nested other]
  rfl

theorem RowText.noBreak {ended : Bool} {row : Row} {t : Text} (text : RowText ended row t) :
    '\n' ∉ t := by
  cases text with
  | @statement name words => simp [name.inline.noBreak, words.inline.noBreak]
  | @opening name headed t spaced => simp [name.inline.noBreak, spaced.header_inline.noBreak]
  | ruleset chosen declared =>
    cases ended <;> simp [chosen.selectors_inline.noBreak, declared.body_inline.noBreak]
  | closing => decide

/-- The text of a row that starts a rule has its opening brace behind its first character. -/
def Opens (t : Text) : Prop :=
  ∃ d s z, t = d :: (s ++ '{' :: z) ∧ d ≠ '{' ∧ '\n' ∉ d :: s

theorem Opens.append {t : Text} (opens : Opens t) (rest : Text) : Opens (t ++ rest) := by
  obtain ⟨d, s, z, rfl, other, noBreak⟩ := opens
  exact ⟨d, s, z ++ rest, by simp, other, noBreak⟩

theorem RowText.opens {ended : Bool} {row : Row} {t : Text} (text : RowText ended row t)
    (starts : row.startsRule = true) : Opens t := by
  have noBreak := text.noBreak
  cases text with
  | statement => cases starts
  | @opening name headed t spaced =>
    exact ⟨'@', name.text ++ t, [], by simp, by decide, by simp_all⟩
  | @ruleset selectors declarations t body chosen declared =>
    obtain ⟨d, s, rfl, solid⟩ := chosen.starts_solid
    have other := (isSolid_iff.mp solid).2.1
    exact ⟨d, s, body ++ (if ended then [';'] else []) ++ ['}'], by simp, other, by simp_all⟩
  | closing => cases starts

theorem beforeNested_row {row : Row} (closed : row.isOpening = false) {t : Text} (noBreak : '\n' ∉ t)
    (stays : Segment.nestLine t = t) (rest : Text) :
    Segment.beforeNested (t ++ row.lineEnd ++ rest) = t ++ '\n' :: Segment.beforeNested rest := by
  have line := beforeNested_line noBreak rest
  rw [stays] at line
  simpa [Row.lineEnd, closed] using line

/-- A row gets a line of its own; a rule stands behind an opening. -/
theorem RowText.line {ended : Bool} {row : Row} {t : Text} (text : RowText ended row t) {rest : Text}
    (nested : row.isOpening = true → Opens rest) :
    Segment.beforeNested (t ++ row.lineEnd ++ rest) = t ++ '\n' :: Segment.beforeNested rest := by
  have noBreak := text.noBreak
  cases text with
  | @statement name words =>
    have noOpen : '{' ∉ '@' :: name.text ++ ' ' :: words.written ++ [';'] := by
      simp [name.inline.noOpen, words.inline.noOpen]
    have stays := nestLine_append noOpen []
    rw [List.append_nil, Segment.nestLine, List.append_nil] at stays
    exact beforeNested_row rfl noBreak stays rest
  | @opening name headed t spaced =>
    obtain ⟨d, s, z, rfl, other, noBreakNext⟩ := nested rfl
    have header : '{' ∉ '@' :: name.text ++ t := by
      simp [name.inline.noOpen, spaced.header_inline.noOpen]
    have headerBreak : '\n' ∉ '@' :: name.text ++ t := by
      simp [name.inline.noBreak, spaced.header_inline.noBreak]
    rw [Row.lineEnd, Row.isOpening, if_pos rfl, List.append_nil, List.append_assoc,
      beforeNested_append header headerBreak, List.singleton_append,
      beforeNested_nested other noBreakNext]
    simp
  | @ruleset selectors declarations t body chosen declared =>
    have noOpen : '{' ∉ body ++ (if ended then [';'] else []) ++ ['}'] := by
      cases ended <;> simp [declared.body_inline.noOpen]
    have stays := nestLine_single chosen.selectors_inline.noOpen noOpen
    refine beforeNested_row rfl noBreak ?_ rest
    simpa using stays
  | closing => exact beforeNested_row rfl noBreak rfl rest

/-- Each row of a stylesheet stands on a line of its own, in order. -/
theorem segment_rows {ended : Bool} {rows : List Row} {ts : List Text} {lead : Text}
    (texts : List.Forall₂ (RowText ended) rows ts) (sheetRows : SheetRows rows)
    (start : lead = [] ∨ lead = [' ']) :
    Segment.segment (lead ++ ts.flatten) = lead ++ ts.flatMap (· ++ ['\n']) := by
  have lines : Segment.segment ts.flatten = ts.flatMap (· ++ ['\n']) := by
    obtain ⟨follow, -, last⟩ := sheetRows
    rw [Segment.segment]
    induction texts with
    | nil => rfl
    | @cons row t rows ts text texts ih =>
      obtain ⟨behind, follow⟩ := List.isChain_cons.mp follow
      have nested : row.isOpening = true →
          Opens (Segment.afterClosings (Segment.afterStatements ts.flatten)) := by
        intro opening
        cases texts with
        | nil => simp [last row rfl] at opening
        | @cons next u rows ts text texts =>
          have opens := text.opens ((behind next rfl).opened opening)
          rw [List.flatten_cons, text.lineEnd, List.append_assoc]
          exact opens.append _
      have lastLater : ∀ next ∈ rows.getLast?, next.isOpening = false := by
        intro next member
        exact last next (List.mem_getLast?_cons member)
      rw [List.flatten_cons, text.lineEnd, text.line nested, ih follow lastLater]
      simp
  rcases start with rfl | rfl
  · exact lines
  · rw [Segment.segment, afterStatements_append (by decide), afterClosings_append,
      afterClosings_of_not_mem (by decide), beforeNested_append (by decide) (by decide)]
    exact congrArg ([' '] ++ ·) lines

theorem RowText.ends_mark {ended : Bool} {row : Row} {t : Text} (text : RowText ended row t) :
    ∃ u c, t = u ++ [c] ∧ Spacing.isMark c = true := by
  cases text with
  | closing => exact ⟨[], '}', rfl, by decide⟩
  | _ => exact ⟨_, _, rfl, by decide⟩

theorem RowText.trimmed {ended : Bool} {row : Row} {t : Text} (text : RowText ended row t) :
    Text.Trimmed t ∧ t ≠ [] := by
  obtain ⟨u, d, ends, mark⟩ := text.ends_mark
  refine ⟨⟨?_, ?_⟩, by simp [ends]⟩
  · intro c atStart
    cases closing : row.isClosing with
    | true =>
      cases text <;> cases closing
      obtain rfl := Option.some.inj atStart
      decide
    | false =>
      exact isBlank_of_isSolid ((text.starts_solid closing).solid_of_head c atStart)
  · intro c atEnd
    rw [ends, List.getLast?_concat] at atEnd
    obtain rfl := Option.some.inj atEnd
    exact Spacing.isBlank_of_isMark mark

theorem exists_of_forall₂ {α β : Type} {R : α → β → Prop} {as : List α} {bs : List β}
    (all : List.Forall₂ R as bs) {b : β} (member : b ∈ bs) : ∃ a, R a b := by
  induction all with
  | nil => cases member
  | @cons a c as bs here later ih =>
    rcases List.mem_cons.mp member with rfl | member
    · exact ⟨a, here⟩
    · exact ih member

/-- The lines of a spelling are the rows of its stylesheet, in order, with their semicolons as the
    level wants them. -/
theorem lines_spelling {sheet : Sheet} {x : Text} (spells : sheet.Spells x) (level : Level) :
    List.Forall₂ (RowText level.keepsLastSemicolon) sheet.rows
      (Text.pieces '\n' (Text.trim (segmented level x))) := by
  obtain ⟨lead, t, start, spelled, cleaned⟩ := clean_spelling spells
  obtain ⟨ts, texts, settled⟩ := spelled.settle sheet.rows_follow start level
  have lines := segment_rows texts sheet.rows_follow start
  rw [segmented, cleaned, settled, lines]
  obtain ⟨row, rows, shape⟩ := List.exists_cons_of_ne_nil sheet.rows_ne_nil
  rw [shape] at texts ⊢
  cases texts with
  | @cons _ first _ others text texts =>
    have all : ∀ t ∈ first :: others, ∃ row, RowText level.keepsLastSemicolon row t := fun t =>
      exists_of_forall₂ (.cons text texts)
    have trimmed : Text.Trimmed (Text.join ['\n'] (first :: others)) := by
      refine (Text.trimmed_join fun t member => ?_).1
      obtain ⟨row, text⟩ := all t member
      exact text.trimmed
    have blank : ∀ c ∈ lead, Text.isBlank c = true := by
      rcases start with rfl | rfl
      · simp
      · exact List.forall_mem_singleton.mpr (by decide)
    have same := trimmed.trim_between blank (List.forall_mem_singleton.mpr (by decide : Text.isBlank '\n' = true))
    rw [Text.flatMap_concat_eq_join, ← List.append_assoc, same, Text.pieces_join]
    · exact .cons text texts
    · intro t member
      obtain ⟨row, text⟩ := all t member
      exact text.noBreak

end Stylepress.Plain
