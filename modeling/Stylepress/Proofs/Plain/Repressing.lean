import Stylepress.Proofs.Plain.Pressing
import Stylepress.Proofs.Tokens

/-!
Pressing a pressed stylesheet. The canonical layout of a stylesheet is a spelling of it
(`Sheet.spells_written`), and so is the text that only combining leaves (`Sheet.Spells.sign`), in which
trailing tokens may have been cut off a longer comment. So pressing again starts from a spelling of the
same stylesheet, and an earlier level leaves no trace (`minify_minify`).
-/
namespace Stylepress.Plain
open Css

/-! ### Spelling lexemes in order -/

/-- Rows spelled, with a gap behind them. -/
def RowsSpell (rows : List Row) (t : Text) : Prop :=
  ∃ u gap, Spelled Joined rows u ∧ Gap gap ∧ t = u ++ gap

theorem Gap.append {a b : Text} (left : Gap a) (right : Gap b) : Gap (a ++ b) := by
  induction left with
  | empty => exact right
  | spacing space _ ih => exact .spacing space ih
  | @comment body gap closed _ ih => simpa using Gap.comment closed ih

theorem Spelled.append {J : Lexeme → Lexeme → Text → Prop} {a b : List Row} {t u : Text}
    (front : Spelled J a t) (back : Spelled J b u) : Spelled J (a ++ b) (t ++ u) := by
  induction front with
  | nil => exact back
  | cons ended here _ ih =>
    rw [List.append_assoc]
    exact .cons ended here ih

theorem rowsSpell_gap {gap : Text} (isGap : Gap gap) : RowsSpell [] gap := ⟨[], gap, .nil, isGap, rfl⟩

theorem rowsSpell_single {row : Row} {ended : Bool} {t : Text}
    (spaced : Spaced Joined .semicolon (row.lexemes ended) t) : RowsSpell [row] t :=
  ⟨t ++ [], [], .cons ended spaced .nil, .empty, by simp⟩

theorem RowsSpell.append {a b : List Row} {t u : Text} (front : RowsSpell a t) (back : RowsSpell b u) :
    RowsSpell (a ++ b) (t ++ u) := by
  obtain ⟨t, left, spelled, isLeft, rfl⟩ := front
  obtain ⟨u, right, spelledBack, isRight, rfl⟩ := back
  by_cases none : b = []
  · subst none
    cases spelledBack
    exact ⟨t, left ++ right, by simpa using spelled, isLeft.append isRight, by simp⟩
  · -- The gap behind the front and the one before the back become one.
    obtain ⟨gap, rest, isGap, rfl, _, regap⟩ := spelledBack.regap none
    exact ⟨_, right, spelled.append (regap _ (isLeft.append isGap)), isRight, by simp⟩

/-- A space may stand between any two lexemes outside of a condition. -/
theorem joined_space {a b : Lexeme} (outside : a ≠ .openParen) (other : b ≠ .closeParen) :
    Joined a b [' '] := by
  have gap : Gap [' '] := .spacing (by decide) .empty
  have wide : WideGap [' '] := ⟨[], ' ', [], .empty, by decide, .empty, rfl⟩
  cases a <;> cases b <;> first | exact gap | exact wide | exact absurd rfl outside | exact absurd rfl other

/-- Any gap may stand before a comma, a colon or a mark. -/
theorem joined_gap {a b : Lexeme} (outside : a ≠ .openParen) (notWord : ∀ w, b ≠ .word w)
    (other : b ≠ .closeParen) {gap : Text} (isGap : Gap gap) : Joined a b gap := by
  cases a <;> cases b <;> simp_all [Joined, joint]

section
variable {lexemes : List Lexeme} {rest : Text}

theorem spaced_words {kind : WordKind} (words : List (Word kind))
    (behind : ∀ w, Spaced Joined (.word w) lexemes rest) (v : Word .any) :
    Spaced Joined (.word v) (words.map (.word ·.anywhere) ++ lexemes)
      ((words.map (·.text)).flatMap ([' '] ++ ·) ++ rest) := by
  induction words generalizing v with
  | nil => exact behind v
  | cons word words ih =>
    have here := Spaced.cons (joined_space (a := .word v) (b := .word word.anywhere) (by simp) (by simp))
      (ih word.anywhere)
    simpa [Lexeme.text, Word.anywhere] using here

theorem Phrase.spaced {kind : WordKind} (phrase : Phrase kind) {a : Lexeme} {gap : Text}
    (join : Joined a (.word phrase.first.anywhere) gap)
    (behind : ∀ w, Spaced Joined (.word w) lexemes rest) :
    Spaced Joined a (phrase.lexemes ++ lexemes) (gap ++ phrase.written ++ rest) := by
  have whole := Spaced.cons join (spaced_words phrase.others behind phrase.first.anywhere)
  rw [Phrase.written, Several.toList, List.map_cons, Text.join_cons]
  simpa [Phrase.lexemes, Several.toList, Lexeme.text, Word.anywhere] using whole

theorem spaced_phrases {space : Text} (isGap : Gap space) (phrases : List (Phrase .plain))
    (behind : ∀ w, Spaced Joined (.word w) lexemes rest) (v : Word .any) :
    Spaced Joined (.word v) (phrases.flatMap (.comma :: ·.lexemes) ++ lexemes)
      ((phrases.map Phrase.written).flatMap (',' :: space ++ ·) ++ rest) := by
  induction phrases generalizing v with
  | nil => exact behind v
  | cons phrase phrases ih =>
    have later := phrase.spaced (a := .comma) (show Joined _ _ space from isGap) ih
    have here := Spaced.cons (joined_gap (a := .word v) (by simp) (by simp) (by simp) Gap.empty) later
    simpa [Lexeme.text] using here

theorem Series.spaced (series : Series) {space : Text} (isGap : Gap space) {a : Lexeme} {gap : Text}
    (join : Joined a (.word series.first.first.anywhere) gap)
    (behind : ∀ w, Spaced Joined (.word w) lexemes rest) :
    Spaced Joined a (series.lexemes ++ lexemes) (gap ++ series.written space ++ rest) := by
  have whole := series.first.spaced join (spaced_phrases isGap series.others behind)
  rw [Series.written, Several.toList, List.map_cons, Text.join_cons]
  simpa [Series.lexemes] using whole

theorem Declaration.spaced (declaration : Declaration) {space : Text} (isGap : Gap space) {a : Lexeme}
    {gap : Text} (join : Joined a (.word declaration.property.anywhere) gap)
    (behind : ∀ w, Spaced Joined (.word w) lexemes rest) :
    Spaced Joined a (declaration.lexemes ++ lexemes) (gap ++ declaration.written space ++ rest) := by
  have value := declaration.value.spaced (a := .colon) isGap (show Joined _ _ space from isGap) behind
  have colon := Spaced.cons (joined_gap (a := .word declaration.property.anywhere) (by simp) (by simp)
    (by simp) Gap.empty) value
  have whole := Spaced.cons join colon
  simpa [Declaration.lexemes, Declaration.written, Lexeme.text, Word.anywhere] using whole

theorem spaced_declarations {space gap : Text} (isSpace : Gap space) (isGap : Gap gap)
    (declarations : List Declaration) (behind : ∀ w, Spaced Joined (.word w) lexemes rest) (v : Word .any) :
    Spaced Joined (.word v) (declarations.flatMap (.semicolon :: ·.lexemes) ++ lexemes)
      ((declarations.map (Declaration.written space)).flatMap (';' :: gap ++ ·) ++ rest) := by
  induction declarations generalizing v with
  | nil => exact behind v
  | cons declaration declarations ih =>
    have later := declaration.spaced (a := .semicolon) isSpace (show Joined _ _ gap from isGap) ih
    have here := Spaced.cons (joined_gap (a := .word v) (by simp) (by simp) (by simp) Gap.empty) later
    simpa [Lexeme.text] using here

theorem spaced_body {space gap : Text} (isSpace : Gap space) (isGap : Gap gap)
    (declarations : Several Declaration) (behind : ∀ w, Spaced Joined (.word w) lexemes rest) :
    Spaced Joined .openBrace (bodyLexemes declarations ++ lexemes)
      (gap ++ Text.join (';' :: gap) (declarations.toList.map (Declaration.written space)) ++ rest) := by
  have whole := declarations.first.spaced (a := .openBrace) isSpace (show Joined _ _ gap from isGap)
    (spaced_declarations isSpace isGap declarations.others behind)
  rw [Several.toList, List.map_cons, Text.join_cons]
  simpa [bodyLexemes] using whole

theorem spaced_parts {space : Text} (isSpace : Gap space) (parts : List Part)
    (behind : ∀ a, a ≠ .openParen → Spaced Joined a lexemes rest) {a : Lexeme} (outside : a ≠ .openParen) :
    Spaced Joined a (parts.flatMap Part.lexemes ++ lexemes)
      (parts.flatMap (' ' :: ·.written space) ++ rest) := by
  induction parts generalizing a with
  | nil => exact behind a outside
  | cons part parts ih =>
    cases part with
    | word w =>
      have here := Spaced.cons (joined_space (b := .word w.anywhere) outside (by simp))
        (ih (a := .word w.anywhere) (by simp))
      simpa [Part.lexemes, Part.written, Lexeme.text, Word.anywhere] using here
    | condition feature value =>
      have closing : ∀ w, Spaced Joined (.word w) (.closeParen :: (parts.flatMap Part.lexemes ++ lexemes)) _ :=
        fun w => Spaced.cons rfl (ih (a := .closeParen) (by simp))
      have asked := value.spaced (a := .colon) (show Joined _ _ space from isSpace) closing
      have colon := Spaced.cons (joined_gap (a := .word feature.anywhere) (by simp) (by simp) (by simp)
        Gap.empty) asked
      have inside := Spaced.cons (show Joined .openParen _ [] from rfl) colon
      have here := Spaced.cons (joined_space (b := .openParen) outside (by simp)) inside
      simpa [Part.lexemes, Part.written, Lexeme.text, Word.anywhere] using here

end

/-! ### The canonical layout is a spelling -/

theorem gap_space (level : Level) : Gap level.space := by
  cases level <;> first | exact .empty | exact .spacing (by decide) .empty

theorem gap_indent (depth : Nat) : Gap (indent depth) := by
  induction depth with
  | zero => exact .empty
  | succ depth ih => exact .spacing (by decide) ih

theorem gap_lineBreak (level : Level) (depth : Nat) :
    Gap (if level.breaksDeclarations then '\n' :: indent depth else []) := by
  split
  · exact .spacing (by decide) (gap_indent depth)
  · exact .empty

theorem spaced_ruleset (level : Level) (depth : Nat) (selectors : Series)
    (declarations : Several Declaration) :
    Spaced Joined .semicolon
      ((Row.ruleset selectors declarations).lexemes level.keepsLastSemicolon)
      (ruleset level depth selectors declarations) := by
  have closing : ∀ a, a ≠ .openParen → Spaced Joined a [.closeBrace]
      ((if level.breaksDeclarations then '\n' :: indent depth else []) ++ Lexeme.closeBrace.text ++ []) :=
    fun a outside => .cons (joined_gap outside (by simp) (by simp) (gap_lineBreak level depth)) .nil
  have ending : ∀ w : Word .any, Spaced Joined (.word w)
      ((if level.keepsLastSemicolon then [.semicolon] else []) ++ [.closeBrace])
      ((if level.keepsLastSemicolon then [';'] else []) ++
        ((if level.breaksDeclarations then '\n' :: indent depth else []) ++ Lexeme.closeBrace.text ++ [])) := by
    intro w
    split
    · exact .cons (show Joined (.word w) .semicolon [] from Gap.empty) (closing .semicolon (by simp))
    · exact closing (.word w) (by simp)
  have body := spaced_body (gap_space level) (gap_lineBreak level (depth + 1)) declarations ending
  have brace : ∀ w : Word .any, Spaced Joined (.word w) (.openBrace :: _) _ := fun w =>
    .cons (joined_gap (a := .word w) (by simp) (by simp) (by simp) (gap_space level)) body
  have whole := selectors.spaced (a := .semicolon) (gap_space level) (show Joined _ _ [] from Gap.empty) brace
  simpa [Row.lexemes, ruleset, Lexeme.text] using whole

theorem Row.spaced (level : Level) (depth : Nat) (row : Row) :
    Spaced Joined .semicolon (row.lexemes level.keepsLastSemicolon) (row.written level depth) := by
  cases row with
  | statement name words =>
    have ending : ∀ w : Word .any, Spaced Joined (.word w) [.semicolon] ([] ++ Lexeme.semicolon.text ++ []) :=
      fun w => .cons Gap.empty .nil
    have later := words.spaced (joined_space (a := .word name.keyword) (by simp) (by simp)) ending
    have whole := Spaced.cons (show Joined .semicolon (.word name.keyword) [] from Gap.empty) later
    simpa [Row.written, Row.lexemes, Lexeme.text, StatementName.keyword] using whole
  | opening name headed =>
    have brace : ∀ a, a ≠ .openParen → Spaced Joined a [.openBrace]
        (level.space ++ Lexeme.openBrace.text ++ []) :=
      fun a outside => .cons (joined_gap outside (by simp) (by simp) (gap_space level)) .nil
    have later := spaced_parts (gap_space level) headed.parts brace (a := .word name.keyword) (by simp)
    have whole := Spaced.cons (show Joined .semicolon (.word name.keyword) [] from Gap.empty) later
    simpa [Row.written, Row.lexemes, header, Lexeme.text, BlockName.keyword] using whole
  | ruleset selectors declarations => exact spaced_ruleset level depth selectors declarations
  | closing => exact .cons (show Joined .semicolon .closeBrace [] from Gap.empty) .nil

theorem rowsSpell_line (level : Level) (depth : Nat) (row : Row) :
    RowsSpell [row] (line level depth (row.written level depth)) := by
  have here := rowsSpell_single (row.spaced level depth)
  rw [line]
  split
  · exact ((rowsSpell_gap (gap_indent depth)).append here).append
      (rowsSpell_gap (.spacing (by decide) .empty))
  · exact here

mutual

theorem Rule.rowsSpell (level : Level) (depth : Nat) :
    (rule : Rule) → RowsSpell rule.rows (rule.written level depth)
  | .ruleset selectors declarations => by
    rw [Rule.rows, Rule.written]
    exact rowsSpell_line level depth (.ruleset selectors declarations)
  | .block name headed first others => by
    rw [Rule.rows, Rule.written]
    have inside := (Rule.rowsSpell level (depth + 1) first).append (rules_rowsSpell level (depth + 1) others)
    have whole := ((rowsSpell_line level depth (.opening name headed)).append inside).append
      (rowsSpell_line level depth .closing)
    simpa [Row.written] using whole

theorem rules_rowsSpell (level : Level) (depth : Nat) :
    (rules : List Rule) → RowsSpell (rulesRows rules) (rulesWritten level depth rules)
  | [] => by
    rw [rulesRows, rulesWritten]
    exact rowsSpell_gap .empty
  | rule :: others => by
    rw [rulesRows, rulesWritten]
    exact (Rule.rowsSpell level depth rule).append (rules_rowsSpell level depth others)

end

theorem Item.rowsSpell (level : Level) (item : Item) : RowsSpell item.rows (item.written level) := by
  cases item with
  | statement name words => exact rowsSpell_line level 0 (.statement name words)
  | rule r => exact r.rowsSpell level 0

/-- The canonical layout of a stylesheet is a spelling of it, also with a gap behind. -/
theorem Sheet.spells_written (sheet : Sheet) (level : Level) {gap : Text} (isGap : Gap gap) :
    sheet.Spells (sheet.written level ++ gap) := by
  have written : RowsSpell sheet.rows (sheet.written level) := by
    rw [Sheet.rows, Sheet.written]
    induction sheet.toList with
    | nil => exact rowsSpell_gap .empty
    | cons item items ih => exact (item.rowsSpell level).append ih
  have whole := written.append (rowsSpell_gap isGap)
  rwa [List.append_nil] at whole

/-! ### Tokens in gaps -/

theorem gap_token (level : Level) : Gap (Token.ofLevel level) := by
  have named : Token.ofLevel level = '/' :: '*' ::
      (['l', 'm', 'd', 'c', 'r', 'u', 'n', 'c', 'h', 'c', 's', 's', '=', level.digit] ++ ['*', '/']) := rfl
  rw [named]
  exact .comment (by cases level <;> decide) .empty

/-- Neighbours that do not close a comment. -/
def Unclosed (c d : Char) : Prop := ¬ (c = '*' ∧ d = '/')

theorem not_closed_iff {t : Text} : ¬ ['*', '/'] <:+: t ↔ t.IsChain Unclosed := Text.not_pair_iff

/-- The token of a level closes a comment that is cut before its end. -/
theorem gap_unclosed {t : Text} (unclosed : t.IsChain Unclosed) (level : Level) :
    Gap ('/' :: '*' :: (t ++ '\n' :: Token.ofLevel level)) := by
  have named : '/' :: '*' :: (t ++ '\n' :: Token.ofLevel level) = '/' :: '*' ::
      ((t ++ '\n' :: '/' :: '*' :: ['l', 'm', 'd', 'c', 'r', 'u', 'n', 'c', 'h', 'c', 's', 's', '=',
        level.digit]) ++ ['*', '/']) := by
    simp [Token.ofLevel, Token.withDigit, Token.opener, Token.closer]
  rw [named]
  refine .comment ?_ .empty
  rw [not_closed_iff, List.isChain_append]
  refine ⟨unclosed, ?_, ?_⟩
  · rw [← not_closed_iff]
    cases level <;> decide
  · rintro c _ d first ⟨_, rfl⟩
    exact absurd (Option.some.inj first) (by decide)

/-- What stands before the slash that closes a comment closes none. -/
theorem unclosed_of_append {body t more : Text} {last : Char} (closed : ¬ ['*', '/'] <:+: body)
    (shape : body ++ ['*', '/'] = t ++ more ++ [last]) : t.IsChain Unclosed := by
  have front : body ++ ['*'] = t ++ more := by
    have same : body ++ ['*'] ++ ['/'] = t ++ more ++ [last] := by simpa using shape
    exact (List.append_inj' same rfl).1
  have chain : (body ++ ['*']).IsChain Unclosed := by
    rw [List.isChain_append]
    refine ⟨not_closed_iff.mp closed, by simp, ?_⟩
    rintro c _ d first ⟨_, rfl⟩
    exact absurd (Option.some.inj first) (by decide)
  rw [front] at chain
  exact chain.left_of_append

/-- A gap that is cut off before a comment closes, or between two of its parts, is a gap again with a
    line end and a token behind it. -/
theorem Gap.cut {gap : Text} (isGap : Gap gap) (level : Level) {p q : Text} (shape : gap = p ++ q)
    (behind : q.head? ≠ some '*') : Gap (p ++ '\n' :: Token.ofLevel level) := by
  have lineEnd : Gap ('\n' :: Token.ofLevel level) := .spacing (by decide) (gap_token level)
  induction isGap generalizing p with
  | empty =>
    obtain ⟨rfl, _⟩ := List.append_eq_nil_iff.mp shape.symm
    exact lineEnd
  | @spacing c gap space rest ih =>
    cases p with
    | nil => exact lineEnd
    | cons d p =>
      obtain ⟨rfl, later⟩ := List.cons.inj shape
      exact .spacing space (ih later)
  | @comment body gap closed rest ih =>
    cases p with
    | nil => exact lineEnd
    | cons c p =>
      obtain ⟨rfl, star⟩ := List.cons.inj shape
      cases p with
      | nil =>
        obtain rfl : _ = q := star
        exact absurd rfl behind
      | cons d p =>
        obtain ⟨rfl, inside⟩ := List.cons.inj star
        have parts : body ++ ['*', '/'] ++ gap = p ++ q := by simpa using inside
        rcases List.append_eq_append_iff.mp parts with ⟨more, rfl, later⟩ | ⟨more, whole, _⟩
        · simpa using Gap.comment closed (ih later)
        · rcases List.eq_nil_or_concat more with rfl | ⟨more, last, rfl⟩
          · obtain rfl : body ++ ['*', '/'] = p := by simpa using whole
            simpa using Gap.comment closed lineEnd
          · -- The cut took the end of this comment away, so the token is inside it and closes it.
            exact gap_unclosed (unclosed_of_append closed (by simpa using whole)) level

/-- A spelling stays one when its trailing tokens make way for another. -/
theorem Sheet.Spells.sign {sheet : Sheet} {x : Text} (spells : sheet.Spells x) : sheet.Spells (sign x) := by
  obtain ⟨t, gap, spelled, isGap, rfl⟩ := spells
  obtain ⟨c, last, mark⟩ := spelled.ends_mark sheet.rows_ne_nil
  obtain ⟨front, rfl⟩ := List.getLast?_eq_some_iff.mp last
  obtain ⟨q, shape, trailer⟩ := Token.exists_trailer gap
  have stripped := Token.strip_append front (Spacing.isBlank_of_isMark mark)
    (fun _ => Token.not_mem_of_isMark mark) gap
  have noStar : q.head? ≠ some '*' := fun first => absurd (trailer.head '*' first) (by decide)
  refine ⟨_, _, spelled, isGap.cut .off shape noStar, ?_⟩
  rw [Css.sign, List.append_assoc, List.singleton_append, stripped]
  simp

/-! ### Pressing again -/

/-- What a level makes of a spelling is a spelling of the same stylesheet. -/
theorem Sheet.Spells.minify {sheet : Sheet} {x : Text} (spells : sheet.Spells x) (level : Level) :
    sheet.Spells (minify x level) := by
  by_cases combined : level = .off
  · obtain ⟨trimmed, filled⟩ := spells.trim
    rw [Css.minify]
    simp only [List.isEmpty_eq_false_iff.mpr filled, combined]
    exact trimmed.sign
  · rw [minify_of_spells spells combined]
    exact (sheet.spells_written level (gap_token level)).trim.1

/-- Pressing a spelling of a plain stylesheet again gives what pressing it once gives: the level of an
    earlier run leaves no trace. -/
theorem minify_minify {sheet : Sheet} {x : Text} (spells : sheet.Spells x) (first : Level) {second : Level}
    (pressed : second ≠ .off) : minify (minify x first) second = minify x second := by
  rw [minify_of_spells (spells.minify first) pressed, minify_of_spells spells pressed]

theorem minify_minify_sample :
    sample.Spells sampleText ∧
      minify (minify sampleText .off) .high = minify sampleText .high :=
  ⟨sample_spells, minify_minify sample_spells .off (by decide)⟩

end Stylepress.Plain
