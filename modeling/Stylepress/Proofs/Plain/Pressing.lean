import Stylepress.Proofs.Plain.Layout
import Stylepress.Proofs.Tokens

/-!
Pressing a plain stylesheet. Trimming a spelling gives a spelling again (`Sheet.Spells.trim`), so the
layout of a spelling is all that a level writes, and the token behind it keeps trimming from the
last line end (`minify_eq_written`).
-/
namespace Stylepress.Plain
open Css

/-! ### Trimming -/

theorem Gap.trimStart {gap : Text} (isGap : Gap gap) : Gap (Text.trimStart gap) := by
  induction isGap with
  | empty => exact .empty
  | @spacing c gap space rest ih =>
    rw [Text.trimStart, List.dropWhile_cons]
    split
    · exact ih
    · exact .spacing space rest
  | comment closed rest _ => exact .comment closed rest

theorem Gap.trimEnd {gap : Text} (isGap : Gap gap) : Gap (Text.trimEnd gap) := by
  induction isGap with
  | empty => exact .empty
  | spacing space rest ih =>
    rw [Text.trimEnd_cons]
    split
    · exact .empty
    · exact .spacing space ih
  | @comment body gap closed rest ih =>
    have last : ∀ c ∈ ('/' :: '*' :: (body ++ ['*', '/'])).getLast?, Text.isBlank c = false := by
      intro c member
      rw [← List.cons_append, ← List.cons_append, List.getLast?_append] at member
      obtain rfl := Option.some.inj member
      decide
    have trimmed := Text.trimEnd_append_of_last last gap
    simp only [List.cons_append, List.append_assoc, List.nil_append] at trimmed
    rw [trimmed]
    exact .comment closed ih

/-- The gap before the first row may be any other one. -/
theorem Spelled.regap {rows : List Row} {t : Text} (spelled : Spelled Joined rows t) (filled : rows ≠ []) :
    ∃ gap rest, Gap gap ∧ t = gap ++ rest ∧ (∃ c ∈ rest.head?, isSpacing c = false) ∧
      ∀ other, Gap other → Spelled Joined rows (other ++ rest) := by
  cases spelled with
  | nil => exact absurd rfl filled
  | @cons row rows t rest ended here later =>
    obtain ⟨first, lexemes, shape, free⟩ : ∃ first lexemes, row.lexemes ended = first :: lexemes ∧
        joint .semicolon first = .free := by
      cases row <;> exact ⟨_, _, rfl, rfl⟩
    rw [shape] at here
    obtain ⟨gap, behind, join, spaced, rfl⟩ := here.cons_inv
    obtain ⟨c, letters, start⟩ := first.exists_cons
    have gaps : ∀ other, Joined .semicolon first other ↔ Gap other := by
      intro other
      rw [Joined, free]
    have member : c ∈ first.text := by simp [start]
    refine ⟨gap, first.text ++ behind ++ rest, (gaps gap).mp join, by simp,
      ⟨c, by simp [start], (Lexeme.solid_of_mem member).1⟩, ?_⟩
    intro other isGap
    have again : Spaced Joined .semicolon (row.lexemes ended) (other ++ first.text ++ behind) := by
      rw [shape]
      exact .cons ((gaps other).mpr isGap) spaced
    simpa using Spelled.cons ended again later

/-- A spelling ends with a mark, but for the gap behind it. -/
theorem Spelled.ends_mark {J : Lexeme → Lexeme → Text → Prop} {rows : List Row} {t : Text}
    (spelled : Spelled J rows t) (filled : rows ≠ []) :
    ∃ c, t.getLast? = some c ∧ Spacing.isMark c = true := by
  induction spelled with
  | nil => exact absurd rfl filled
  | @cons row rows t rest ended here later ih =>
    rw [List.getLast?_append]
    by_cases last : rows = []
    · subst last
      cases later
      obtain ⟨front, mark, shape, isMark⟩ := row.exists_mark ended
      rw [shape] at here
      obtain ⟨c, only, ending⟩ : ∃ c, mark.text = [c] ∧ Spacing.isMark c = true := by
        cases mark <;> simp_all [Lexeme.isMark, Lexeme.text, Spacing.isMark]
      exact ⟨c, by simp [here.getLast?_eq, only], ending⟩
    · obtain ⟨c, atEnd, mark⟩ := ih last
      exact ⟨c, by rw [atEnd]; rfl, mark⟩

/-- A spelling without the blanks at its ends is a spelling too, and not empty. -/
theorem Sheet.Spells.trim {sheet : Sheet} {x : Text} (spells : sheet.Spells x) :
    sheet.Spells (Text.trim x) ∧ Text.trim x ≠ [] := by
  obtain ⟨t, gap, spelled, isGap, rfl⟩ := spells
  obtain ⟨lead, rest, isLead, rfl, ⟨c, first, solid⟩, regap⟩ := spelled.regap sheet.rows_ne_nil
  obtain ⟨d, last, mark⟩ := (regap _ isLead.trimStart).ends_mark sheet.rows_ne_nil
  have start : ∀ e ∈ (rest ++ gap).head?, Text.isBlank e = false := by
    intro e member
    obtain ⟨u, rfl⟩ : ∃ u, rest = c :: u := List.head?_eq_some_iff.mp first
    obtain rfl := Option.some.inj member
    exact isBlank_of_not_isSpacing solid
  have finish : ∀ e ∈ (Text.trimStart lead ++ rest).getLast?, Text.isBlank e = false := by
    intro e member
    rw [last] at member
    obtain rfl := Option.some.inj member
    exact Spacing.isBlank_of_isMark mark
  have same : Text.trim (lead ++ rest ++ gap) = Text.trimStart lead ++ rest ++ Text.trimEnd gap := by
    rw [Text.trim, List.append_assoc, Text.trimStart_append_of_head lead start, ← List.append_assoc,
      Text.trimEnd_append_of_last finish]
  rw [same]
  refine ⟨⟨_, _, regap _ isLead.trimStart, isGap.trimEnd, rfl⟩, ?_⟩
  intro none
  simp_all

/-! ### The canonical layout -/

theorem line_starts_solid (level : Level) {t : Text} (starts : StartsSolid t) :
    StartsSolid (line level 0 t) := by
  rw [line]
  split
  · exact starts.append ['\n']
  · exact starts

theorem Item.starts_solid (level : Level) (item : Item) : StartsSolid (item.written level) := by
  have keyword : ∀ t, StartsSolid ('@' :: t) := fun t => ⟨'@', t, rfl, by decide⟩
  cases item with
  | statement name words => exact line_starts_solid level (keyword _)
  | rule r =>
    rw [Item.written]
    cases r with
    | ruleset selectors declarations =>
      rw [Rule.written]
      refine line_starts_solid level ?_
      simp only [ruleset, List.append_assoc]
      exact (selectors.starts_solid level.space).append _
    | block name headed first others =>
      rw [Rule.written, List.append_assoc]
      exact (line_starts_solid level (keyword _)).append _

/-- No blank is trimmed from the start of a layout. -/
theorem Sheet.trimStart_written (sheet : Sheet) (level : Level) :
    Text.trimStart (sheet.written level) = sheet.written level := by
  have starts : StartsSolid (sheet.written level) := by
    rw [Sheet.written, Several.toList, List.flatMap_cons]
    exact (sheet.first.starts_solid level).append _
  obtain ⟨c, rest, shape, solid⟩ := starts
  have other := isBlank_of_isSolid solid
  rw [shape, Text.trimStart, List.dropWhile_cons_of_neg (by simp [other])]

/-- A word of one character. -/
def letter {kind : WordKind} (c : Char) (allowed : kind.allows c = true) : Word kind :=
  ⟨[c], List.cons_ne_nil c [], List.forall_mem_singleton.mpr allowed⟩

/-- A block with a condition, around a ruleset of two selectors. -/
def sample : Sheet :=
  ⟨.rule (.block
    ⟨⟨['m', 'e', 'd', 'i', 'a'], by decide, List.all_eq_true.mp (by decide)⟩, by
      intro name
      cases name <;> decide⟩
    ⟨[.condition (letter 'a' (by decide)) ⟨letter 'b' (by decide), []⟩], by simp⟩
    (.ruleset ⟨⟨letter 'c' (by decide), []⟩, [⟨letter 'd' (by decide), []⟩]⟩
      ⟨⟨letter 'e' (by decide), ⟨⟨letter 'f' (by decide), [letter 'g' (by decide)]⟩, []⟩⟩, []⟩)
    []), []⟩

/-- A spelling of the sample: a comment in front, no space before the condition, a line end before
    each brace of the block, and behind it a comment that ends like a token. -/
def sampleText : Text :=
  ['/', '*', ';', '*', '/', '@', 'm', 'e', 'd', 'i', 'a', '(', 'a', ' ', ':', 'b', ')', '\n', '{',
    'c', ' ', ',', '\t', 'd', '{', 'e', ':', 'f', ' ', 'g', ' ', ';', '}', '\n', '}',
    '/', '*'] ++ Token.ofLevel .high

theorem sample_spells : sample.Spells sampleText := by
  have comment : Gap ['/', '*', ';', '*', '/'] := @Gap.comment [';'] [] (by decide) .empty
  have space : Gap [' '] := .spacing (by decide) .empty
  have tab : Gap ['\t'] := .spacing (by decide) .empty
  have lineEnd : Gap ['\n'] := .spacing (by decide) .empty
  have wide : WideGap [' '] := ⟨[], ' ', [], .empty, by decide, .empty, rfl⟩
  have behind : Gap ('/' :: '*' :: ((Token.ofLevel .high).take 16 ++ ['*', '/'])) :=
    .comment (by decide) .empty
  refine ⟨_, _, .cons false (.cons comment (.cons Gap.empty (.cons rfl (.cons space (.cons Gap.empty
    (.cons rfl (.cons lineEnd .nil))))))) (.cons true (.cons Gap.empty (.cons space (.cons tab
    (.cons Gap.empty (.cons Gap.empty (.cons Gap.empty (.cons Gap.empty (.cons wide (.cons space
    (.cons Gap.empty .nil)))))))))) (.cons false (.cons lineEnd .nil) .nil)), behind, rfl⟩

theorem minify_of_spells {sheet : Sheet} {x : Text} (spells : sheet.Spells x) {level : Level}
    (pressed : level ≠ .off) :
    minify x level = Text.trim (sheet.written level ++ Token.ofLevel level) := by
  obtain ⟨trimmed, filled⟩ := spells.trim
  rw [minify, layout_spelling trimmed]
  simp [filled, pressed]

/-- Every spelling of a plain stylesheet is pressed to its canonical layout, signed with the token of
    the level. -/
theorem minify_eq_written {sheet : Sheet} {x : Text} (spells : sheet.Spells x) {level : Level}
    (pressed : level ≠ .off) : minify x level = sheet.written level ++ Token.ofLevel level := by
  rw [minify_of_spells spells pressed, Token.trim_signed, sheet.trimStart_written]

theorem minify_sample :
    sample.Spells sampleText ∧
      minify sampleText .low = sample.written .low ++ Token.ofLevel .low :=
  ⟨sample_spells, minify_eq_written sample_spells (by decide)⟩

example : sample.written .medium =
    ['@', 'm', 'e', 'd', 'i', 'a', ' ', '(', 'a', ':', 'b', ')', '{', '\n', '\t', 'c', ',', 'd', '{',
      'e', ':', 'f', ' ', 'g', '}', '\n', '}', '\n'] := by
  decide

end Stylepress.Plain
