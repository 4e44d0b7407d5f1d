import Stylepress.Proofs.Fragments

/-!
Braces on lines of their own. Segmenting a text on one line writes line ends and nothing else
(`filter_segment_eq`), one of them behind every closing brace. Where no two opening braces stand side by side,
the last of its passes ends a line behind exactly the opening braces that another one follows on the same line
(`beforeNested_eq_inContext`), so that no line is left with two braces of a kind (`segment_isolates_braces`).
-/
namespace Stylepress.Css

namespace Segment

/-- An opening brace that another one follows on its line is written with a line end. -/
def breaking (_ : Text) (c : Char) (rest : Text) : Text :=
  if c = '{' ∧ '{' ∈ rest.takeWhile (· != '\n') then [c, '\n'] else [c]

/-! ### One line -/

theorem nestLine_cons_of_ne {c : Char} (other : c ≠ '{') (line : Text) : nestLine (c :: line) = c :: nestLine line := by
  cases line with
  | nil => rfl
  | cons d line => rw [nestLine, if_neg other]

/-- One step along a line: the character behind an opening brace, which is looked past, is no opening brace
    itself. -/
theorem nestLine_cons {c : Char} {line : Text} (apart : ¬ ['{', '{'] <:+: c :: line) :
    nestLine (c :: line) = (if c = '{' ∧ '{' ∈ line then [c, '\n'] else [c]) ++ nestLine line := by
  by_cases brace : c = '{'
  · subst brace
    cases line with
    | nil => rfl
    | cons d line =>
      have noOpen : d ≠ '{' := by
        rintro rfl
        exact apart ⟨[], line, rfl⟩
      have later : '{' ∈ d :: line ↔ '{' ∈ line := by simp [Ne.symm noOpen]
      rw [nestLine_cons_of_ne noOpen, nestLine, if_pos rfl]
      by_cases nested : '{' ∈ line
      · rw [if_pos (by simpa using nested), if_pos ⟨rfl, later.mpr nested⟩]
        rfl
      · rw [if_neg (by simpa using nested), if_neg fun both => nested (later.mp both.2),
          nestLine_of_not_mem nested]
        rfl
  · rw [nestLine_cons_of_ne brace, if_neg fun both => brace both.1]
    rfl

/-! ### All lines -/

/-- One step along a text: at a line end the next line starts, and elsewhere the rest of the line decides. -/
theorem beforeNested_cons (before : Text) {c : Char} {rest : Text} (apart : ¬ ['{', '{'] <:+: c :: rest) :
    beforeNested (c :: rest) = breaking before c rest ++ beforeNested rest := by
  obtain ⟨others, cut⟩ := Text.exists_pieces_takeWhile '\n' rest
  by_cases lineEnd : c = '\n'
  · subst lineEnd
    rw [breaking, if_neg fun both => absurd both.1 (by decide), beforeNested, beforeNested, Text.pieces, if_pos rfl,
      cut]
    rfl
  · have inLine : ¬ ['{', '{'] <:+: c :: rest.takeWhile (· != '\n') := by
      intro inside
      have front : c :: rest.takeWhile (· != '\n') <+: c :: rest :=
        (List.prefix_cons_inj c).mpr (List.takeWhile_prefix _)
      exact apart (inside.trans front.isInfix)
    have whole : Text.pieces '\n' (c :: rest) = (c :: rest.takeWhile (· != '\n')) :: others := by
      rw [Text.pieces, if_neg lineEnd, cut]
    rw [beforeNested, beforeNested, whole, cut, List.map_cons, List.map_cons, Text.join_cons, Text.join_cons,
      nestLine_cons inLine, breaking, List.append_assoc]

/-- Where no two opening braces stand side by side, a line ends behind exactly the opening braces that another
    one follows on the same line. -/
theorem beforeNested_eq_inContext {t : Text} (apart : ¬ ['{', '{'] <:+: t) (before : Text) :
    beforeNested t = Text.inContext breaking before t := by
  induction t generalizing before with
  | nil => rfl
  | cons c rest ih =>
    have later := ih fun inside => apart (List.infix_cons inside)
    rw [beforeNested_cons before apart, later (before ++ [c]), Text.inContext]

end Segment

/-! ### The lines of a segmented text -/

/-- Line ends bring no two opening braces side by side. -/
theorem apart_lineEnds {css : Text} (noBreak : '\n' ∉ css) (apart : ¬ ['{', '{'] <:+: css) :
    ¬ ['{', '{'] <:+: Segment.afterClosings (Segment.afterStatements css) := by
  have same : (Segment.afterClosings (Segment.afterStatements css)).filter (· != '\n') = css := by
    rw [filter_afterClosings rfl, filter_afterStatements rfl, List.filter_eq_self]
    intro c member
    have other : c ≠ '\n' := fun lineEnd => noBreak (lineEnd ▸ member)
    simpa using other
  rw [← same, Text.not_pair_iff] at apart
  rw [Text.not_pair_iff]
  refine (Text.isChain_of_filter apart).imp ?_
  rintro c d divided ⟨rfl, rfl⟩
  exact divided (by decide) (by decide) ⟨rfl, rfl⟩

theorem LineOf.count_le {row line : Text} (lineOf : LineOf row line) : line.count '{' ≤ 1 := by
  rcases lineOf with ⟨front, rfl, absent⟩ | ⟨_, _, single⟩
  · rw [List.count_append, List.count_eq_zero.mpr absent]
    simp
  · exact single

/-- A line of a segmented text opens one block at most. -/
theorem count_open_le {css line : Text} (noBreak : '\n' ∉ css) (apart : ¬ ['{', '{'] <:+: css)
    (member : line ∈ Text.pieces '\n' (Segment.segment css)) : line.count '{' ≤ 1 := by
  rw [pieces_segment] at member
  obtain ⟨row, inRows, inRow⟩ := List.mem_flatMap.mp member
  have rowApart : ¬ ['{', '{'] <:+: row := by
    obtain ⟨a, b, shape⟩ := Text.exists_of_mem_pieces inRows
    intro inside
    exact apart_lineEnds noBreak apart (inside.trans ⟨a, b, shape.symm⟩)
  by_cases none : row = []
  · subst none
    obtain rfl : line = [] := by simpa [Segment.nestLine, Text.pieces] using inRow
    simp
  · exact (lineOf_of_mem (lineText_of_mem_rows inRows).noBreak rowApart none line inRow).count_le

/-- Behind the closing brace of a line nothing follows. -/
theorem LineText.eq_nil_of_close {line a b : Text} (isLine : LineText line) (shape : line = a ++ '}' :: b) : b = [] := by
  obtain rfl | ⟨front, c, rfl⟩ := List.eq_nil_or_concat b
  · rfl
  · rw [shape, List.concat_eq_append, ← List.cons_append, ← List.append_assoc] at isLine
    exact absurd (by simp) isLine.not_mem_front

theorem LineText.count_close_le {line : Text} (isLine : LineText line) : line.count '}' ≤ 1 := by
  by_cases member : '}' ∈ line
  · obtain ⟨a, b, shape, absent⟩ := List.eq_append_cons_of_mem member
    rw [shape, isLine.eq_nil_of_close shape, List.count_append, List.count_eq_zero.mpr absent]
    simp
  · rw [List.count_eq_zero.mpr member]
    omega

/-- Without its line ends, the segmented form of a text on one line is the text. If no two opening braces stand
    side by side in it, a line has one opening and one closing brace at most, and a closing brace only at its
    end; and the lines are ended before nested rulesets behind exactly the opening braces that another one
    follows on the same line, in this text as in any other. -/
theorem segment_isolates_braces {css : Text} (noBreak : '\n' ∉ css) :
    (Segment.segment css).filter (· != '\n') = css ∧
      (¬ ['{', '{'] <:+: css →
        (∀ line ∈ Text.pieces '\n' (Segment.segment css),
          line.count '{' ≤ 1 ∧ line.count '}' ≤ 1 ∧ ∀ a b, line = a ++ '}' :: b → b = []) ∧
        Segment.segment css =
          Text.inContext Segment.breaking [] (Segment.afterClosings (Segment.afterStatements css))) ∧
      ∀ t, ¬ ['{', '{'] <:+: t → Segment.beforeNested t = Text.inContext Segment.breaking [] t := by
  refine ⟨filter_segment_eq noBreak, ?_, fun t apart => Segment.beforeNested_eq_inContext apart []⟩
  intro apart
  refine ⟨?_, Segment.beforeNested_eq_inContext (apart_lineEnds noBreak apart) []⟩
  intro line member
  have isLine := lineText_of_mem_pieces (closed_segment css) member
  exact ⟨count_open_le noBreak apart member, isLine.count_close_le, fun _ _ => isLine.eq_nil_of_close⟩

/-- Blocks inside of blocks, and a closing brace with text behind it. -/
def nestedBlocks : Text := ['a', '{', 'b', '{', 'c', '{', 'd', '}', 'e', '}', '}']

theorem segment_isolates_braces_nested :
    '\n' ∉ nestedBlocks ∧ ¬ ['{', '{'] <:+: nestedBlocks ∧
      Text.pieces '\n' (Segment.segment nestedBlocks) =
        [['a', '{'], ['b', '{'], ['c', '{', 'd', '}'], ['e', '}'], ['}'], []] ∧
      (['e', '}'].count '{' ≤ 1 ∧ ['e', '}'].count '}' ≤ 1) ∧
      Segment.segment nestedBlocks =
        Text.inContext Segment.breaking [] (Segment.afterClosings (Segment.afterStatements nestedBlocks)) := by
  have noBreak : '\n' ∉ nestedBlocks := by decide
  have apart : ¬ ['{', '{'] <:+: nestedBlocks := by decide
  have lines : Text.pieces '\n' (Segment.segment nestedBlocks) =
      [['a', '{'], ['b', '{'], ['c', '{', 'd', '}'], ['e', '}'], ['}'], []] := by decide
  obtain ⟨each, exactly⟩ := (segment_isolates_braces noBreak).2.1 apart
  have inside : ['e', '}'] ∈ Text.pieces '\n' (Segment.segment nestedBlocks) := by simp [lines]
  obtain ⟨opens, closes, _⟩ := each _ inside
  exact ⟨noBreak, apart, lines, ⟨opens, closes⟩, exactly⟩

end Stylepress.Css
