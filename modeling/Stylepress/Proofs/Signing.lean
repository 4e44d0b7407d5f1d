import Mathlib.Data.List.Chain
import Stylepress.Css.Minify
import Stylepress.Proofs.Tokens

/-!
The token at the end of a pressed text. Whatever the source holds, every line that is written ends
with a brace or a semicolon (`LineText.endsMark_lineText?`): a line that leaves a block is its closing brace
alone, because a line end follows every closing brace (`closed_segment`). So the text before the token
never ends with another one, and the token tells the level of the last run (`minify_signed`).
-/
namespace Stylepress.Css

/-! ### Closing braces -/

/-- Neighbours in a text with a line end behind every closing brace. -/
def EndsLine (c d : Char) : Prop := c = '}' → d = '\n'

theorem endsLine_of_ne {c : Char} (other : c ≠ '}') (d : Char) : EndsLine c d := fun same =>
  absurd same other

theorem closed_afterClosings (t : Text) : (Segment.afterClosings t).IsChain EndsLine := by
  induction t with
  | nil => exact .nil
  | cons c t ih =>
    rw [Segment.afterClosings]
    split
    · refine List.isChain_cons_cons.mpr ⟨fun _ => rfl, List.isChain_cons.mpr ⟨?_, ih⟩⟩
      exact fun d _ => endsLine_of_ne (by decide) d
    · next other => exact List.isChain_cons.mpr ⟨fun d _ => endsLine_of_ne other d, ih⟩

theorem head?_nestLine (t : Text) : (Segment.nestLine t).head? = t.head? := by
  fun_cases Segment.nestLine t <;> rfl

theorem closed_nestLine {t : Text} (closed : t.IsChain EndsLine) :
    (Segment.nestLine t).IsChain EndsLine := by
  fun_induction Segment.nestLine t with
  | case1 => exact closed
  | case2 c => exact closed
  | case3 d rest nested ih =>
    obtain ⟨behind, later⟩ := List.isChain_cons.mp closed.tail
    refine List.isChain_cons_cons.mpr ⟨endsLine_of_ne (by decide) _, ?_⟩
    refine List.isChain_cons_cons.mpr ⟨endsLine_of_ne (by decide) _, List.isChain_cons.mpr ⟨?_, ih later⟩⟩
    rwa [head?_nestLine]
  | case4 d rest _ => exact closed
  | case5 c d rest other ih =>
    obtain ⟨behind, later⟩ := List.isChain_cons.mp closed
    refine List.isChain_cons.mpr ⟨?_, ih later⟩
    rwa [head?_nestLine]

theorem closed_join {ts : List Text} (closed : ∀ t ∈ ts, t.IsChain EndsLine) :
    (Text.join ['\n'] ts).IsChain EndsLine := by
  fun_induction Text.join ['\n'] ts with
  | case1 => exact .nil
  | case2 last => exact closed last (by simp)
  | case3 first others _ ih =>
    have lineEnd : ∀ t : Text, t.IsChain EndsLine → ('\n' :: t).IsChain EndsLine := fun t later =>
      List.isChain_cons.mpr ⟨fun d _ => endsLine_of_ne (by decide) d, later⟩
    rw [List.append_assoc, List.isChain_append]
    refine ⟨closed first (by simp), lineEnd _ (ih fun t member => closed t (by simp [member])), ?_⟩
    intro c _ d start _
    exact (Option.some.inj start).symm

theorem closed_stretch {a t b : Text} (closed : (a ++ t ++ b).IsChain EndsLine) : t.IsChain EndsLine :=
  closed.left_of_append.right_of_append

/-- A line end follows every closing brace of a segmented text. -/
theorem closed_segment (css : Text) : (Segment.segment css).IsChain EndsLine := by
  refine closed_join ?_
  intro t member
  obtain ⟨u, inPieces, rfl⟩ := List.mem_map.mp member
  obtain ⟨a, b, shape⟩ := Text.exists_of_mem_pieces inPieces
  have closed := closed_afterClosings (Segment.afterStatements css)
  rw [shape] at closed
  exact closed_nestLine (closed_stretch closed)

/-- A line of a segmented text: on one line, and its only closing brace stands at its end. -/
structure LineText (t : Text) : Prop where
  noBreak : '\n' ∉ t
  closed : t.IsChain EndsLine

theorem LineText.trim {t : Text} (line : LineText t) : LineText (Text.trim t) := by
  obtain ⟨a, b, shape⟩ := Text.exists_trim t
  have closed := line.closed
  rw [shape] at closed
  refine ⟨?_, closed_stretch closed⟩
  intro member
  refine line.noBreak ?_
  rw [shape]
  simp [member]

theorem lineText_of_mem {css t : Text}
    (member : t ∈ Text.pieces '\n' (Text.trim (Segment.segment css))) : LineText t := by
  refine ⟨Text.not_mem_of_mem_pieces member, ?_⟩
  obtain ⟨a, b, shape⟩ := Text.exists_trim (Segment.segment css)
  obtain ⟨c, d, inside⟩ := Text.exists_of_mem_pieces member
  have closed := closed_segment css
  rw [shape] at closed
  have trimmed := closed_stretch closed
  rw [inside] at trimmed
  exact closed_stretch trimmed

/-- A line that starts with a closing brace is that brace alone. -/
theorem LineText.eq_of_startsWith {t : Text} (line : LineText t) (start : t.startsWith '}' = true) :
    t = ['}'] := by
  obtain ⟨rest, rfl⟩ : ∃ rest, t = '}' :: rest := by
    simpa [Text.startsWith, List.head?_eq_some_iff] using start
  cases rest with
  | nil => rfl
  | cons c rest =>
    have lineEnd := (List.isChain_cons_cons.mp line.closed).1 rfl
    exact absurd (by simp [lineEnd]) line.noBreak

/-! ### The end of the output -/

/-- A text that, blanks aside, ends with a brace or a semicolon. -/
def EndsMark (t : Text) : Prop :=
  ∃ front c blanks, t = front ++ c :: blanks ∧ Spacing.isMark c = true ∧
    ∀ b ∈ blanks, Text.isBlank b = true

theorem EndsMark.behind (a : Text) {b : Text} (ends : EndsMark b) : EndsMark (a ++ b) := by
  obtain ⟨front, c, blanks, rfl, mark, blank⟩ := ends
  exact ⟨a ++ front, c, blanks, by simp, mark, blank⟩

theorem endsMark_concat (front : Text) {c : Char} (mark : Spacing.isMark c = true) :
    EndsMark (front ++ [c]) := ⟨front, c, [], rfl, mark, by simp⟩

theorem endsMark_of_endsWith {t : Text} {c : Char} (mark : Spacing.isMark c = true)
    (last : t.endsWith c = true) : EndsMark t := by
  obtain ⟨front, rfl⟩ : ∃ front, t = front ++ [c] := by
    simpa [Text.endsWith, List.getLast?_eq_some_iff] using last
  exact endsMark_concat front mark

/-- Every line that is written ends with a brace or a semicolon. -/
theorem LineText.endsMark_lineText? {t u : Text} (line : LineText t) {level : Level} {depth : Int}
    (written : Layout.lineText? level depth (Line.classify t) = some u) : EndsMark u := by
  -- The shapes in the order in which a line is tried for them.
  rw [Line.classify] at written
  split at written
  · next start =>
    obtain rfl := Option.some.inj written
    rw [line.eq_of_startsWith start]
    exact endsMark_concat [] (by decide)
  · split at written
    · next last =>
      obtain rfl := Option.some.inj written
      exact endsMark_of_endsWith (by decide) last
    · split at written
      · obtain rfl := Option.some.inj written
        exact endsMark_concat _ (by decide)
      · split at written
        · obtain rfl := Option.some.inj written
          exact endsMark_concat _ (by decide)
        · cases written

theorem EndsMark.written {t : Text} (ends : EndsMark t) (level : Level) (depth : Int) :
    EndsMark (Layout.written level depth t) := by
  rw [Layout.written]
  split
  · obtain ⟨front, c, blanks, rfl, mark, blank⟩ := ends
    refine ⟨Layout.tabs depth ++ front, c, blanks ++ ['\n'], by simp, mark, ?_⟩
    intro b member
    rcases List.mem_append.mp member with inside | inside
    · exact blank b inside
    · obtain rfl := List.mem_singleton.mp inside
      decide
  · exact ends

/-- Lines laid out are nothing, or end with a brace or a semicolon. -/
theorem endsMark_ofLinesAt {lines : List Text} (each : ∀ t ∈ lines, LineText t) (level : Level)
    (depth : Int) :
    (Layout.ofLinesAt level depth lines).output = [] ∨
      EndsMark (Layout.ofLinesAt level depth lines).output := by
  induction lines generalizing depth with
  | nil => exact .inl rfl
  | cons line lines ih =>
    have later := ih (fun t member => each t (by simp [member]))
      ((Line.classify (Text.trim line)).depthAfter depth)
    rw [Layout.ofLinesAt]
    cases found : Layout.lineText? level depth (Line.classify (Text.trim line)) with
    | none => simpa only [found] using later
    | some t =>
      have here := (each line (by simp)).trim.endsMark_lineText? found
      dsimp only
      refine .inr ?_
      rcases later with none | ends
      · rw [none, List.append_nil]
        exact here.written level _
      · exact ends.behind _

theorem endsMark_layout (level : Level) (css : Text) :
    (layout level css).output = [] ∨ EndsMark (layout level css).output :=
  endsMark_ofLinesAt (fun _ => lineText_of_mem) level 0

/-! ### Signed texts -/

/-- A text that, blanks aside, does not end with a token. -/
def Unsigned (t : Text) : Prop := ∀ d, d.isDigit = true → ¬ Token.withDigit d <:+ Text.trimEnd t

theorem EndsMark.unsigned {t : Text} (ends : EndsMark t) : Unsigned t := by
  obtain ⟨front, c, blanks, rfl, mark, blank⟩ := ends
  rintro d _ ⟨before, same⟩
  have trimmed : Text.trimEnd (front ++ c :: blanks) = front ++ [c] := by
    have marked : ∀ e ∈ (front ++ [c]).getLast?, Text.isBlank e = false := by
      rw [List.getLast?_concat]
      rintro e ⟨⟩
      exact Spacing.isBlank_of_isMark mark
    simpa using Text.trimEnd_append blank marked
  have last := congrArg List.getLast? same
  rw [trimmed, List.getLast?_concat, List.getLast?_append] at last
  have slash : c = '/' := by simpa [Token.withDigit, Token.closer, eq_comm] using last
  subst slash
  exact absurd mark (by decide)

theorem unsigned_nil : Unsigned [] := by
  intro d _ signed
  have none : Token.withDigit d = [] := List.suffix_nil.mp signed
  simp [Token.withDigit] at none

theorem strip_of_unsigned {t : Text} (unsigned : Unsigned t) : Token.strip t = Text.trimEnd t := by
  have none : Token.back? t.reverse = none := by
    rw [Option.eq_none_iff_forall_ne_some]
    rintro ⟨d, before⟩ found
    obtain ⟨digit, shape⟩ := Token.back?_eq_some_iff.mp found
    refine unsigned d digit ⟨before.reverse, ?_⟩
    rw [Text.trimEnd, Text.dropEndWhile, ← Text.trimStart, shape, List.reverse_append, List.reverse_reverse]
  rw [Token.strip, Token.stripBack_of_none none]
  rfl

theorem unsigned_strip (css : Text) : Unsigned (Token.strip css ++ ['\n']) := by
  intro d digit
  rw [Text.trimEnd_append (List.forall_mem_singleton.mpr (by decide)) (Token.isBlank_last_strip css)]
  exact Token.not_token_suffix_strip css digit

theorem minify_of_blank {s : Text} (blank : ∀ c ∈ s, Text.isBlank c = true) (level : Level) :
    minify s level = [] := by
  rw [minify, Text.trim_eq_nil_iff.mpr blank]
  rfl

theorem exists_sign (css : Text) : ∃ r, sign css = r ++ Token.ofLevel .off ∧ Unsigned r := by
  rw [sign]
  cases none : (Token.strip css).isEmpty with
  | true => exact ⟨[], by simp, unsigned_nil⟩
  | false => exact ⟨Token.strip css ++ ['\n'], by simp, unsigned_strip css⟩

theorem EndsMark.trimStart {t : Text} (ends : EndsMark t) : EndsMark (Text.trimStart t) := by
  obtain ⟨front, c, blanks, rfl, mark, blank⟩ := ends
  refine ⟨Text.trimStart front, c, blanks, ?_, mark, blank⟩
  refine Text.trimStart_append_of_head front ?_
  rintro e ⟨⟩
  exact Spacing.isBlank_of_isMark mark

/-- A source that is not blank is signed once. -/
theorem exists_minify {s : Text} (filled : ∃ c ∈ s, Text.isBlank c = false) (level : Level) :
    ∃ r, minify s level = r ++ Token.ofLevel level ∧ Unsigned r := by
  have some : Text.trim s ≠ [] := by
    intro none
    obtain ⟨c, member, solid⟩ := filled
    simp [Text.trim_eq_nil_iff.mp none c member] at solid
  rw [minify]
  simp only [List.isEmpty_eq_false_iff.mpr some, Bool.false_eq_true, if_false]
  split
  · next combined =>
    rw [combined]
    exact exists_sign _
  · refine ⟨Text.trimStart (layout level (Text.trim s)).output, Token.trim_signed _ level, ?_⟩
    rcases endsMark_layout level (Text.trim s) with none | ends
    · rw [none]
      exact unsigned_nil
    · exact ends.trimStart.unsigned

/-- What a run leaves of a source that is not blank is not blank either. -/
theorem not_blank_minify {s : Text} (filled : ∃ c ∈ s, Text.isBlank c = false) (level : Level) :
    ∃ c ∈ minify s level, Text.isBlank c = false := by
  obtain ⟨r, same, _⟩ := exists_minify filled level
  rw [same]
  exact ⟨'/', by simp [Token.ofLevel, Token.withDigit, Token.opener], by decide⟩

theorem not_blank_foldl {s : Text} (filled : ∃ c ∈ s, Text.isBlank c = false) (levels : List Level) :
    ∃ c ∈ levels.foldl minify s, Text.isBlank c = false := by
  induction levels generalizing s with
  | nil => exact filled
  | cons level levels ih => exact ih (not_blank_minify filled level)

theorem levelOf?_minify {s : Text} (filled : ∃ c ∈ s, Text.isBlank c = false) (level : Level)
    {blanks : Text} (blank : ∀ c ∈ blanks, Text.isBlank c = true) :
    Token.levelOf? (minify s level ++ blanks) = some level := by
  obtain ⟨r, same, _⟩ := exists_minify filled level
  rw [same]
  exact Token.levelOf?_signed r level blank

/-- A blank source gives nothing. Any other one gives a text with exactly one token at its end, which
    reads back as the level also with blanks behind it; and in a sequence of runs the token is always
    that of the last one. -/
theorem minify_signed (s : Text) :
    ((∀ c ∈ s, Text.isBlank c = true) → ∀ level, minify s level = []) ∧
      ((∃ c ∈ s, Text.isBlank c = false) →
        (∀ level, ∃ r, minify s level = r ++ Token.ofLevel level ∧
          (∀ d, d.isDigit = true → ¬ Token.withDigit d <:+ Text.trimEnd r) ∧
          ∀ w, (∀ c ∈ w, Text.isBlank c = true) → Token.levelOf? (minify s level ++ w) = some level) ∧
        ∀ (levels : List Level) (k : Nat) (inside : k < levels.length),
          Token.levelOf? ((levels.take (k + 1)).foldl minify s) = some levels[k]) := by
  refine ⟨minify_of_blank, fun filled => ⟨?_, ?_⟩⟩
  · intro level
    obtain ⟨r, same, unsigned⟩ := exists_minify filled level
    exact ⟨r, same, unsigned, fun w => levelOf?_minify filled level⟩
  · intro levels k inside
    have earlier := not_blank_foldl filled (levels.take k)
    have last : Token.levelOf? (minify _ levels[k] ++ []) = some levels[k] :=
      levelOf?_minify earlier levels[k] (by simp)
    rw [List.take_succ_eq_append_getElem inside, List.foldl_append]
    simpa using last

theorem minify_signed_token :
    (∃ c ∈ '}' :: Token.withDigit '7', Text.isBlank c = false) ∧
      Token.levelOf? (([.high, .off, .medium].take 2).foldl minify ('}' :: Token.withDigit '7')) =
        some .off :=
  ⟨⟨'}', by simp, by decide⟩,
    ((minify_signed ('}' :: Token.withDigit '7')).2 ⟨'}', by simp, by decide⟩).2 _ 1 (by decide)⟩

end Stylepress.Css
