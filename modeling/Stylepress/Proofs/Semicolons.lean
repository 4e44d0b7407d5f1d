import Stylepress.Proofs.Agreement
import Stylepress.Proofs.Fragments

/-!
Semicolons before closing braces above `low`. They are dropped in one pass, so of several in a row all but
one stay (`divided_drop`). Laying a line out neither drops one nor brings one about: it is written behind
the last declaration of a ruleset whose body ends with it (`LineText.bounded`), and `high`, which writes no
line ends, also brings the semicolon of a statement to the closing line behind it (`redundant_iff`).
-/
namespace Stylepress.Css

/-- A semicolon right before a closing brace. -/
def Redundant (t : Text) : Prop := [';', '}'] <:+: t

instance (t : Text) : Decidable (Redundant t) := inferInstanceAs (Decidable (_ <:+: _))

/-- Neighbours that are not a semicolon and a closing brace. -/
def Divided (c d : Char) : Prop := ¬ (c = ';' ∧ d = '}')

theorem not_redundant_iff {t : Text} : ¬ Redundant t ↔ t.IsChain Divided := Text.not_pair_iff

theorem not_redundant_of_not_mem {t : Text} {c : Char} (part : c ∈ [';', '}']) (absent : c ∉ t) :
    ¬ Redundant t := fun found => absent (found.subset part)

theorem redundant_append_iff {t u : Text} :
    Redundant (t ++ u) ↔ Redundant t ∨ Redundant u ∨ (t.getLast? = some ';' ∧ u.head? = some '}') := by
  rw [← not_iff_not, not_or, not_or, not_redundant_iff, not_redundant_iff, not_redundant_iff,
    List.isChain_append]
  simp only [Divided, Option.mem_def]
  refine and_congr_right fun _ => and_congr_right fun _ => ⟨?_, ?_⟩
  · rintro apart ⟨last, first⟩
    exact apart ';' last '}' first ⟨rfl, rfl⟩
  · rintro apart c last d first ⟨rfl, rfl⟩
    exact apart ⟨last, first⟩

theorem redundant_append_left {t : Text} (none : ';' ∉ t) (u : Text) : Redundant (t ++ u) ↔ Redundant u := by
  have notLast : t.getLast? ≠ some ';' := fun last => none (List.mem_of_getLast? last)
  simp [redundant_append_iff, not_redundant_of_not_mem (by simp) none, notLast]

theorem redundant_append_right (t : Text) {u : Text} (none : '}' ∉ u) : Redundant (t ++ u) ↔ Redundant t := by
  have notFirst : u.head? ≠ some '}' := fun first => none (List.mem_of_mem_head? first)
  simp [redundant_append_iff, not_redundant_of_not_mem (by simp) none, notFirst]

/-- A line end stands between what comes before and behind it. -/
theorem redundant_append_cons (t u : Text) : Redundant (t ++ '\n' :: u) ↔ Redundant t ∨ Redundant u := by
  have behind : Redundant ('\n' :: u) ↔ Redundant u := redundant_append_left (t := ['\n']) (by decide) u
  simp [redundant_append_iff, behind]

theorem redundant_concat {t : Text} (noClose : '}' ∉ t) : Redundant (t ++ ['}']) ↔ t.getLast? = some ';' := by
  have alone : ¬ Redundant ['}'] := by decide
  simp [redundant_append_iff, not_redundant_of_not_mem (by simp) noClose, alone]

/-! ### Dropping -/

/-- Where dropping leaves no semicolon before a closing brace: the text has no two in a row there. -/
theorem divided_drop {t : Text} (single : ¬ [';', ';', '}'] <:+: t) : (Semicolon.drop t).IsChain Divided := by
  have later : ∀ {c : Char} {rest : Text}, ¬ [';', ';', '}'] <:+: c :: rest → ¬ [';', ';', '}'] <:+: rest :=
    fun single inside => single (List.infix_cons inside)
  fun_induction Semicolon.drop t with
  | case1 => exact .nil
  | case2 rest ih =>
    refine List.isChain_cons.mpr ⟨?_, ih (later (later single))⟩
    rintro d _ ⟨semicolon, _⟩
    exact absurd semicolon (by decide)
  | case3 c rest other ih =>
    refine List.isChain_cons.mpr ⟨?_, ih (later single)⟩
    rintro d first ⟨rfl, rfl⟩
    fun_cases Semicolon.drop rest with
    | case1 => cases first
    | case2 more => exact single ⟨[], more, rfl⟩
    | case3 d more kept =>
      rw [Semicolon.drop.eq_3 _ _ kept] at first
      obtain rfl := Option.some.inj first
      exact other more rfl rfl

/-! ### Blanks -/

theorem head?_of_head?_filter {t : Text} (snug : t.IsChain Snug)
    (first : (t.filter isSolid).head? = some '}') : t.head? = some '}' := by
  induction t with
  | nil => cases first
  | cons c t ih =>
    cases solid : isSolid c with
    | true => simpa [solid] using first
    | false =>
      -- A blank would stand before the closing brace.
      have next := ih snug.tail (by simpa [solid] using first)
      have none := (List.isChain_cons.mp snug).1 '}' next (by decide)
      simp [isSolid, none] at solid

theorem divided_filter {t : Text} (snug : t.IsChain Snug) (divided : t.IsChain Divided) :
    (t.filter isSolid).IsChain Divided := by
  induction t with
  | nil => exact .nil
  | cons c t ih =>
    have rest := ih snug.tail divided.tail
    rw [List.filter_cons]
    split
    · refine List.isChain_cons.mpr ⟨?_, rest⟩
      rintro d first ⟨rfl, rfl⟩
      exact (List.isChain_cons.mp divided).1 '}' (head?_of_head?_filter snug.tail first) ⟨rfl, rfl⟩
    · exact rest

/-- One line after the other, a stylesheet without two semicolons in a row before a closing brace has none
    there. -/
theorem divided_flatten_lines {css : Text} (single : ¬ [';', ';', '}'] <:+: clean css) :
    (lines (segmented .medium css)).flatten.IsChain Divided := by
  have settled : ((Semicolon.drop (clean css)).filter isSolid).IsChain Divided :=
    divided_filter (snug_drop_clean css) (divided_drop single)
  have same : (lines (segmented .medium css)).flatten.filter isSolid =
      (Semicolon.drop (clean css)).filter isSolid := by
    rw [filter_flatten_lines solid_isSolid, segmented, filter_segment (by decide)]
    rfl
  rw [← same] at settled
  refine (Text.isChain_of_filter settled).imp ?_
  rintro c d apart ⟨rfl, rfl⟩
  exact apart (by decide) (by decide) ⟨rfl, rfl⟩

/-! ### Lines -/

/-- Where the semicolons and closing braces of a written line can meet: inside of a ruleset whose body ends
    with a semicolon, behind a statement and before a line that leaves a block. -/
structure Line.Bounded (line : Line) : Prop where
  filled : line.text ≠ []
  inside : Redundant line.text ↔ ∃ selectors body, line = .ruleset selectors (body ++ [';'])
  last : line.text.getLast? = some ';' ↔ ∃ t, line = .statement t
  first : line.text.head? = some '}' ↔ ∃ t, line = .leaving t

/-- What is written of a body ends as the body does, because no blank stands before the closing brace. -/
theorem getLast?_trim_declarations {selectors body : Text}
    (snug : (selectors ++ '{' :: body ++ ['}']).IsChain Snug) :
    (Text.trim (Layout.declarations .medium 0 body)).getLast? = body.getLast? := by
  have solid : (Text.trim (Layout.declarations .medium 0 body)).getLast? = (body.filter isSolid).getLast? := by
    rw [Text.getLast?_trim]
    exact congrArg List.getLast? (filter_declarations solid_isSolid .medium 0 body)
  rw [solid]
  obtain rfl | ⟨front, c, rfl⟩ := List.eq_nil_or_concat body
  · rfl
  · have before : ((selectors ++ '{' :: front) ++ c :: '}' :: []).IsChain Snug := by simpa using snug
    have last : isSolid c = true := by
      simpa [isSolid] using (List.isChain_cons_cons.mp before.right_of_append).1 (by decide)
    simp [last]

theorem bounded_leaving : (Line.leaving ['}']).Bounded where
  filled := by decide
  inside := iff_of_false (by decide) (by simp)
  last := iff_of_false (by decide) (by simp)
  first := iff_of_true (by decide) ⟨_, rfl⟩

theorem bounded_statement {front : Text} (noClose : '}' ∉ front) : (Line.statement (front ++ [';'])).Bounded := by
  have text : (Line.statement (front ++ [';'])).text = front ++ [';'] := rfl
  have absent : '}' ∉ front ++ [';'] := by simpa using noClose
  constructor <;> rw [text]
  · simp
  · simpa using not_redundant_of_not_mem (by simp) absent
  · simp
  · simpa using fun first => absent (List.mem_of_mem_head? first)

theorem bounded_opening {header : Text} (noClose : '}' ∉ header) : (Line.opening header).Bounded := by
  have same : '}' ∈ (Line.opening header).text ↔ '}' ∈ header ++ ['{'] :=
    mem_iff_of_filter (by decide) fun p solid => filter_opening solid .medium header
  have absent : '}' ∉ (Line.opening header).text := by simpa [same] using noClose
  refine ⟨by simp [Line.text_opening], ?_, by simp [Line.text_opening], ?_⟩
  · simpa using not_redundant_of_not_mem (by simp) absent
  · simpa using fun first => absent (List.mem_of_mem_head? first)

theorem bounded_ruleset {selectors body : Text} (line : LineText (selectors ++ '{' :: body ++ ['}']))
    (snug : (selectors ++ '{' :: body ++ ['}']).IsChain Snug) : (Line.ruleset selectors body).Bounded := by
  have inSelectors : '}' ∈ Text.trim (Layout.respaceCommas [] selectors) ↔ '}' ∈ selectors := by
    refine mem_iff_of_filter (by decide) fun p solid => ?_
    rw [Text.filter_trim solid]
    exact filter_respaceCommas solid .medium selectors
  have inBody : '}' ∈ Text.trim (Layout.declarations .medium 0 body) ↔ '}' ∈ body := by
    refine mem_iff_of_filter (by decide) fun p solid => ?_
    rw [Text.filter_trim solid, filter_declarations solid]
  obtain ⟨front, text, some, noClose, ends⟩ : ∃ front, (Line.ruleset selectors body).text = front ++ ['}'] ∧
      front ≠ [] ∧ '}' ∉ front ∧ (front.getLast? = some ';' ↔ body.getLast? = some ';') := by
    refine ⟨_, Line.text_ruleset selectors body, by simp, ?_, ?_⟩
    · simpa [inSelectors, inBody] using line.not_mem_front
    · rw [← getLast?_trim_declarations snug, List.getLast?_append, List.getLast?_cons]
      cases (Text.trim (Layout.declarations .medium 0 body)).getLast? <;> simp
  constructor <;> rw [text]
  · simp
  · rw [redundant_concat noClose, ends, List.getLast?_eq_some_iff]
    simp
  · simp
  · rw [List.head?_append_of_ne_nil _ some]
    simpa using fun first => noClose (List.mem_of_mem_head? first)

/-- Every line that is not stray is bounded: its closing brace stands at its end only. -/
theorem LineText.bounded {t : Text} (line : LineText t) (snug : t.IsChain Snug)
    (written : (Line.classify t).isStray = false) : (Line.classify t).Bounded := by
  rcases classify_cases t with ⟨shape, start⟩ | ⟨shape, last⟩ | ⟨header, opened, shape, same, _⟩ |
    ⟨selectors, body, shape, same⟩ | shape
  · rw [shape, line.eq_of_startsWith start]
    exact bounded_leaving
  · obtain ⟨front, rfl⟩ := exists_front (by simpa [Text.endsWith] using last)
    rw [shape]
    exact bounded_statement line.not_mem_front
  · rw [same] at line
    rw [shape]
    exact bounded_opening fun member => line.not_mem_front (List.mem_append_left opened member)
  · rw [same] at line snug
    rw [shape]
    exact bounded_ruleset line snug
  · rw [shape] at written
    cases written

/-! ### Layout -/

theorem redundant_written (depth : Int) (t u : Text) :
    Redundant (Layout.written .medium depth t ++ u) ↔ Redundant t ∨ Redundant u := by
  have shape : Layout.written .medium depth t ++ u = Layout.tabs depth ++ (t ++ '\n' :: u) := by
    simp [Layout.written, Level.keepsLayout]
  rw [shape, redundant_append_left (Layout.not_mem_tabs (by decide) depth), redundant_append_cons]

/-- `medium` writes each line on its own. -/
theorem redundant_medium {ts : List Text} (trimmed : ∀ t ∈ ts, Text.Trimmed t) (depth : Int) :
    Redundant (Layout.ofLinesAt .medium depth ts).output ↔ ∃ line ∈ shapes ts, Redundant line.text := by
  induction ts generalizing depth with
  | nil => exact iff_of_false (show ¬ Redundant [] by decide) (by simp [shapes])
  | cons t ts ih =>
    obtain ⟨here, later⟩ := List.forall_mem_cons.mp trimmed
    have rest := ih later ((Line.classify t).depthAfter depth)
    rw [Layout.ofLinesAt, here.trim_eq, lineText?_text]
    cases stray : (Line.classify t).isStray with
    | true => simpa [shapes, stray] using rest
    | false => simpa [shapes, stray, redundant_written] using or_congr_right rest

/-- In lines one after the other, a semicolon and a closing brace meet inside of a line or where a line that
    leaves a block follows a statement. -/
theorem redundant_flatMap {ls : List Line} (bounded : ∀ line ∈ ls, line.Bounded) :
    Redundant (ls.flatMap Line.text) ↔ (∃ selectors body, .ruleset selectors (body ++ [';']) ∈ ls) ∨
      ∃ s t, [.statement s, .leaving t] <:+: ls := by
  induction ls with
  | nil => exact iff_of_false (by decide) (by simp)
  | cons line ls ih =>
    obtain ⟨here, later⟩ := List.forall_mem_cons.mp bounded
    have first : (ls.flatMap Line.text).head? = some '}' ↔ ∃ t, ls.head? = some (.leaving t) := by
      cases ls with
      | nil => simp
      | cons next more =>
        obtain ⟨following, _⟩ := List.forall_mem_cons.mp later
        rw [List.flatMap_cons, List.head?_append_of_ne_nil _ following.filled, following.first]
        simp
    have pair : (∃ s t, [.statement s, .leaving t] <:+: line :: ls) ↔
        (∃ s t, [.statement s, .leaving t] <:+: ls) ∨
          ((∃ s, line = .statement s) ∧ ∃ t, ls.head? = some (.leaving t)) := by
      constructor
      · rintro ⟨s, t, inside⟩
        rcases List.infix_cons_iff.mp inside with ⟨more, shape⟩ | later
        · obtain ⟨same, rfl⟩ := List.cons.inj shape
          exact .inr ⟨⟨s, same.symm⟩, t, rfl⟩
        · exact .inl ⟨s, t, later⟩
      · rintro (⟨s, t, inside⟩ | ⟨⟨s, rfl⟩, t, next⟩)
        · exact ⟨s, t, List.infix_cons inside⟩
        · obtain ⟨more, rfl⟩ := List.head?_eq_some_iff.mp next
          exact ⟨s, t, [], more, rfl⟩
    rw [List.flatMap_cons, redundant_append_iff, here.inside, ih later, here.last, first, pair]
    have member : (∃ selectors body, Line.ruleset selectors (body ++ [';']) ∈ line :: ls) ↔
        (∃ selectors body, line = .ruleset selectors (body ++ [';'])) ∨
          ∃ selectors body, Line.ruleset selectors (body ++ [';']) ∈ ls := by
      simp only [List.mem_cons, exists_or, eq_comm]
    rw [member, or_assoc, or_assoc]

/-! ### Shapes -/

theorem head?_of_leaving {t u : Text} (shape : Line.classify t = .leaving u) : t.head? = some '}' := by
  rcases classify_cases t with ⟨_, start⟩ | ⟨other, _⟩ | ⟨_, _, other, _⟩ | ⟨_, _, other, _⟩ | other
  · simpa [Text.startsWith] using start
  all_goals cases other.symm.trans shape

theorem getLast?_of_statement {t u : Text} (shape : Line.classify t = .statement u) : t.getLast? = some ';' := by
  rcases classify_cases t with ⟨other, _⟩ | ⟨_, last⟩ | ⟨_, _, other, _⟩ | ⟨_, _, other, _⟩ | other
  · cases other.symm.trans shape
  · simpa [Text.endsWith] using last
  all_goals cases other.symm.trans shape

theorem eq_of_ruleset {t selectors body : Text} (shape : Line.classify t = .ruleset selectors body) :
    t = selectors ++ '{' :: body ++ ['}'] := by
  rcases classify_cases t with ⟨other, _⟩ | ⟨other, _⟩ | ⟨_, _, other, _⟩ | ⟨_, _, same, whole⟩ | other
  · cases other.symm.trans shape
  · cases other.symm.trans shape
  · cases other.symm.trans shape
  · obtain ⟨rfl, rfl⟩ := Line.ruleset.inj (same.symm.trans shape)
    exact whole
  · cases other.symm.trans shape

/-! ### Pressing -/

theorem bounded_of_mem_writtenLines {source : Text} {line : Line} (member : line ∈ writtenLines source) :
    line.Bounded := by
  obtain ⟨inside, written⟩ := List.mem_filter.mp member
  obtain ⟨t, inLines, rfl⟩ := List.mem_map.mp inside
  have snug := isChain_of_mem_lines (not_mem_settle (not_mem_clean _) .medium)
    (snug_drop_clean (Text.trim source)) inLines
  exact (lineText_of_mem_lines inLines).bounded snug (by simpa using written)

/-- Only what is laid out decides about the pressed text: blanks at its start and the token make no
    difference. -/
theorem redundant_minify {level : Level} (pressed : level ≠ .off) (source : Text) :
    Redundant (minify source level) ↔ Redundant (layout level (Text.trim source)).output := by
  rcases minify_of_pressed pressed source with ⟨none, nothing⟩ | signed
  · rw [none, nothing]
  · have token : '}' ∉ Token.ofLevel level := by cases level <;> decide
    have start := List.takeWhile_append_dropWhile (p := Text.isBlank) (l := (layout level (Text.trim source)).output)
    have blanks : ';' ∉ (layout level (Text.trim source)).output.takeWhile Text.isBlank := fun member =>
      absurd (List.all_eq_true.mp List.all_takeWhile ';' member) (by decide)
    rw [signed, redundant_append_right _ token, ← redundant_append_left blanks]
    exact iff_of_eq (congrArg Redundant start)

/-- Without two semicolons in a row before a closing brace, no body ends with a semicolon, and no statement
    comes right before a line that leaves a block. -/
theorem redundant_free {css : Text} (single : ¬ [';', ';', '}'] <:+: clean css) :
    (∀ selectors body, .ruleset selectors (body ++ [';']) ∉ (lines (segmented .medium css)).map Line.classify) ∧
      ∀ s t, ¬ [.statement s, .leaving t] <:+: (lines (segmented .medium css)).map Line.classify := by
  have some : [] ∉ lines (segmented .medium css) := fun member => (mem_lines.mp member).1 rfl
  obtain ⟨each, neighbours⟩ := (List.isChain_flatten some).mp (divided_flatten_lines single)
  constructor
  · intro selectors body member
    obtain ⟨t, inLines, shape⟩ := List.mem_map.mp member
    refine not_redundant_iff.mpr (each t inLines) ⟨selectors ++ '{' :: body, [], ?_⟩
    simp [eq_of_ruleset shape]
  · rintro s t ⟨before, after, whole⟩
    have apart : ((lines (segmented .medium css)).map Line.classify).IsChain fun first second =>
        ¬ (first = .statement s ∧ second = .leaving t) := by
      rw [List.isChain_map]
      refine neighbours.imp ?_
      rintro first second divided ⟨statement, leaving⟩
      exact divided ';' (getLast?_of_statement statement) '}' (head?_of_leaving leaving) ⟨rfl, rfl⟩
    exact Text.not_pair_iff.mpr apart ⟨before, after, whole⟩

theorem redundant_medium_iff (source : Text) :
    Redundant (minify source .medium) ↔
      ∃ selectors body, .ruleset selectors (body ++ [';']) ∈ writtenLines source := by
  rw [redundant_minify (by decide), layout, output_layoutOf, redundant_medium fun t => trimmed_of_mem_lines]
  constructor
  · rintro ⟨line, member, redundant⟩
    obtain ⟨selectors, body, rfl⟩ := (bounded_of_mem_writtenLines member).inside.mp redundant
    exact ⟨selectors, body, member⟩
  · rintro ⟨selectors, body, member⟩
    exact ⟨_, member, (bounded_of_mem_writtenLines member).inside.mpr ⟨selectors, body, rfl⟩⟩

theorem redundant_high_iff (source : Text) :
    Redundant (minify source .high) ↔
      (∃ selectors body, .ruleset selectors (body ++ [';']) ∈ writtenLines source) ∨
        ∃ s t, [.statement s, .leaving t] <:+: writtenLines source := by
  rw [redundant_minify (by decide), output_layout_high]
  exact redundant_flatMap fun line => bounded_of_mem_writtenLines

/-- Above `low` a semicolon is left before a closing brace exactly where a ruleset that is written has a body
    that ends with one, and at `high` also where a line that leaves a block is written right behind a
    statement. A stylesheet in which no two semicolons come right before a closing brace has none at `medium`,
    and none at `high` if no line is left out. -/
theorem redundant_iff (source : Text) :
    (Redundant (minify source .medium) ↔
      ∃ selectors body, .ruleset selectors (body ++ [';']) ∈ writtenLines source) ∧
    (Redundant (minify source .high) ↔
      (∃ selectors body, .ruleset selectors (body ++ [';']) ∈ writtenLines source) ∨
        ∃ s t, [.statement s, .leaving t] <:+: writtenLines source) ∧
    (¬ [';', ';', '}'] <:+: clean (Text.trim source) →
      ¬ Redundant (minify source .medium) ∧
        ((∀ t ∈ lines (segmented .medium (Text.trim source)), (Line.classify t).isStray = false) →
          ¬ Redundant (minify source .high))) := by
  refine ⟨redundant_medium_iff source, redundant_high_iff source, ?_⟩
  intro single
  obtain ⟨noBody, noPair⟩ := redundant_free single
  have noRuleset : ¬ ∃ selectors body, .ruleset selectors (body ++ [';']) ∈ writtenLines source := by
    rintro ⟨selectors, body, member⟩
    exact noBody selectors body (List.mem_of_mem_filter member)
  refine ⟨fun redundant => noRuleset ((redundant_medium_iff source).mp redundant), ?_⟩
  intro noStray redundant
  -- Without stray lines, lines that are written side by side stand side by side.
  have all : writtenLines source = (lines (segmented .medium (Text.trim source))).map Line.classify := by
    rw [writtenLines, shapes, List.filter_eq_self]
    intro line member
    obtain ⟨t, inLines, rfl⟩ := List.mem_map.mp member
    simp [noStray t inLines]
  rcases (redundant_high_iff source).mp redundant with inside | ⟨s, t, pair⟩
  · exact noRuleset inside
  · rw [all] at pair
    exact noPair s t pair

/-- A statement, and a block with a semicolon behind the only declaration of its ruleset. -/
def singleSource : Text :=
  ['@', 'i', 'm', 'p', 'o', 'r', 't', ' ', 'i', ';', 'x', '{', 'a', '{', 'b', ':', 'c', ' ', ';', ' ', '}', '}']

theorem redundant_iff_single :
    ¬ [';', ';', '}'] <:+: clean (Text.trim singleSource) ∧
      (∀ t ∈ lines (segmented .medium (Text.trim singleSource)), (Line.classify t).isStray = false) ∧
      ¬ Redundant (minify singleSource .medium) ∧ ¬ Redundant (minify singleSource .high) := by
  have single : ¬ [';', ';', '}'] <:+: clean (Text.trim singleSource) := by decide +kernel
  have noStray : ∀ t ∈ lines (segmented .medium (Text.trim singleSource)), (Line.classify t).isStray = false := by
    decide +kernel
  obtain ⟨medium, high⟩ := (redundant_iff singleSource).2.2 single
  exact ⟨single, noStray, medium, high noStray⟩

/-- A ruleset with two semicolons behind its declaration. -/
def doubledSource : Text := ['a', '{', 'b', ':', 'c', ';', ';', '}']

/-- A block with a line of no shape between a statement and the end of the block. -/
def partedSource : Text :=
  ['v', '{', 'w', '{', 'x', '{', 'a', ':', 'b', '}', '@', 'i', 'm', 'p', 'o', 'r', 't', ' ', 'y', ';', 'z', '}', '}']

/-- Of two semicolons one stays, and `high` brings one to a brace that a line left out stood before. -/
theorem redundant_doubled :
    Redundant (minify doubledSource .medium) ∧ Redundant (minify doubledSource .high) ∧
      Redundant (minify partedSource .high) := by
  decide +kernel

end Stylepress.Css
