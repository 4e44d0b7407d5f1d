import Stylepress.Proofs.Lines
import Stylepress.Proofs.Nesting

/-!
The balance of braces in a pressed stylesheet. A line is whole if its braces are those of its shape.
Every line of a balanced stylesheet is whole, or has lost the opening of its closing brace (a
declaration behind a nested ruleset), or has its opening brace cut off from what the block holds (a
statement inside a block). A line of the second kind is left out with its brace, one of the third kind
is written as a statement and opens nothing for the depth; so the depth returns to zero and the written
braces balance exactly when every line is whole (`balanced_minify`).
-/
namespace Stylepress.Css

/-! ### Kinds of lines -/

/-- A line without braces, a closing brace alone, an opening, or a ruleset with both its braces. -/
def Whole (line : Text) : Prop :=
  braces line = [] ∨ line = ['}'] ∨ braces line = ['{'] ∧ line.getLast? = some '{' ∨
    braces line = ['{', '}'] ∧ line.getLast? = some '}'

/-- Something stands on a line before a closing brace that closes an earlier line. -/
def Lost (line : Text) : Prop :=
  braces line = ['}'] ∧ line.getLast? = some '}' ∧ line ≠ ['}']

/-- A line opens a block and ends with a statement inside it. -/
def Cut (line : Text) : Prop := braces line = ['{'] ∧ line.getLast? = some ';'

instance (line : Text) : Decidable (Whole line) := inferInstanceAs (Decidable (_ ∨ _ ∨ _ ∨ _))

instance (line : Text) : Decidable (Lost line) := inferInstanceAs (Decidable (_ ∧ _ ∧ _))

instance (line : Text) : Decidable (Cut line) := inferInstanceAs (Decidable (_ ∧ _))

theorem Whole.not_lost {line : Text} (whole : Whole line) : ¬ Lost line := by
  rintro ⟨closes, _, other⟩
  rcases whole with none | rfl | ⟨opens, _⟩ | ⟨both, _⟩
  · simp [closes] at none
  · exact other rfl
  · simp [closes] at opens
  · simp [closes] at both

theorem Whole.not_cut {line : Text} (whole : Whole line) : ¬ Cut line := by
  rintro ⟨opens, last⟩
  rcases whole with none | rfl | ⟨_, atEnd⟩ | ⟨both, _⟩
  · simp [opens] at none
  · cases last
  · simp [last] at atEnd
  · simp [opens] at both

theorem Lost.not_cut {line : Text} (lost : Lost line) : ¬ Cut line := by
  rintro ⟨_, last⟩
  simp [lost.2.1] at last

/-! ### How lines are recognised -/

theorem mem_braces {c : Char} (brace : isBrace c = true) {t : Text} : c ∈ braces t ↔ c ∈ t := by
  simp [braces, List.mem_filter, brace]

theorem not_mem_of_braces {c : Char} (brace : isBrace c = true) {t u : Text} (same : braces t = u)
    (absent : c ∉ u) : c ∉ t := by
  rwa [← mem_braces brace, same]

theorem braces_of_concat {u v : Text} {c : Char} (brace : isBrace c = true)
    (same : braces (u ++ [c]) = v ++ [c]) : braces u = v := by
  have one : braces [c] = [c] := by simp [braces, brace]
  rw [braces_append, one] at same
  exact List.append_cancel_right same

theorem eq_cons_of_startsWith {c : Char} {t : Text} (start : t.startsWith c = true) : ∃ rest, t = c :: rest := by
  simpa [Text.startsWith, List.head?_eq_some_iff] using start

theorem startsWith_of_not_mem {c : Char} {t : Text} (absent : c ∉ t) : t.startsWith c = false := by
  cases t with
  | nil => rfl
  | cons d t =>
    have other : d ≠ c := fun same => absent (by simp [same])
    simp [Text.startsWith, other]

theorem endsWith_eq {c d : Char} {t : Text} (last : t.getLast? = some d) : t.endsWith c = (d == c) := by
  rw [Text.endsWith, last]
  rfl

theorem ruleset?_of_not_mem {t : Text} (absent : '{' ∉ t) : Line.ruleset? t = none := by
  rw [Line.ruleset?, Text.splitFirst_eq_none_iff.mpr absent]

theorem eq_of_ruleset? {t selectors body : Text} (found : Line.ruleset? t = some (selectors, body)) :
    t = selectors ++ '{' :: body ++ ['}'] := by
  unfold Line.ruleset? at found
  split at found
  · cases found
  · next before behind opened =>
    split at found
    · next inside closed =>
      split at found
      · cases found
      · obtain ⟨rfl, rfl⟩ := Prod.mk.inj (Option.some.inj found)
        obtain ⟨_, rfl⟩ := Text.splitFirst_eq_some_iff.mp opened
        obtain ⟨_, rfl⟩ := Text.splitFirst_eq_some_iff.mp closed
        simp
    · cases found

/-- The shapes of a line, with what each of them says of its text. -/
theorem classify_cases (t : Text) :
    Line.classify t = .leaving t ∧ t.startsWith '}' = true ∨
      Line.classify t = .statement t ∧ t.endsWith ';' = true ∨
      (∃ header opened, Line.classify t = .opening header ∧ t = header ++ opened ++ ['{'] ∧
        ∀ c ∈ opened, c = '{') ∨
      (∃ selectors body, Line.classify t = .ruleset selectors body ∧ t = selectors ++ '{' :: body ++ ['}']) ∨
      Line.classify t = .stray t := by
  rw [Line.classify]
  split
  · next start => exact .inl ⟨rfl, start⟩
  · split
    · next last => exact .inr (.inl ⟨rfl, last⟩)
    · split
      · next last =>
        obtain ⟨front, rfl⟩ : ∃ front, t = front ++ ['{'] := by
          simpa [Text.endsWith, List.getLast?_eq_some_iff] using last
        obtain ⟨opened, shape, braces⟩ := Text.exists_dropEndWhile (· == '{') front
        have header : Text.dropEndWhile (· == '{') (front ++ ['{']) = Text.dropEndWhile (· == '{') front := by
          simp [Text.dropEndWhile]
        refine .inr (.inr (.inl ⟨_, opened, rfl, ?_, fun c member => eq_of_beq (braces c member)⟩))
        rw [header, ← shape]
      · split
        · next selectors body found => exact .inr (.inr (.inr (.inl ⟨selectors, body, rfl, eq_of_ruleset? found⟩)))
        · exact .inr (.inr (.inr (.inr rfl)))

/-- A line without braces is a statement or stray. -/
theorem classify_plain {t : Text} (none : braces t = []) :
    Line.classify t = .statement t ∨ Line.classify t = .stray t := by
  have absent : ∀ c, isBrace c = true → c ∉ t := fun c brace =>
    not_mem_of_braces brace none List.not_mem_nil
  have noOpenEnd : t.endsWith '{' = false := by
    cases last : t.getLast? with
    | none => simp [Text.endsWith, last]
    | some d =>
      rw [endsWith_eq last]
      refine beq_eq_false_iff_ne.mpr ?_
      rintro rfl
      exact absent '{' rfl (List.mem_of_getLast? last)
  rw [Line.classify, startsWith_of_not_mem (absent '}' rfl), noOpenEnd, ruleset?_of_not_mem (absent '{' rfl)]
  cases t.endsWith ';' with
  | true => exact .inl rfl
  | false => exact .inr rfl

/-- A line that ends with its only brace, an opening one, is the opening of a block. -/
theorem classify_opening {u : Text} (none : braces u = []) :
    Line.classify (u ++ ['{']) = .opening u := by
  have absent : ∀ c, isBrace c = true → c ∉ u := fun c brace =>
    not_mem_of_braces brace none List.not_mem_nil
  have noClose : '}' ∉ u ++ ['{'] := by simp [absent '}' rfl]
  have last : (u ++ ['{']).getLast? = some '{' := List.getLast?_concat
  have header : Text.dropEndWhile (· == '{') (u ++ ['{']) = u := by
    refine Text.dropEndWhile_append (by simp) ?_
    intro c atEnd
    refine beq_eq_false_iff_ne.mpr ?_
    rintro rfl
    exact absent '{' rfl (List.mem_of_getLast? atEnd)
  rw [Line.classify, startsWith_of_not_mem noClose, endsWith_eq last, endsWith_eq last, header]
  rfl

/-- A line that starts with no closing brace and ends with one is a ruleset or stray. -/
theorem classify_closed {t : Text} (start : t.startsWith '}' = false) (last : t.getLast? = some '}') :
    Line.classify t =
      match Line.ruleset? t with
      | some (selectors, body) => .ruleset selectors body
      | none => .stray t := by
  rw [Line.classify, start, endsWith_eq last, endsWith_eq last]
  rfl

theorem classify_cut {t : Text} (noClose : '}' ∉ t) (last : t.getLast? = some ';') :
    Line.classify t = .statement t := by
  rw [Line.classify, startsWith_of_not_mem noClose, endsWith_eq last]
  rfl

theorem exists_front {t : Text} {c : Char} (last : t.getLast? = some c) : ∃ front, t = front ++ [c] := by
  simpa [List.getLast?_eq_some_iff] using last

/-! ### What each kind of line adds -/

/-- A whole line is written with its braces, or left out with a pair of them or none; it climbs as far
    as its braces do. -/
theorem Whole.account {t : Text} (whole : Whole t) :
    (∀ depth, nesting depth (kept t) = nesting depth t) ∧ excess (kept t) = excess t ∧ climb t = excess t := by
  rcases whole with none | rfl | ⟨opens, last⟩ | ⟨both, last⟩
  · have still : excess t = 0 := excess_congr (u := []) none
    rcases classify_plain none with shape | shape
    · simp only [kept, climb, shape, Line.kept, Line.depthAfter, still, and_true, implies_true]
    · simp only [kept, climb, shape, Line.kept, Line.depthAfter, still, excess_nil, and_true]
      exact nesting_congr (t := []) none.symm
  · exact ⟨fun _ => rfl, rfl, rfl⟩
  · obtain ⟨u, rfl⟩ := exists_front last
    have shape := classify_opening (braces_of_concat (v := []) rfl opens)
    have one : excess (u ++ ['{']) = 1 := excess_congr (u := ['{']) opens
    simp only [kept, climb, shape, Line.kept, Line.depthAfter, one, Int.zero_add, and_true, implies_true]
  · have start : t.startsWith '}' = false := by
      rw [Bool.eq_false_iff]
      intro start
      obtain ⟨rest, rfl⟩ := eq_cons_of_startsWith start
      rw [braces_cons] at both
      cases both
    have still : excess t = 0 := excess_congr (u := ['{', '}']) both
    have shape := classify_closed start last
    cases found : Line.ruleset? t with
    | none =>
      -- The line is left out, and with it a pair of braces.
      simp only [found] at shape
      simp only [kept, climb, shape, Line.kept, Line.depthAfter, still, excess_nil, and_true]
      intro depth
      rw [nesting_congr (u := ['{', '}']) both, nesting_pair]
      rfl
    | some parts =>
      obtain ⟨selectors, body⟩ := parts
      simp only [found] at shape
      simp only [kept, climb, shape, Line.kept, Line.depthAfter, still, and_true,
        ← eq_of_ruleset? found, implies_true]

theorem Lost.account {t : Text} (lost : Lost t) : kept t = [] ∧ climb t = 0 ∧ excess t = -1 := by
  obtain ⟨closes, last, other⟩ := lost
  have start : t.startsWith '}' = false := by
    rw [Bool.eq_false_iff]
    intro start
    obtain ⟨rest, rfl⟩ := eq_cons_of_startsWith start
    have none : braces rest = [] := by
      rw [braces_cons] at closes
      exact (List.cons.inj closes).2
    cases rest with
    | nil => exact other rfl
    | cons d rest =>
      rw [List.getLast?_cons_cons] at last
      exact not_mem_of_braces rfl none List.not_mem_nil (List.mem_of_getLast? last)
  have shape := classify_closed start last
  rw [ruleset?_of_not_mem (not_mem_of_braces rfl closes (by decide))] at shape
  simp only [kept, climb, shape, Line.kept, Line.depthAfter, true_and]
  exact excess_congr (u := ['}']) closes

theorem Cut.account {t : Text} (cut : Cut t) : kept t = t ∧ climb t = 0 ∧ excess t = 1 := by
  obtain ⟨opens, last⟩ := cut
  have shape := classify_cut (not_mem_of_braces rfl opens (by decide)) last
  simp only [kept, climb, shape, Line.kept, Line.depthAfter, true_and]
  exact excess_congr (u := ['{']) opens

section
variable {ts : List Text}

theorem nesting_flatMap_kept (whole : ∀ t ∈ ts, Whole t) (depth : Nat) :
    nesting depth (ts.flatMap kept) = nesting depth ts.flatten := by
  induction ts generalizing depth with
  | nil => rfl
  | cons t ts ih =>
    have later := ih fun u member => whole u (by simp [member])
    rw [List.flatMap_cons, List.flatten_cons, nesting_append, nesting_append,
      (whole t (by simp)).account.1 depth]
    exact congrArg _ (funext later)

/-- Each line that lost its opening is one closing brace that is not written. -/
theorem excess_flatMap_kept (formed : ∀ t ∈ ts, Whole t ∨ Lost t ∨ Cut t) :
    excess (ts.flatMap kept) = excess ts.flatten + ts.countP (Lost ·) := by
  induction ts with
  | nil => rfl
  | cons t ts ih =>
    have later := ih fun u member => formed u (by simp [member])
    rw [List.flatMap_cons, List.flatten_cons, excess_append, excess_append, later]
    rcases formed t (by simp) with whole | lost | cut
    · rw [List.countP_cons_of_neg (by simpa using whole.not_lost), whole.account.2.1]
      omega
    · obtain ⟨gone, _, one⟩ := lost.account
      rw [List.countP_cons_of_pos (by simpa using lost), gone, one, excess_nil]
      omega
    · obtain ⟨same, _, _⟩ := cut.account
      rw [List.countP_cons_of_neg (by simpa using fun lost => Lost.not_cut lost cut), same]
      omega

/-- Each line that lost its opening leaves a block open for the depth, and each line whose opening is cut
    off opens none. -/
theorem sum_climb (formed : ∀ t ∈ ts, Whole t ∨ Lost t ∨ Cut t) :
    (ts.map climb).sum = excess ts.flatten + ts.countP (Lost ·) - ts.countP (Cut ·) := by
  induction ts with
  | nil => rfl
  | cons t ts ih =>
    have later := ih fun u member => formed u (by simp [member])
    rw [List.map_cons, List.sum_cons, List.flatten_cons, excess_append, later]
    rcases formed t (by simp) with whole | lost | cut
    · rw [List.countP_cons_of_neg (by simpa using whole.not_lost),
        List.countP_cons_of_neg (by simpa using whole.not_cut), whole.account.2.2]
      omega
    · obtain ⟨_, still, one⟩ := lost.account
      rw [List.countP_cons_of_pos (by simpa using lost),
        List.countP_cons_of_neg (by simpa using lost.not_cut), still, one]
      omega
    · obtain ⟨_, still, one⟩ := cut.account
      rw [List.countP_cons_of_neg (by simpa using fun lost => Lost.not_cut lost cut),
        List.countP_cons_of_pos (by simpa using cut), still, one]
      omega

/-- Lines that open as much as they close are whole if and only if they climb to zero and open as much as
    they close when they are written. -/
theorem whole_iff (formed : ∀ t ∈ ts, Whole t ∨ Lost t ∨ Cut t) (still : excess ts.flatten = 0) :
    (ts.map climb).sum = 0 ∧ excess (ts.flatMap kept) = 0 ↔ ∀ t ∈ ts, Whole t := by
  rw [sum_climb formed, excess_flatMap_kept formed, still]
  constructor
  · rintro ⟨zero, writtenZero⟩
    have noLost : ts.countP (Lost ·) = 0 := by omega
    have noCut : ts.countP (Cut ·) = 0 := by omega
    intro t member
    rcases formed t member with whole | lost | cut
    · exact whole
    · exact absurd lost (by simpa using List.countP_eq_zero.mp noLost t member)
    · exact absurd cut (by simpa using List.countP_eq_zero.mp noCut t member)
  · intro whole
    have noLost : ts.countP (Lost ·) = 0 :=
      List.countP_eq_zero.mpr fun t member => by simpa using (whole t member).not_lost
    have noCut : ts.countP (Cut ·) = 0 :=
      List.countP_eq_zero.mpr fun t member => by simpa using (whole t member).not_cut
    rw [noLost, noCut]
    exact ⟨rfl, rfl⟩

end

/-! ### The lines of a balanced stylesheet -/

theorem trim_concat (u : Text) {c : Char} (solid : Text.isBlank c = false) :
    Text.trim (u ++ [c]) = Text.trimStart u ++ [c] := by
  have start : ∀ d ∈ [c].head?, Text.isBlank d = false := by simpa using solid
  have last : ∀ d ∈ (Text.trimStart u ++ [c]).getLast?, Text.isBlank d = false := by
    rw [List.getLast?_concat]
    simpa using solid
  rw [Text.trim, Text.trimStart_append_of_head u start]
  simpa using Text.trimEnd_append (List.forall_mem_nil _) last

theorem braces_trim (t : Text) : braces (Text.trim t) = braces t :=
  Text.filter_trim (fun _ blank => isBrace_of_isSpacing (isSpacing_of_isBlank blank)) t

theorem braces_of_not_mem {t : Text} (noClose : '}' ∉ t) : braces t = List.replicate (t.count '{') '{' := by
  rw [← List.filter_beq, braces]
  refine List.filter_congr ?_
  intro c member
  have other : c ≠ '}' := fun same => noClose (same ▸ member)
  simp [isBrace, other]

/-- What trimming leaves of a line that ends with a mark. -/
theorem trimmed_mark (u : Text) {c : Char} (mark : Spacing.isMark c = true) :
    (Text.trim (u ++ [c])).getLast? = some c ∧ braces (Text.trim (u ++ [c])) = braces (u ++ [c]) := by
  rw [braces_trim, trim_concat u (Spacing.isBlank_of_isMark mark)]
  exact ⟨List.getLast?_concat, rfl⟩

theorem whole_of_opening {u : Text} (noOpen : '{' ∉ u) (noClose : '}' ∉ u) :
    Whole (Text.trim (u ++ ['{'])) := by
  obtain ⟨last, same⟩ := trimmed_mark u (c := '{') rfl
  have none : braces u = [] := by rw [braces_of_not_mem noClose, List.count_eq_zero.mpr noOpen]; rfl
  refine .inr (.inr (.inl ⟨?_, last⟩))
  rw [same, braces_append, none]
  rfl

/-- A line that ends with a semicolon or a closing brace and opens one block at most. -/
theorem formed_of_ended {u : Text} {c : Char} (noClose : '}' ∉ u) (ended : c = ';' ∨ c = '}')
    (single : (u ++ [c]).count '{' ≤ 1) :
    Whole (Text.trim (u ++ [c])) ∨ Lost (Text.trim (u ++ [c])) ∨ Cut (Text.trim (u ++ [c])) := by
  have front : braces u = [] ∨ braces u = ['{'] := by
    have few : u.count '{' ≤ 1 := by
      rw [List.count_append] at single
      omega
    rw [braces_of_not_mem noClose]
    obtain none | one : u.count '{' = 0 ∨ u.count '{' = 1 := by omega
    · exact .inl (by rw [none]; rfl)
    · exact .inr (by rw [one]; rfl)
  rcases ended with rfl | rfl
  · obtain ⟨last, same⟩ := trimmed_mark u (c := ';') rfl
    have whole : braces (Text.trim (u ++ [';'])) = braces u := by
      rw [same, braces_append]
      exact List.append_nil _
    rcases front with none | one
    · exact .inl (.inl (whole.trans none))
    · exact .inr (.inr ⟨whole.trans one, last⟩)
  · obtain ⟨last, same⟩ := trimmed_mark u (c := '}') rfl
    have whole : braces (Text.trim (u ++ ['}'])) = braces u ++ ['}'] := by
      rw [same, braces_append]
      rfl
    rcases front with none | one
    · rw [none] at whole
      by_cases alone : Text.trim (u ++ ['}']) = ['}']
      · exact .inl (.inr (.inl alone))
      · exact .inr (.inl ⟨whole, last, alone⟩)
    · rw [one] at whole
      exact .inl (.inr (.inr (.inr ⟨whole, last⟩)))

/-- Every line of a balanced stylesheet is whole, has lost its opening or has it cut off. -/
theorem formed_of_mem {css line : Text} (noBreak : '\n' ∉ css) (balanced : Balanced css) (headed : Headed css)
    (member : line ∈ lines (Segment.segment css)) : Whole line ∨ Lost line ∨ Cut line := by
  obtain ⟨filled, piece, inPieces, rfl⟩ := mem_lines.mp member
  have text : LineText piece := lineText_of_mem_pieces (closed_segment css) inPieces
  rw [pieces_segment] at inPieces
  obtain ⟨row, inRows, inRow⟩ := List.mem_flatMap.mp inPieces
  rcases mem_rows_cases noBreak inRows with rfl | ⟨front, c, rfl, ended⟩ | ⟨noClose, before, shape⟩
  · obtain rfl : piece = [] := by simpa [Segment.nestLine, Text.pieces] using inRow
    exact absurd rfl filled
  · have apart : ¬ ['{', '{'] <:+: front ++ [c] := by
      intro inside
      obtain ⟨a, b, shape⟩ := Text.exists_of_mem_pieces inRows
      refine headed.lineEnds.apart (inside.trans ?_)
      rw [shape]
      exact ⟨a, b, rfl⟩
    have lineOf := lineOf_of_mem (lineText_of_mem_rows inRows).noBreak apart (by simp) piece inRow
    rcases lineOf with ⟨u, rfl, noOpen⟩ | ⟨_, last, single⟩
    · exact .inl (whole_of_opening noOpen text.not_mem_front)
    · rw [List.getLast?_concat] at last
      obtain ⟨u, rfl⟩ := exists_front last
      exact formed_of_ended text.not_mem_front ended single
  · -- The end of the stylesheet closes nothing, so it opens nothing either.
    have lined : Balanced (before ++ row) := by
      rwa [Balanced, ← shape, nesting_congr (braces_afterClosings _), nesting_congr (braces_afterStatements _)]
    have noOpen := lined.not_mem_of_append noClose
    rw [nestLine_of_not_mem noOpen, Text.pieces_of_not_mem (lineText_of_mem_rows inRows).noBreak] at inRow
    obtain rfl := List.mem_singleton.mp inRow
    refine .inl (.inl ?_)
    rw [braces_trim, braces_of_not_mem noClose, List.count_eq_zero.mpr noOpen]
    rfl

/-! ### Pressed stylesheets -/

theorem solid_isBrace : Solid isBrace := fun _ blank => isBrace_of_isSpacing (isSpacing_of_isBlank blank)

/-- The lines of a text hold all of it that is not blank. -/
theorem filter_flatten_lines {p : Char → Bool} (solid : Solid p) (t : Text) :
    (lines t).flatten.filter p = t.filter p := by
  have each : ∀ ts : List Text,
      ((ts.map Text.trim).filter fun line => !line.isEmpty).flatten.filter p = ts.flatMap (List.filter p) := by
    intro ts
    induction ts with
    | nil => rfl
    | cons u ts ih =>
      rw [List.map_cons, List.flatMap_cons, ← ih, ← Text.filter_trim solid u, List.filter_cons]
      cases Text.trim u with
      | nil => rfl
      | cons c u => exact List.filter_append ..
  rw [lines, each, flatMap_filter_pieces (solid '\n' (by decide))]

theorem braces_flatten_lines (t : Text) : braces (lines t).flatten = braces t :=
  filter_flatten_lines solid_isBrace t

theorem output_nil (level : Level) : (layout level []).output = [] := by
  cases level <;> decide +kernel

/-- Above `off`, what is written before the token is what is laid out. -/
theorem minify_of_pressed {level : Level} (pressed : level ≠ .off) (source : Text) :
    minify source level = [] ∧ (layout level (Text.trim source)).output = [] ∨
      minify source level = Text.trimStart (layout level (Text.trim source)).output ++ Token.ofLevel level := by
  rw [minify]
  cases none : (Text.trim source).isEmpty with
  | true =>
    rw [List.isEmpty_iff.mp none]
    exact .inl ⟨rfl, output_nil level⟩
  | false => exact .inr (by simp [pressed, Token.trim_signed])

theorem minify_of_filled {source : Text} (filled : ∃ c ∈ source, Text.isBlank c = false) {level : Level}
    (pressed : level ≠ .off) :
    minify source level = Text.trimStart (layout level (Text.trim source)).output ++ Token.ofLevel level := by
  rcases minify_of_pressed pressed source with ⟨none, _⟩ | signed
  · obtain ⟨c, member, _⟩ := not_blank_minify filled level
    simp [none] at member
  · exact signed

theorem braces_minify {level : Level} (pressed : level ≠ .off) (source : Text) :
    braces (minify source level) = braces ((lines (segmented level (Text.trim source))).flatMap kept) := by
  have written : braces (layout level (Text.trim source)).output =
      braces ((lines (segmented level (Text.trim source))).flatMap kept) := filter_layoutOf solid_isBrace level _
  rw [← written]
  rcases minify_of_pressed pressed source with ⟨none, nothing⟩ | signed
  · rw [none, nothing]
  · have token : braces (Token.ofLevel level) = [] := by cases level <;> decide
    rw [signed, braces_append, token, List.append_nil]
    exact Text.filter_trimStart solid_isBrace _

/-- If every line is whole, the depth returns to zero and the written braces balance. For stylesheets
    with something before every opening brace this is the only way: a line that is not whole leaves the
    depth or the written braces out of balance. -/
theorem balanced_minify {source : Text} {level : Level} (pressed : level ≠ .off)
    (balanced : Balanced (Comment.strip source)) :
    ((∀ line ∈ lines (segmented level (Text.trim source)), Whole line) →
      (layout level (Text.trim source)).depth = 0 ∧ Balanced (minify source level)) ∧
    (Headed (Comment.strip source) →
      (layout level (Text.trim source)).depth = 0 ∧ Balanced (minify source level) →
      ∀ line ∈ lines (segmented level (Text.trim source)), Whole line) := by
  have settled : Balanced (Semicolon.settle level (clean (Text.trim source))) := balanced.clean.settle level
  have flattened : braces (lines (segmented level (Text.trim source))).flatten =
      braces (Semicolon.settle level (clean (Text.trim source))) := by
    rw [braces_flatten_lines, segmented, braces_segment]
  have still : excess (lines (segmented level (Text.trim source))).flatten = 0 :=
    (excess_congr flattened).trans settled.excess_eq
  have depth : (layout level (Text.trim source)).depth =
      ((lines (segmented level (Text.trim source))).map climb).sum := depth_layoutOf level _
  have written := braces_minify pressed source
  rw [depth]
  constructor
  · intro whole
    refine ⟨((whole_iff (fun line member => .inl (whole line member)) still).mpr whole).1, ?_⟩
    rw [Balanced, nesting_congr written, nesting_flatMap_kept whole, nesting_congr flattened]
    exact settled
  · rintro headed ⟨zero, output⟩
    have formed : ∀ line ∈ lines (segmented level (Text.trim source)), Whole line ∨ Lost line ∨ Cut line :=
      fun line => formed_of_mem (not_mem_settle (not_mem_clean _) level) settled (headed.clean.settle level)
    exact (whole_iff formed still).mp ⟨zero, (excess_congr written).symm.trans output.excess_eq⟩

/-- A block with a ruleset in it, and a ruleset behind the block. -/
def nestedSource : Text :=
  ['@', 'm', ' ', '{', 'a', '{', 'b', ':', 'c', '}', '}', '\n', 'd', '{', 'e', ':', 'f', '}']

theorem balanced_minify_nested :
    Balanced (Comment.strip nestedSource) ∧ Headed (Comment.strip nestedSource) ∧
      ((layout .low (Text.trim nestedSource)).depth = 0 ∧ Balanced (minify nestedSource .low)) ∧
      ∀ line ∈ lines (segmented .low (Text.trim nestedSource)), Whole line := by
  have balanced : Balanced (Comment.strip nestedSource) := by decide
  have headed : Headed (Comment.strip nestedSource) := by decide
  have whole : ∀ line ∈ lines (segmented .low (Text.trim nestedSource)), Whole line := by decide +kernel
  have result := balanced_minify (show Level.low ≠ .off by decide) balanced
  exact ⟨balanced, headed, result.1 whole, result.2 headed (result.1 whole)⟩

/-- A block with a declaration behind the ruleset in it. -/
def pageSource : Text :=
  ['@', 'p', 'a', 'g', 'e', '{', '@', 't', 'o', 'p', '-', 'l', 'e', 'f', 't', '{', 'a', ':', 'b', '}',
    'm', 'a', 'r', 'g', 'i', 'n', ':', '1', 'c', 'm', '}']

/-- The closing brace behind the declaration is lost at every level. -/
theorem not_balanced_page :
    Balanced (Comment.strip pageSource) ∧ Headed (Comment.strip pageSource) ∧
      ∀ level ∈ [Level.low, .medium, .high],
        (layout level (Text.trim pageSource)).depth = 1 ∧ ¬ Balanced (minify pageSource level) := by
  decide +kernel

end Stylepress.Css
