import Mathlib.Data.List.Infix
import Stylepress.Proofs.Balance
import Stylepress.Proofs.Plain.Segmentation

/-!
What the levels agree on. `medium` and `high` lay the same lines out, so they differ in white space only.
The lines of `low` are those of `high` with a semicolon before each closing brace that no other one
comes right before (`restore_eq_terminate`), as long as no statement is the last thing in its block
(`afterStatements_terminate`); and a line is recognised with that semicolon as without it, unless the
semicolon is all that its body holds (`filter_kept_closed`).
-/
namespace Stylepress.Css

/-! ### Semicolons -/

/-- A text with a semicolon before every closing brace that no closing brace comes right before; `closed`
    tells whether one stands before the text. -/
def terminate (closed : Bool) : Text → Text
  | [] => []
  | c :: rest =>
    if c = '}' then
      if closed then '}' :: terminate true rest else ';' :: '}' :: terminate true rest
    else c :: terminate false rest

theorem terminate_of_not_mem (closed : Bool) {t : Text} (noClose : '}' ∉ t) : terminate closed t = t := by
  induction t generalizing closed with
  | nil => rfl
  | cons c t ih =>
    have other : c ≠ '}' := fun same => noClose (by simp [same])
    rw [terminate, if_neg other, ih false fun member => noClose (by simp [member])]

theorem terminate_append (closed : Bool) {t : Text} (noClose : '}' ∉ t) (filled : t ≠ []) (rest : Text) :
    terminate closed (t ++ rest) = t ++ terminate false rest := by
  induction t generalizing closed with
  | nil => exact absurd rfl filled
  | cons c t ih =>
    have other : c ≠ '}' := fun same => noClose (by simp [same])
    rw [List.cons_append, terminate, if_neg other]
    cases t with
    | nil => rfl
    | cons d t => rw [ih false (fun member => noClose (List.mem_cons_of_mem c member)) (by simp)]; rfl

theorem restoreFrom_eq_terminate {ended closed : Bool} {css : Text}
    (same : css.head? = some '}' → ended = closed) (behind : closed = true → ¬ [';', '}'] <+: css)
    (apart : ¬ ['}', ';', '}'] <:+: css) :
    Semicolon.restoreFrom ended css = terminate closed (Semicolon.drop css) := by
  -- Both go on alike behind a closing brace, and behind a semicolon that stays.
  have later : ∀ {c : Char} {rest : Text}, ¬ ['}', ';', '}'] <:+: c :: rest → ¬ ['}', ';', '}'] <:+: rest :=
    fun apart inside => apart (List.infix_cons inside)
  have next : ∀ {rest : Text}, ¬ ['}', ';', '}'] <:+: '}' :: rest → ¬ [';', '}'] <+: rest := by
    rintro rest apart ⟨more, rfl⟩
    exact apart ⟨[], more, rfl⟩
  fun_induction Semicolon.drop css generalizing ended closed with
  | case1 => rfl
  | case2 rest ih =>
    have opened : closed = false := by
      rw [Bool.eq_false_iff]
      exact fun isClosed => behind isClosed ⟨rest, rfl⟩
    have same : Semicolon.restoreFrom true rest = terminate true (Semicolon.drop rest) :=
      ih (fun _ => rfl) (fun _ => next (later apart)) (later (later apart))
    simp [Semicolon.restoreFrom, terminate, opened, same]
  | case3 c rest other ih =>
    by_cases close : c = '}'
    · subst close
      have inRest : Semicolon.restoreFrom true rest = terminate true (Semicolon.drop rest) :=
        ih (fun _ => rfl) (fun _ => next apart) (later apart)
      rw [Semicolon.restoreFrom, terminate, if_pos rfl, if_pos rfl, same rfl, inRest]
    · have notEnded : rest.head? = some '}' → (c == ';') = false := by
        intro first
        obtain ⟨more, rfl⟩ := List.head?_eq_some_iff.mp first
        exact beq_eq_false_iff_ne.mpr fun semicolon => other more semicolon rfl
      have inRest := ih notEnded (by simp) (later apart)
      rw [Semicolon.restoreFrom, terminate, if_neg close, if_neg close, inRest]

/-- The text of `low` is that of the levels above it with its closing braces terminated. -/
theorem restore_eq_terminate {css : Text} (apart : ¬ ['}', ';', '}'] <:+: css) :
    Semicolon.restore css = terminate false (Semicolon.drop css) :=
  restoreFrom_eq_terminate (fun _ => rfl) (by simp) apart

/-! ### Statements -/

/-- Whether a statement at the head of a text, if there is one, holds no brace and ends before a closing
    brace comes; one that nothing ends has to be the end of the stylesheet. -/
def statementEnds : Text → Bool
  | '@' :: rest =>
    match Segment.statementNames.find? (·.isPrefixOf rest) with
    | none => true
    | some name =>
      match Text.splitFirst ';' (rest.drop name.length) with
      | none => !rest.contains '}'
      | some (body, more) => (braces body).isEmpty && !more.startsWith '}'
  | _ => true

/-- Every statement ends outside of braces and is not the last thing in a block. -/
def Ended (css : Text) : Prop := ∀ t ∈ css.tails, statementEnds t = true

instance (css : Text) : Decidable (Ended css) := inferInstanceAs (Decidable (∀ t ∈ css.tails, _))

theorem Ended.of_suffix {css t : Text} (ended : Ended css) (suffix : t <:+ css) : Ended t := by
  intro u member
  rw [List.mem_tails] at member
  exact ended u ((List.mem_tails ..).mpr (member.trans suffix))

/-- How a statement of such a stylesheet goes on behind its name. -/
theorem Ended.statement {name rest : Text} (named : name ∈ Segment.statementNames)
    (ended : Ended ('@' :: (name ++ rest))) :
    ';' ∉ rest ∧ '}' ∉ name ++ rest ∨
      ∃ body more, ';' ∉ body ∧ '}' ∉ body ∧ more.head? ≠ some '}' ∧ rest = body ++ ';' :: more := by
  have here : statementEnds ('@' :: (name ++ rest)) = true := ended _ ((List.mem_tails ..).mpr List.suffix_rfl)
  simp only [statementEnds, find?_statementNames named, List.drop_left] at here
  split at here
  · next open? => exact .inl ⟨Text.splitFirst_eq_none_iff.mp open?, by simpa using here⟩
  · next body more found =>
    obtain ⟨absent, rfl⟩ := Text.splitFirst_eq_some_iff.mp found
    rw [Bool.and_eq_true, List.isEmpty_iff, Bool.not_eq_true'] at here
    refine .inr ⟨body, more, absent, not_mem_of_braces rfl here.1 List.not_mem_nil, ?_, rfl⟩
    intro first
    simp [Text.startsWith, first] at here

theorem not_mem_statementName {name : Text} (named : name ∈ Segment.statementNames) {c : Char}
    (mark : Spacing.isMark c = true) : c ∉ name := by
  simp only [Spacing.isMark, Bool.or_eq_true, beq_iff_eq] at mark
  simp only [Segment.statementNames, List.mem_cons, List.not_mem_nil, or_false] at named
  rcases mark with (rfl | rfl) | rfl <;> rcases named with rfl | rfl | rfl <;> decide

/-- Terminating makes no text without marks appear. -/
theorem isPrefix_of_terminate {word t : Text} {closed : Bool} (noClose : '}' ∉ word) (noSemicolon : ';' ∉ word)
    (inFront : word <+: terminate closed t) : word <+: t := by
  induction t generalizing word closed with
  | nil => exact inFront
  | cons c t ih =>
    cases word with
    | nil => exact List.nil_prefix
    | cons d word =>
      rw [terminate] at inFront
      split at inFront
      · split at inFront
        · exact absurd (by simp [(List.cons_prefix_cons.mp inFront).1]) noClose
        · exact absurd (by simp [(List.cons_prefix_cons.mp inFront).1]) noSemicolon
      · obtain ⟨rfl, later⟩ := List.cons_prefix_cons.mp inFront
        refine List.cons_prefix_cons.mpr ⟨rfl, ?_⟩
        exact ih (fun member => noClose (by simp [member])) (fun member => noSemicolon (by simp [member])) later

/-- What the pass over statements does at the head of such a stylesheet: it copies a character, with and
    without terminating; it leaves all that is left; or it ends a line behind a statement. -/
theorem Ended.step {c : Char} {rest : Text} (ended : Ended (c :: rest)) :
    (Segment.statement? (c :: rest) = none ∧ Segment.statement? (c :: terminate false rest) = none) ∨
      (Segment.afterStatements (c :: rest) = c :: rest ∧ '}' ∉ c :: rest) ∨
      ∃ front more, c :: rest = front ++ more ∧ front ≠ [] ∧ '}' ∉ front ∧ more.head? ≠ some '}' ∧
        ∀ t, Segment.afterStatements (front ++ t) = front ++ '\n' :: Segment.afterStatements t := by
  by_cases start : c = '@'
  · subst start
    by_cases hasName : ∃ name ∈ Segment.statementNames, name <+: rest
    · obtain ⟨name, named, behind, rfl⟩ := hasName
      have noClose : '}' ∉ name := not_mem_statementName named (by decide)
      rcases ended.statement named with ⟨noSemicolon, noBrace⟩ | ⟨body, more, absent, noBrace, next, rfl⟩
      · exact .inr (.inl ⟨afterStatements_open named noSemicolon, by simpa using noBrace⟩)
      · by_cases bare : body = []
        · subst bare
          have stays : terminate false (name ++ [';'] ++ more) = name ++ [';'] ++ terminate false more :=
            terminate_append false (by simpa using noClose) (by simp) more
          refine .inl ⟨statement?_bare named more, ?_⟩
          simp only [List.append_assoc, List.singleton_append] at stays
          rw [List.nil_append, stays]
          exact statement?_bare named _
        · refine .inr (.inr ⟨'@' :: (name ++ (body ++ [';'])), more, by simp, by simp, ?_, next, ?_⟩)
          · simp [noClose, noBrace]
          · intro t
            simpa using afterStatements_ended named bare absent t
    · have unnamed : ∀ name ∈ Segment.statementNames, ¬ name <+: rest := fun name named inFront =>
        hasName ⟨name, named, inFront⟩
      refine .inl ⟨statement?_of_unnamed unnamed, statement?_of_unnamed ?_⟩
      intro name named inFront
      exact unnamed name named (isPrefix_of_terminate (not_mem_statementName named (by decide))
        (not_mem_statementName named (by decide)) inFront)
  · exact .inl ⟨Plain.statement?_of_ne start _, Plain.statement?_of_ne start _⟩

/-- Induction along the pass over statements. -/
theorem Ended.induction {motive : Text → Prop} (nil : motive [])
    (copy : ∀ c rest, Segment.statement? (c :: rest) = none →
      Segment.statement? (c :: terminate false rest) = none → motive rest → motive (c :: rest))
    (stay : ∀ t, Segment.afterStatements t = t → '}' ∉ t → motive t)
    (cut : ∀ front more, front ≠ [] → '}' ∉ front → more.head? ≠ some '}' →
      (∀ t, Segment.afterStatements (front ++ t) = front ++ '\n' :: Segment.afterStatements t) →
      motive more → motive (front ++ more))
    {css : Text} (ended : Ended css) : motive css := by
  induction size : css.length using Nat.strong_induction_on generalizing css with
  | _ n ih =>
    cases css with
    | nil => exact nil
    | cons c rest =>
      rcases ended.step with
        ⟨none, noneAfter⟩ | ⟨same, noClose⟩ | ⟨front, more, shape, some, noClose, next, same⟩
      · refine copy c rest none noneAfter (ih rest.length ?_ (ended.of_suffix (List.suffix_cons c rest)) rfl)
        simp [← size]
      · exact stay _ same noClose
      · rw [shape] at ended size ⊢
        refine cut front more some noClose next same
          (ih more.length ?_ (ended.of_suffix (List.suffix_append front more)) rfl)
        have longer : 0 < front.length := List.length_pos_iff.mpr some
        rw [← size, List.length_append]
        omega

/-- Terminating a stylesheet leaves its statements where they are. -/
theorem afterStatements_terminate {css : Text} (ended : Ended css) (closed : Bool) :
    Segment.afterStatements (terminate closed css) = terminate closed (Segment.afterStatements css) := by
  refine Ended.induction (motive := fun css => ∀ closed, Segment.afterStatements (terminate closed css) =
    terminate closed (Segment.afterStatements css)) (fun _ => rfl) ?_ ?_ ?_ ended closed
  · intro c rest none noneAfter ih closed
    rw [afterStatements_cons none]
    by_cases close : c = '}'
    · subst close
      have copied : ∀ {d : Char} {t : Text}, d ≠ '@' →
          Segment.afterStatements (d :: t) = d :: Segment.afterStatements t := fun other =>
        afterStatements_cons (Plain.statement?_of_ne other _)
      cases closed <;> simp [terminate, copied, ih]
    · rw [terminate, if_neg close, afterStatements_cons noneAfter, ih, terminate, if_neg close]
  · intro t same noClose closed
    rw [terminate_of_not_mem closed noClose, same, terminate_of_not_mem closed noClose]
  · intro front more some noClose _ cut ih closed
    rw [terminate_append closed noClose some, cut, cut, ih, terminate_append closed noClose some]
    rfl

/-! ### What stands before a closing brace -/

/-- Neighbours in a text in which no blank and no opening brace comes right before a closing one. -/
def Filled (c d : Char) : Prop := d = '}' → Text.isBlank c = false ∧ c ≠ '{'

/-- Line ends behind statements come before no closing brace. -/
theorem filled_afterStatements {css : Text} (ended : Ended css) (filled : css.IsChain Filled) :
    (Segment.afterStatements css).IsChain Filled := by
  refine Ended.induction (motive := fun css => css.IsChain Filled →
    (Segment.afterStatements css).IsChain Filled) (fun _ => .nil) ?_ ?_ ?_ ended filled
  · intro c rest none _ ih filled
    obtain ⟨first, later⟩ := List.isChain_cons.mp filled
    rw [afterStatements_cons none]
    refine List.isChain_cons.mpr ⟨?_, ih later⟩
    rwa [head?_afterStatements]
  · intro t same _ filled
    rwa [same]
  · intro front more _ _ next cut ih filled
    have start : ∀ d ∈ (Segment.afterStatements more).head?, Filled '\n' d := by
      rintro d first rfl
      rw [head?_afterStatements] at first
      exact absurd first next
    rw [cut]
    refine List.isChain_append.mpr
      ⟨filled.left_of_append, List.isChain_cons.mpr ⟨start, ih filled.right_of_append⟩, ?_⟩
    rintro d _ e first rfl
    cases first

/-! ### Lines with and without the semicolon -/

/-- A character that is neither blank nor a semicolon. -/
def isEssential (c : Char) : Bool := !Text.isBlank c && c != ';'

theorem solid_isEssential : Solid isEssential := by
  intro c blank
  simp [isEssential, blank]

theorem startsWith_append {t : Text} (some : t ≠ []) (u : Text) (c : Char) :
    Text.startsWith (t ++ u) c = t.startsWith c := by
  obtain ⟨d, t, rfl⟩ := List.exists_cons_of_ne_nil some
  rfl

theorem ruleset?_closed {selectors body : Text} (noOpen : '{' ∉ selectors) (noClose : '}' ∉ body)
    (filled : body ≠ []) :
    Line.ruleset? (selectors ++ '{' :: (body ++ ['}'])) =
      if selectors.isEmpty then none else some (selectors, body) := by
  rw [Line.ruleset?, Text.splitFirst_append noOpen]
  simp only [Text.splitFirst_append noClose, List.isEmpty_eq_false_iff.mpr filled, Bool.or_false]

/-- A closed line that does not end with its opening brace is written alike with a semicolon before its
    closing brace and without. -/
theorem filter_kept_closed {t : Text} {c : Char} (last : t.getLast? = some c) (notOpen : c ≠ '{')
    (noClose : '}' ∉ t) :
    (kept (t ++ [';'] ++ ['}'])).filter isEssential = (kept (t ++ ['}'])).filter isEssential := by
  have some : t ≠ [] := by
    rintro rfl
    cases last
  have start : ∀ u, Text.startsWith (t ++ u) '}' = false := fun u => by
    rw [startsWith_append some, startsWith_of_not_mem noClose]
  have shape : Line.classify (t ++ ['}']) = _ := classify_closed (start _) List.getLast?_concat
  have shapeEnded : Line.classify (t ++ [';'] ++ ['}']) = _ :=
    classify_closed (by rw [List.append_assoc]; exact start _) List.getLast?_concat
  rw [kept, kept, shape, shapeEnded]
  by_cases opened : '{' ∈ t
  · obtain ⟨selectors, body, rfl, noOpen⟩ := List.eq_append_cons_of_mem opened
    have filled : body ≠ [] := by
      rintro rfl
      rw [List.getLast?_concat] at last
      exact notOpen (Option.some.inj last).symm
    have inBody : '}' ∉ body := fun member => noClose (by simp [member])
    have regroup : selectors ++ '{' :: body ++ ['}'] = selectors ++ '{' :: (body ++ ['}']) := by simp
    have regroupEnded : selectors ++ '{' :: body ++ [';'] ++ ['}'] =
        selectors ++ '{' :: ((body ++ [';']) ++ ['}']) := by simp
    rw [regroup, regroupEnded, ruleset?_closed noOpen inBody filled,
      ruleset?_closed noOpen (by simpa using inBody) (by simp)]
    cases selectors.isEmpty with
    | true => rfl
    | false =>
      have dropped : isEssential ';' = false := by decide
      simp [Line.kept, List.filter_cons, dropped]
  · rw [ruleset?_of_not_mem (by simpa using opened), ruleset?_of_not_mem (by simpa using opened)]
    rfl

theorem nestLine_append_right (t : Text) {u : Text} (noOpen : '{' ∉ u) :
    Segment.nestLine (t ++ u) = Segment.nestLine t ++ u := by
  fun_induction Segment.nestLine t with
  | case1 => exact nestLine_of_not_mem noOpen
  | case2 c =>
    by_cases brace : c = '{'
    · rw [brace]
      exact Plain.nestLine_single List.not_mem_nil noOpen
    · exact nestLine_of_not_mem (by simp [Ne.symm brace, noOpen])
  | case3 d rest nested ih =>
    have still : (rest ++ u).contains '{' = true := by simp_all
    rw [List.cons_append, List.cons_append, Segment.nestLine, if_pos rfl, if_pos still, ih]
    rfl
  | case4 d rest single =>
    have still : ¬ (rest ++ u).contains '{' = true := by simp_all
    rw [List.cons_append, List.cons_append, Segment.nestLine, if_pos rfl, if_neg still]
  | case5 c d rest other ih =>
    rw [List.cons_append, List.cons_append, Segment.nestLine, if_neg other, ← List.cons_append, ih,
      List.cons_append]

/-- What is written of the lines of a row. -/
def rowText (row : Text) : Text :=
  (Text.pieces '\n' (Segment.nestLine row)).flatMap fun line => kept (Text.trim line)

theorem not_mem_nestLine {row line : Text} (noClose : '}' ∉ row)
    (member : line ∈ Text.pieces '\n' (Segment.nestLine row)) : '}' ∉ line := by
  obtain ⟨a, b, shape⟩ := Text.exists_of_mem_pieces member
  have inRow : '}' ∉ Segment.nestLine row := by rwa [← mem_braces rfl, braces_nestLine, mem_braces rfl]
  intro inside
  exact inRow (by rw [shape]; simp [inside])

/-- A closed row is written alike with a semicolon before its closing brace and without. -/
theorem filter_rowText_closed {front : Text} {c : Char} (solid : Text.isBlank c = false) (notOpen : c ≠ '{')
    (noClose : '}' ∉ front ++ [c]) :
    (rowText (front ++ [c] ++ [';', '}'])).filter isEssential =
      (rowText (front ++ [c] ++ ['}'])).filter isEssential := by
  have noBreak : c ≠ '\n' := by
    rintro rfl
    exact absurd solid (by decide)
  obtain nothing | ⟨others, line, cutFront⟩ :=
    List.eq_nil_or_concat (Text.pieces '\n' (Segment.nestLine front))
  · exact absurd nothing (Text.pieces_ne_nil '\n' _)
  rw [List.concat_eq_append] at cutFront
  -- Both rows have the same lines but for the end of the last one.
  have cut : ∀ u : Text, '{' ∉ u → '\n' ∉ u →
      Text.pieces '\n' (Segment.nestLine (front ++ [c] ++ u)) = others ++ [line ++ c :: u] := by
    intro u noOpen noBreakEnd
    rw [List.append_assoc, nestLine_append_right front (by simpa [Ne.symm notOpen] using noOpen)]
    exact Text.pieces_append_right cutFront (by simpa [Ne.symm noBreak] using noBreakEnd)
  have trimmed : ∀ u : Text, Text.trim (line ++ c :: u ++ ['}']) =
      Text.trimStart line ++ [c] ++ u ++ ['}'] := by
    intro u
    rw [trim_concat _ (by decide), Text.trimStart_append_of_head line (by simpa using solid)]
    simp
  have inLine : '}' ∉ Text.trimStart line ++ [c] := by
    have inFront : '}' ∉ front := fun member => noClose (by simp [member])
    have absent : '}' ∉ line := not_mem_nestLine inFront (by simp [cutFront])
    intro member
    rcases List.mem_append.mp member with inside | last
    · exact absent ((List.dropWhile_sublist Text.isBlank).subset inside)
    · exact noClose (by simp [last])
  have closed := filter_kept_closed List.getLast?_concat notOpen inLine
  have ended := trimmed [';']
  have open? := trimmed []
  simp only [List.append_assoc, List.cons_append, List.nil_append] at ended open? closed
  rw [rowText, rowText, cut [';', '}'] (by decide) (by decide), cut ['}'] (by decide) (by decide)]
  simp only [List.flatMap_append, List.flatMap_cons, List.flatMap_nil, List.append_nil, List.filter_append,
    ended, open?, closed]

/-! ### Rows with and without the semicolons -/

/-- What is written of a text that is cut into rows, but for blanks and semicolons. -/
def essentials (t : Text) : Text :=
  ((Text.pieces '\n' (Segment.afterClosings t)).flatMap rowText).filter isEssential

theorem essentials_line {row : Text} (noClose : '}' ∉ row) (noBreak : '\n' ∉ row) (rest : Text) :
    essentials (row ++ '\n' :: rest) = (rowText row).filter isEssential ++ essentials rest := by
  have cut : Segment.afterClosings (row ++ '\n' :: rest) = row ++ '\n' :: Segment.afterClosings rest := by
    rw [Plain.afterClosings_append, Plain.afterClosings_of_not_mem noClose]
    rfl
  rw [essentials, cut, Text.pieces_append noBreak, List.flatMap_cons, List.filter_append, essentials]

theorem essentials_closed {row : Text} (noClose : '}' ∉ row) (noBreak : '\n' ∉ row) (rest : Text) :
    essentials (row ++ '}' :: rest) = (rowText (row ++ ['}'])).filter isEssential ++ essentials rest := by
  have cut : Segment.afterClosings (row ++ '}' :: rest) = row ++ ['}'] ++ '\n' :: Segment.afterClosings rest := by
    rw [Plain.afterClosings_append, Plain.afterClosings_of_not_mem noClose, List.append_assoc]
    rfl
  rw [essentials, cut, Text.pieces_append (by simpa using noBreak), List.flatMap_cons, List.filter_append,
    essentials]

/-- A text is one row, or its first row ends with a line end or a closing brace. -/
theorem exists_first_row (t : Text) : ('}' ∉ t) ∨
    ∃ row c rest, t = row ++ c :: rest ∧ (c = '\n' ∨ c = '}') ∧ '}' ∉ row ∧ '\n' ∉ row := by
  induction t with
  | nil => exact .inl List.not_mem_nil
  | cons c t ih =>
    by_cases ends : c = '\n' ∨ c = '}'
    · exact .inr ⟨[], c, t, rfl, ends, List.not_mem_nil, List.not_mem_nil⟩
    · obtain ⟨noBreak, noClose⟩ := not_or.mp ends
      rcases ih with absent | ⟨row, d, rest, rfl, ends, noCloseRow, noBreakRow⟩
      · exact .inl (by simp [Ne.symm noClose, absent])
      · exact .inr ⟨c :: row, d, rest, rfl, ends, by simp [Ne.symm noClose, noCloseRow],
          by simp [Ne.symm noBreak, noBreakRow]⟩

/-- Terminating changes nothing that is essential where something stands before every closing brace. -/
theorem essentials_terminate {t : Text} (filled : t.IsChain Filled) {closed : Bool}
    (start : closed = false → t.head? ≠ some '}') :
    essentials (terminate closed t) = essentials t := by
  induction size : t.length using Nat.strong_induction_on generalizing t closed with
  | _ n ih =>
    rcases exists_first_row t with absent | ⟨row, c, rest, rfl, ends, noClose, noBreak⟩
    · rw [terminate_of_not_mem closed absent]
    · have shorter : rest.length < n := by
        rw [← size, List.length_append, List.length_cons]
        omega
      obtain ⟨next, filledRest⟩ := List.isChain_cons.mp filled.right_of_append
      rcases ends with rfl | rfl
      · have later : essentials (terminate false rest) = essentials rest := by
          refine ih rest.length shorter filledRest ?_ rfl
          intro _ first
          exact absurd (next '}' first rfl).1 (by decide)
        have terminated : terminate closed (row ++ '\n' :: rest) = row ++ '\n' :: terminate false rest := by
          have regroup : row ++ '\n' :: rest = row ++ ['\n'] ++ rest := by simp
          rw [regroup, terminate_append closed (by simpa using noClose) (by simp)]
          simp
        rw [terminated, essentials_line noClose noBreak, essentials_line noClose noBreak, later]
      · have later : essentials (terminate true rest) = essentials rest :=
          ih rest.length shorter filledRest (by simp) rfl
        rw [essentials_closed noClose noBreak, ← later]
        obtain rfl | ⟨front, c, rfl⟩ := List.eq_nil_or_concat row
        · cases closed with
          | false => exact absurd rfl (start rfl)
          | true => exact essentials_closed List.not_mem_nil List.not_mem_nil _
        · rw [List.concat_eq_append] at *
          obtain ⟨solid, notOpen⟩ : Text.isBlank c = false ∧ c ≠ '{' := by
            rw [List.append_assoc] at filled
            exact (List.isChain_cons_cons.mp filled.right_of_append).1 rfl
          have terminated : terminate closed (front ++ [c] ++ '}' :: rest) =
              front ++ [c] ++ [';'] ++ '}' :: terminate true rest := by
            rw [terminate_append closed noClose (by simp)]
            simp [terminate]
          have closedRow := filter_rowText_closed solid notOpen noClose
          rw [terminated, essentials_closed (by simpa using noClose) (by simpa using noBreak), ← closedRow]
          simp

/-! ### Clean stylesheets -/

/-- Neighbours in a text in which no space comes before a mark. -/
def Tight (c d : Char) : Prop := c = ' ' → Spacing.isMark d = false

theorem head?_collapse {t : Text} (other : t.head?.any Text.isHorizontal = false) :
    (Spacing.collapse t).head? = t.head? := by
  cases t with
  | nil => rfl
  | cons c t =>
    have notHorizontal : Text.isHorizontal c = false := by simpa using other
    simp [Spacing.collapse, notHorizontal]

/-- Spaces of a collapsed text stand alone. -/
theorem single_collapse (t : Text) : (Spacing.collapse t).IsChain fun c d => c = ' ' → d ≠ ' ' := by
  fun_induction Spacing.collapse t with
  | case1 => exact .nil
  | case2 c rest _ _ ih => exact ih
  | case3 c rest _ last ih =>
    refine List.isChain_cons.mpr ⟨?_, ih⟩
    rintro d first _ rfl
    rw [head?_collapse (by simpa using last)] at first
    exact last (by simp [Option.mem_def.mp first]; decide)
  | case4 c rest other ih =>
    refine List.isChain_cons.mpr ⟨?_, ih⟩
    rintro d _ rfl
    exact absurd (by decide) other

/-- Neighbours in a text in which a space stands beside no other one and beside no mark. -/
def Parted (c d : Char) : Prop :=
  (c = ' ' → d ≠ ' ' ∧ Spacing.isMark d = false) ∧ (Spacing.isMark c = true → d ≠ ' ')

theorem head?_tightenFrom {t : Text} (other : t.head? ≠ some ' ') (afterMark : Bool) :
    (Spacing.tightenFrom afterMark t).head? = t.head? := by
  cases t with
  | nil => rfl
  | cons c t =>
    have solid : c ≠ ' ' := fun same => other (by rw [same]; rfl)
    simp [Spacing.tightenFrom, solid]

/-- Tightening parts the spaces of a text, in which they stand alone, from its marks. -/
theorem parted_tightenFrom (afterMark : Bool) {t : Text} (single : t.IsChain fun c d => c = ' ' → d ≠ ' ') :
    (Spacing.tightenFrom afterMark t).IsChain Parted ∧
      (afterMark = true → (Spacing.tightenFrom afterMark t).head? ≠ some ' ') := by
  fun_induction Spacing.tightenFrom afterMark t with
  | case1 => exact ⟨.nil, by simp⟩
  | case2 afterMark c rest gone ih =>
    obtain ⟨next, later⟩ := List.isChain_cons.mp single
    have space : c = ' ' := (by simpa using gone : c = ' ' ∧ _).1
    have other : rest.head? ≠ some ' ' := fun first => next ' ' first space rfl
    refine ⟨(ih later).1, fun _ => ?_⟩
    rwa [head?_tightenFrom other]
  | case3 afterMark c rest kept ih =>
    obtain ⟨next, later⟩ := List.isChain_cons.mp single
    obtain ⟨chain, start⟩ := ih later
    refine ⟨List.isChain_cons.mpr ⟨?_, chain⟩, ?_⟩
    · intro d first
      constructor
      · -- The space stays because no mark follows it, and what follows it is no space and stays too.
        rintro rfl
        have other : rest.head? ≠ some ' ' := fun first => next ' ' first rfl rfl
        have stays : afterMark = false ∧ rest.head?.any Spacing.isMark = false := by simpa using kept
        rw [head?_tightenFrom other] at first
        refine ⟨fun same => other (same ▸ first), ?_⟩
        simpa [Option.mem_def.mp first] using stays.2
      · rintro mark rfl
        exact start mark first
    · intro isAfter first
      obtain rfl := Option.some.inj first
      simp [isAfter] at kept

theorem tight_tightenFrom (afterMark : Bool) {t : Text} (single : t.IsChain fun c d => c = ' ' → d ≠ ' ') :
    (Spacing.tightenFrom afterMark t).IsChain Tight :=
  (parted_tightenFrom afterMark single).1.imp fun _ _ parted space => (parted.1 space).2

/-- What holds of neighbours still holds where semicolons are dropped, if it holds of a closing brace
    wherever it holds of a semicolon. -/
theorem isChain_drop {R : Char → Char → Prop} (semicolon : ∀ c, R c ';' → R c '}') {t : Text}
    (chain : t.IsChain R) : (Semicolon.drop t).IsChain R := by
  have start : ∀ (c : Char) (t : Text), (∀ d ∈ t.head?, R c d) → ∀ d ∈ (Semicolon.drop t).head?, R c d := by
    intro c t before d first
    fun_cases Semicolon.drop t with
    | case1 => cases first
    | case2 rest =>
      obtain rfl := Option.some.inj first
      exact semicolon c (before ';' rfl)
    | case3 e rest other =>
      rw [Semicolon.drop.eq_3 _ _ other] at first
      exact before d first
  fun_induction Semicolon.drop t with
  | case1 => exact .nil
  | case2 rest ih =>
    obtain ⟨next, later⟩ := List.isChain_cons.mp chain.tail
    exact List.isChain_cons.mpr ⟨start '}' rest next, ih later⟩
  | case3 c rest _ ih =>
    obtain ⟨next, later⟩ := List.isChain_cons.mp chain
    exact List.isChain_cons.mpr ⟨start c rest next, ih later⟩

/-- Neighbours in a text in which no blank comes before a mark. -/
def Snug (c d : Char) : Prop := Spacing.isMark d = true → Text.isBlank c = false

theorem snug_drop_clean (css : Text) : (Semicolon.drop (clean css)).IsChain Snug := by
  have tight : (Semicolon.drop (clean css)).IsChain Tight :=
    isChain_drop (fun _ before space => absurd (before space) (by decide))
      (tight_tightenFrom false (single_collapse _))
  rw [List.isChain_iff_forall_rel_of_append_cons_cons] at tight ⊢
  rintro c d a b shape mark
  cases blank : Text.isBlank c with
  | false => rfl
  | true =>
    have inside : c ∈ clean css := mem_drop (by rw [shape]; simp)
    simp [tight shape (eq_space_of_mem_clean inside blank)] at mark

/-- In the text of the levels above `low` something stands before every closing brace, unless a body is
    empty. -/
theorem filled_drop_clean {css : Text} (bodies : ¬ ['{', '}'] <:+: Semicolon.drop (clean css)) :
    (Semicolon.drop (clean css)).IsChain Filled := by
  have snug := snug_drop_clean css
  rw [List.isChain_iff_forall_rel_of_append_cons_cons] at snug ⊢
  rintro c d a b shape rfl
  refine ⟨snug shape (by decide), ?_⟩
  rintro rfl
  exact bodies ⟨a, b, by rw [shape]; simp⟩

/-! ### Levels -/

/-- A clean stylesheet that reads alike at every level: no body is empty, no semicolon stands alone
    between closing braces, and statements end. -/
structure Steady (css : Text) : Prop where
  bodies : ¬ ['{', '}'] <:+: Semicolon.drop css
  closings : ¬ ['}', ';', '}'] <:+: css
  statements : Ended (Semicolon.drop css)

theorem flatMap_kept_lines (css : Text) :
    ((lines (Segment.segment css)).flatMap kept).filter isEssential =
      essentials (Segment.afterStatements css) := by
  rw [lines, flatMap_kept_filter, List.flatMap_map, pieces_segment, List.flatMap_assoc]
  rfl

/-- Stripping takes the token of a text away, and nothing else but blanks. -/
theorem strip_signed {r : Text} (unsigned : Unsigned r) (level : Level) :
    Token.strip (r ++ Token.ofLevel level) = Text.trimEnd r := by
  rw [Token.ofLevel, Token.strip_append_token r (Token.isDigit_digit level), strip_of_unsigned unsigned]

/-- A pressed stylesheet without its token is what was laid out, without the blanks at its ends. -/
theorem strip_minify {level : Level} (pressed : level ≠ .off) (source : Text) :
    Token.strip (minify source level) = Text.trim (layout level (Text.trim source)).output := by
  rcases minify_of_pressed pressed source with ⟨none, nothing⟩ | signed
  · rw [none, nothing, Token.strip_nil]
    rfl
  · have unsigned : Unsigned (Text.trimStart (layout level (Text.trim source)).output) := by
      rcases endsMark_layout level (Text.trim source) with none | ends
      · rw [none]
        exact unsigned_nil
      · exact ends.trimStart.unsigned
    rw [signed, strip_signed unsigned]
    rfl

/-- A text without its token, its blanks and its semicolons. -/
def essence (t : Text) : Text := (Token.strip t).filter isEssential

theorem essence_minify {level : Level} (pressed : level ≠ .off) (source : Text) :
    essence (minify source level) =
      essentials (Segment.afterStatements (Semicolon.settle level (clean (Text.trim source)))) := by
  rw [essence, strip_minify pressed, Text.filter_trim solid_isEssential]
  exact (filter_layoutOf solid_isEssential level _).trans (flatMap_kept_lines _)

theorem Balanced.head?_ne {t : Text} (balanced : Balanced t) : t.head? ≠ some '}' := by
  intro first
  obtain ⟨rest, rfl⟩ := List.head?_eq_some_iff.mp first
  cases balanced

/-- `medium` and `high` write the same but for blanks and semicolons, whatever the stylesheet; so do `low`
    and `high` if the clean stylesheet is steady. -/
theorem essence_levels {source : Text} (balanced : Balanced (Comment.strip source)) :
    essence (minify source .medium) = essence (minify source .high) ∧
      (Steady (clean (Text.trim source)) → essence (minify source .low) = essence (minify source .high)) := by
  have high := essence_minify (show Level.high ≠ .off by decide) source
  constructor
  · rw [essence_minify (by decide), high]
    rfl
  · rintro ⟨bodies, closings, statements⟩
    have start : (Segment.afterStatements (Semicolon.drop (clean (Text.trim source)))).head? ≠ some '}' := by
      rw [head?_afterStatements]
      exact (balanced.clean.settle .high).head?_ne
    have filled := filled_afterStatements statements (filled_drop_clean bodies)
    have low : Semicolon.settle .low (clean (Text.trim source)) =
        terminate false (Semicolon.drop (clean (Text.trim source))) := restore_eq_terminate closings
    rw [essence_minify (by decide), high, low, afterStatements_terminate statements,
      essentials_terminate filled fun _ => start]
    rfl

/-- A statement, and a block with two rulesets in it and a declaration behind them. -/
def mixedSource : Text :=
  ['@', 'i', 'm', 'p', 'o', 'r', 't', ' ', 'i', ';', ' ', '@', 'm', '{', 'a', '{', 'b', ':', 'c', '}', ' ',
    'd', '{', 'e', ':', 'f', ';', '}', 'g', ':', 'h', '}']

theorem essence_levels_mixed :
    Balanced (Comment.strip mixedSource) ∧ Steady (clean (Text.trim mixedSource)) ∧
      essence (minify mixedSource .medium) = essence (minify mixedSource .high) ∧
      essence (minify mixedSource .low) = essence (minify mixedSource .high) := by
  have balanced : Balanced (Comment.strip mixedSource) := by decide
  have steady : Steady (clean (Text.trim mixedSource)) :=
    ⟨by decide +kernel, by decide +kernel, by decide +kernel⟩
  have result := essence_levels balanced
  exact ⟨balanced, steady, result.1, result.2 steady⟩

/-- The braces of a stylesheet are as they should be, and `low` and `high` write different rules. -/
def Disagree (source : Text) : Prop :=
  Balanced (Comment.strip source) ∧ Headed (Comment.strip source) ∧
    essence (minify source .low) ≠ essence (minify source .high)

instance (source : Text) : Decidable (Disagree source) := inferInstanceAs (Decidable (_ ∧ _ ∧ _))

/-- A block whose only ruleset is empty. -/
def emptySource : Text := ['@', 'm', 'e', 'd', 'i', 'a', ' ', 'x', '{', 'a', '{', '}', '}']

/-- A block with a semicolon behind its ruleset. -/
def semicolonSource : Text :=
  ['@', 'm', 'e', 'd', 'i', 'a', ' ', 'x', '{', 'a', '{', 'b', ':', 'c', '}', ';', '}']

/-- A block that ends with a statement. -/
def statementSource : Text :=
  ['x', '{', 'a', '{', 'b', ':', 'c', '}', '@', 'i', 'm', 'p', 'o', 'r', 't', ' ', 'y', ';', '}']

/-- None of the three conditions of a steady stylesheet can be left out. -/
theorem essence_differs : Disagree emptySource ∧ Disagree semicolonSource ∧ Disagree statementSource := by
  decide +kernel

end Stylepress.Css
