import Stylepress.Proofs.Signing

/-!
The rows of a stylesheet and their lines. A line end behind every statement and every closing brace
cuts a stylesheet into rows; a row ends with the brace or the semicolon before its line end
(`getLast?_of_mem_rows`), unless it is the last one. Before nested rulesets a row is cut once more, and
all its lines but the last one are openings (`exists_nestLine`).
-/
namespace Stylepress.Css

/-! ### Statements -/

/-- What the pass over statements finds: a statement to its semicolon, or one that nothing ends. -/
theorem statement?_eq_some {t : Text} {edit : Text.Edit} (found : Segment.statement? t = some edit) :
    ∃ name ∈ Segment.statementNames, ∃ rest, t = '@' :: (name ++ rest) ∧
      (';' ∉ rest ∧ edit = ⟨name.length + rest.length, t⟩ ∨
        ∃ body more, body ≠ [] ∧ ';' ∉ body ∧ rest = body ++ ';' :: more ∧
          edit = ⟨name.length + body.length + 1, '@' :: name ++ body ++ [';', '\n']⟩) := by
  unfold Segment.statement? at found
  split at found
  · next rest =>
    split at found
    · cases found
    · next name named =>
      have inFront := List.find?_some named
      rw [List.isPrefixOf_iff_prefix] at inFront
      obtain ⟨rest, rfl⟩ := inFront
      refine ⟨name, List.mem_of_find?_eq_some named, rest, rfl, ?_⟩
      rw [List.drop_left] at found
      split at found
      · next open? =>
        obtain rfl := Option.some.inj found
        exact .inl ⟨Text.splitFirst_eq_none_iff.mp open?, by rw [List.length_append]⟩
      · cases found
      · next body more filled ended =>
        obtain rfl := Option.some.inj found
        obtain ⟨absent, rfl⟩ := Text.splitFirst_eq_some_iff.mp ended
        exact .inr ⟨body, more, filled, absent, rfl, rfl⟩
  · cases found

/-- A statement is written as it stands, perhaps with a line end behind its semicolon. -/
theorem statement?_image {t : Text} {edit : Text.Edit} (found : Segment.statement? t = some edit) :
    edit.image = t.take (edit.tail + 1) ∨
      ∃ front, t.take (edit.tail + 1) = front ++ [';'] ∧ edit.image = front ++ [';', '\n'] := by
  obtain ⟨name, _, rest, rfl, ⟨_, rfl⟩ | ⟨body, more, _, _, rfl, rfl⟩⟩ := statement?_eq_some found
  · left
    rw [List.take_of_length_le (by simp)]
  · right
    refine ⟨'@' :: name ++ body, ?_, by simp⟩
    have shape : '@' :: (name ++ (body ++ ';' :: more)) = ('@' :: name ++ body ++ [';']) ++ more := by simp
    rw [shape, List.take_left' (by simp; omega)]

theorem find?_statementNames {name : Text} (named : name ∈ Segment.statementNames) (rest : Text) :
    Segment.statementNames.find? (·.isPrefixOf (name ++ rest)) = some name := by
  simp only [Segment.statementNames, List.mem_cons, List.not_mem_nil, or_false] at named
  rcases named with rfl | rfl | rfl <;> simp [Segment.statementNames, List.isPrefixOf]

theorem afterStatements_cons {c : Char} {rest : Text} (none : Segment.statement? (c :: rest) = none) :
    Segment.afterStatements (c :: rest) = c :: Segment.afterStatements rest := by
  rw [Segment.afterStatements, Text.pass_cons, none]
  rfl

/-- No statement starts where no statement's name stands. -/
theorem statement?_of_unnamed {rest : Text} (unnamed : ∀ name ∈ Segment.statementNames, ¬ name <+: rest) :
    Segment.statement? ('@' :: rest) = none := by
  have none : Segment.statementNames.find? (·.isPrefixOf rest) = none := by
    rw [List.find?_eq_none]
    intro name named
    rw [List.isPrefixOf_iff_prefix]
    exact unnamed name named
  simp only [Segment.statement?, none]

section
variable {name : Text} (named : name ∈ Segment.statementNames)
include named

theorem statement?_bare (more : Text) : Segment.statement? ('@' :: (name ++ ';' :: more)) = none := by
  simp only [Segment.statement?, find?_statementNames named, List.drop_left]
  rfl

theorem statement?_open {rest : Text} (open? : ';' ∉ rest) :
    Segment.statement? ('@' :: (name ++ rest)) = some ⟨(name ++ rest).length, '@' :: (name ++ rest)⟩ := by
  simp only [Segment.statement?, find?_statementNames named, List.drop_left,
    Text.splitFirst_eq_none_iff.mpr open?]

theorem statement?_ended {body : Text} (filled : body ≠ []) (absent : ';' ∉ body) (more : Text) :
    Segment.statement? ('@' :: (name ++ (body ++ ';' :: more))) =
      some ⟨name.length + body.length + 1, '@' :: name ++ body ++ [';', '\n']⟩ := by
  obtain ⟨c, body, rfl⟩ := List.exists_cons_of_ne_nil filled
  simp only [Segment.statement?, find?_statementNames named, List.drop_left, Text.splitFirst_append absent]

theorem afterStatements_open {rest : Text} (open? : ';' ∉ rest) :
    Segment.afterStatements ('@' :: (name ++ rest)) = '@' :: (name ++ rest) := by
  rw [Segment.afterStatements, Text.pass_cons, statement?_open named open?]
  simp

theorem afterStatements_ended {body : Text} (filled : body ≠ []) (absent : ';' ∉ body) (more : Text) :
    Segment.afterStatements ('@' :: (name ++ (body ++ ';' :: more))) =
      '@' :: (name ++ (body ++ [';', '\n'])) ++ Segment.afterStatements more := by
  have found := statement?_ended named filled absent more
  have span : '@' :: (name ++ (body ++ ';' :: more)) = ('@' :: (name ++ (body ++ [';']))) ++ more := by simp
  rw [span] at found ⊢
  have step := Text.pass_append_of_some found (by simp; omega)
  simpa [Segment.afterStatements] using step

end

theorem head?_afterStatements (css : Text) : (Segment.afterStatements css).head? = css.head? := by
  rw [Segment.afterStatements]
  cases css with
  | nil => rfl
  | cons c rest =>
    rw [Text.pass_cons]
    cases found : Segment.statement? (c :: rest) with
    | none => rfl
    | some edit =>
      rcases statement?_image found with same | ⟨front, span, image⟩
      · simp [same]
      · have first := congrArg List.head? span
        rw [List.head?_append] at first
        cases front with
        | nil => simpa [image, eq_comm] using first
        | cons d front => simpa [image, eq_comm] using first

/-! ### Rows -/

/-- The stretches of a stylesheet between line ends, before nested rulesets are looked at. -/
def rows (css : Text) : List Text :=
  Text.pieces '\n' (Segment.afterClosings (Segment.afterStatements css))

/-- The lines of a segmented text are those of its rows. -/
theorem pieces_segment (css : Text) :
    Text.pieces '\n' (Segment.segment css) =
      (rows css).flatMap fun row => Text.pieces '\n' (Segment.nestLine row) := by
  have filled : (rows css).map Segment.nestLine ≠ [] := by simp [rows, Text.pieces_ne_nil]
  rw [Segment.segment, Segment.beforeNested, ← rows, Text.pieces_join_flatMap filled, List.flatMap_map]

/-- Neighbours in a text whose line ends stand behind characters of some kind. -/
def Behind (marks : Char → Prop) (c d : Char) : Prop := d = '\n' → marks c

theorem behind_of_not_mem {marks : Char → Prop} {t : Text} (noBreak : '\n' ∉ t) :
    t.IsChain (Behind marks) := by
  induction t with
  | nil => exact .nil
  | cons c t ih =>
    refine List.isChain_cons.mpr ⟨?_, ih fun member => noBreak (by simp [member])⟩
    rintro d first rfl
    exact absurd (List.mem_cons_of_mem c (List.mem_of_mem_head? first)) noBreak

/-- In a text on one line, statements end their lines behind semicolons only. -/
theorem behind_afterStatements {css : Text} (noBreak : '\n' ∉ css) :
    (Segment.afterStatements css).IsChain (Behind (· = ';')) := by
  have start : ∀ {t : Text}, '\n' ∉ t → (Text.pass Segment.statement? t).head? ≠ some '\n' := by
    intro t absent first
    have same := head?_afterStatements t
    rw [Segment.afterStatements, first] at same
    exact absent (List.mem_of_mem_head? same.symm)
  rw [Segment.afterStatements]
  induction css using Text.pass_induction Segment.statement? with
  | nil => exact .nil
  | copy c rest none ih =>
    have absent : '\n' ∉ rest := fun member => noBreak (by simp [member])
    refine List.isChain_cons.mpr ⟨?_, ih absent⟩
    rintro d first rfl
    exact absurd first (start absent)
  | replace c rest edit found ih =>
    have absent : '\n' ∉ rest.drop edit.tail := fun member =>
      noBreak (by simp [List.mem_of_mem_drop member])
    have inSpan : '\n' ∉ (c :: rest).take (edit.tail + 1) := fun member =>
      noBreak (List.mem_of_mem_take member)
    have image : edit.image.IsChain (Behind (· = ';')) := by
      rcases statement?_image found with same | ⟨front, span, image⟩
      · rw [same]
        exact behind_of_not_mem inSpan
      · have shape : edit.image = (c :: rest).take (edit.tail + 1) ++ ['\n'] := by
          rw [image, span]
          simp
        rw [shape]
        refine List.isChain_append.mpr ⟨behind_of_not_mem inSpan, List.isChain_singleton _, ?_⟩
        intro d last _ _ _
        rw [span, List.getLast?_concat] at last
        exact (Option.some.inj last).symm
    refine List.isChain_append.mpr ⟨image, ih absent, ?_⟩
    rintro d _ e first rfl
    exact absurd first (start absent)

theorem head?_afterClosings (t : Text) : (Segment.afterClosings t).head? = t.head? := by
  fun_cases Segment.afterClosings t <;> rfl

theorem behind_afterClosings {t : Text} (chain : t.IsChain (Behind (· = ';'))) :
    (Segment.afterClosings t).IsChain (Behind fun c => c = ';' ∨ c = '}') := by
  fun_induction Segment.afterClosings t with
  | case1 => exact .nil
  | case2 rest ih =>
    obtain ⟨next, later⟩ := List.isChain_cons.mp chain
    refine List.isChain_cons_cons.mpr ⟨fun _ => .inr rfl, List.isChain_cons.mpr ⟨?_, ih later⟩⟩
    rintro d first rfl
    rw [head?_afterClosings] at first
    exact absurd (next '\n' first rfl) (by decide)
  | case3 c rest other ih =>
    obtain ⟨next, later⟩ := List.isChain_cons.mp chain
    refine List.isChain_cons.mpr ⟨?_, ih later⟩
    intro d first
    rw [head?_afterClosings] at first
    exact fun lineEnd => .inl (next d first lineEnd)

theorem getLast?_afterClosings (t : Text) : (Segment.afterClosings t).getLast? ≠ some '}' := by
  fun_induction Segment.afterClosings t with
  | case1 => simp
  | case2 rest ih =>
    cases last : (Segment.afterClosings rest).getLast? with
    | none => simp [List.getLast?_eq_none_iff.mp last]
    | some c =>
      have other : c ≠ '}' := fun same => ih (by rw [last, same])
      simp [List.getLast?_cons, last, other]
  | case3 c rest other ih =>
    cases last : (Segment.afterClosings rest).getLast? with
    | none => simpa [List.getLast?_eq_none_iff.mp last] using other
    | some d =>
      have notClose : d ≠ '}' := fun same => ih (by rw [last, same])
      simp [List.getLast?_cons, last, notClose]

/-- The closing brace of a line can stand at its end only. -/
theorem LineText.not_mem_front {front : Text} {c : Char} (line : LineText (front ++ [c])) : '}' ∉ front := by
  intro member
  obtain ⟨a, b, rfl⟩ := List.append_of_mem member
  obtain ⟨d, more, shape⟩ : ∃ d more, b ++ [c] = d :: more := List.exists_cons_of_ne_nil (by simp)
  have whole : a ++ '}' :: b ++ [c] = a ++ '}' :: d :: more := by simp [← shape]
  have closed := line.closed
  have noBreak := line.noBreak
  rw [whole] at closed noBreak
  obtain rfl : d = '\n' := (List.isChain_cons_cons.mp closed.right_of_append).1 rfl
  simp at noBreak

theorem lineText_of_mem_pieces {t line : Text} (closed : t.IsChain EndsLine)
    (member : line ∈ Text.pieces '\n' t) : LineText line := by
  refine ⟨Text.not_mem_of_mem_pieces member, ?_⟩
  obtain ⟨a, b, shape⟩ := Text.exists_of_mem_pieces member
  rw [shape] at closed
  exact closed_stretch closed

theorem lineText_of_mem_rows {css row : Text} (member : row ∈ rows css) : LineText row :=
  lineText_of_mem_pieces (closed_afterClosings _) member

/-- A row is empty, ends with a closing brace or a semicolon, or is the end of the stylesheet. -/
theorem mem_rows_cases {css row : Text} (noBreak : '\n' ∉ css) (member : row ∈ rows css) :
    row = [] ∨ (∃ front c, row = front ++ [c] ∧ (c = ';' ∨ c = '}')) ∨
      '}' ∉ row ∧ ∃ before, Segment.afterClosings (Segment.afterStatements css) = before ++ row := by
  obtain rfl | ⟨front, c, rfl⟩ := List.eq_nil_or_concat row
  · exact .inl rfl
  · rw [List.concat_eq_append] at member ⊢
    rcases Text.exists_of_mem_pieces_or member with ⟨before, shape⟩ | ⟨before, after, shape⟩
    · refine .inr (.inr ⟨?_, before, shape⟩)
      have last := getLast?_afterClosings (Segment.afterStatements css)
      rw [shape, ← List.append_assoc, List.getLast?_concat] at last
      have other : c ≠ '}' := fun same => last (by rw [same])
      simpa [Ne.symm other] using (lineText_of_mem_rows member).not_mem_front
    · refine .inr (.inl ⟨front, c, rfl, ?_⟩)
      have chain := behind_afterClosings (behind_afterStatements noBreak)
      have regroup : before ++ (front ++ [c]) ++ '\n' :: after = before ++ front ++ c :: '\n' :: after := by
        simp
      rw [shape, regroup] at chain
      exact (List.isChain_cons_cons.mp chain.right_of_append).1 rfl

/-! ### The lines of a row -/

/-- A line of a row: it opens a block, or it ends as the row does and opens at most one. -/
def LineOf (row line : Text) : Prop :=
  (∃ u, line = u ++ ['{'] ∧ '{' ∉ u) ∨ line ≠ [] ∧ line.getLast? = row.getLast? ∧ line.count '{' ≤ 1

theorem getLast?_cons_of_ne_nil {t : Text} (filled : t ≠ []) (c : Char) : (c :: t).getLast? = t.getLast? := by
  obtain ⟨d, t, rfl⟩ := List.exists_cons_of_ne_nil filled
  exact List.getLast?_cons_cons

theorem LineOf.behind {row line : Text} (lineOf : LineOf row line) (filled : row ≠ []) (c : Char) :
    LineOf (c :: row) line := by
  rwa [LineOf, getLast?_cons_of_ne_nil filled]

/-- A character before a row belongs to its first line. -/
theorem lineOf_cons {row t : Text} {c : Char} (filled : row ≠ []) (noBreak : c ≠ '\n') (noOpen : c ≠ '{')
    (each : ∀ line ∈ Text.pieces '\n' t, LineOf row line) :
    ∀ line ∈ Text.pieces '\n' (c :: t), LineOf (c :: row) line := by
  obtain ⟨first, others, cut⟩ := List.exists_cons_of_ne_nil (Text.pieces_ne_nil '\n' t)
  have joined : Text.pieces '\n' (c :: t) = (c :: first) :: others := by
    simpa using Text.pieces_append_of_not_mem (by simpa using noBreak.symm : '\n' ∉ [c]) cut
  rw [cut] at each
  rw [joined, List.forall_mem_cons]
  refine ⟨?_, fun line member => (each line (by simp [member])).behind filled c⟩
  rcases each first (by simp) with ⟨u, rfl, absent⟩ | ⟨some, last, single⟩
  · exact .inl ⟨c :: u, rfl, by simp [Ne.symm noOpen, absent]⟩
  · refine .inr ⟨by simp, ?_, ?_⟩
    · rw [getLast?_cons_of_ne_nil some, getLast?_cons_of_ne_nil filled, last]
    · rwa [List.count_cons_of_ne noOpen]

/-- Unless two opening braces stand side by side, each line of a row opens one block at most. -/
theorem lineOf_of_mem {row : Text} (noBreak : '\n' ∉ row) (apart : ¬ ['{', '{'] <:+: row)
    (filled : row ≠ []) : ∀ line ∈ Text.pieces '\n' (Segment.nestLine row), LineOf row line := by
  fun_induction Segment.nestLine row with
  | case1 => exact absurd rfl filled
  | case2 c =>
    rw [Text.pieces_of_not_mem noBreak, List.forall_mem_singleton]
    exact .inr ⟨by simp, rfl, by rw [List.count_singleton]; split <;> omega⟩
  | case3 d rest nested ih =>
    have noOpen : d ≠ '{' := by
      rintro rfl
      exact apart ⟨[], rest, rfl⟩
    have later : rest ≠ [] := by
      rintro rfl
      simp at nested
    have inRest := ih (fun member => noBreak (by simp [member]))
      (fun inside => apart (inside.trans ⟨['{', d], [], by simp⟩)) later
    have behind := lineOf_cons later (fun same => noBreak (by simp [same])) noOpen inRest
    have cut : Text.pieces '\n' ('{' :: '\n' :: d :: Segment.nestLine rest) =
        ['{'] :: Text.pieces '\n' (d :: Segment.nestLine rest) :=
      Text.pieces_append (show '\n' ∉ ['{'] by decide) _
    rw [cut, List.forall_mem_cons]
    refine ⟨.inl ⟨[], rfl, by simp⟩, ?_⟩
    exact fun line member => (behind line member).behind (by simp) '{'
  | case4 d rest single =>
    have noOpen : d ≠ '{' := by
      rintro rfl
      exact apart ⟨[], rest, rfl⟩
    have none : '{' ∉ rest := by simpa using single
    rw [Text.pieces_of_not_mem noBreak, List.forall_mem_singleton]
    refine .inr ⟨by simp, rfl, ?_⟩
    rw [List.count_cons_self, List.count_cons_of_ne noOpen, List.count_eq_zero.mpr none]
  | case5 c d rest noOpen ih =>
    have inRest := ih (fun member => noBreak (List.mem_cons_of_mem c member))
      (fun inside => apart (List.infix_cons inside)) (by simp)
    exact lineOf_cons (by simp) (fun same => noBreak (by simp [same])) noOpen inRest

theorem nestLine_of_not_mem {row : Text} (noOpen : '{' ∉ row) : Segment.nestLine row = row := by
  fun_induction Segment.nestLine row with
  | case1 => rfl
  | case2 c => rfl
  | case3 d rest _ _ => simp at noOpen
  | case4 d rest _ => rfl
  | case5 c d rest _ ih => rw [ih fun member => noOpen (List.mem_cons_of_mem c member)]

/-! ### What segmenting keeps -/

section
variable {p : Char → Bool} (unseen : p '\n' = false)
include unseen

theorem filter_afterStatements (t : Text) : (Segment.afterStatements t).filter p = t.filter p := by
  refine Text.filter_pass ?_ t
  intro t edit found
  rcases statement?_image found with same | ⟨front, span, image⟩
  · rw [same]
  · rw [image, span]
    simp [List.filter_cons, unseen]

theorem filter_afterClosings (t : Text) : (Segment.afterClosings t).filter p = t.filter p := by
  fun_induction Segment.afterClosings t with
  | case1 => rfl
  | case2 rest ih => simp [List.filter_cons, unseen, ih]
  | case3 c rest other ih => rw [List.filter_cons, List.filter_cons, ih]

theorem filter_nestLine (t : Text) : (Segment.nestLine t).filter p = t.filter p := by
  fun_induction Segment.nestLine t with
  | case1 => rfl
  | case2 c => rfl
  | case3 d rest nested ih => simp [List.filter_cons, unseen, ih]
  | case4 d rest _ => rfl
  | case5 c d rest other ih => rw [List.filter_cons, ih, ← List.filter_cons]

theorem filter_join_lines (ts : List Text) :
    (Text.join ['\n'] ts).filter p = ts.flatMap (List.filter p) := by
  fun_induction Text.join ['\n'] ts with
  | case1 => rfl
  | case2 last => simp
  | case3 first others _ ih =>
    rw [List.filter_append, List.filter_append, ih, List.flatMap_cons]
    simp [unseen]

theorem flatMap_filter_pieces (t : Text) : (Text.pieces '\n' t).flatMap (List.filter p) = t.filter p := by
  rw [← filter_join_lines unseen, Text.join_pieces]

/-- Segmenting writes line ends and keeps everything else. -/
theorem filter_segment (t : Text) : (Segment.segment t).filter p = t.filter p := by
  rw [Segment.segment, Segment.beforeNested, filter_join_lines unseen, List.flatMap_map]
  simp only [filter_nestLine unseen]
  rw [flatMap_filter_pieces unseen, filter_afterClosings unseen, filter_afterStatements unseen]

end

end Stylepress.Css
