import Stylepress.Proofs.Balance

/-!
The words of a stylesheet: its stretches without white space, braces, semicolons, commas, colons and
parentheses. All that follows the clean-up moves white space beside such marks only, and so it keeps every
word (`words_minify`), as long as no line is stray. `SameWords` says this of a stretch of text wherever it
stands, so that the passes over parts of a line can be put together.
-/
namespace Stylepress.Css

/-- The characters of a word. -/
def isWordChar (c : Char) : Bool :=
  !Plain.isSpacing c && !(c == '{' || c == '}' || c == ';' || c == ',' || c == ':' || c == '(' || c == ')')

/-- The longest stretches of word characters. -/
def words (t : Text) : List Text :=
  (t.splitOnP fun c => !isWordChar c).filter fun word => !word.isEmpty

/-- A text without word characters. -/
def IsGap (t : Text) : Prop := ∀ c ∈ t, isWordChar c = false

instance (t : Text) : Decidable (IsGap t) := List.decidableBAll (fun c => isWordChar c = false) t

/-! ### Words and gaps -/

@[simp] theorem words_nil : words [] = [] := by
  simp [words]

/-- Words are divided by any other character. -/
theorem words_append_cons {c : Char} (other : isWordChar c = false) (a b : Text) :
    words (a ++ c :: b) = words a ++ words b := by
  rw [words, List.splitOnP_append_cons a b (by simp [other]), List.filter_append, words, words]

theorem words_cons {c : Char} (other : isWordChar c = false) (t : Text) : words (c :: t) = words t := by
  simpa using words_append_cons other [] t

theorem words_of_forall {t : Text} (filled : t ≠ []) (each : ∀ c ∈ t, isWordChar c = true) :
    words t = [t] := by
  rw [words, List.splitOnP_eq_singleton fun c member => by simp [each c member]]
  simp [filled]

theorem isGap_cons {c : Char} {t : Text} : IsGap (c :: t) ↔ isWordChar c = false ∧ IsGap t :=
  List.forall_mem_cons

theorem isGap_append {t u : Text} : IsGap (t ++ u) ↔ IsGap t ∧ IsGap u := List.forall_mem_append

theorem IsGap.words_append_left {gap : Text} (isGap : IsGap gap) (t : Text) : words (gap ++ t) = words t := by
  induction gap with
  | nil => rfl
  | cons c gap ih =>
    obtain ⟨other, later⟩ := List.forall_mem_cons.mp isGap
    rw [List.cons_append, words_cons other, ih later]

/-- A gap that is not empty divides words. -/
theorem IsGap.words_append {gap : Text} (isGap : IsGap gap) (filled : gap ≠ []) (a b : Text) :
    words (a ++ gap ++ b) = words a ++ words b := by
  obtain ⟨c, gap, rfl⟩ := List.exists_cons_of_ne_nil filled
  obtain ⟨other, later⟩ := List.forall_mem_cons.mp isGap
  rw [List.append_assoc, List.cons_append, words_append_cons other, IsGap.words_append_left later]

theorem IsGap.words_append_right {gap : Text} (isGap : IsGap gap) (t : Text) : words (t ++ gap) = words t := by
  by_cases filled : gap = []
  · rw [filled, List.append_nil]
  · simpa using isGap.words_append filled t []

theorem isGap_of_blank {t : Text} (blank : ∀ c ∈ t, Text.isBlank c = true) : IsGap t := by
  intro c member
  simp [isWordChar, isSpacing_of_isBlank (blank c member)]

theorem words_trim (t : Text) : words (Text.trim t) = words t := by
  obtain ⟨a, b, shape, blankA, blankB⟩ := Text.exists_blanks t
  rw [congrArg words shape, (isGap_of_blank blankB).words_append_right,
    (isGap_of_blank blankA).words_append_left]

theorem words_trimStart (t : Text) : words (Text.trimStart t) = words t := by
  have start := List.takeWhile_append_dropWhile (p := Text.isBlank) (l := t)
  have blank : ∀ c ∈ t.takeWhile Text.isBlank, Text.isBlank c = true :=
    List.all_eq_true.mp List.all_takeWhile
  rw [← congrArg words start, (isGap_of_blank blank).words_append_left]
  rfl

theorem words_dropEndWhile_append (t u : Text) :
    words (Text.dropEndWhile isWordChar t ++ u) = words (Text.dropEndWhile isWordChar t) ++ words u := by
  have last := Text.dropEndWhile_last isWordChar t
  rcases List.eq_nil_or_concat (Text.dropEndWhile isWordChar t) with none | ⟨front, c, concat⟩
  · rw [none]
    rfl
  · rw [concat, List.concat_eq_append] at last ⊢
    have other : IsGap [c] := List.forall_mem_singleton.mpr (last c List.getLast?_concat)
    rw [other.words_append (by simp), other.words_append_right]

theorem words_append_dropWhile (t u : Text) :
    words (u ++ t.dropWhile isWordChar) = words u ++ words (t.dropWhile isWordChar) := by
  have stops := List.head?_dropWhile_not isWordChar t
  cases rest : t.dropWhile isWordChar with
  | nil => simp
  | cons c more =>
    rw [rest] at stops
    have other : isWordChar c = false := by simpa using stops
    rw [words_append_cons other, words_cons other]

/-- Where two texts meet in the middle of a word, the last word of the one and the first word of the other
    become one word. -/
theorem exists_words_append {c d : Char} (left : isWordChar c = true) (right : isWordChar d = true)
    (x y : Text) :
    ∃ former first second latter, words (x ++ [c]) = former ++ [first] ∧ words (d :: y) = second :: latter ∧
      words (x ++ [c] ++ d :: y) = former ++ (first ++ second) :: latter := by
  obtain ⟨run, shape, inRun⟩ := Text.exists_dropEndWhile isWordChar x
  have inFirst : ∀ e ∈ run ++ [c], isWordChar e = true :=
    List.forall_mem_append.mpr ⟨inRun, List.forall_mem_singleton.mpr left⟩
  have inSecond : ∀ e ∈ d :: y.takeWhile isWordChar, isWordChar e = true :=
    List.forall_mem_cons.mpr ⟨right, List.all_eq_true.mp List.all_takeWhile⟩
  have joined := words_of_forall (t := run ++ [c] ++ d :: y.takeWhile isWordChar) (by simp)
    (List.forall_mem_append.mpr ⟨inFirst, inSecond⟩)
  have before := words_dropEndWhile_append x
  have behind := words_append_dropWhile y
  have lead : x ++ [c] = Text.dropEndWhile isWordChar x ++ (run ++ [c]) := by
    conv_lhs => rw [shape]
    simp
  have follow : d :: y = d :: y.takeWhile isWordChar ++ y.dropWhile isWordChar := by
    rw [List.cons_append, List.takeWhile_append_dropWhile]
  refine ⟨words (Text.dropEndWhile isWordChar x), run ++ [c], d :: y.takeWhile isWordChar,
    words (y.dropWhile isWordChar), ?_, ?_, ?_⟩
  · rw [lead, before, words_of_forall (by simp) inFirst]
  · rw [follow, behind, words_of_forall (by simp) inSecond]
    rfl
  · have whole : x ++ [c] ++ d :: y = Text.dropEndWhile isWordChar x ++
        (run ++ [c] ++ d :: y.takeWhile isWordChar ++ y.dropWhile isWordChar) := by
      rw [lead, follow]
      simp
    rw [whole, before, behind, joined]
    rfl

/-! ### Texts with the same words -/

/-- Texts that have the same words wherever they stand. -/
def SameWords (t u : Text) : Prop := ∀ a b, words (a ++ t ++ b) = words (a ++ u ++ b)

theorem SameWords.refl (t : Text) : SameWords t t := fun _ _ => rfl

theorem SameWords.trans {t u v : Text} (first : SameWords t u) (second : SameWords u v) : SameWords t v :=
  fun a b => (first a b).trans (second a b)

theorem SameWords.words_eq {t u : Text} (same : SameWords t u) : words t = words u := by
  simpa using same [] []

theorem SameWords.append {t t' u u' : Text} (left : SameWords t t') (right : SameWords u u') :
    SameWords (t ++ u) (t' ++ u') := by
  intro a b
  calc words (a ++ (t ++ u) ++ b) = words (a ++ t ++ (u ++ b)) := by simp
    _ = words (a ++ t' ++ (u ++ b)) := left a (u ++ b)
    _ = words (a ++ t' ++ u ++ b) := by simp
    _ = words (a ++ t' ++ u' ++ b) := right (a ++ t') b
    _ = words (a ++ (t' ++ u') ++ b) := by simp

theorem SameWords.cons (c : Char) {t u : Text} (same : SameWords t u) : SameWords (c :: t) (c :: u) :=
  (SameWords.refl [c]).append same

theorem sameWords_of_isGap {t u : Text} (isGap : IsGap t) (filled : t ≠ []) (isGapToo : IsGap u)
    (filledToo : u ≠ []) : SameWords t u := by
  intro a b
  rw [isGap.words_append filled, isGapToo.words_append filledToo]

/-- A pass keeps the words that each replacement keeps. -/
theorem sameWords_pass {front : Text → Option Text.Edit}
    (keeps : ∀ t edit, front t = some edit → SameWords edit.image (t.take (edit.tail + 1))) (t : Text) :
    SameWords (Text.pass front t) t := by
  induction t using Text.pass_induction front with
  | nil => exact SameWords.refl []
  | copy c rest none ih => exact ih.cons c
  | replace c rest edit found ih =>
    have whole := (keeps _ _ found).append ih
    rwa [Text.take_succ_cons_append_drop] at whole

theorem sameWords_join {sep sep' : Text} (same : SameWords sep sep') {f : Text → Text}
    (each : ∀ t, SameWords (f t) t) (ts : List Text) :
    SameWords (Text.join sep (ts.map f)) (Text.join sep' ts) := by
  induction ts with
  | nil => exact SameWords.refl []
  | cons first others ih =>
    cases others with
    | nil => exact each first
    | cons second others => exact ((each first).append same).append ih

/-! ### Semicolons and lines -/

theorem sameWords_drop (t : Text) : SameWords (Semicolon.drop t) t := by
  fun_induction Semicolon.drop t with
  | case1 => exact SameWords.refl []
  | case2 rest ih =>
    have closing : SameWords ['}'] [';', '}'] :=
      sameWords_of_isGap (by decide) (by decide) (by decide) (by decide)
    exact closing.append ih
  | case3 c rest _ ih => exact ih.cons c

theorem sameWords_restoreFrom (ended : Bool) (t : Text) : SameWords (Semicolon.restoreFrom ended t) t := by
  fun_induction Semicolon.restoreFrom ended t with
  | case1 => exact SameWords.refl []
  | case2 rest ih => exact ih.cons '}'
  | case3 _ rest _ ih =>
    have closing : SameWords [';', '}'] ['}'] :=
      sameWords_of_isGap (by decide) (by decide) (by decide) (by decide)
    exact closing.append ih
  | case4 _ c rest _ ih => exact ih.cons c

theorem sameWords_settle (level : Level) (t : Text) : SameWords (Semicolon.settle level t) t := by
  rw [Semicolon.settle]
  split
  · exact sameWords_restoreFrom false t
  · exact sameWords_drop t

theorem sameWords_afterStatements (t : Text) : SameWords (Segment.afterStatements t) t := by
  refine sameWords_pass ?_ t
  intro t edit found
  rcases statement?_image found with same | ⟨front, span, image⟩
  · rw [same]
    exact SameWords.refl _
  · have ending : SameWords [';', '\n'] [';'] :=
      sameWords_of_isGap (by decide) (by decide) (by decide) (by decide)
    rw [image, span]
    exact (SameWords.refl front).append ending

theorem sameWords_afterClosings (t : Text) : SameWords (Segment.afterClosings t) t := by
  fun_induction Segment.afterClosings t with
  | case1 => exact SameWords.refl []
  | case2 rest ih =>
    have closing : SameWords ['}', '\n'] ['}'] :=
      sameWords_of_isGap (by decide) (by decide) (by decide) (by decide)
    exact closing.append ih
  | case3 c rest _ ih => exact ih.cons c

theorem sameWords_nestLine (t : Text) : SameWords (Segment.nestLine t) t := by
  fun_induction Segment.nestLine t with
  | case1 => exact SameWords.refl []
  | case2 c => exact SameWords.refl [c]
  | case3 d rest _ ih =>
    have opening : SameWords ['{', '\n'] ['{'] :=
      sameWords_of_isGap (by decide) (by decide) (by decide) (by decide)
    exact opening.append (ih.cons d)
  | case4 d rest _ => exact SameWords.refl _
  | case5 c d rest _ ih => exact ih.cons c

/-- Segmenting keeps the words of a stylesheet. -/
theorem sameWords_segment (t : Text) : SameWords (Segment.segment t) t := by
  have nested := sameWords_join (SameWords.refl ['\n']) sameWords_nestLine
    (Text.pieces '\n' (Segment.afterClosings (Segment.afterStatements t)))
  rw [Text.join_pieces] at nested
  exact nested.trans ((sameWords_afterClosings _).trans (sameWords_afterStatements t))

/-! ### Layout -/

theorem isGap_space (level : Level) : IsGap level.space := by
  cases level <;> decide

theorem sameWords_respaceCommas (level : Level) (t : Text) :
    SameWords (Layout.respaceCommas level.space t) t := by
  refine sameWords_pass ?_ t
  intro t edit found
  obtain ⟨lead, last, spaces, span, image⟩ := comma?_eq_some found
  have written : IsGap (',' :: level.space) := isGap_cons.mpr ⟨by decide, isGap_space level⟩
  have replaced : IsGap (lead ++ ',' :: last) := by
    intro c member
    by_cases comma : c = ','
    · rw [comma]
      decide
    · rw [spaces c (by simp_all)]
      decide
  rw [image, span]
  exact sameWords_of_isGap written (by simp) replaced (by simp)

theorem sameWords_respace (level : Level) (t : Text) : SameWords (Condition.respace level.space t) t := by
  refine sameWords_pass ?_ t
  intro t edit found
  rcases respacing?_eq_some found with same | ⟨condition, lead, gap, inner, word, last, span, image, read⟩
  · rw [same]
    exact SameWords.refl _
  · have opening : SameWords [' ', '('] (lead ++ ['(']) :=
      sameWords_of_isGap (by decide) (by decide)
        (isGap_append.mpr ⟨isGap_of_blank read.leadBlank, by decide⟩) (by simp)
    have colon : IsGap (':' :: level.space) := isGap_cons.mpr ⟨by decide, isGap_space level⟩
    have colonRead : IsGap (gap ++ ':' :: inner) :=
      isGap_append.mpr ⟨isGap_of_blank read.gapBlank, isGap_cons.mpr ⟨by decide, isGap_of_blank read.innerBlank⟩⟩
    have closing : IsGap [')', ' '] := by decide
    have closingRead : IsGap (')' :: last) := isGap_cons.mpr ⟨by decide, isGap_of_blank read.lastBlank⟩
    have worth : SameWords (':' :: level.space ++ condition.value ++ [')', ' '])
        (gap ++ ':' :: inner ++ word ++ ')' :: last) := by
      rcases read.value with same | ⟨rfl, inside⟩
      · rw [same]
        exact ((sameWords_of_isGap colon (by simp) colonRead (by simp)).append (SameWords.refl word)).append
          (sameWords_of_isGap closing (by simp) closingRead (by simp))
      · have blank : IsGap condition.value :=
          isGap_of_blank fun c member => read.innerBlank c (inside.subset member)
        exact sameWords_of_isGap (isGap_append.mpr ⟨isGap_append.mpr ⟨colon, blank⟩, closing⟩) (by simp)
          (isGap_append.mpr ⟨by simpa using colonRead, closingRead⟩) (by simp)
    have whole := (opening.append (SameWords.refl condition.feature)).append worth
    rw [image, span, Condition.write]
    simpa using whole

theorem exists_dropLastSpace (t : Text) : ∃ spaces, t = Layout.dropLastSpace t ++ spaces ∧ IsGap spaces := by
  rw [Layout.dropLastSpace]
  split
  · next last =>
    obtain ⟨front, rfl⟩ : ∃ front, t = front ++ [' '] := by
      simpa [Text.endsWith, List.getLast?_eq_some_iff] using last
    exact ⟨[' '], by simp, by decide⟩
  · exact ⟨[], by simp, by decide⟩

theorem exists_dropFirstSpace (t : Text) : ∃ spaces, t = spaces ++ Layout.dropFirstSpace t ∧ IsGap spaces := by
  unfold Layout.dropFirstSpace
  split
  · exact ⟨[' '], by simp, by decide⟩
  · exact ⟨[], by simp, by decide⟩

theorem sameWords_declaration (level : Level) (t : Text) :
    SameWords (Layout.declaration level.space t) t := by
  rw [Layout.declaration]
  split
  · next property value found =>
    obtain ⟨_, rfl⟩ := Text.splitFirst_eq_some_iff.mp found
    obtain ⟨before, property_eq, isGapBefore⟩ := exists_dropLastSpace property
    obtain ⟨behind, value_eq, isGapBehind⟩ := exists_dropFirstSpace value
    have colon : SameWords (':' :: level.space) (before ++ ':' :: behind) :=
      sameWords_of_isGap (isGap_cons.mpr ⟨by decide, isGap_space level⟩) (by simp)
        (isGap_append.mpr ⟨isGapBefore, isGap_cons.mpr ⟨by decide, isGapBehind⟩⟩) (by simp)
    have whole := ((SameWords.refl (Layout.dropLastSpace property)).append colon).append
      (SameWords.refl (Layout.dropFirstSpace value))
    have read : Layout.dropLastSpace property ++ (before ++ ':' :: behind) ++ Layout.dropFirstSpace value =
        property ++ ':' :: value := by
      conv_rhs => rw [property_eq, value_eq]
      simp
    rwa [read] at whole
  · exact SameWords.refl t

theorem isGap_tabs (depth : Int) : IsGap (Layout.tabs depth) := by
  intro c member
  obtain rfl := List.eq_of_mem_replicate member
  decide

theorem isGap_break (breaks : Bool) (depth : Int) : IsGap (if breaks then '\n' :: Layout.tabs depth else []) := by
  split
  · exact isGap_cons.mpr ⟨by decide, isGap_tabs depth⟩
  · exact List.forall_mem_nil _

theorem sameWords_declarations (level : Level) (depth : Int) (t : Text) :
    SameWords (Layout.declarations level depth t) t := by
  have semicolon : SameWords (';' :: Layout.declarationBreak level depth) [';'] :=
    sameWords_of_isGap (isGap_cons.mpr ⟨by decide, isGap_break _ _⟩) (by simp) (by decide) (by simp)
  have joined := sameWords_join semicolon (sameWords_declaration level)
    (Text.pieces ';' (Layout.respaceCommas level.space t))
  rw [Text.join_pieces] at joined
  exact joined.trans (sameWords_respaceCommas level t)

theorem words_ruleset (level : Level) (depth : Int) (selectors body : Text) :
    words (Layout.ruleset level depth selectors body) = words (selectors ++ '{' :: body ++ ['}']) := by
  have close : ∀ t, words (t ++ ['}']) = words t := fun t => IsGap.words_append_right (by decide) t
  have opened : IsGap ('{' :: Layout.declarationBreak level depth) :=
    isGap_cons.mpr ⟨by decide, isGap_break _ _⟩
  have ended : IsGap (Layout.closingBreak level depth) := isGap_break _ _
  rw [Layout.ruleset, close, close, ended.words_append_right, opened.words_append (by simp),
    (isGap_space level).words_append_right, words_trim, words_trim, (sameWords_respaceCommas level _).words_eq,
    (sameWords_declarations level depth _).words_eq, words_append_cons (by decide)]

theorem words_opening (level : Level) (header : Text) :
    words (Layout.opening level header) = words (header ++ ['{']) := by
  have opened : IsGap ['{'] := by decide
  rw [Layout.opening, opened.words_append_right, opened.words_append_right,
    (isGap_space level).words_append_right, words_trim, (sameWords_respace level _).words_eq]

theorem words_lineText? {level : Level} {depth : Int} {shape : Line} {u : Text}
    (written : Layout.lineText? level depth shape = some u) : words u = words shape.kept := by
  cases shape with
  | leaving t =>
    obtain rfl := Option.some.inj written
    rfl
  | statement t =>
    obtain rfl := Option.some.inj written
    rfl
  | opening header =>
    obtain rfl := Option.some.inj written
    exact words_opening level header
  | ruleset selectors body =>
    obtain rfl := Option.some.inj written
    exact words_ruleset level depth selectors body
  | stray t => cases written

/-- A line that is not stray keeps its words. -/
theorem words_kept {level : Level} {depth : Int} {t u : Text}
    (written : Layout.lineText? level depth (Line.classify t) = some u) : words (kept t) = words t := by
  rw [kept]
  rcases classify_cases t with ⟨shape, _⟩ | ⟨shape, _⟩ | ⟨header, opened, shape, same, braces⟩ |
    ⟨selectors, body, shape, same⟩ | shape
  · rw [shape]
    rfl
  · rw [shape]
    rfl
  · have isGap : IsGap opened := by
      intro c member
      rw [braces c member]
      decide
    have last : IsGap ['{'] := by decide
    rw [shape, congrArg words same, Line.kept, last.words_append_right, last.words_append_right,
      isGap.words_append_right]
  · rw [shape, congrArg words same]
    rfl
  · rw [shape] at written
    cases written

theorem isWordChar_of_isMark {c : Char} (mark : Spacing.isMark c = true) : isWordChar c = false := by
  simp only [Spacing.isMark, Bool.or_eq_true, beq_iff_eq] at mark
  rcases mark with (rfl | rfl) | rfl <;> decide

/-- No word goes on behind a text that ends with a mark. -/
theorem EndsMark.words_append {t : Text} (ends : EndsMark t) (rest : Text) :
    words (t ++ rest) = words t ++ words rest := by
  obtain ⟨front, c, blanks, rfl, mark, blank⟩ := ends
  have isGap : IsGap (c :: blanks) := isGap_cons.mpr ⟨isWordChar_of_isMark mark, isGap_of_blank blank⟩
  rw [isGap.words_append (by simp), isGap.words_append_right]

theorem words_written (level : Level) (depth : Int) (t : Text) :
    words (Layout.written level depth t) = words t := by
  have lineEnd : IsGap ['\n'] := by decide
  rw [Layout.written]
  split
  · rw [lineEnd.words_append_right, (isGap_tabs depth).words_append_left]
  · rfl

/-- Lines of which none is stray are written with all their words. -/
theorem words_ofLinesAt {ts : List Text} (each : ∀ t ∈ ts, LineText t) (level : Level) (depth : Int)
    (none : (Layout.ofLinesAt level depth ts).skipped = 0) :
    words (Layout.ofLinesAt level depth ts).output = ts.flatMap words := by
  induction ts generalizing depth with
  | nil => simp [Layout.ofLinesAt]
  | cons t ts ih =>
    obtain ⟨here, later⟩ := List.forall_mem_cons.mp each
    rw [Layout.ofLinesAt] at none ⊢
    cases written : Layout.lineText? level depth (Line.classify (Text.trim t)) with
    | none => simp [written] at none
    | some u =>
      simp only [written] at none ⊢
      have kept := (words_lineText? written).trans (words_kept written)
      have ends := (here.trim.endsMark_lineText? written).written level
        ((Line.classify (Text.trim t)).depthAt depth)
      rw [ends.words_append, words_written, ih later _ none, kept, words_trim, List.flatMap_cons]

theorem flatMap_words_pieces (t : Text) : (Text.pieces '\n' t).flatMap words = words t := by
  have joined : ∀ ts : List Text, words (Text.join ['\n'] ts) = ts.flatMap words := by
    intro ts
    fun_induction Text.join ['\n'] ts with
    | case1 => exact words_nil
    | case2 last => simp
    | case3 first others _ ih =>
      have lineEnd : IsGap ['\n'] := by decide
      rw [lineEnd.words_append (by simp), ih, List.flatMap_cons]
  rw [← joined, Text.join_pieces]

theorem words_layout {level : Level} {css : Text} (none : (layout level css).skipped = 0) :
    words (layout level css).output = words (clean css) := by
  have laid : words (layout level css).output = _ := words_ofLinesAt (fun _ => lineText_of_mem) level 0 none
  rw [laid, flatMap_words_pieces, words_trim, (sameWords_segment _).words_eq, (sameWords_settle level _).words_eq]

theorem words_token (level : Level) : words (Token.ofLevel level) = [Token.ofLevel level] := by
  refine words_of_forall (by simp [Token.ofLevel, Token.withDigit, Token.opener]) ?_
  exact List.all_eq_true.mp (by cases level <;> decide)

/-- A stylesheet of which no line is stray is pressed to the words that it has once it is clean, and the
    token. -/
theorem words_minify {source : Text} (filled : ∃ c ∈ source, Text.isBlank c = false) {level : Level}
    (pressed : level ≠ .off) (none : (layout level (Text.trim source)).skipped = 0) :
    words (minify source level) = words (clean (Text.trim source)) ++ [Token.ofLevel level] := by
  rw [minify_of_filled filled pressed]
  rcases endsMark_layout level (Text.trim source) with nothing | ends
  · have same := words_layout none
    rw [nothing] at same ⊢
    rw [← same]
    exact words_token level
  · rw [ends.trimStart.words_append, words_trimStart, words_layout none, words_token]

end Stylepress.Css
