import Stylepress.Proofs.Balance

/-!
Two levels side by side. `medium` and `high` cut a stylesheet into the same lines and write the same text
for each of them; only the indentation and the line ends of `medium` are missing in `high`
(`exists_fragments`, `output_layout_high`). A line writes no character but its own and those of
`Layout.added` (`forall_mem_lineText?`), so the only blanks in it are spaces.
-/
namespace Stylepress.Css

/-! ### The lines of a segmented text -/

theorem exists_of_mem_lines {t line : Text} (member : line ∈ lines t) : ∃ a b, t = a ++ line ++ b := by
  obtain ⟨_, piece, inPieces, rfl⟩ := mem_lines.mp member
  obtain ⟨a, b, whole⟩ := Text.exists_of_mem_pieces inPieces
  obtain ⟨before, after, shape⟩ := Text.exists_trim piece
  refine ⟨a ++ before, after ++ b, ?_⟩
  rw [whole, congrArg (a ++ · ++ b) shape]
  simp

theorem trimmed_of_mem_lines {t line : Text} (member : line ∈ lines t) : Text.Trimmed line := by
  obtain ⟨_, piece, _, rfl⟩ := mem_lines.mp member
  exact Text.trimmed_trim piece

theorem lineText_of_mem_lines {css line : Text} (member : line ∈ lines (Segment.segment css)) :
    LineText line := by
  obtain ⟨_, piece, inPieces, rfl⟩ := mem_lines.mp member
  exact (lineText_of_mem_pieces (closed_segment css) inPieces).trim

theorem filter_segment_eq {css : Text} (noBreak : '\n' ∉ css) :
    (Segment.segment css).filter (· != '\n') = css := by
  rw [filter_segment rfl, List.filter_eq_self]
  intro c member
  have other : c ≠ '\n' := fun same => noBreak (same ▸ member)
  simpa using other

/-- What holds of neighbours in a text holds of neighbours on each of its lines. -/
theorem isChain_of_mem_lines {R : Char → Char → Prop} {css line : Text} (noBreak : '\n' ∉ css)
    (chain : css.IsChain R) (member : line ∈ lines (Segment.segment css)) : line.IsChain R := by
  rw [← filter_segment_eq noBreak] at chain
  have parted := Text.isChain_of_filter chain
  obtain ⟨a, b, shape⟩ := exists_of_mem_lines member
  rw [shape] at parted
  have inLine := parted.left_of_append.right_of_append
  have oneLine := (lineText_of_mem_lines member).noBreak
  rw [List.isChain_iff_forall_rel_of_append_cons_cons] at inLine ⊢
  rintro c d before after rfl
  have ends : c ≠ '\n' ∧ d ≠ '\n' := by
    constructor <;> rintro rfl <;> simp at oneLine
  exact inLine rfl (by simpa using ends.1) (by simpa using ends.2)

/-! ### The characters of a line -/

/-- The characters that laying out may add to a line. -/
def Layout.added : Text := [' ', ',', ':', ';', '(', ')', '{', '}']

theorem dropLastSpace_sublist (t : Text) : (Layout.dropLastSpace t).Sublist t := by
  rw [Layout.dropLastSpace]
  split
  · exact List.dropLast_sublist t
  · exact List.Sublist.refl t

theorem dropFirstSpace_sublist (t : Text) : (Layout.dropFirstSpace t).Sublist t := by
  unfold Layout.dropFirstSpace
  split
  · exact List.sublist_cons_self _ _
  · exact List.Sublist.refl t

section
variable {P : Char → Prop} (own : ∀ c ∈ Layout.added, P c)
include own

theorem forall_mem_space (level : Level) : ∀ c ∈ level.space, P c := by
  have space : P ' ' := own ' ' (by decide)
  cases level <;> simp [Level.space, space]

theorem forall_mem_declaration (level : Level) {t : Text} (each : ∀ c ∈ t, P c) :
    ∀ c ∈ Layout.declaration level.space t, P c := by
  rw [Layout.declaration]
  split
  · next property value found =>
    obtain ⟨_, rfl⟩ := Text.splitFirst_eq_some_iff.mp found
    obtain ⟨before, rest⟩ := List.forall_mem_append.mp each
    obtain ⟨colon, behind⟩ := List.forall_mem_cons.mp rest
    simp only [List.mem_append, List.mem_cons]
    rintro c ((inside | rfl | inside) | inside)
    · exact before c ((dropLastSpace_sublist property).subset inside)
    · exact colon
    · exact forall_mem_space own level c inside
    · exact behind c ((dropFirstSpace_sublist value).subset inside)
  · exact each

theorem forall_mem_respaceCommas (level : Level) {t : Text} (each : ∀ c ∈ t, P c) :
    ∀ c ∈ Layout.respaceCommas level.space t, P c := by
  refine Text.forall_mem_pass ?_ each
  intro t edit found _
  obtain ⟨_, _, _, _, image⟩ := comma?_eq_some found
  rw [image]
  exact List.forall_mem_cons.mpr ⟨own ',' (by decide), forall_mem_space own level⟩

theorem forall_mem_respace (level : Level) {t : Text} (each : ∀ c ∈ t, P c) :
    ∀ c ∈ Condition.respace level.space t, P c := by
  refine Text.forall_mem_pass ?_ each
  intro t edit found inText
  have inSpan : ∀ c ∈ t.take (edit.tail + 1), P c := fun c member => inText c (List.mem_of_mem_take member)
  rcases respacing?_eq_some found with same | ⟨condition, lead, gap, inner, word, last, span, image, read⟩
  · rwa [same]
  · rw [span] at inSpan
    have inValue : ∀ c ∈ condition.value, P c := by
      intro c member
      rcases read.value with same | ⟨_, inside⟩
      · exact inSpan c (by simp [← same, member])
      · exact inSpan c (by simp [inside.subset member])
    have inFeature : ∀ c ∈ condition.feature, P c := fun c member => inSpan c (by simp [member])
    simp only [image, Condition.write, List.mem_append, List.mem_cons, List.not_mem_nil,
      or_false]
    rintro c (((((rfl | rfl) | inside) | rfl | inside) | inside) | (rfl | rfl))
    · exact own ' ' (by decide)
    · exact own '(' (by decide)
    · exact inFeature c inside
    · exact own ':' (by decide)
    · exact forall_mem_space own level c inside
    · exact inValue c inside
    · exact own ')' (by decide)
    · exact own ' ' (by decide)

theorem forall_mem_declarations {depth : Int} {t : Text} (each : ∀ c ∈ t, P c) :
    ∀ c ∈ Layout.declarations .medium depth t, P c := by
  refine Text.forall_mem_join (List.forall_mem_singleton.mpr (own ';' (by decide))) ?_
  intro u member
  obtain ⟨piece, inPieces, rfl⟩ := List.mem_map.mp member
  obtain ⟨a, b, shape⟩ := Text.exists_of_mem_pieces inPieces
  have all := forall_mem_respaceCommas own .medium each
  refine forall_mem_declaration own .medium ?_
  intro c inside
  exact all c (by rw [shape]; simp [inside])

theorem forall_mem_opening (level : Level) {header : Text} (each : ∀ c ∈ header, P c) :
    ∀ c ∈ Layout.opening level header, P c := by
  simp only [Layout.opening, List.mem_append, List.mem_singleton]
  rintro c ((inside | inside) | rfl)
  · exact Text.forall_mem_trim (forall_mem_respace own level each) c inside
  · exact forall_mem_space own level c inside
  · exact own '{' (by decide)

theorem forall_mem_ruleset {selectors body : Text} (depth : Int) (chosen : ∀ c ∈ selectors, P c)
    (declared : ∀ c ∈ body, P c) : ∀ c ∈ Layout.ruleset .medium depth selectors body, P c := by
  have breaks : Layout.declarationBreak .medium depth = [] ∧ Layout.closingBreak .medium depth = [] :=
    ⟨rfl, rfl⟩
  simp only [Layout.ruleset, breaks, List.append_nil, List.mem_append, List.mem_cons, List.not_mem_nil,
    or_false]
  rintro c ((((inside | inside) | rfl) | inside) | rfl)
  · exact Text.forall_mem_trim (forall_mem_respaceCommas own .medium chosen) c inside
  · exact forall_mem_space own .medium c inside
  · exact own '{' (by decide)
  · exact Text.forall_mem_trim (forall_mem_declarations own declared) c inside
  · exact own '}' (by decide)

/-- A line writes no character but its own and those that laying out adds. -/
theorem forall_mem_lineText? {shape : Line} {u : Text} {depth : Int} (each : ∀ c ∈ shape.kept, P c)
    (written : Layout.lineText? .medium depth shape = some u) : ∀ c ∈ u, P c := by
  cases shape with
  | leaving t =>
    obtain rfl := Option.some.inj written
    exact each
  | statement t =>
    obtain rfl := Option.some.inj written
    exact each
  | opening header =>
    obtain rfl := Option.some.inj written
    exact forall_mem_opening own .medium (List.forall_mem_append.mp each).1
  | ruleset selectors body =>
    obtain rfl := Option.some.inj written
    obtain ⟨before, _⟩ := List.forall_mem_append.mp each
    obtain ⟨chosen, rest⟩ := List.forall_mem_append.mp before
    exact forall_mem_ruleset own depth chosen (List.forall_mem_cons.mp rest).2
  | stray t => cases written

end

/-- Of a line nothing is written that it does not hold, in its order. -/
theorem kept_sublist (t : Text) : (kept t).Sublist t := by
  rw [kept]
  rcases classify_cases t with ⟨shape, _⟩ | ⟨shape, _⟩ | ⟨header, opened, shape, same, _⟩ |
    ⟨selectors, body, shape, same⟩ | shape
  · rw [shape, Line.kept]
  · rw [shape, Line.kept]
  · rw [shape, Line.kept, same]
    exact (List.sublist_append_left header opened).append (List.Sublist.refl ['{'])
  · rw [shape, Line.kept, ← same]
  · rw [shape, Line.kept]
    exact List.nil_sublist t

/-! ### Fragments -/

/-- What is written of a line, without a line end, and how deep it stands. -/
structure Fragment where
  depth : Nat
  text : Text
  spaces : ∀ c ∈ text, Text.isBlank c = true → c = ' '
  start : ∃ c ∈ text.head?, Text.isBlank c = false

/-- A fragment on a line of its own. -/
def Fragment.indented (fragment : Fragment) : Text :=
  List.replicate fragment.depth '\t' ++ fragment.text ++ ['\n']

theorem eq_space_of_mem_added : ∀ c ∈ Layout.added, Text.isBlank c = true → c = ' ' := by
  simp only [Layout.added, List.forall_mem_cons, List.not_mem_nil, false_implies, implies_true, and_true]
  decide

theorem lineText?_high (depth : Int) (shape : Line) :
    Layout.lineText? .high depth shape = Layout.lineText? .medium depth shape := by
  cases shape <;> rfl

/-- A line of which nothing is written leaves the depth as it is. -/
theorem depthAfter_of_lineText? {level : Level} {depth : Int} {shape : Line}
    (unwritten : Layout.lineText? level depth shape = none) : shape.depthAfter depth = depth := by
  cases shape with
  | stray t => rfl
  | _ => cases unwritten

theorem exists_head_trim_append (t : Text) {c : Char} (solid : Text.isBlank c = false) (rest : Text) :
    ∃ d ∈ (Text.trim t ++ c :: rest).head?, Text.isBlank d = false := by
  have first := (Text.trimmed_trim t).head
  cases shape : Text.trim t with
  | nil => exact ⟨c, rfl, solid⟩
  | cons d more =>
    rw [shape] at first
    exact ⟨d, rfl, first d rfl⟩

/-- Whatever is written of a line starts with a character that is not blank. -/
theorem exists_head_lineText? {t u : Text} {depth : Int} (trimmed : Text.Trimmed t)
    (written : Layout.lineText? .medium depth (Line.classify t) = some u) :
    ∃ c ∈ u.head?, Text.isBlank c = false := by
  rcases classify_cases t with ⟨shape, start⟩ | ⟨shape, last⟩ | ⟨header, _, shape, _, _⟩ |
    ⟨selectors, body, shape, _⟩ | shape
  · rw [shape] at written
    obtain rfl := Option.some.inj written
    exact ⟨'}', by simpa [Text.startsWith] using start, by decide⟩
  · rw [shape] at written
    obtain rfl := Option.some.inj written
    cases t with
    | nil => cases last
    | cons c rest => exact ⟨c, rfl, trimmed.head c rfl⟩
  · rw [shape] at written
    obtain rfl := Option.some.inj written
    rw [Layout.opening, List.append_assoc]
    exact exists_head_trim_append _ (by decide) _
  · rw [shape] at written
    obtain rfl := Option.some.inj written
    rw [Layout.ruleset]
    simp only [List.append_assoc, List.cons_append]
    exact exists_head_trim_append _ (by decide) _
  · rw [shape] at written
    cases written

/-- Lines whose only blanks are spaces are laid out in the same fragments by both levels; the first one
    stands no deeper than the lines before it leave the depth. -/
theorem exists_fragments {ts : List Text} (spaces : ∀ t ∈ ts, ∀ c ∈ t, Text.isBlank c = true → c = ' ')
    (depth : Int) :
    ∃ fragments : List Fragment,
      (Layout.ofLinesAt .medium depth ts).output = fragments.flatMap Fragment.indented ∧
      (Layout.ofLinesAt .high depth ts).output = fragments.flatMap Fragment.text ∧
      ∀ fragment ∈ fragments.head?, fragment.depth ≤ depth.toNat := by
  induction ts generalizing depth with
  | nil => exact ⟨[], rfl, rfl, by simp⟩
  | cons t ts ih =>
    obtain ⟨here, later⟩ := List.forall_mem_cons.mp spaces
    obtain ⟨fragments, medium, high, first⟩ := ih later ((Line.classify (Text.trim t)).depthAfter depth)
    rw [Layout.ofLinesAt, Layout.ofLinesAt, lineText?_high]
    cases written : Layout.lineText? .medium depth (Line.classify (Text.trim t)) with
    | none =>
      rw [depthAfter_of_lineText? written] at medium high first ⊢
      exact ⟨fragments, medium, high, first⟩
    | some u =>
      have fromLine : ∀ c ∈ kept (Text.trim t), Text.isBlank c = true → c = ' ' := fun c member =>
        Text.forall_mem_trim here c ((kept_sublist _).subset member)
      let fragment : Fragment :=
        ⟨((Line.classify (Text.trim t)).depthAt depth).toNat, u,
          forall_mem_lineText? eq_space_of_mem_added fromLine written,
          exists_head_lineText? (Text.trimmed_trim t) written⟩
      refine ⟨fragment :: fragments, ?_, ?_, ?_⟩
      · simp [medium, Layout.written, Fragment.indented, fragment, Layout.tabs, Level.keepsLayout]
      · simp [high, Layout.written, fragment, Level.keepsLayout]
      · rintro _ ⟨⟩
        show ((Line.classify (Text.trim t)).depthAt depth).toNat ≤ depth.toNat
        cases Line.classify (Text.trim t) <;> simp only [Line.depthAt] <;> omega

/-! ### Lines above `low` -/

/-- What the levels above `low` write of a line. -/
def Line.text (line : Line) : Text := (Layout.lineText? .medium 0 line).getD []

def Line.isStray : Line → Bool
  | .stray _ => true
  | _ => false

theorem Line.text_opening (header : Text) :
    (Line.opening header).text = Text.trim (Condition.respace [] header) ++ ['{'] := by
  simp [Line.text, Layout.lineText?, Layout.opening, Level.space]

theorem Line.text_ruleset (selectors body : Text) :
    (Line.ruleset selectors body).text =
      Text.trim (Layout.respaceCommas [] selectors) ++ '{' :: Text.trim (Layout.declarations .medium 0 body) ++
        ['}'] := by
  simp [Line.text, Layout.lineText?, Layout.ruleset, Layout.declarationBreak, Layout.closingBreak,
    Level.breaksDeclarations, Level.space]

/-- The shapes of the lines that are written, in order. -/
def shapes (ts : List Text) : List Line := (ts.map Line.classify).filter fun line => !line.isStray

theorem lineText?_text (depth : Int) (line : Line) :
    Layout.lineText? .medium depth line = if line.isStray then none else some line.text := by
  cases line <;> rfl

/-- `high` writes the lines one after the other. -/
theorem output_high {ts : List Text} (trimmed : ∀ t ∈ ts, Text.Trimmed t) (depth : Int) :
    (Layout.ofLinesAt .high depth ts).output = (shapes ts).flatMap Line.text := by
  induction ts generalizing depth with
  | nil => rfl
  | cons t ts ih =>
    obtain ⟨here, later⟩ := List.forall_mem_cons.mp trimmed
    have rest := ih later ((Line.classify t).depthAfter depth)
    rw [Layout.ofLinesAt, here.trim_eq, lineText?_high, lineText?_text]
    cases stray : (Line.classify t).isStray with
    | true => simpa [shapes, stray] using rest
    | false => simpa [shapes, stray, Layout.written, Level.keepsLayout] using rest

/-- The lines that the levels above `low` write of a source. -/
def writtenLines (source : Text) : List Line := shapes (lines (segmented .medium (Text.trim source)))

theorem output_layout_high (source : Text) :
    (layout .high (Text.trim source)).output = (writtenLines source).flatMap Line.text := by
  rw [layout, output_layoutOf]
  exact output_high (fun t => trimmed_of_mem_lines) 0

/-! ### Pressing -/

/-- The only blanks in the lines of a segmented stylesheet are spaces. -/
theorem eq_space_of_mem_line {css line : Text} {c : Char}
    (member : line ∈ Text.pieces '\n' (Text.trim (segmented .medium css))) (inside : c ∈ line)
    (blank : Text.isBlank c = true) : c = ' ' := by
  have notEnd : c ≠ '\n' := by
    rintro rfl
    exact Text.not_mem_of_mem_pieces member inside
  obtain ⟨a, b, shape⟩ := Text.exists_of_mem_pieces member
  obtain ⟨before, after, whole⟩ := Text.exists_trim (segmented .medium css)
  have inText : c ∈ segmented .medium css := by
    rw [whole, shape]
    simp [inside]
  have kept := filter_segment (p := (· != '\n')) rfl (Semicolon.settle .medium (clean css))
  have settled : c ∈ Semicolon.settle .medium (clean css) := by
    have found : c ∈ (segmented .medium css).filter (· != '\n') := by simp [inText, notEnd]
    rw [segmented, kept] at found
    exact List.mem_of_mem_filter found
  exact eq_space_of_mem_clean (mem_drop settled) blank

theorem Fragment.sublist_indented (fragment : Fragment) : fragment.text.Sublist fragment.indented :=
  (List.sublist_append_right _ _).trans (List.sublist_append_left _ _)

theorem sublist_flatMap_indented (fragments : List Fragment) :
    (fragments.flatMap Fragment.text).Sublist (fragments.flatMap Fragment.indented) := by
  induction fragments with
  | nil => exact List.Sublist.refl _
  | cons fragment fragments ih => exact (fragment.sublist_indented).append ih

/-- A text that starts with a fragment starts with no blank. -/
theorem Fragment.trimStart_append (fragment : Fragment) (rest : Text) :
    Text.trimStart (fragment.text ++ rest) = fragment.text ++ rest := by
  obtain ⟨c, first, solid⟩ := fragment.start
  obtain ⟨more, shape⟩ := List.head?_eq_some_iff.mp first
  rw [shape, List.cons_append, Text.trimStart, List.dropWhile_cons_of_neg (by simp [solid])]

theorem trimStart_flatMap_text (fragments : List Fragment) :
    Text.trimStart (fragments.flatMap Fragment.text) = fragments.flatMap Fragment.text := by
  cases fragments with
  | nil => rfl
  | cons fragment fragments => exact fragment.trimStart_append _

theorem trimStart_flatMap_indented {fragments : List Fragment}
    (first : ∀ fragment ∈ fragments.head?, fragment.depth ≤ 0) :
    Text.trimStart (fragments.flatMap Fragment.indented) = fragments.flatMap Fragment.indented := by
  cases fragments with
  | nil => rfl
  | cons fragment fragments =>
    have outermost : fragment.depth = 0 := Nat.le_zero.mp (first fragment rfl)
    rw [List.flatMap_cons, Fragment.indented, outermost, List.replicate_zero, List.nil_append,
      List.append_assoc]
    exact fragment.trimStart_append _

/-- `medium` writes fragments, each on a line of its own and indented, and `high` writes the same fragments
    one after the other. So `high` gives a single line, whose only blanks are spaces, and never more blanks
    than `medium`. -/
theorem medium_high_fragments {source : Text} (filled : ∃ c ∈ source, Text.isBlank c = false) :
    ∃ fragments : List Fragment,
      (∀ fragment ∈ fragments, ∀ c ∈ fragment.text, Text.isVertical c = false) ∧
      minify source .medium = fragments.flatMap Fragment.indented ++ Token.ofLevel .medium ∧
      minify source .high = fragments.flatMap Fragment.text ++ Token.ofLevel .high ∧
      (∀ c ∈ minify source .high, Text.isBlank c = true → c = ' ') ∧
      (minify source .high).countP Text.isBlank ≤ (minify source .medium).countP Text.isBlank := by
  have spaces : ∀ line ∈ Text.pieces '\n' (Text.trim (segmented .medium (Text.trim source))),
      ∀ c ∈ line, Text.isBlank c = true → c = ' ' := fun line member c => eq_space_of_mem_line member
  obtain ⟨fragments, medium, high, first⟩ := exists_fragments spaces 0
  have mediumSigned : minify source .medium = _ :=
    (minify_of_filled filled (by decide)).trans
      (congrArg (Text.trimStart · ++ Token.ofLevel .medium) medium)
  have highSigned : minify source .high = _ :=
    (minify_of_filled filled (by decide)).trans (congrArg (Text.trimStart · ++ Token.ofLevel .high) high)
  rw [trimStart_flatMap_indented first] at mediumSigned
  rw [trimStart_flatMap_text] at highSigned
  refine ⟨fragments, ?_, mediumSigned, highSigned, ?_, ?_⟩
  · intro fragment _ c member
    by_contra vertical
    have space := fragment.spaces c member ((Text.isBlank_iff c).mpr (.inl (by simpa using vertical)))
    rw [space] at vertical
    exact vertical (by decide)
  · rw [highSigned]
    intro c member blank
    rcases List.mem_append.mp member with inside | inToken
    · obtain ⟨fragment, _, inText⟩ := List.mem_flatMap.mp inside
      exact fragment.spaces c inText blank
    · have solid : (Token.ofLevel .high).all (fun d => !Text.isBlank d) = true := by decide
      simpa [blank] using List.all_eq_true.mp solid c inToken
  · have mediumToken : (Token.ofLevel .medium).countP Text.isBlank = 0 := by decide
    have highToken : (Token.ofLevel .high).countP Text.isBlank = 0 := by decide
    rw [mediumSigned, highSigned, List.countP_append, List.countP_append, mediumToken, highToken]
    exact (sublist_flatMap_indented fragments).countP_le

/-- A block with a stray line in it, left once too often. -/
def strayedSource : Text :=
  ['@', 'm', '{', 'a', ' ', 'b', '{', 'c', ':', 'd', ' ', 'e', '}', 'f', '}', '}', 'g', '{', 'h', ':', 'i', '}']

theorem medium_high_fragments_strayed :
    (∃ c ∈ strayedSource, Text.isBlank c = false) ∧
      ∃ fragments : List Fragment,
        minify strayedSource .medium = fragments.flatMap Fragment.indented ++ Token.ofLevel .medium ∧
        minify strayedSource .high = fragments.flatMap Fragment.text ++ Token.ofLevel .high := by
  have filled : ∃ c ∈ strayedSource, Text.isBlank c = false := ⟨'@', by decide, by decide⟩
  obtain ⟨fragments, _, medium, high, _⟩ := medium_high_fragments filled
  exact ⟨filled, fragments, medium, high⟩

end Stylepress.Css
