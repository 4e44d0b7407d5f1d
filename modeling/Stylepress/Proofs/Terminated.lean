import Stylepress.Proofs.Fragments
import Stylepress.Proofs.Plain.Layout

/-!
The lines that `low` writes. Before every closing brace of the text that `low` segments stands a semicolon
or another closing brace (`isChain_restoreFrom`), and neighbours on a line are neighbours in that text
(`isChain_of_mem_lines`); so the body of every ruleset ends with a semicolon, whatever the source holds.
Laid out, such a body is one line for each semicolon, and every other line ends with a brace or is a
statement: no line of the output is left without its mark (`low_terminated`).
-/
namespace Stylepress.Css

/-! ### Semicolons before closing braces -/

/-- Neighbours in a text in which every declaration is terminated. -/
def Terminates (c d : Char) : Prop := d = '}' → c = ';' ∨ c = '}'

theorem ended_of_head?_restoreFrom {ended : Bool} {t : Text}
    (first : (Semicolon.restoreFrom ended t).head? = some '}') : ended = true := by
  fun_cases Semicolon.restoreFrom ended t with
  | case1 => cases first
  | case2 rest isEnded => exact isEnded
  | case3 rest notEnded => simp [Semicolon.restoreFrom, notEnded] at first
  | case4 c rest other => simp [Semicolon.restoreFrom, other] at first

theorem isChain_restoreFrom (ended : Bool) (t : Text) :
    (Semicolon.restoreFrom ended t).IsChain Terminates := by
  fun_induction Semicolon.restoreFrom ended t with
  | case1 => exact .nil
  | case2 rest ih => exact List.isChain_cons.mpr ⟨fun _ _ _ => .inr rfl, ih⟩
  | case3 ended rest _ ih =>
    exact List.isChain_cons_cons.mpr ⟨fun _ => .inl rfl, List.isChain_cons.mpr ⟨fun _ _ _ => .inr rfl, ih⟩⟩
  | case4 ended c rest _ ih =>
    refine List.isChain_cons.mpr ⟨?_, ih⟩
    rintro d first rfl
    exact .inl (eq_of_beq (ended_of_head?_restoreFrom first))

/-! ### Texts of terminated lines -/

/-- Every line of a text ends with a brace or a semicolon, blanks aside. -/
def Lined (t : Text) : Prop := ∀ line ∈ Text.pieces '\n' t, EndsMark line

theorem lined_of_not_mem {t : Text} (noBreak : '\n' ∉ t) (ends : EndsMark t) : Lined t := by
  rw [Lined, Text.pieces_of_not_mem noBreak]
  exact List.forall_mem_singleton.mpr ends

theorem Lined.append {a b : Text} (first : Lined a) (second : Lined b) : Lined (a ++ '\n' :: b) := by
  rw [Lined, Text.pieces_append_cons]
  exact List.forall_mem_append.mpr ⟨first, second⟩

/-- What stands before a text on its first line. -/
theorem Lined.behind {a b : Text} (noBreak : '\n' ∉ a) (lined : Lined b) : Lined (a ++ b) := by
  obtain ⟨first, others, cut⟩ := List.exists_cons_of_ne_nil (Text.pieces_ne_nil '\n' b)
  rw [Lined, cut] at lined
  rw [Lined, Text.pieces_append_of_not_mem noBreak cut]
  obtain ⟨here, later⟩ := List.forall_mem_cons.mp lined
  exact List.forall_mem_cons.mpr ⟨here.behind a, later⟩

theorem EndsMark.filled {t : Text} (ends : EndsMark t) : ∃ c ∈ t, Text.isBlank c = false := by
  obtain ⟨front, c, blanks, rfl, mark, _⟩ := ends
  exact ⟨c, by simp, Spacing.isBlank_of_isMark mark⟩

/-- The first line of such a text may be any other one. -/
theorem Lined.exists_first {t : Text} (lined : Lined t) :
    ∃ first rest, t = first ++ rest ∧ '\n' ∉ first ∧ EndsMark first ∧
      ∀ other, '\n' ∉ other → EndsMark other → Lined (other ++ rest) := by
  obtain ⟨first, others, cut⟩ := List.exists_cons_of_ne_nil (Text.pieces_ne_nil '\n' t)
  have absent : ∀ line ∈ first :: others, '\n' ∉ line := fun line member =>
    Text.not_mem_of_mem_pieces (by rwa [cut])
  have shape : t = first ++ others.flatMap (['\n'] ++ ·) := by
    rw [← Text.join_cons, ← cut, Text.join_pieces]
  rw [Lined, cut] at lined
  obtain ⟨here, later⟩ := List.forall_mem_cons.mp lined
  refine ⟨first, _, shape, absent first (by simp), here, ?_⟩
  intro other noBreak ends
  have lines : ∀ line ∈ other :: others, '\n' ∉ line :=
    List.forall_mem_cons.mpr ⟨noBreak, (List.forall_mem_cons.mp absent).2⟩
  rw [Lined, ← Text.join_cons, Text.pieces_join lines]
  exact List.forall_mem_cons.mpr ⟨ends, later⟩

theorem Lined.filled {t : Text} (lined : Lined t) : ∃ c ∈ t, Text.isBlank c = false := by
  obtain ⟨first, rest, rfl, _, ends, _⟩ := lined.exists_first
  obtain ⟨c, member, solid⟩ := ends.filled
  exact ⟨c, List.mem_append_left rest member, solid⟩

theorem Lined.trimStart {t : Text} (lined : Lined t) : Lined (Text.trimStart t) := by
  obtain ⟨first, rest, rfl, noBreak, ends, regrow⟩ := lined.exists_first
  rw [Text.trimStart_append_of_filled ends.filled]
  refine regrow _ ?_ ends.trimStart
  exact fun member => noBreak ((List.dropWhile_sublist Text.isBlank).subset member)

/-! ### Declarations -/

theorem getLast?_respaceCommas (space : Text) {t : Text} (last : t.getLast? = some ';') :
    (Layout.respaceCommas space t).getLast? = some ';' := by
  rw [Layout.respaceCommas]
  induction t using Text.pass_induction (Layout.comma? space) with
  | nil => exact last
  | copy c rest none ih =>
    cases rest with
    | nil => exact last
    | cons d rest =>
      rw [List.getLast?_cons_cons] at last
      rw [List.getLast?_cons, ih last]
      rfl
  | replace c rest edit found ih =>
    obtain ⟨lead, behind, spaces, span, _⟩ := comma?_eq_some found
    -- The semicolon is no part of the comma and its spaces, so it comes behind them.
    have after : (rest.drop edit.tail).getLast? = some ';' := by
      rw [← Text.take_succ_cons_append_drop c rest edit.tail, span, List.getLast?_append] at last
      cases ending : (rest.drop edit.tail).getLast? with
      | some d => simpa [ending] using last
      | none =>
        have inSpan : ';' ∈ lead ++ ',' :: behind := List.mem_of_getLast? (by simpa [ending] using last)
        have space : ';' ∈ lead ++ behind := by simpa using inSpan
        exact absurd (spaces ';' space) (by decide)
    rw [List.getLast?_append, ih after]
    rfl

theorem ne_lineEnd_of_mem_added : ∀ c ∈ Layout.added, c ≠ '\n' := by
  rintro c member rfl
  simp [Layout.added] at member

/-- The declarations of a body that ends with a semicolon are written with one behind each of them. -/
theorem exists_declarations (level : Level) (depth : Int) {front : Text} (noBreak : '\n' ∉ front) :
    ∃ written : List Text, (∀ t ∈ written, '\n' ∉ t) ∧ written ≠ [] ∧
      Layout.declarations level depth (front ++ [';']) =
        Text.join (';' :: Layout.declarationBreak level depth) written ++
          ';' :: Layout.declarationBreak level depth := by
  have oneLine : ∀ c ∈ front ++ [';'], c ≠ '\n' := by
    rintro c member rfl
    simp [noBreak] at member
  have respaced := forall_mem_respaceCommas ne_lineEnd_of_mem_added level oneLine
  obtain ⟨spaced, shape⟩ := exists_front (getLast?_respaceCommas level.space
    (List.getLast?_concat (l := front) (a := ';')))
  have cut : Text.pieces ';' (spaced ++ [';']) = Text.pieces ';' spaced ++ [[]] :=
    Text.pieces_append_cons ';' spaced []
  refine ⟨(Text.pieces ';' spaced).map (Layout.declaration level.space), ?_, by simp [Text.pieces_ne_nil], ?_⟩
  · intro t member
    obtain ⟨piece, inPieces, rfl⟩ := List.mem_map.mp member
    obtain ⟨a, b, whole⟩ := Text.exists_of_mem_pieces inPieces
    have inPiece : ∀ c ∈ piece, c ≠ '\n' := fun c inside => respaced c (by rw [shape, whole]; simp [inside])
    exact fun lineEnd => forall_mem_declaration ne_lineEnd_of_mem_added level inPiece '\n' lineEnd rfl
  · rw [Layout.declarations, shape, cut, List.map_append, List.map_singleton]
    exact Text.join_concat_nil _ (by simp [Text.pieces_ne_nil])

/-- Declarations, each with its semicolon and on a line of its own. -/
theorem lined_join (depth : Int) {written : List Text} (each : ∀ t ∈ written, '\n' ∉ t) (some : written ≠ []) :
    Lined (Text.join (';' :: '\n' :: Layout.tabs depth) written ++ [';']) := by
  have single : ∀ t, '\n' ∉ t → Lined (t ++ [';']) := fun t noBreak =>
    lined_of_not_mem (by simpa using noBreak) (endsMark_concat t (by decide))
  obtain ⟨first, others, rfl⟩ := List.exists_cons_of_ne_nil some
  induction others generalizing first with
  | nil => exact single first (each first (by simp))
  | cons second others ih =>
    obtain ⟨here, later⟩ := List.forall_mem_cons.mp each
    have rest := (ih second later (by simp)).behind (Layout.not_mem_tabs (by decide) depth)
    have lines := (single first here).append rest
    simpa using lines

/-- What trimming leaves of a text that only blanks follow its last semicolon in. -/
theorem trim_semicolon (t : Text) {blanks : Text} (blank : ∀ c ∈ blanks, Text.isBlank c = true) :
    Text.trim (t ++ ';' :: blanks) = Text.trimStart (t ++ [';']) := by
  have around := Text.trim_between (t ++ [';']) (List.forall_mem_nil _) blank
  rw [List.nil_append, List.append_assoc, trim_concat t (by decide)] at around
  rw [Text.trimStart_append_of_head t (by rintro _ ⟨⟩; decide)]
  exact around

/-- A ruleset whose last declaration has its semicolon: selectors and opening brace, a line for each
    declaration, and the closing brace. -/
theorem lined_ruleset (depth : Int) {selectors front : Text} (inSelectors : '\n' ∉ selectors)
    (inFront : '\n' ∉ front) : Lined (Layout.ruleset .low depth selectors (front ++ [';'])) := by
  have head : Lined (Text.trim (Layout.respaceCommas [' '] selectors) ++ [' '] ++ ['{']) := by
    refine lined_of_not_mem ?_ (endsMark_concat _ (by decide))
    have solid : ∀ c ∈ selectors, c ≠ '\n' := by
      rintro c member rfl
      exact inSelectors member
    have respaced := Text.forall_mem_trim (forall_mem_respaceCommas ne_lineEnd_of_mem_added .low solid)
    simp only [List.mem_append, List.mem_singleton, not_or]
    exact ⟨⟨fun member => respaced '\n' member rfl, by decide⟩, by decide⟩
  obtain ⟨written, each, some, shape⟩ := exists_declarations .low depth inFront
  have body : Lined (Text.trim (Layout.declarations .low depth (front ++ [';']))) := by
    rw [shape, trim_semicolon _ fun c => Plain.isBlank_of_mem_declarationBreak]
    exact (lined_join (depth + 1) each some).trimStart
  have foot : Lined (Layout.tabs depth ++ ['}']) :=
    lined_of_not_mem (by simpa using Layout.not_mem_tabs (by decide) depth) (endsMark_concat _ (by decide))
  have lines := head.append ((body.behind (Layout.not_mem_tabs (by decide) (depth + 1))).append foot)
  simpa [Layout.ruleset, Layout.declarationBreak, Layout.closingBreak, Level.breaksDeclarations, Level.space]
    using lines

/-! ### Lines laid out -/

/-- The body of a ruleset whose closing brace is terminated ends with a semicolon, because the line has no
    other closing brace. -/
theorem exists_semicolon {selectors body : Text} (line : LineText (selectors ++ '{' :: body ++ ['}']))
    (terminated : (selectors ++ '{' :: body ++ ['}']).IsChain Terminates) : ∃ front, body = front ++ [';'] := by
  have noClose := line.not_mem_front
  obtain rfl | ⟨front, c, rfl⟩ := List.eq_nil_or_concat body
  · have bare : (selectors ++ '{' :: '}' :: []).IsChain Terminates := by simpa using terminated
    exact absurd ((List.isChain_cons_cons.mp bare.right_of_append).1 rfl) (by decide)
  · have ended : ((selectors ++ '{' :: front) ++ c :: '}' :: []).IsChain Terminates := by simpa using terminated
    rcases (List.isChain_cons_cons.mp ended.right_of_append).1 rfl with rfl | rfl
    · exact ⟨front, List.concat_eq_append⟩
    · simp at noClose

/-- Whatever `low` writes of a line is terminated, if every closing brace of the line is. -/
theorem LineText.lined_lineText? {t u : Text} (line : LineText t) (terminated : t.IsChain Terminates)
    {depth : Int} (written : Layout.lineText? .low depth (Line.classify t) = some u) : Lined u := by
  rcases classify_cases t with ⟨shape, start⟩ | ⟨shape, last⟩ | ⟨header, opened, shape, same, _⟩ |
    ⟨selectors, body, shape, same⟩ | shape
  · rw [shape] at written
    obtain rfl := Option.some.inj written
    rw [line.eq_of_startsWith start]
    exact lined_of_not_mem (by decide) (endsMark_concat [] (by decide))
  · rw [shape] at written
    obtain rfl := Option.some.inj written
    exact lined_of_not_mem line.noBreak (endsMark_of_endsWith (by decide) last)
  · rw [shape] at written
    obtain rfl := Option.some.inj written
    have inHeader : ∀ c ∈ header, c ≠ '\n' := by
      rintro c member rfl
      exact line.noBreak (by rw [same]; simp [member])
    refine lined_of_not_mem ?_ (endsMark_concat _ (by decide))
    exact fun member => forall_mem_opening ne_lineEnd_of_mem_added .low inHeader '\n' member rfl
  · rw [shape] at written
    obtain rfl := Option.some.inj written
    rw [same] at line terminated
    obtain ⟨front, rfl⟩ := exists_semicolon line terminated
    have noBreak := line.noBreak
    exact lined_ruleset depth (fun member => noBreak (by simp [member])) fun member => noBreak (by simp [member])
  · rw [shape] at written
    cases written

/-- Terminated lines are written as terminated lines, each with a line end. -/
theorem lined_ofLinesAt {ts : List Text} (each : ∀ t ∈ ts, LineText t ∧ Text.Trimmed t ∧ t.IsChain Terminates)
    (depth : Int) :
    (Layout.ofLinesAt .low depth ts).output = [] ∨
      ∃ u, (Layout.ofLinesAt .low depth ts).output = u ++ ['\n'] ∧ Lined u := by
  induction ts generalizing depth with
  | nil => exact .inl rfl
  | cons t ts ih =>
    obtain ⟨⟨line, trimmed, terminated⟩, later⟩ := List.forall_mem_cons.mp each
    have rest := ih later ((Line.classify t).depthAfter depth)
    rw [Layout.ofLinesAt, trimmed.trim_eq]
    cases written : Layout.lineText? .low depth (Line.classify t) with
    | none => exact rest
    | some u =>
      have here := (line.lined_lineText? terminated written).behind
        (Layout.not_mem_tabs (by decide) ((Line.classify t).depthAt depth))
      refine .inr ?_
      rcases rest with none | ⟨more, shape, lined⟩
      · exact ⟨_, by simp [none, Layout.written, Level.keepsLayout], here⟩
      · exact ⟨_, by simp [shape, Layout.written, Level.keepsLayout], here.append lined⟩

theorem lined_layout (css : Text) :
    (layout .low css).output = [] ∨ ∃ u, (layout .low css).output = u ++ ['\n'] ∧ Lined u := by
  rw [layout, output_layoutOf]
  refine lined_ofLinesAt ?_ 0
  intro line member
  have chain : (Semicolon.settle .low (clean css)).IsChain Terminates := isChain_restoreFrom false _
  exact ⟨lineText_of_mem_lines member, trimmed_of_mem_lines member,
    isChain_of_mem_lines (not_mem_settle (not_mem_clean css) .low) chain member⟩

theorem EndsMark.getLast?_trim {t : Text} (ends : EndsMark t) :
    ∃ c ∈ (Text.trim t).getLast?, c = '{' ∨ c = '}' ∨ c = ';' := by
  obtain ⟨front, c, blanks, rfl, mark, blank⟩ := ends
  have solid := Spacing.isBlank_of_isMark mark
  have around := Text.trim_between (front ++ [c]) (List.forall_mem_nil _) blank
  rw [List.nil_append, List.append_assoc, trim_concat front solid] at around
  refine ⟨c, ?_, by simpa [Spacing.isMark, or_assoc] using mark⟩
  rw [show front ++ c :: blanks = front ++ ([c] ++ blanks) from rfl, around]
  exact List.getLast?_concat

/-- Every line that `low` writes before the token ends with a brace or a semicolon, blanks aside; none is
    blank, and the last one has its line end. -/
theorem low_terminated {source : Text} (filled : ∃ c ∈ source, Text.isBlank c = false) :
    ∃ body written, minify source .low = body ++ Token.ofLevel .low ∧
      Text.pieces '\n' body = written ++ [[]] ∧
      ∀ line ∈ written, ∃ c ∈ (Text.trim line).getLast?, c = '{' ∨ c = '}' ∨ c = ';' := by
  refine ⟨Text.trimStart (layout .low (Text.trim source)).output, ?_⟩
  rcases lined_layout (Text.trim source) with none | ⟨u, shape, lined⟩
  · exact ⟨[], minify_of_filled filled (by decide), by rw [none]; rfl, List.forall_mem_nil _⟩
  · refine ⟨Text.pieces '\n' (Text.trimStart u), minify_of_filled filled (by decide), ?_, ?_⟩
    · rw [shape, Text.trimStart_append_of_filled lined.filled]
      exact Text.pieces_append_cons '\n' _ []
    · exact fun line member => (lined.trimStart line member).getLast?_trim

/-- A block that is never left, with a comma before a semicolon and text behind the last ruleset. -/
def brokenSource : Text := ['x', '{', 'a', '{', 'b', ':', 'c', ',', ';', 'd', '}', ' ', 'e', ':', 'f']

theorem low_terminated_broken :
    (∃ c ∈ brokenSource, Text.isBlank c = false) ∧
      ∃ body written, minify brokenSource .low = body ++ Token.ofLevel .low ∧
        Text.pieces '\n' body = written ++ [[]] ∧
        ∀ line ∈ written, ∃ c ∈ (Text.trim line).getLast?, c = '{' ∨ c = '}' ∨ c = ';' := by
  have filled : ∃ c ∈ brokenSource, Text.isBlank c = false := ⟨'x', by decide, by decide⟩
  exact ⟨filled, low_terminated filled⟩

end Stylepress.Css
