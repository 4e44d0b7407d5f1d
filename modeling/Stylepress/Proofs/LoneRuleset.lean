import Stylepress.Proofs.Accounts
import Stylepress.Proofs.Compact
import Stylepress.Proofs.Plain.Segmentation

/-!
A ruleset on its own that has no blanks. Nothing is cleaned out of it and nothing divides it, whatever commas,
colons and semicolons its declarations hold, so it comes to the layout as one line (`Lone.output_layout`); and
above `low` it is written as it is (`Lone.infix_minify`).
-/
namespace Stylepress.Css

/-- The characters of a ruleset that nothing is cleaned out of. -/
def isBare (c : Char) : Bool :=
  !Plain.isSpacing c && !(c == '{' || c == '}' || c == '@' || c == '*')

theorem isBare_iff {c : Char} :
    isBare c = true ↔ Plain.isSpacing c = false ∧ c ≠ '{' ∧ c ≠ '}' ∧ c ≠ '@' ∧ c ≠ '*' := by
  simp [isBare, and_assoc]

theorem isBlank_of_isBare {c : Char} (bare : isBare c = true) : Text.isBlank c = false :=
  Plain.isBlank_of_not_isSpacing (isBare_iff.mp bare).1

/-- The parts of a ruleset without blanks, of which the last declaration has no semicolon. -/
structure Lone where
  selectors : Text
  body : Text
  chosen : selectors ≠ []
  declared : body ≠ []
  bareSelectors : ∀ c ∈ selectors, isBare c = true
  bareBody : ∀ c ∈ body, isBare c = true
  last : body.getLast? ≠ some ';'

namespace Lone
variable (lone : Lone)

/-- The ruleset, with some declarations. -/
def around (declarations : Text) : Text := lone.selectors ++ '{' :: declarations ++ ['}']

def text : Text := lone.around lone.body

/-- The declarations with the semicolon that a level wants behind the last one. -/
def settled (level : Level) : Text := if level.keepsLastSemicolon then lone.body ++ [';'] else lone.body

theorem not_mem_selectors {c : Char} (other : isBare c = false) : c ∉ lone.selectors := by
  intro member
  simp [lone.bareSelectors c member] at other

theorem not_mem_body {c : Char} (other : isBare c = false) : c ∉ lone.body := by
  intro member
  simp [lone.bareBody c member] at other

theorem not_mem_settled (level : Level) {c : Char} (other : isBare c = false) : c ∉ lone.settled level := by
  have noSemicolon : c ≠ ';' := by
    rintro rfl
    exact absurd other (by decide)
  rw [settled]
  split
  · simpa [noSemicolon] using lone.not_mem_body other
  · exact lone.not_mem_body other

theorem mem_text {c : Char} (member : c ∈ lone.text) : isBare c = true ∨ c = '{' ∨ c = '}' := by
  simp only [text, around, List.append_assoc, List.cons_append, List.mem_append, List.mem_cons, List.not_mem_nil,
    or_false] at member
  rcases member with inside | rfl | inside | rfl
  · exact .inl (lone.bareSelectors c inside)
  · exact .inr (.inl rfl)
  · exact .inl (lone.bareBody c inside)
  · exact .inr (.inr rfl)

theorem isSpacing_of_mem_text {c : Char} (member : c ∈ lone.text) : Plain.isSpacing c = false := by
  rcases lone.mem_text member with bare | rfl | rfl
  · exact (isBare_iff.mp bare).1
  · decide
  · decide

end Lone

theorem collapse_of_not_isHorizontal {t : Text} (none : ∀ c ∈ t, Text.isHorizontal c = false) :
    Spacing.collapse t = t := by
  induction t with
  | nil => rfl
  | cons c t ih =>
    obtain ⟨here, later⟩ := List.forall_mem_cons.mp none
    rw [Spacing.collapse, here, if_neg (by simp), ih later]

theorem tightenFrom_of_not_mem (afterMark : Bool) {t : Text} (noSpace : ' ' ∉ t) :
    Spacing.tightenFrom afterMark t = t := by
  induction t generalizing afterMark with
  | nil => rfl
  | cons c t ih =>
    have other : c ≠ ' ' := fun same => noSpace (by simp [same])
    rw [Spacing.tightenFrom, if_neg (by simp [other]), ih _ fun member => noSpace (List.mem_cons_of_mem c member)]

namespace Lone
variable (lone : Lone)

theorem strip_text : Comment.strip lone.text = lone.text := by
  have noStar : '*' ∉ lone.text := by
    intro member
    rcases lone.mem_text member with bare | same | same
    · exact absurd bare (by decide)
    · exact absurd same (by decide)
    · exact absurd same (by decide)
  have nothing : ([] : Text).head? ≠ some '*' := by decide
  simpa [Comment.strip] using Plain.strip_append noStar nothing

theorem bodied_text : Plain.Bodied lone.text := by
  have solid : ∃ c ∈ lone.body, Text.isBlank c = false := by
    obtain ⟨c, rest, shape⟩ := List.exists_cons_of_ne_nil lone.declared
    exact ⟨c, by simp [shape], isBlank_of_isBare (lone.bareBody c (by simp [shape]))⟩
  rw [text, around, List.append_assoc]
  refine Plain.bodied_append (lone.not_mem_selectors (by decide)) ?_
  refine Plain.bodied_cons (Plain.hasBody_append (lone.not_mem_body (by decide)) solid _) ?_
  refine Plain.bodied_append (lone.not_mem_body (by decide)) ?_
  intro before after shape
  cases before <;> simp at shape

/-- Cleaning changes nothing. -/
theorem clean_text : clean lone.text = lone.text := by
  have spacing : ∀ c ∈ lone.text, Text.isVertical c = false ∧ Text.isHorizontal c = false := fun c member =>
    Bool.or_eq_false_iff.mp (lone.isSpacing_of_mem_text member)
  have joined : Spacing.joinLines lone.text = lone.text := by
    refine List.filter_eq_self.mpr ?_
    intro c member
    simp [(spacing c member).1]
  have collapsed : Spacing.collapse lone.text = lone.text :=
    collapse_of_not_isHorizontal fun c member => (spacing c member).2
  have tight : Spacing.tighten lone.text = lone.text := by
    refine tightenFrom_of_not_mem false ?_
    intro member
    exact absurd (lone.isSpacing_of_mem_text member) (by decide)
  rw [clean, lone.strip_text, Plain.strip_of_bodied lone.bodied_text, joined, collapsed, tight]

theorem settle_text (level : Level) : Semicolon.settle level lone.text = lone.around (lone.settled level) := by
  have noClose : '}' ∉ lone.selectors ++ '{' :: lone.body := by
    have chosen := lone.not_mem_selectors (c := '}') (by decide)
    have declared := lone.not_mem_body (c := '}') (by decide)
    simp [chosen, declared]
  have ending : (lone.selectors ++ '{' :: lone.body).getLast? = lone.body.getLast? := by
    rw [List.getLast?_append, List.getLast?_cons, List.getLast?_eq_some_getLast lone.declared]
    rfl
  rw [Semicolon.settle, settled]
  split
  · have open? : (lone.selectors ++ '{' :: lone.body).endsWith ';' = false := by
      rw [Text.endsWith, ending, beq_eq_false_iff_ne]
      exact lone.last
    rw [Semicolon.restore, text, around, Plain.restoreFrom_append noClose (by simp), open?]
    simp [around, Semicolon.restoreFrom]
  · rw [text, around, Plain.drop_append noClose fun same => absurd (ending.symm.trans same) lone.last]
    rfl

theorem not_mem_around {declarations : Text} {c : Char} (other : isBare c = false) (outside : c ∉ declarations)
    (noOpen : c ≠ '{') (noClose : c ≠ '}') : c ∉ lone.around declarations := by
  simp [around, lone.not_mem_selectors other, outside, noOpen, noClose]

/-- A ruleset on its own stays on one line. -/
theorem segment_around {declarations : Text} (noOpen : '{' ∉ declarations) (noClose : '}' ∉ declarations)
    (noAt : '@' ∉ declarations) (noBreak : '\n' ∉ declarations) :
    Segment.segment (lone.around declarations) = lone.around declarations ++ ['\n'] := by
  have unstated : Segment.afterStatements (lone.around declarations) = lone.around declarations := by
    have whole : '@' ∉ lone.around declarations := lone.not_mem_around (by decide) noAt (by decide) (by decide)
    simpa [Segment.afterStatements] using Plain.afterStatements_append whole []
  have closed : Segment.afterClosings (lone.around declarations) = lone.around declarations ++ ['\n'] := by
    have before : '}' ∉ lone.selectors ++ '{' :: declarations := by
      simp [lone.not_mem_selectors (c := '}') (by decide), noClose]
    rw [around, Plain.afterClosings_append, Plain.afterClosings_of_not_mem before]
    simp [Segment.afterClosings]
  have single : Segment.nestLine (lone.around declarations) = lone.around declarations := by
    have behind : '{' ∉ declarations ++ ['}'] := by simp [noOpen]
    simpa [around] using Plain.nestLine_single (lone.not_mem_selectors (c := '{') (by decide)) behind
  rw [Segment.segment, unstated, closed,
    Plain.beforeNested_line (lone.not_mem_around (by decide) noBreak (by decide) (by decide)), single]
  rfl

theorem classify_around {declarations : Text} (filled : declarations ≠ []) (noClose : '}' ∉ declarations) :
    Line.classify (lone.around declarations) = .ruleset lone.selectors declarations := by
  have found : Line.ruleset? (lone.around declarations) = some (lone.selectors, declarations) :=
    ruleset?_eq_some_iff.mpr ⟨rfl, lone.chosen, lone.not_mem_selectors (by decide), filled, noClose⟩
  have first : (lone.around declarations).startsWith '}' = false := by
    obtain ⟨c, rest, shape⟩ := List.exists_cons_of_ne_nil lone.chosen
    have other : c ≠ '}' := by
      rintro rfl
      exact lone.not_mem_selectors (c := '}') (by decide) (by simp [shape])
    simp [around, shape, Text.startsWith, other]
  have last : (lone.around declarations).getLast? = some '}' := List.getLast?_concat
  simp [Line.classify, first, Text.endsWith, last, found]

theorem trimmed_around (declarations : Text) : Text.Trimmed (lone.around declarations) := by
  constructor
  · intro c first
    obtain ⟨d, rest, shape⟩ := List.exists_cons_of_ne_nil lone.chosen
    obtain rfl : d = c := by simpa [around, shape] using first
    exact isBlank_of_isBare (lone.bareSelectors d (by simp [shape]))
  · intro c last
    have close : (lone.around declarations).getLast? = some '}' := List.getLast?_concat
    obtain rfl : '}' = c := Option.some.inj (close.symm.trans last)
    decide

theorem settled_ne_nil (level : Level) : lone.settled level ≠ [] := by
  rw [settled]
  split
  · simp
  · exact lone.declared

/-- A ruleset on its own without blanks is laid out as it is, with the semicolon that the level wants. -/
theorem output_layout (level : Level) :
    (layout level lone.text).output =
      Layout.written level 0 (Layout.ruleset level 0 lone.selectors (lone.settled level)) := by
  have noOpen : '{' ∉ lone.settled level := lone.not_mem_settled level (by decide)
  have noClose : '}' ∉ lone.settled level := lone.not_mem_settled level (by decide)
  have noAt : '@' ∉ lone.settled level := lone.not_mem_settled level (by decide)
  have noBreak : '\n' ∉ lone.settled level := lone.not_mem_settled level (by decide)
  have cut : segmented level lone.text = lone.around (lone.settled level) ++ ['\n'] := by
    rw [segmented, lone.clean_text, lone.settle_text, lone.segment_around noOpen noClose noAt noBreak]
  have trimmed := lone.trimmed_around (lone.settled level)
  have oneLine : '\n' ∉ lone.around (lone.settled level) :=
    lone.not_mem_around (by decide) noBreak (by decide) (by decide)
  have single : lines (segmented level lone.text) = [lone.around (lone.settled level)] := by
    have blank : ∀ c ∈ ['\n'], Text.isBlank c = true := List.forall_mem_singleton.mpr (by decide)
    rw [cut, lines_append_right _ blank, lines, Text.pieces_of_not_mem oneLine, List.map_singleton,
      trimmed.trim_eq]
    simp [around]
  rw [layout, output_layoutOf, single, Layout.ofLinesAt, trimmed.trim_eq,
    lone.classify_around (lone.settled_ne_nil level) noClose]
  simp [Layout.lineText?, Layout.ofLinesAt, Line.depthAt]

theorem minify_text {level : Level} (pressed : level ≠ .off) :
    minify lone.text level =
      Text.trimStart (Layout.written level 0 (Layout.ruleset level 0 lone.selectors (lone.settled level))) ++
        Token.ofLevel level := by
  have filled : ∃ c ∈ lone.text, Text.isBlank c = false := ⟨'}', by simp [text, around], by decide⟩
  have trimmed : Text.trim lone.text = lone.text := (lone.trimmed_around lone.body).trim_eq
  rw [minify_of_filled filled pressed, trimmed, lone.output_layout]

/-- Above `low` such a ruleset is written as it is. -/
theorem ruleset_medium : Layout.ruleset .medium 0 lone.selectors lone.body = lone.text := by
  have solid : ∀ c ∈ lone.text, Text.isBlank c = false := fun c member =>
    Plain.isBlank_of_not_isSpacing (lone.isSpacing_of_mem_text member)
  have close : lone.text.IsChain Close := by
    refine (List.pairwise_of_forall_mem_list ?_).isChain
    intro c inC d inD
    exact ⟨fun _ => solid c inC, fun _ => solid d inD⟩
  have first : ∀ c ∈ lone.selectors.head?, Text.isBlank c = false := fun c start =>
    isBlank_of_isBare (lone.bareSelectors c (List.mem_of_mem_head? start))
  exact text_ruleset_of_close first close

theorem trimStart_selectors (rest : Text) : Text.trimStart (lone.selectors ++ rest) = lone.selectors ++ rest := by
  refine Text.trimStart_append (List.forall_mem_nil _) ?_
  intro c first
  obtain ⟨d, more, shape⟩ := List.exists_cons_of_ne_nil lone.chosen
  obtain rfl : d = c := by simpa [shape] using first
  exact isBlank_of_isBare (lone.bareSelectors d (by simp [shape]))

theorem infix_minify {level : Level} (pressed : level ≠ .off) (above : level ≠ .low) :
    lone.text <:+: minify lone.text level := by
  have start : ∀ rest, Text.trimStart (lone.text ++ rest) = lone.text ++ rest := by
    intro rest
    simpa [text, around] using lone.trimStart_selectors ('{' :: (lone.body ++ '}' :: rest))
  have written : ∃ rest, Layout.written level 0 (Layout.ruleset level 0 lone.selectors (lone.settled level)) =
      lone.text ++ rest := by
    cases level with
    | off => exact absurd rfl pressed
    | low => exact absurd rfl above
    | medium => exact ⟨['\n'], congrArg (· ++ ['\n']) lone.ruleset_medium⟩
    | high => exact ⟨[], lone.ruleset_medium.trans (List.append_nil _).symm⟩
  obtain ⟨rest, shape⟩ := written
  rw [lone.minify_text pressed, shape, start, List.append_assoc]
  exact (List.prefix_append _ _).isInfix

end Lone

end Stylepress.Css
