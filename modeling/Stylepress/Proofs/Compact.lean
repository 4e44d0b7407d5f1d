import Stylepress.Proofs.Spaces

/-!
Stylesheets that `high` takes nothing away from: every character is kept, and no blank stands beside a mark, a
comma or a colon. Of these `high` writes each line as it is, but for the open sides of conditions
(`Line.countP_text_of_close`), so the bound on its white space is reached (`high_blanks_bounded`): with two open
sides it has more than `off`.
-/
namespace Stylepress.Css

/-! ### Separators -/

/-- The characters that no level above `low` leaves a space beside. -/
def isSeparator (c : Char) : Bool := Spacing.isMark c || c == ',' || c == ':'

/-- Neighbours of which neither is blank if the other one is a separator. -/
def Close (c d : Char) : Prop :=
  (isSeparator d = true → Text.isBlank c = false) ∧ (isSeparator c = true → Text.isBlank d = false)

instance (c d : Char) : Decidable (Close c d) := inferInstanceAs (Decidable (_ ∧ _))

theorem close_around {a b : Text} {s : Char} (separator : isSeparator s = true)
    (close : (a ++ s :: b).IsChain Close) :
    (∀ c ∈ a.getLast?, Text.isBlank c = false) ∧ ∀ c ∈ b.head?, Text.isBlank c = false := by
  obtain ⟨_, behind, meet⟩ := List.isChain_append.mp close
  constructor
  · exact fun c last => (meet c last s rfl).1 separator
  · exact fun c first => ((List.isChain_cons.mp behind).1 c first).2 separator

theorem eq_nil_of_getLast? {t : Text} (blank : ∀ c ∈ t, Text.isBlank c = true)
    (last : ∀ c ∈ t.getLast?, Text.isBlank c = false) : t = [] := by
  obtain rfl | ⟨front, c, rfl⟩ := List.eq_nil_or_concat t
  · rfl
  · have solid := last c (by simp)
    simp [blank c (by simp)] at solid

theorem eq_nil_of_head? {t : Text} (blank : ∀ c ∈ t, Text.isBlank c = true)
    (first : ∀ c ∈ t.head?, Text.isBlank c = false) : t = [] := by
  cases t with
  | nil => rfl
  | cons c t =>
    have solid := first c rfl
    simp [blank c (by simp)] at solid

/-! ### Rulesets -/

theorem respaceCommas_of_close {t : Text} (close : t.IsChain Close) : Layout.respaceCommas [] t = t := by
  refine Text.pass_eq_self_of_image ?_
  rintro before rest edit rfl found
  obtain ⟨lead, last, spaces, span, image⟩ := comma?_eq_some found
  have inSpan : (lead ++ ',' :: last).IsChain Close := by
    rw [← span]
    rw [← List.take_append_drop (edit.tail + 1) rest] at close
    exact close.right_of_append.left_of_append
  have blank : ∀ c ∈ lead ++ last, Text.isBlank c = true := fun c member => by
    rw [spaces c member]
    decide
  obtain ⟨inLead, inLast⟩ := List.forall_mem_append.mp blank
  obtain ⟨before, behind⟩ := close_around (by decide) inSpan
  rw [span, image, eq_nil_of_getLast? inLead before, eq_nil_of_head? inLast behind]
  rfl

theorem declaration_of_close {t : Text} (close : t.IsChain Close) : Layout.declaration [] t = t := by
  rw [Layout.declaration]
  split
  · next property value found =>
    obtain ⟨_, rfl⟩ := Text.splitFirst_eq_some_iff.mp found
    obtain ⟨before, behind⟩ := close_around (by decide) close
    have left : Layout.dropLastSpace property = property := by
      rw [Layout.dropLastSpace, if_neg]
      intro space
      exact absurd (before ' ' (eq_of_beq space)) (by decide)
    have right : Layout.dropFirstSpace value = value := by
      unfold Layout.dropFirstSpace
      split
      · exact absurd (behind ' ' rfl) (by decide)
      · rfl
    rw [left, right]
    simp
  · rfl

theorem declarations_of_close {t : Text} (close : t.IsChain Close) : Layout.declarations .medium 0 t = t := by
  have each : ∀ piece ∈ Text.pieces ';' t, Layout.declaration [] piece = id piece := by
    intro piece member
    obtain ⟨a, b, rfl⟩ := Text.exists_of_mem_pieces member
    exact declaration_of_close close.left_of_append.right_of_append
  show Text.join [';'] ((Text.pieces ';' (Layout.respaceCommas [] t)).map (Layout.declaration [])) = t
  rw [respaceCommas_of_close close, List.map_congr_left each, List.map_id, Text.join_pieces]

/-- A ruleset without blanks beside its separators is written as it is. -/
theorem text_ruleset_of_close {selectors body : Text} (first : ∀ c ∈ selectors.head?, Text.isBlank c = false)
    (close : (selectors ++ '{' :: body ++ ['}']).IsChain Close) :
    (Line.ruleset selectors body).text = (Line.ruleset selectors body).kept := by
  have opened : (selectors ++ '{' :: (body ++ ['}'])).IsChain Close := by simpa using close
  have closed : ((selectors ++ '{' :: body) ++ '}' :: []).IsChain Close := by simpa using close
  obtain ⟨lastSelector, firstBody⟩ := close_around (by decide) opened
  obtain ⟨lastBody, _⟩ := close_around (by decide) closed
  have chosen : Text.Trimmed selectors := ⟨first, lastSelector⟩
  have declared : Text.Trimmed body := by
    constructor
    · intro c start
      exact firstBody c (by simp [Option.mem_def.mp start])
    · intro c ending
      exact lastBody c (by simp [List.getLast?_cons, Option.mem_def.mp ending])
  have inBody : body.IsChain Close := closed.left_of_append.right_of_append.tail
  rw [Line.text_ruleset, respaceCommas_of_close opened.left_of_append, declarations_of_close inBody,
    chosen.trim_eq, declared.trim_eq]
  rfl

/-! ### Headers -/

/-- What a condition takes up on one of its sides: a blank, or nothing. -/
structure Margin (side : Text) : Prop where
  blank : ∀ c ∈ side, Text.isBlank c = true
  short : side.length ≤ 1

/-- Of a condition without blanks beside its colon, the pass rewrites only the margins. -/
theorem respacing?_of_close {t span : Text} {edit : Text.Edit} (found : Condition.respacing? [] t = some edit)
    (spanned : t.take (edit.tail + 1) = span) (close : span.IsChain Close) :
    edit.image = span ∨
      ∃ lead middle last, edit.image = ' ' :: '(' :: (middle ++ [')', ' ']) ∧
        span = lead ++ '(' :: (middle ++ ')' :: last) ∧ Margin lead ∧ Margin last := by
  rcases respacing?_eq_some found with same | ⟨condition, lead, gap, inner, word, last, shape, image, read⟩
  · exact .inl (same.trans spanned)
  · rw [spanned] at shape
    have colon : ((lead ++ '(' :: (condition.feature ++ gap)) ++ ':' :: (inner ++ (word ++ ')' :: last))).IsChain
        Close := by simpa [shape] using close
    obtain ⟨before, behind⟩ := close_around (by decide) colon
    obtain rfl : gap = [] := eq_nil_of_getLast? read.gapBlank fun c ending =>
      before c (by simp [List.getLast?_cons, Option.mem_def.mp ending])
    obtain rfl : inner = [] := eq_nil_of_head? read.innerBlank fun c start =>
      behind c (by simp [Option.mem_def.mp start])
    obtain rfl : condition.value = word := by
      rcases read.value with same | ⟨rfl, inside⟩
      · exact same
      · exact List.sublist_nil.mp inside
    exact .inr ⟨lead, condition.feature ++ ':' :: condition.value, last, by simp [image, Condition.write],
      by simp [shape], ⟨read.leadBlank, read.leadShort⟩, ⟨read.lastBlank, read.lastShort⟩⟩

namespace Margin
variable {side : Text} (margin : Margin side)
include margin

/-- Where other text stands beside a margin, it has a blank or is open. -/
theorem countP_eq (inside : Bool) (edge : inside = false → side = []) :
    side.countP Text.isBlank + (inside && side.isEmpty).toNat = inside.toNat := by
  cases inside with
  | false => rw [edge rfl]; rfl
  | true =>
    match side, margin.short with
    | [], _ => rfl
    | [c], _ => rw [List.countP_cons_of_pos (margin.blank c (by simp))]; rfl

theorem startsWith_append {s : Char} (solid : Text.isBlank s = false) (t : Text) :
    (side ++ s :: t).startsWith s = side.isEmpty := by
  cases side with
  | nil => simp [Text.startsWith]
  | cons c side =>
    have other : c ≠ s := by
      rintro rfl
      simp [margin.blank c (by simp)] at solid
    simp [Text.startsWith, other]

theorem endsWith_append {s : Char} (solid : Text.isBlank s = false) (t : Text) :
    (t ++ s :: side).endsWith s = side.isEmpty := by
  obtain rfl | ⟨front, c, rfl⟩ := List.eq_nil_or_concat side
  · simp [Text.endsWith]
  · have other : c ≠ s := by
      rintro rfl
      simp [margin.blank c (by simp)] at solid
    have some : (front.concat c).isEmpty = false := by simp
    rw [some]
    simpa [Text.endsWith, List.getLast?_cons] using other

end Margin

theorem filled_respace {t : Text} (some : t ≠ []) (last : ∀ c ∈ t.getLast?, Text.isBlank c = false) :
    ∃ c ∈ Condition.respace [] t, Text.isBlank c = false := by
  obtain ⟨front, c, rfl⟩ := (List.eq_nil_or_concat t).resolve_left some
  have solid := last c (by simp)
  exact ⟨c, (mem_iff_of_filter solid fun p only => filter_respace only .medium _).mpr (by simp), solid⟩

/-- What is written before the rest of a header is not trimmed at its end. -/
theorem trimEnd_append_respace (written after : Text)
    (last : ∀ c ∈ (written ++ after).getLast?, Text.isBlank c = false) :
    Text.trimEnd (written ++ Condition.respace [] after) =
      written ++ Text.trimEnd (Condition.respace [] after) := by
  cases after with
  | nil =>
    rw [List.append_nil] at last
    exact (Text.trimEnd_append (List.forall_mem_nil _) last).trans (List.append_nil written).symm
  | cons c after =>
    refine Text.trimEnd_append_of_filled written (filled_respace (by simp) ?_)
    rwa [List.getLast?_append_of_ne_nil _ (by simp)] at last

theorem edged_eq_trimEnd {inside : Bool} {t : Text}
    (first : inside = false → ∀ c ∈ t.head?, Text.isBlank c = false) : edged inside t = Text.trimEnd t := by
  cases inside with
  | true => rfl
  | false =>
    have start : Text.trimStart t = t := Text.trimStart_append (List.forall_mem_nil _) (first rfl)
    rw [edged, if_neg (by decide), Text.trim, start]

/-- What the pass leaves as it is comes out as it is. -/
theorem edged_append_respace {inside : Bool} {written after : Text} (some : written ≠ [])
    (first : inside = false → ∀ c ∈ (written ++ after).head?, Text.isBlank c = false)
    (last : ∀ c ∈ (written ++ after).getLast?, Text.isBlank c = false) :
    edged inside (written ++ Condition.respace [] after) = written ++ Text.trimEnd (Condition.respace [] after) := by
  obtain ⟨c, rest, rfl⟩ := List.exists_cons_of_ne_nil some
  have start : inside = false → ∀ d ∈ (c :: rest ++ Condition.respace [] after).head?, Text.isBlank d = false := first
  rw [edged_eq_trimEnd start, trimEnd_append_respace (c :: rest) after last]

/-- The spaces of a condition stay where something stands before it and where something follows it. -/
theorem edged_condition (inside : Bool) (middle : Text) {after : Text}
    (last : ∀ c ∈ after.getLast?, Text.isBlank c = false) :
    edged inside (' ' :: '(' :: (middle ++ ')' :: ' ' :: Condition.respace [] after)) =
      List.replicate inside.toNat ' ' ++ '(' :: middle ++ [')'] ++ List.replicate (!after.isEmpty).toNat ' ' ++
        Text.trimEnd (Condition.respace [] after) := by
  -- At the start of a header the first space is trimmed, up to the parenthesis.
  have skip : ∀ t, edged inside (' ' :: '(' :: t) = edged inside (List.replicate inside.toNat ' ' ++ '(' :: t) := by
    intro t
    cases inside <;> rfl
  have start : ∀ t, edged inside (' ' :: '(' :: t) = Text.trimEnd (List.replicate inside.toNat ' ' ++ '(' :: t) := by
    intro t
    rw [skip, edged_eq_trimEnd]
    rintro rfl c first
    obtain rfl := Option.some.inj first
    decide
  rw [start]
  cases after with
  | nil =>
    have ends : Text.trimEnd ((List.replicate inside.toNat ' ' ++ '(' :: middle ++ [')']) ++ [' ']) =
        List.replicate inside.toNat ' ' ++ '(' :: middle ++ [')'] := by
      refine Text.trimEnd_append (List.forall_mem_singleton.mpr (by decide)) ?_
      rw [List.getLast?_concat]
      rintro _ ⟨⟩
      decide
    have nothing : Text.trimEnd [] = [] := rfl
    simpa [Condition.respace, nothing] using ends
  | cons c after =>
    have ends := trimEnd_append_respace (List.replicate inside.toNat ' ' ++ '(' :: middle ++ [')', ' ']) (c :: after)
      (by rwa [List.getLast?_append_of_ne_nil _ (by simp)])
    simpa using ends

theorem last_of_append {a b : Text} (last : ∀ c ∈ (a ++ b).getLast?, Text.isBlank c = false) :
    ∀ c ∈ b.getLast?, Text.isBlank c = false := fun c ending =>
  last c (by simp [Option.mem_def.mp ending])

/-- A condition inside of a header brings a blank for each of its open sides. -/
theorem countP_condition_of_close (inside : Bool) (middle : Text) {lead last after : Text} (before : Margin lead)
    (behind : Margin last) (atStart : inside = false → lead = []) (atEnd : after = [] → last = [])
    (ends : ∀ c ∈ after.getLast?, Text.isBlank c = false) :
    (edged inside (' ' :: '(' :: (middle ++ ')' :: ' ' :: Condition.respace [] after))).countP Text.isBlank =
      (lead ++ '(' :: (middle ++ ')' :: last)).countP Text.isBlank +
        Condition.openSides inside (lead ++ '(' :: (middle ++ ')' :: last)) after +
        (Text.trimEnd (Condition.respace [] after)).countP Text.isBlank := by
  have left := before.countP_eq inside atStart
  have right := behind.countP_eq (!after.isEmpty) (by simpa using atEnd)
  have opening := before.startsWith_append (s := '(') (by decide) (middle ++ ')' :: last)
  have closing := behind.endsWith_append (s := ')') (by decide) (lead ++ '(' :: middle)
  have solid : Text.isBlank '(' = false ∧ Text.isBlank ')' = false ∧ Text.isBlank ' ' = true := by decide
  rw [Bool.and_comm] at right
  rw [List.append_assoc, List.cons_append] at closing
  rw [edged_condition inside middle ends, Condition.openSides, opening, closing]
  simp only [List.countP_append, List.countP_replicate, List.countP_cons, List.countP_nil, solid, if_true,
    Bool.false_eq_true, if_false, Nat.add_zero]
  omega

/-- Of a header without blanks at its ends and beside its colons, the pass takes no blank away, and it adds one
    for each open side. -/
theorem countP_edged_respace_of_close (inside : Bool) {t : Text}
    (first : inside = false → ∀ c ∈ t.head?, Text.isBlank c = false)
    (last : ∀ c ∈ t.getLast?, Text.isBlank c = false) (close : t.IsChain Close) :
    (edged inside (Condition.respace [] t)).countP Text.isBlank =
      t.countP Text.isBlank + Condition.sidesFrom (Condition.respacing? []) inside 0 t := by
  rw [Condition.respace]
  induction t using Text.pass_induction (Condition.respacing? []) generalizing inside with
  | nil => cases inside <;> rfl
  | copy c rest none ih =>
    rw [← List.singleton_append] at last
    have behind := ih true (by simp) (last_of_append last) close.tail
    rw [← Condition.respace, edged_eq_trimEnd (by simp)] at behind
    have written : edged inside (c :: Condition.respace [] rest) = _ := edged_append_respace (by simp) first last
    rw [← Condition.respace, written, Condition.sidesFrom_of_none none, List.countP_append, List.countP_singleton,
      List.countP_cons]
    omega
  | replace c rest edit found ih =>
    have whole := Text.take_succ_cons_append_drop c rest edit.tail
    rw [Condition.sidesFrom_of_some found]
    generalize spanned : (c :: rest).take (edit.tail + 1) = span at whole ⊢
    generalize rest.drop edit.tail = after at whole ih ⊢
    rw [← whole] at first last close ⊢
    rw [List.countP_append, ← Condition.respace]
    have ends := last_of_append last
    have behind := ih true (by simp) ends close.right_of_append
    rw [← Condition.respace, edged_eq_trimEnd (by simp)] at behind
    split
    · next same =>
      have written := edged_append_respace (by simp [← spanned]) first last
      rw [same, written, List.countP_append]
      omega
    · next other =>
      obtain ⟨lead, middle, ending, image, rfl, left, right⟩ :=
        (respacing?_of_close found spanned close.left_of_append).resolve_left other
      have atStart : inside = false → lead = [] := fun outside =>
        eq_nil_of_head? left.blank fun c start => first outside c (by simp [Option.mem_def.mp start])
      have atEnd : after = [] → ending = [] := by
        rintro rfl
        exact eq_nil_of_getLast? right.blank fun c finish =>
          last c (by simp [List.getLast?_cons, Option.mem_def.mp finish])
      have written := countP_condition_of_close inside middle left right atStart atEnd ends
      have shape : edit.image ++ Condition.respace [] after =
          ' ' :: '(' :: (middle ++ ')' :: ' ' :: Condition.respace [] after) := by simp [image]
      rw [shape, written, behind]
      omega

/-! ### Lines -/

/-- A line without blanks beside its separators is written with the blanks that it has, and with one for each
    open side of its conditions. -/
theorem Line.countP_text_of_close {line : Line} (first : ∀ c ∈ line.kept.head?, Text.isBlank c = false)
    (close : line.kept.IsChain Close) :
    line.text.countP Text.isBlank = line.kept.countP Text.isBlank + line.sides := by
  cases line with
  | leaving t => rfl
  | statement t => rfl
  | opening header =>
    have start : ∀ c ∈ header.head?, Text.isBlank c = false := fun c member =>
      first c (by simp [Line.kept, Option.mem_def.mp member])
    have spaced : (Text.trim (Condition.respace [] header)).countP Text.isBlank = _ :=
      countP_edged_respace_of_close false (fun _ => start) (close_around (by decide) close).1
        close.left_of_append
    rw [Line.text_opening, Line.kept, List.countP_append, List.countP_append, Line.sides, Condition.sides, spaced]
    omega
  | ruleset selectors body =>
    have start : ∀ c ∈ selectors.head?, Text.isBlank c = false := fun c member =>
      first c (by simp [Line.kept, Option.mem_def.mp member])
    rw [text_ruleset_of_close start close]
    rfl
  | stray t => rfl

theorem countP_flatMap_text_of_close {ls : List Line}
    (first : ∀ line ∈ ls, ∀ c ∈ line.kept.head?, Text.isBlank c = false)
    (close : (ls.flatMap Line.kept).IsChain Close) :
    (ls.flatMap Line.text).countP Text.isBlank =
      (ls.flatMap Line.kept).countP Text.isBlank + (ls.map Line.sides).sum := by
  induction ls with
  | nil => rfl
  | cons line ls ih =>
    obtain ⟨start, later⟩ := List.forall_mem_cons.mp first
    rw [List.flatMap_cons] at close
    have here := Line.countP_text_of_close start close.left_of_append
    have rest := ih later close.right_of_append
    rw [List.flatMap_cons, List.flatMap_cons, List.countP_append, List.countP_append, List.map_cons, List.sum_cons]
    omega

theorem head?_kept {t : Text} (trimmed : Text.Trimmed t) : ∀ c ∈ (kept t).head?, Text.isBlank c = false := by
  intro c first
  rw [kept] at first
  rcases classify_cases t with ⟨shape, _⟩ | ⟨shape, _⟩ | ⟨header, opened, shape, same, _⟩ |
    ⟨selectors, body, shape, same⟩ | shape
  · rw [shape] at first
    exact trimmed.head c first
  · rw [shape] at first
    exact trimmed.head c first
  · rw [shape, Line.kept] at first
    cases header with
    | nil =>
      obtain rfl := Option.some.inj first
      decide
    | cons d header => exact trimmed.head c (by simpa [same] using first)
  · rw [shape, Line.kept, ← same] at first
    exact trimmed.head c first
  · rw [shape] at first
    cases first

theorem head?_kept_of_mem {source : Text} {line : Line} (member : line ∈ writtenLines source) :
    ∀ c ∈ line.kept.head?, Text.isBlank c = false := by
  obtain ⟨classified, _⟩ := List.mem_filter.mp member
  obtain ⟨t, inLines, rfl⟩ := List.mem_map.mp classified
  exact head?_kept (trimmed_of_mem_lines inLines)

/-! ### Pressing -/

/-- A stylesheet of which every character is kept, without blanks beside its separators. -/
structure Compact (source : Text) : Prop where
  filled : Token.strip (Text.trim source) ≠ []
  whole : (writtenLines source).flatMap Line.kept = Token.strip (Text.trim source)
  close : (Token.strip (Text.trim source)).IsChain Close

theorem spaced_ne_vowelSeparator (c : Char) : spaced c ≠ vowelSeparator := by
  rw [spaced]
  split
  · decide
  · next other =>
    rintro rfl
    exact other (by decide)

/-- What is kept has spaces for its vowel separators. -/
theorem Compact.count_vowelSeparator {source : Text} (compact : Compact source) :
    (Token.strip (Text.trim source)).count vowelSeparator = 0 := by
  have inside := flatMap_kept_sublist_strip (Text.trim source)
  rw [← flatMap_kept_shapes, ← writtenLines, compact.whole] at inside
  rw [List.count_eq_zero]
  intro member
  obtain ⟨c, _, same⟩ := List.mem_map.mp (inside.subset member)
  exact spaced_ne_vowelSeparator c same

/-- The blanks of `high` exceed those of `off` by less than there are open sides of conditions and vowel
    separators; of a compact stylesheet by just one less. -/
theorem high_blanks_bounded (source : Text) :
    (minify source .high).countP Text.isBlank ≤
        (minify source .off).countP Text.isBlank + (gain source - 1) ∧
      (Compact source →
        (minify source .high).countP Text.isBlank + 1 =
          (minify source .off).countP Text.isBlank + gain source) := by
  refine ⟨blanks_high_le source, fun compact => ?_⟩
  obtain ⟨c, rest, stripped⟩ := List.exists_cons_of_ne_nil compact.filled
  -- Every character is kept, so the blanks of the lines are those of the source.
  have close := compact.close
  rw [← compact.whole] at close
  have written := countP_flatMap_text_of_close (fun line => head?_kept_of_mem) close
  rw [compact.whole] at written
  rw [countP_minify_high, output_layout_high, written, countP_off stripped, gain, compact.count_vowelSeparator,
    stripped]
  omega

/-- A block for two conditions with a comma between them. -/
def queriesSource : Text :=
  ['@', 'm', 'e', 'd', 'i', 'a', ' ', '(', 'a', ':', 'b', ')', ',', '(', 'c', ':', 'd', ')', '{', 'e', '{',
    'f', ':', 'g', '}', '}']

/-- A ruleset with vowel separators between its selectors. -/
def separatedSource : Text :=
  ['a', vowelSeparator, 'b', vowelSeparator, 'c', '{', 'd', ':', 'e', '}']

theorem high_blanks_bounded_queries :
    Compact queriesSource ∧ gain queriesSource = 2 ∧
      (minify queriesSource .high).countP Text.isBlank + 1 =
        (minify queriesSource .off).countP Text.isBlank + gain queriesSource := by
  have compact : Compact queriesSource := ⟨by decide +kernel, by decide +kernel, by decide +kernel⟩
  exact ⟨compact, by decide +kernel, (high_blanks_bounded queriesSource).2 compact⟩

/-- Two open sides are enough to exceed `off`, and so are two vowel separators. -/
theorem blanks_high_exceed :
    (Balanced queriesSource ∧
        (minify queriesSource .off).countP Text.isBlank < (minify queriesSource .high).countP Text.isBlank) ∧
      Balanced separatedSource ∧ gain separatedSource = 2 ∧
        (minify separatedSource .off).countP Text.isBlank < (minify separatedSource .high).countP Text.isBlank := by
  decide +kernel

end Stylepress.Css
