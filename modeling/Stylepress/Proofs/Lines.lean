import Mathlib.Algebra.Ring.Int.Defs
import Stylepress.Css.Minify
import Stylepress.Proofs.TextLaws

/-!
What laying lines out keeps of them. A level moves white space only: of every line that is not stray,
the characters that are not blank are written in order (`filter_layoutOf`), and the depth at the end is
the sum of what each line climbs (`depth_layoutOf`). Both look at the lines that are not blank, so that
blanks around the segmented text make no difference (`lines_trim`).
-/
namespace Stylepress.Css

/-! ### Lines -/

/-- The lines of a text that are not blank, without the blanks at their ends. -/
def lines (t : Text) : List Text :=
  ((Text.pieces '\n' t).map Text.trim).filter fun line => !line.isEmpty

theorem trim_eq_nil_of_mem_pieces {blanks line : Text} (blank : ∀ c ∈ blanks, Text.isBlank c = true)
    (member : line ∈ Text.pieces '\n' blanks) : Text.trim line = [] := by
  obtain ⟨a, b, rfl⟩ := Text.exists_of_mem_pieces member
  rw [Text.trim_eq_nil_iff]
  intro c inside
  exact blank c (by simp [inside])

theorem filter_trim_of_blank {ts : List Text} (none : ∀ line ∈ ts, Text.trim line = []) :
    ((ts.map Text.trim).filter fun line => !line.isEmpty) = [] := by
  rw [List.filter_eq_nil_iff]
  intro line member
  obtain ⟨t, inside, rfl⟩ := List.mem_map.mp member
  simp [none t inside]

theorem lines_append_left {blanks : Text} (blank : ∀ c ∈ blanks, Text.isBlank c = true) (t : Text) :
    lines (blanks ++ t) = lines t := by
  obtain ⟨first, others, cut⟩ := List.exists_cons_of_ne_nil (Text.pieces_ne_nil '\n' t)
  obtain ⟨front, last, cutBlanks, cutBoth⟩ := Text.exists_pieces_append '\n' blanks cut
  have none : ∀ line ∈ front ++ [last], Text.trim line = [] := fun line member =>
    trim_eq_nil_of_mem_pieces blank (by rwa [cutBlanks])
  have same : Text.trim (last ++ first) = Text.trim first := by
    have lastBlank := Text.trim_eq_nil_iff.mp (none last (by simp))
    simpa using Text.trim_between first lastBlank (List.forall_mem_nil _)
  rw [lines, lines, cutBoth, cut, List.map_append, List.filter_append,
    filter_trim_of_blank fun line member => none line (by simp [member]), List.nil_append,
    List.map_cons, List.map_cons, same]

theorem lines_append_right (t : Text) {blanks : Text} (blank : ∀ c ∈ blanks, Text.isBlank c = true) :
    lines (t ++ blanks) = lines t := by
  obtain ⟨first, others, cut⟩ := List.exists_cons_of_ne_nil (Text.pieces_ne_nil '\n' blanks)
  obtain ⟨front, last, cutText, cutBoth⟩ := Text.exists_pieces_append '\n' t cut
  have none : ∀ line ∈ first :: others, Text.trim line = [] := fun line member =>
    trim_eq_nil_of_mem_pieces blank (by rwa [cut])
  have same : Text.trim (last ++ first) = Text.trim last := by
    have firstBlank := Text.trim_eq_nil_iff.mp (none first (by simp))
    simpa using Text.trim_between last (List.forall_mem_nil _) firstBlank
  have later : ((others.map Text.trim).filter fun line => !line.isEmpty) = [] :=
    filter_trim_of_blank fun line member => none line (by simp [member])
  rw [lines, lines, cutBoth, cutText]
  simp only [List.map_append, List.map_cons, List.map_nil, List.filter_append, List.filter_cons, same,
    later, List.filter_nil]

/-- Blanks around a text make no difference to its lines. -/
theorem lines_trim (t : Text) : lines (Text.trim t) = lines t := by
  obtain ⟨a, b, shape, blankA, blankB⟩ := Text.exists_blanks t
  rw [congrArg lines shape, lines_append_right _ blankB, lines_append_left blankA]

theorem mem_lines {t line : Text} :
    line ∈ lines t ↔ line ≠ [] ∧ ∃ piece ∈ Text.pieces '\n' t, Text.trim piece = line := by
  simp [lines, and_comm]

/-! ### Commas and conditions -/

/-- What the pass over commas finds: a comma with at most one space on either side. -/
theorem comma?_eq_some {space t : Text} {edit : Text.Edit} (found : Layout.comma? space t = some edit) :
    ∃ lead last, (∀ c ∈ lead ++ last, c = ' ') ∧ t.take (edit.tail + 1) = lead ++ ',' :: last ∧
      edit.image = ',' :: space := by
  unfold Layout.comma? at found
  split at found
  · obtain rfl := Option.some.inj found
    exact ⟨[], [' '], by simp, rfl, rfl⟩
  · obtain rfl := Option.some.inj found
    exact ⟨[], [], by simp, rfl, rfl⟩
  · obtain rfl := Option.some.inj found
    exact ⟨[' '], [' '], by simp, rfl, rfl⟩
  · obtain rfl := Option.some.inj found
    exact ⟨[' '], [], by simp, rfl, rfl⟩
  · cases found

theorem takeWhile_append_drop (q : Char → Bool) (t : Text) :
    t.takeWhile q ++ t.drop (t.takeWhile q).length = t := by
  obtain ⟨rest, shape⟩ := List.takeWhile_prefix q (l := t)
  rw [← congrArg (List.drop _) shape, List.drop_left, shape]

/-- What a condition is read from. -/
theorem read_condition {t : Text} {condition : Condition} {length : Nat}
    (found : Condition.read t = .condition condition length) :
    ∃ gap blanks word after,
      t = condition.feature ++ (gap ++ ':' :: (blanks ++ (word ++ ')' :: after))) ∧
      length = (condition.feature ++ (gap ++ ':' :: (blanks ++ (word ++ [')'])))).length ∧
      (∀ c ∈ gap, Text.isBlank c = true) ∧ (∀ c ∈ blanks, Text.isBlank c = true) ∧
      (condition.value = word ∨ word = [] ∧ condition.value.Sublist blanks) := by
  have featured := takeWhile_append_drop Condition.isFeature t
  have gapped := takeWhile_append_drop Text.isBlank
    (t.drop (t.takeWhile Condition.isFeature).length)
  rw [List.drop_drop] at gapped
  unfold Condition.read at found
  dsimp only at found
  split at found
  · cases found
  · split at found
    · next rest colon =>
      have blanked := takeWhile_append_drop Text.isBlank rest
      split at found
      · cases found
      · next word after ended =>
        have known : (if word.isEmpty then (rest.takeWhile Text.isBlank).getLast?.toList else word) = word ∨
            word = [] ∧ (if word.isEmpty then (rest.takeWhile Text.isBlank).getLast?.toList else word).Sublist
              (rest.takeWhile Text.isBlank) := by
          cases none : word.isEmpty with
          | false => exact .inl rfl
          | true =>
            refine .inr ⟨List.isEmpty_iff.mp none, ?_⟩
            cases last : (rest.takeWhile Text.isBlank).getLast? with
            | none => exact List.nil_sublist _
            | some c => exact List.singleton_sublist.mpr (List.mem_of_getLast? last)
        generalize (if word.isEmpty then (rest.takeWhile Text.isBlank).getLast?.toList else word) = value
          at found known
        split at found
        · cases found
        · obtain ⟨rfl, rfl⟩ := Condition.Opened.condition.inj found
          obtain ⟨_, closed⟩ := Text.splitFirst_eq_some_iff.mp ended
          rw [colon, ← blanked, closed] at gapped
          rw [← gapped] at featured
          refine ⟨(t.drop (t.takeWhile Condition.isFeature).length).takeWhile Text.isBlank,
            rest.takeWhile Text.isBlank, word, after, featured.symm, ?_,
            List.all_eq_true.mp List.all_takeWhile, List.all_eq_true.mp List.all_takeWhile, known⟩
          simp only [List.length_append, List.length_cons, List.length_nil]
          omega
    · cases found

theorem read_feature {t feature : Text} (found : Condition.read t = .feature feature) : feature <+: t := by
  unfold Condition.read at found
  dsimp only at found
  split at found
  · cases found
  · split at found
    · split at found
      · cases found
      · split at found
        · split at found
          · obtain rfl := Condition.Opened.feature.inj found
            exact List.takeWhile_prefix _
          · cases found
        · cases found
    · obtain rfl := Condition.Opened.feature.inj found
      exact List.takeWhile_prefix _

/-- The characters in `p` are not blank. -/
def Solid (p : Char → Bool) : Prop := ∀ c, Text.isBlank c = true → p c = false

/-- What is not blank. -/
def isSolid (c : Char) : Bool := !Text.isBlank c

theorem solid_isSolid : Solid isSolid := fun c blank => by simp [isSolid, blank]

/-- Texts that keep the same of everything that is not blank hold the same characters, blanks aside. -/
theorem mem_iff_of_filter {t u : Text} {c : Char} (solid : Text.isBlank c = false)
    (same : ∀ p : Char → Bool, Solid p → t.filter p = u.filter p) : c ∈ t ↔ c ∈ u := by
  have only : Solid (· == c) := by
    intro d blank
    rw [beq_eq_false_iff_ne]
    rintro rfl
    simp [blank] at solid
  have found : ∀ t : Text, c ∈ t ↔ c ∈ t.filter (· == c) := fun t => by simp
  rw [found t, same _ only, ← found]

theorem exists_firstBlank (t : Text) : ∃ rest, t = Condition.firstBlank t ++ rest ∧
    (∀ c ∈ Condition.firstBlank t, Text.isBlank c = true) ∧ (Condition.firstBlank t).length ≤ 1 := by
  unfold Condition.firstBlank
  split
  · exact ⟨[], rfl, by simp⟩
  · next c rest =>
    split
    · next blank => exact ⟨rest, rfl, by simpa using blank, by simp⟩
    · exact ⟨c :: rest, rfl, by simp⟩

/-- What stands around a condition in the text that it is read from: blanks, at most one of them on either
    side, and the word that is its value unless there is none. -/
structure Condition.Read (condition : Condition) (lead gap inner word last : Text) : Prop where
  leadBlank : ∀ c ∈ lead, Text.isBlank c = true
  gapBlank : ∀ c ∈ gap, Text.isBlank c = true
  innerBlank : ∀ c ∈ inner, Text.isBlank c = true
  lastBlank : ∀ c ∈ last, Text.isBlank c = true
  value : condition.value = word ∨ word = [] ∧ condition.value.Sublist inner
  leadShort : lead.length ≤ 1
  lastShort : last.length ≤ 1

/-- What the pass over a header finds: a stretch that stays as it is, or a condition. -/
theorem respacing?_eq_some {space t : Text} {edit : Text.Edit}
    (found : Condition.respacing? space t = some edit) :
    edit.image = t.take (edit.tail + 1) ∨
      ∃ (condition : Condition) (lead gap inner word last : Text),
        t.take (edit.tail + 1) =
          lead ++ '(' :: (condition.feature ++ (gap ++ ':' :: (inner ++ (word ++ ')' :: last)))) ∧
        edit.image = condition.write space ∧ condition.Read lead gap inner word last := by
  obtain ⟨behind, shape, leadBlank, leadShort⟩ := exists_firstBlank t
  unfold Condition.respacing? at found
  dsimp only at found
  generalize Condition.firstBlank t = lead at shape leadBlank leadShort found
  subst shape
  rw [List.drop_left] at found
  split at found
  · next rest =>
    split at found
    · next condition length read =>
      obtain rfl := Option.some.inj found
      obtain ⟨gap, inner, word, after, rfl, rfl, gapBlank, innerBlank, value⟩ := read_condition read
      have regroup : condition.feature ++ (gap ++ ':' :: (inner ++ (word ++ ')' :: after))) =
          condition.feature ++ (gap ++ ':' :: (inner ++ (word ++ [')']))) ++ after := by simp
      obtain ⟨more, ended, lastBlank, lastShort⟩ := exists_firstBlank after
      rw [regroup, List.drop_left]
      generalize Condition.firstBlank after = last at ended lastBlank lastShort ⊢
      subst ended
      refine .inr ⟨condition, lead, gap, inner, word, last, ?_, rfl,
        ⟨leadBlank, gapBlank, innerBlank, lastBlank, value, leadShort, lastShort⟩⟩
      have span : lead ++ '(' :: (condition.feature ++ (gap ++ ':' :: (inner ++ (word ++ [')']))) ++
          (last ++ more)) = (lead ++ '(' :: (condition.feature ++ (gap ++ ':' :: (inner ++ (word ++ ')' :: last))))) ++
            more := by simp
      rw [span, List.take_left' (by simp; omega)]
    · next feature read =>
      obtain rfl := Option.some.inj found
      obtain ⟨more, rfl⟩ := read_feature read
      have span : lead ++ '(' :: (feature ++ more) = (lead ++ '(' :: feature) ++ more := by simp
      left
      rw [span, List.take_left' (by simp; omega)]
    · cases found
    · obtain rfl := Option.some.inj found
      left
      rw [List.take_of_length_le (by simp; omega)]
  · cases found

section
variable {p : Char → Bool} (solid : Solid p)
include solid

theorem filter_space (level : Level) : level.space.filter p = [] := by
  refine Text.filter_eq_nil_of_blank solid ?_
  cases level <;> simp [Level.space] <;> decide

theorem filter_respaceCommas (level : Level) (t : Text) :
    (Layout.respaceCommas level.space t).filter p = t.filter p := by
  refine Text.filter_pass ?_ t
  intro t edit found
  obtain ⟨lead, last, spaces, span, image⟩ := comma?_eq_some found
  have gone : (lead ++ last).filter p = [] := by
    rw [List.filter_eq_nil_iff]
    intro c member
    rw [spaces c member, solid ' ' (by decide)]
    decide
  obtain ⟨goneLead, goneLast⟩ : lead.filter p = [] ∧ last.filter p = [] := by
    simpa using gone
  rw [image, span]
  simp [List.filter_cons, filter_space solid level, goneLead, goneLast]

theorem filter_respace (level : Level) (t : Text) :
    (Condition.respace level.space t).filter p = t.filter p := by
  refine Text.filter_pass ?_ t
  intro t edit found
  have blanks : ∀ {u : Text}, (∀ c ∈ u, Text.isBlank c = true) → u.filter p = [] :=
    Text.filter_eq_nil_of_blank solid
  rcases respacing?_eq_some found with same | ⟨condition, lead, gap, inner, word, last, span, image, read⟩
  · rw [same]
  · have worth : condition.value.filter p = word.filter p := by
      rcases read.value with same | ⟨rfl, inside⟩
      · rw [same]
      · rw [blanks fun c member => read.innerBlank c (inside.subset member), List.filter_nil]
    have space : p ' ' = false := solid ' ' (by decide)
    rw [span, image, Condition.write]
    simp [List.filter_cons, blanks read.leadBlank, blanks read.gapBlank, blanks read.innerBlank, blanks read.lastBlank,
      filter_space solid level, worth, space]

/-! ### Rulesets and openings -/

theorem filter_dropLastSpace (t : Text) : (Layout.dropLastSpace t).filter p = t.filter p := by
  rw [Layout.dropLastSpace]
  split
  · next last =>
    obtain ⟨front, rfl⟩ : ∃ front, t = front ++ [' '] := by
      simpa [Text.endsWith, List.getLast?_eq_some_iff] using last
    simp [solid ' ' (by decide)]
  · rfl

theorem filter_dropFirstSpace (t : Text) : (Layout.dropFirstSpace t).filter p = t.filter p := by
  unfold Layout.dropFirstSpace
  split
  · simp [solid ' ' (by decide)]
  · rfl

theorem filter_declaration (level : Level) (t : Text) :
    (Layout.declaration level.space t).filter p = t.filter p := by
  rw [Layout.declaration]
  split
  · next property value found =>
    obtain ⟨_, rfl⟩ := Text.splitFirst_eq_some_iff.mp found
    simp [List.filter_cons, filter_space solid level, filter_dropLastSpace solid, filter_dropFirstSpace solid]
  · rfl

theorem filter_tabs (depth : Int) : (Layout.tabs depth).filter p = [] := by
  refine Text.filter_eq_nil_of_blank solid ?_
  intro c member
  obtain rfl := List.eq_of_mem_replicate member
  decide

/-- A line end and its indentation, written or not. -/
theorem filter_break (breaks : Bool) (depth : Int) :
    (if breaks then '\n' :: Layout.tabs depth else []).filter p = [] := by
  split
  · simp [solid '\n' (by decide), filter_tabs solid]
  · rfl

theorem filter_declarations (level : Level) (depth : Int) (t : Text) :
    (Layout.declarations level depth t).filter p = t.filter p := by
  have semicolon : (';' :: Layout.declarationBreak level depth).filter p = [';'].filter p := by
    rw [Layout.declarationBreak, ← List.singleton_append, List.filter_append, filter_break solid,
      List.append_nil]
  rw [Layout.declarations, ← filter_respaceCommas solid level t]
  rw [← congrArg (List.filter p) (Text.join_pieces ';' (Layout.respaceCommas level.space t))]
  obtain ⟨first, others, cut⟩ :=
    List.exists_cons_of_ne_nil (Text.pieces_ne_nil ';' (Layout.respaceCommas level.space t))
  rw [cut, List.map_cons, Text.join_cons, Text.join_cons]
  simp only [List.filter_append, List.filter_flatMap, List.flatMap_map, semicolon,
    filter_declaration solid]

theorem filter_ruleset (level : Level) (depth : Int) (selectors body : Text) :
    (Layout.ruleset level depth selectors body).filter p =
      (selectors ++ '{' :: body ++ ['}']).filter p := by
  rw [Layout.ruleset, Layout.declarationBreak, Layout.closingBreak]
  simp only [List.filter_append, List.filter_cons, Text.filter_trim solid, filter_respaceCommas solid,
    filter_declarations solid, filter_break solid, filter_space solid, List.append_nil]
  split <;> simp

theorem filter_opening (level : Level) (header : Text) :
    (Layout.opening level header).filter p = (header ++ ['{']).filter p := by
  rw [Layout.opening, List.filter_append, List.filter_append, Text.filter_trim solid, filter_respace solid,
    filter_space solid, List.append_nil, List.filter_append]

theorem filter_written (level : Level) (depth : Int) (t : Text) :
    (Layout.written level depth t).filter p = t.filter p := by
  rw [Layout.written]
  split
  · rw [List.filter_append, List.filter_append, filter_tabs solid]
    simp [solid '\n' (by decide)]
  · rfl

end

/-! ### Lines laid out -/

/-- What is written of a line, blanks aside. -/
def Line.kept : Line → Text
  | .leaving t => t
  | .statement t => t
  | .opening header => header ++ ['{']
  | .ruleset selectors body => selectors ++ '{' :: body ++ ['}']
  | .stray _ => []

/-- What is written of a line that is given by its text. -/
def kept (line : Text) : Text := (Line.classify line).kept

/-- By how much a line changes the depth. -/
def climb (line : Text) : Int := (Line.classify line).depthAfter 0

@[simp] theorem kept_nil : kept [] = [] := rfl

@[simp] theorem climb_nil : climb [] = 0 := rfl

theorem depthAfter_eq (depth : Int) (shape : Line) : shape.depthAfter depth = depth + shape.depthAfter 0 := by
  cases shape <;> simp only [Line.depthAfter] <;> omega

theorem filter_lineText? {p : Char → Bool} (solid : Solid p) (level : Level) (depth : Int) (shape : Line) :
    ((Layout.lineText? level depth shape).getD []).filter p = shape.kept.filter p := by
  cases shape with
  | leaving t => rfl
  | statement t => rfl
  | opening header => exact filter_opening solid level header
  | ruleset selectors body => exact filter_ruleset solid level depth selectors body
  | stray t => rfl

theorem filter_ofLinesAt {p : Char → Bool} (solid : Solid p) (level : Level) (depth : Int) (ts : List Text) :
    (Layout.ofLinesAt level depth ts).output.filter p = ((ts.map Text.trim).flatMap kept).filter p := by
  induction ts generalizing depth with
  | nil => rfl
  | cons t ts ih =>
    have here := filter_lineText? solid level depth (Line.classify (Text.trim t))
    rw [List.map_cons, List.flatMap_cons, List.filter_append, Layout.ofLinesAt, kept, ← here]
    cases found : Layout.lineText? level depth (Line.classify (Text.trim t)) with
    | none => simp [ih]
    | some u => simp [filter_written solid, ih]

theorem depth_ofLinesAt (level : Level) (depth : Int) (ts : List Text) :
    (Layout.ofLinesAt level depth ts).depth = depth + ((ts.map Text.trim).map climb).sum := by
  induction ts generalizing depth with
  | nil => simp [Layout.ofLinesAt]
  | cons t ts ih =>
    have here := depthAfter_eq depth (Line.classify (Text.trim t))
    have later := ih ((Line.classify (Text.trim t)).depthAfter depth)
    rw [List.map_cons, List.map_cons, List.sum_cons, Layout.ofLinesAt, climb]
    cases Layout.lineText? level depth (Line.classify (Text.trim t)) with
    | none => dsimp only; omega
    | some u => dsimp only; omega

theorem flatMap_kept_filter (ts : List Text) :
    (ts.filter fun line => !line.isEmpty).flatMap kept = ts.flatMap kept := by
  induction ts with
  | nil => rfl
  | cons t ts ih =>
    cases t with
    | nil => simpa using ih
    | cons c t => simp [ih]

theorem sum_climb_filter (ts : List Text) :
    ((ts.filter fun line => !line.isEmpty).map climb).sum = (ts.map climb).sum := by
  induction ts with
  | nil => rfl
  | cons t ts ih =>
    cases t with
    | nil => simpa using ih
    | cons c t => simp [ih]

/-- Lines that are blank are written as nothing, and the others without the blanks at their ends. -/
theorem output_ofLinesAt (level : Level) (depth : Int) (ts : List Text) :
    (Layout.ofLinesAt level depth ts).output =
      (Layout.ofLinesAt level depth ((ts.map Text.trim).filter fun line => !line.isEmpty)).output := by
  induction ts generalizing depth with
  | nil => rfl
  | cons t ts ih =>
    have again := (Text.trimmed_trim t).trim_eq
    rw [List.map_cons, List.filter_cons, Layout.ofLinesAt]
    cases shape : Text.trim t with
    | nil => simpa [Line.classify, Line.ruleset?, Text.splitFirst, Text.startsWith, Text.endsWith,
        Layout.lineText?, Line.depthAfter] using ih depth
    | cons c rest =>
      rw [shape] at again
      simp only [List.isEmpty_cons, Bool.not_false, if_true, Layout.ofLinesAt, again]
      cases Layout.lineText? level depth (Line.classify (c :: rest)) <;> simp [ih]

theorem output_layoutOf (level : Level) (t : Text) :
    (layoutOf level t).output = (Layout.ofLinesAt level 0 (lines t)).output := by
  rw [layoutOf, Layout.ofLines, output_ofLinesAt, ← lines_trim t, lines]

/-- Of the lines of a text, what is not blank is written in order, but for stray lines. -/
theorem filter_layoutOf {p : Char → Bool} (solid : Solid p) (level : Level) (t : Text) :
    (layoutOf level t).output.filter p = ((lines t).flatMap kept).filter p := by
  rw [layoutOf, Layout.ofLines, filter_ofLinesAt solid, ← lines_trim t, lines, flatMap_kept_filter]

/-- The depth behind the lines of a text is what they climb together. -/
theorem depth_layoutOf (level : Level) (t : Text) :
    (layoutOf level t).depth = ((lines t).map climb).sum := by
  rw [layoutOf, Layout.ofLines, depth_ofLinesAt, ← lines_trim t, lines, sum_climb_filter, Int.zero_add]

end Stylepress.Css
