import Mathlib.Algebra.Ring.Nat
import Stylepress.Proofs.Fragments

/-!
The white space of `high` against that of `off`. Every step of `high` takes characters away or replaces a
character by one space, but for one: a condition in the header of a block is written with a space on either
side, also where other text stands right against it. These open sides (`Condition.sides`), and the vowel
separators that become spaces, are all that `high` can add (`blanks_high_le`).
-/
namespace Stylepress.Css

/-! ### Conditions -/

namespace Condition

/-- The open sides of a condition that is written in the place of `span`: its opening parenthesis comes right
    behind other text, or its closing one right before it. `inside` tells whether anything stands before the
    span, and `after` is what follows it. -/
def openSides (inside : Bool) (span after : Text) : Nat :=
  (inside && span.startsWith '(').toNat + (span.endsWith ')' && !after.isEmpty).toNat

/-- The open sides of all that a pass writes anew in a text whose first `n` characters belong to a span
    already counted. -/
def sidesFrom (front : Text → Option Text.Edit) (inside : Bool) : Nat → Text → Nat
  | _, [] => 0
  | n + 1, _ :: rest => sidesFrom front inside n rest
  | 0, c :: rest =>
    match front (c :: rest) with
    | none => sidesFrom front true 0 rest
    | some edit =>
      let span := (c :: rest).take (edit.tail + 1)
      (if edit.image = span then 0 else openSides inside span (rest.drop edit.tail)) +
        sidesFrom front true edit.tail rest

/-- How many sides of the conditions of a header are open. -/
def sides (header : Text) : Nat := sidesFrom (respacing? []) false 0 header

section
variable {front : Text → Option Text.Edit}

theorem sidesFrom_eq_drop (inside : Bool) (n : Nat) (t : Text) :
    sidesFrom front inside n t = sidesFrom front inside 0 (t.drop n) := by
  induction t generalizing n with
  | nil => simp [sidesFrom]
  | cons c rest ih =>
    cases n with
    | zero => rfl
    | succ n => simpa [sidesFrom] using ih n

theorem sidesFrom_of_none {c : Char} {rest : Text} (none : front (c :: rest) = none) (inside : Bool) :
    sidesFrom front inside 0 (c :: rest) = sidesFrom front true 0 rest := by
  simp [sidesFrom, none]

theorem sidesFrom_of_some {c : Char} {rest : Text} {edit : Text.Edit} (found : front (c :: rest) = some edit)
    (inside : Bool) :
    sidesFrom front inside 0 (c :: rest) =
      (if edit.image = (c :: rest).take (edit.tail + 1) then 0
        else openSides inside ((c :: rest).take (edit.tail + 1)) (rest.drop edit.tail)) +
        sidesFrom front true 0 (rest.drop edit.tail) := by
  simp only [sidesFrom, found]
  rw [sidesFrom_eq_drop]

end

end Condition

/-- What a condition that is written anew has inside of its two spaces: no more blanks than what it replaces
    has inside of its sides. -/
theorem respacing?_cases {t span : Text} {edit : Text.Edit} (found : Condition.respacing? [] t = some edit)
    (spanned : t.take (edit.tail + 1) = span) :
    edit.image = span ∨
      ∃ middle, edit.image = ' ' :: ('(' :: middle ++ [' ']) ∧
        middle.countP Text.isBlank + 2 ≤
          span.countP Text.isBlank + (span.startsWith '(').toNat + (span.endsWith ')').toNat := by
  rcases respacing?_eq_some found with same | ⟨condition, lead, gap, inner, word, last, shape, image, read⟩
  · exact .inl (same.trans spanned)
  · refine .inr ⟨condition.feature ++ ':' :: condition.value ++ [')'], by simp [image, Condition.write], ?_⟩
    have worth : condition.value.countP Text.isBlank ≤ (inner ++ word).countP Text.isBlank := by
      refine List.Sublist.countP_le ?_
      rcases read.value with same | ⟨_, inside⟩
      · exact same ▸ List.sublist_append_right inner word
      · exact inside.trans (List.sublist_append_left inner word)
    have left : 1 ≤ lead.countP Text.isBlank + (span.startsWith '(').toNat := by
      cases lead with
      | nil => simp [← spanned, shape, Text.startsWith]
      | cons c lead =>
        rw [List.countP_cons_of_pos (read.leadBlank c (by simp))]
        omega
    have right : 1 ≤ last.countP Text.isBlank + (span.endsWith ')').toNat := by
      cases last with
      | nil =>
        have ends : span = lead ++ '(' :: (condition.feature ++ (gap ++ ':' :: (inner ++ word))) ++ [')'] := by
          simp [← spanned, shape]
        rw [Text.endsWith, ends, List.getLast?_concat]
        decide
      | cons c last =>
        rw [List.countP_cons_of_pos (read.lastBlank c (by simp))]
        omega
    rw [← spanned, shape] at left right ⊢
    simp only [List.countP_append, List.countP_cons, List.countP_nil] at worth ⊢
    omega

/-! ### Headers -/

/-- The last space of a condition is trimmed where nothing follows it. -/
theorem countP_trimEnd_space (written after : Text) :
    (Text.trimEnd (written ++ ' ' :: Condition.respace [] after)).countP Text.isBlank ≤
      written.countP Text.isBlank + (!after.isEmpty).toNat +
        (Text.trimEnd (Condition.respace [] after)).countP Text.isBlank := by
  cases after with
  | nil =>
    have blank : ∀ c ∈ [' '], Text.isBlank c = true := List.forall_mem_singleton.mpr (by decide)
    have gone : (Text.trimEnd (written ++ [' '])).Sublist written :=
      Text.sublist_of_append (Text.dropEndWhile_last _ _) blank (Text.dropEndWhile_sublist _ _)
    exact gone.countP_le.trans (Nat.le_add_right _ _)
  | cons c after =>
    have most := (Text.trimEnd_append_sublist (written ++ [' ']) (Condition.respace [] (c :: after))).countP_le
      (p := Text.isBlank)
    have one : [' '].countP Text.isBlank = 1 := by decide
    rw [List.countP_append, List.countP_append, one, List.append_assoc] at most
    exact most

/-- A condition inside of a header brings no more blanks than it has open sides; at the start of the header
    its first space is left out. -/
theorem countP_condition (inside : Bool) {middle span : Text} (after : Text)
    (most : middle.countP Text.isBlank + 2 ≤
      span.countP Text.isBlank + (span.startsWith '(').toNat + (span.endsWith ')').toNat) :
    (Text.trimEnd (List.replicate inside.toNat ' ' ++ '(' :: middle ++ ' ' :: Condition.respace [] after)).countP
        Text.isBlank ≤
      span.countP Text.isBlank + Condition.openSides inside span after +
        (Text.trimEnd (Condition.respace [] after)).countP Text.isBlank := by
  have trimmed := countP_trimEnd_space (List.replicate inside.toNat ' ' ++ '(' :: middle) after
  have written : (List.replicate inside.toNat ' ' ++ '(' :: middle).countP Text.isBlank =
      inside.toNat + middle.countP Text.isBlank := by
    rw [List.countP_append, List.countP_replicate, if_pos (by decide), List.countP_cons_of_neg (by decide)]
  have both : ∀ a b : Bool, a.toNat + b.toNat ≤ (a && b).toNat + 1 := by decide
  have left := both inside (span.startsWith '(')
  have right := both (span.endsWith ')') (!after.isEmpty)
  rw [written] at trimmed
  rw [Condition.openSides]
  omega

/-- What is written of a header, trimmed at its end and, if nothing stands before it, at its start. -/
def edged (inside : Bool) (t : Text) : Text := if inside then Text.trimEnd t else Text.trim t

theorem edged_sublist (inside : Bool) (t : Text) : (edged inside t).Sublist (Text.trimEnd t) := by
  cases inside with
  | true => exact List.Sublist.refl _
  | false => exact Text.trimEnd_sublist_trimEnd (List.dropWhile_sublist Text.isBlank)

theorem edged_space_sublist (inside : Bool) (t : Text) :
    (edged inside (' ' :: t)).Sublist (Text.trimEnd (List.replicate inside.toNat ' ' ++ t)) := by
  cases inside with
  | true => exact List.Sublist.refl _
  | false => exact edged_sublist false t

theorem countP_edged_append (inside : Bool) (a b : Text) :
    (edged inside (a ++ b)).countP Text.isBlank ≤
      a.countP Text.isBlank + (Text.trimEnd b).countP Text.isBlank := by
  have most := ((edged_sublist inside (a ++ b)).trans (Text.trimEnd_append_sublist a b)).countP_le
    (p := Text.isBlank)
  rwa [List.countP_append] at most

/-- The pass over a header adds no more blanks than its conditions have open sides. -/
theorem countP_edged_respace (inside : Bool) (t : Text) :
    (edged inside (Condition.respace [] t)).countP Text.isBlank ≤
      t.countP Text.isBlank + Condition.sidesFrom (Condition.respacing? []) inside 0 t := by
  rw [Condition.respace]
  -- `inside` holds from the second step on, whatever it is at the first one.
  induction t using Text.pass_induction (Condition.respacing? []) generalizing inside with
  | nil => cases inside <;> exact Nat.zero_le _
  | copy c rest none ih =>
    have behind : (Text.trimEnd (Text.pass (Condition.respacing? []) rest)).countP Text.isBlank ≤ _ := ih true
    have most := countP_edged_append inside [c] (Text.pass (Condition.respacing? []) rest)
    rw [Condition.sidesFrom_of_none none, List.countP_cons]
    rw [List.countP_singleton] at most
    exact most.trans (by omega)
  | replace c rest edit found ih =>
    have behind : (Text.trimEnd (Text.pass (Condition.respacing? []) (rest.drop edit.tail))).countP
      Text.isBlank ≤ _ := ih true
    have whole := Text.take_succ_cons_append_drop c rest edit.tail
    rw [Condition.sidesFrom_of_some found]
    generalize spanned : (c :: rest).take (edit.tail + 1) = span at whole ⊢
    generalize rest.drop edit.tail = after at whole behind ⊢
    rw [← whole, List.countP_append]
    split
    · next same =>
      have most := countP_edged_append inside span (Text.pass (Condition.respacing? []) after)
      rw [same]
      omega
    · next other =>
      obtain ⟨middle, image, most⟩ := (respacing?_cases found spanned).resolve_left other
      have shape : edit.image ++ Text.pass (Condition.respacing? []) after =
          ' ' :: ('(' :: middle ++ ' ' :: Condition.respace [] after) := by
        simp [image, Condition.respace]
      have edge := (edged_space_sublist inside ('(' :: middle ++ ' ' :: Condition.respace [] after)).countP_le
        (p := Text.isBlank)
      have written := countP_condition inside after most
      rw [List.append_assoc] at written
      rw [shape]
      rw [← Condition.respace] at behind
      omega

/-! ### Lines -/

/-- The open sides of the conditions of a line. -/
def Line.sides : Line → Nat
  | .opening header => Condition.sides header
  | _ => 0

theorem respaceCommas_sublist (t : Text) : (Layout.respaceCommas [] t).Sublist t := by
  refine Text.pass_sublist ?_ t
  intro t edit found
  obtain ⟨lead, last, _, span, image⟩ := comma?_eq_some found
  rw [image, span]
  exact List.singleton_sublist.mpr (by simp)

theorem declaration_sublist (t : Text) : (Layout.declaration [] t).Sublist t := by
  rw [Layout.declaration]
  split
  · next property value found =>
    obtain ⟨_, rfl⟩ := Text.splitFirst_eq_some_iff.mp found
    rw [List.append_assoc]
    exact (dropLastSpace_sublist property).append ((dropFirstSpace_sublist value).cons_cons ':')
  · exact List.Sublist.refl t

theorem declarations_sublist (t : Text) : (Layout.declarations .medium 0 t).Sublist t := by
  obtain ⟨first, others, cut⟩ :=
    List.exists_cons_of_ne_nil (Text.pieces_ne_nil ';' (Layout.respaceCommas [] t))
  have whole : Text.join [';'] ((first :: others).map id) = Layout.respaceCommas [] t := by
    rw [List.map_id, ← cut, Text.join_pieces]
  have shorter : (Text.join [';'] ((first :: others).map (Layout.declaration []))).Sublist
      (Text.join [';'] ((first :: others).map id)) :=
    Text.join_sublist (List.Sublist.refl [';']) declaration_sublist first others
  rw [whole, ← cut] at shorter
  exact shorter.trans (respaceCommas_sublist t)

/-- A line is written with no more blanks than it has, but for the open sides of its conditions. -/
theorem Line.countP_text_le (line : Line) :
    line.text.countP Text.isBlank ≤ line.kept.countP Text.isBlank + line.sides := by
  cases line with
  | leaving t => exact Nat.le_refl _
  | statement t => exact Nat.le_refl _
  | opening header =>
    have most : (Text.trim (Condition.respace [] header)).countP Text.isBlank ≤ _ :=
      countP_edged_respace false header
    rw [Line.text_opening, Line.kept, List.countP_append, List.countP_append, Line.sides, Condition.sides]
    omega
  | ruleset selectors body =>
    have inside : (Line.ruleset selectors body).text.Sublist (Line.ruleset selectors body).kept := by
      rw [Line.text_ruleset, Line.kept]
      exact (((Text.trim_sublist _).trans (respaceCommas_sublist selectors)).append
        (((Text.trim_sublist _).trans (declarations_sublist body)).cons_cons '{')).append (List.Sublist.refl ['}'])
    exact inside.countP_le
  | stray t => exact Nat.zero_le _

theorem countP_flatMap_text_le (ls : List Line) :
    (ls.flatMap Line.text).countP Text.isBlank ≤
      (ls.flatMap Line.kept).countP Text.isBlank + (ls.map Line.sides).sum := by
  induction ls with
  | nil => exact Nat.le_refl _
  | cons line ls ih =>
    have here := line.countP_text_le
    rw [List.flatMap_cons, List.flatMap_cons, List.countP_append, List.countP_append, List.map_cons, List.sum_cons]
    omega

theorem flatMap_kept_shapes (ts : List Text) : (shapes ts).flatMap Line.kept = ts.flatMap kept := by
  induction ts with
  | nil => rfl
  | cons t ts ih =>
    rw [shapes] at ih ⊢
    rw [List.map_cons, List.filter_cons, List.flatMap_cons, ← ih, kept]
    cases Line.classify t <;> rfl

/-! ### Clean-up -/

theorem Comment.strip_sublist (t : Text) : (Comment.strip t).Sublist t := by
  refine Text.pass_sublist ?_ t
  intro t edit found
  unfold Comment.removal? at found
  split at found
  · split at found
    · obtain rfl := Option.some.inj found
      exact List.nil_sublist _
    · obtain rfl := Option.some.inj found
      rw [List.take_of_length_le (by simp)]
  · cases found

theorem EmptyRuleset.sweep_sublist (t : Text) : (EmptyRuleset.sweep t).Sublist t := by
  have pass : ∀ u, (Text.pass EmptyRuleset.removal? u).Sublist u := by
    refine Text.pass_sublist ?_
    intro u edit found
    cases u with
    | nil => cases found
    | cons c u =>
      rw [EmptyRuleset.removal?] at found
      split at found
      · obtain ⟨n, _, rfl⟩ := Option.map_eq_some_iff.mp found
        exact (List.nil_sublist _).cons_cons c
      · cases found
  rw [EmptyRuleset.sweep]
  split
  · next n _ => exact (pass _).trans (List.drop_sublist n t)
  · exact pass t

theorem EmptyRuleset.strip_sublist (t : Text) : (EmptyRuleset.strip t).Sublist t := by
  fun_induction EmptyRuleset.strip t with
  | case1 t swept _ ih => exact ih.trans (EmptyRuleset.sweep_sublist t)
  | case2 t swept _ => exact List.Sublist.refl t

/-- A space for every character that spaces a line out. -/
def spaced (c : Char) : Char := if Text.isHorizontal c then ' ' else c

theorem collapse_sublist (t : Text) : (Spacing.collapse t).Sublist (t.map spaced) := by
  fun_induction Spacing.collapse t with
  | case1 => exact List.Sublist.refl []
  | case2 c rest _ _ ih => exact ih.cons (spaced c)
  | case3 c rest horizontal _ ih =>
    rw [List.map_cons, spaced, if_pos horizontal]
    exact ih.cons_cons ' '
  | case4 c rest other ih =>
    rw [List.map_cons, spaced, if_neg other]
    exact ih.cons_cons c

/-- Clean-up takes characters away, and writes a space for some of the others. -/
theorem clean_sublist (css : Text) : (clean css).Sublist (css.map spaced) := by
  have joined : (Spacing.joinLines (EmptyRuleset.strip (Comment.strip css))).Sublist css :=
    (List.filter_sublist.trans (EmptyRuleset.strip_sublist _)).trans (Comment.strip_sublist css)
  exact ((tightenFrom_sublist false _).trans (collapse_sublist _)).trans (joined.map spaced)

/-! ### Blanks -/

/-- The Mongolian vowel separator, which spaces a line out and is not blank. -/
def vowelSeparator : Char := Char.ofNat 0x180E

theorem isSpacing_iff {c : Char} :
    Plain.isSpacing c = true ↔ Text.isBlank c = true ∨ c = vowelSeparator := by
  constructor
  · intro spacing
    rcases Bool.or_eq_true_iff.mp spacing with vertical | horizontal
    · exact .inl ((Text.isBlank_iff c).mpr (.inl vertical))
    · by_cases separator : c.toNat = 0x180E
      · exact .inr (Char.toNat_inj.mp separator)
      · exact .inl ((Text.isBlank_iff c).mpr (.inr ⟨horizontal, separator⟩))
  · rintro (blank | rfl)
    · exact isSpacing_of_isBlank blank
    · rfl

theorem isBlank_spaced {c : Char} (blank : Text.isBlank (spaced c) = true) :
    Text.isBlank c = true ∨ c = vowelSeparator := by
  rw [spaced] at blank
  split at blank
  · next horizontal => exact isSpacing_iff.mp (Plain.isSpacing_of_isHorizontal horizontal)
  · exact .inl blank

theorem countP_map_spaced (t : Text) :
    (t.map spaced).countP Text.isBlank ≤ t.countP Text.isBlank + t.count vowelSeparator := by
  induction t with
  | nil => exact Nat.le_refl _
  | cons c t ih =>
    rw [List.map_cons]
    cases blank : Text.isBlank (spaced c) with
    | false =>
      have same := (List.sublist_cons_self c t)
      have more := same.countP_le (p := Text.isBlank)
      have others := same.count_le vowelSeparator
      rw [List.countP_cons_of_neg (by simp [blank])]
      omega
    | true =>
      rw [List.countP_cons_of_pos blank]
      rcases isBlank_spaced blank with here | rfl
      · have others := (List.sublist_cons_self c t).count_le vowelSeparator
        rw [List.countP_cons_of_pos here]
        omega
      · have more := (List.sublist_cons_self vowelSeparator t).countP_le (p := Text.isBlank)
        rw [List.count_cons_self]
        omega

theorem isMark_spaced (c : Char) : Spacing.isMark (spaced c) = Spacing.isMark c := by
  rw [spaced]
  split
  · next horizontal =>
    cases mark : Spacing.isMark c with
    | false => rfl
    | true =>
      simp only [Spacing.isMark, Bool.or_eq_true, beq_iff_eq] at mark
      rcases mark with (rfl | rfl) | rfl <;> exact absurd horizontal (by decide)
  · rfl

/-! ### Stripping -/

/-- What stands up to the last mark of a text is no token of it. -/
theorem dropEndWhile_sublist_strip (css : Text) :
    (Text.dropEndWhile (fun c => !Spacing.isMark c) css).Sublist (Token.strip css) := by
  obtain ⟨run, shape, _⟩ := Text.exists_dropEndWhile (fun c => !Spacing.isMark c) css
  have last := Text.dropEndWhile_last (fun c => !Spacing.isMark c) css
  generalize Text.dropEndWhile (fun c => !Spacing.isMark c) css = front at shape last
  obtain rfl | ⟨before, m, rfl⟩ := List.eq_nil_or_concat front
  · exact List.nil_sublist _
  · have mark : Spacing.isMark m = true := by simpa using last m (by simp)
    have kept : Token.strip css = before ++ m :: Token.strip run := by
      rw [shape, List.concat_eq_append, List.append_assoc]
      exact Token.strip_append before (Spacing.isBlank_of_isMark mark)
        (fun d digit => Token.not_mem_of_isMark mark digit) run
    rw [kept, List.concat_eq_append]
    exact (List.Sublist.refl before).append ((List.nil_sublist _).cons_cons m)

/-- What is kept of a line ends with a mark. -/
theorem LineText.getLast?_kept {t : Text} (line : LineText t) :
    ∀ c ∈ (kept t).getLast?, Spacing.isMark c = true := by
  intro c last
  rw [kept] at last
  rcases classify_cases t with ⟨shape, start⟩ | ⟨shape, ends⟩ | ⟨header, opened, shape, _⟩ |
    ⟨selectors, body, shape, _⟩ | shape
  · rw [shape, line.eq_of_startsWith start] at last
    obtain rfl := Option.some.inj last
    rfl
  · rw [shape, Line.kept, eq_of_beq ends] at last
    obtain rfl := Option.some.inj last
    rfl
  · rw [shape, Line.kept, List.getLast?_concat] at last
    obtain rfl := Option.some.inj last
    rfl
  · rw [shape, Line.kept, List.getLast?_concat] at last
    obtain rfl := Option.some.inj last
    rfl
  · rw [shape] at last
    cases last

theorem getLast?_flatMap_kept {ts : List Text} (each : ∀ t ∈ ts, LineText t) :
    ∀ c ∈ (ts.flatMap kept).getLast?, Spacing.isMark c = true := by
  induction ts with
  | nil => simp
  | cons t ts ih =>
    obtain ⟨line, later⟩ := List.forall_mem_cons.mp each
    intro c last
    rw [List.flatMap_cons, List.getLast?_append] at last
    cases ending : (ts.flatMap kept).getLast? with
    | some d =>
      obtain rfl : d = c := by simpa [ending] using last
      exact ih later d ending
    | none => exact line.getLast?_kept c (by simpa [ending] using last)

/-- The lines of a settled stylesheet keep characters of it, in order. -/
theorem flatMap_kept_sublist {css : Text} (noBreak : '\n' ∉ css) :
    ((lines (Segment.segment css)).flatMap kept).Sublist css := by
  have each : ∀ ts : List Text,
      (((ts.map Text.trim).filter fun line => !line.isEmpty).flatMap kept).Sublist ts.flatten := by
    intro ts
    rw [flatMap_kept_filter]
    induction ts with
    | nil => exact List.Sublist.refl []
    | cons t ts ih => exact ((kept_sublist _).trans (Text.trim_sublist t)).append ih
  have whole : ∀ piece ∈ Text.pieces '\n' (Segment.segment css), piece.filter (· != '\n') = piece := by
    intro piece member
    rw [List.filter_eq_self]
    intro c inside
    have other : c ≠ '\n' := fun same => Text.not_mem_of_mem_pieces member (same ▸ inside)
    simpa using other
  have pieces : (Text.pieces '\n' (Segment.segment css)).flatten = css := by
    have filtered := flatMap_filter_pieces (p := (· != '\n')) rfl (Segment.segment css)
    rw [List.flatMap_def, List.map_congr_left whole, List.map_id', filter_segment_eq noBreak] at filtered
    exact filtered
  have inPieces := each (Text.pieces '\n' (Segment.segment css))
  rwa [pieces] at inPieces

/-- What `high` keeps of a stylesheet is what stands up to its last mark, with spaces for some characters. -/
theorem flatMap_kept_sublist_strip (css : Text) :
    ((lines (segmented .medium css)).flatMap kept).Sublist ((Token.strip css).map spaced) := by
  have settled : ((lines (segmented .medium css)).flatMap kept).Sublist (css.map spaced) :=
    ((flatMap_kept_sublist (not_mem_settle (not_mem_clean css) .medium)).trans (drop_sublist _)).trans
      (clean_sublist css)
  have marked : ∀ c ∈ ((lines (segmented .medium css)).flatMap kept).getLast?, (!Spacing.isMark c) = false := by
    intro c last
    simpa using getLast?_flatMap_kept (fun t => lineText_of_mem_lines) c last
  -- Tokens come behind the last mark, so what is kept ends before they are stripped.
  have upTo := Text.sublist_dropEndWhile marked settled
  have same : ((fun c => !Spacing.isMark c) ∘ spaced) = fun c => !Spacing.isMark c := by
    funext c
    simp [isMark_spaced]
  rw [Text.dropEndWhile_map, same] at upTo
  exact upTo.trans ((dropEndWhile_sublist_strip css).map spaced)

/-! ### Pressing -/

/-- How many blanks `high` may write that its source does not have: one for each open side of a condition, and
    one for each vowel separator. -/
def gain (source : Text) : Nat :=
  ((writtenLines source).map Line.sides).sum + (Token.strip (Text.trim source)).count vowelSeparator

theorem trimStart_output_high (source : Text) :
    Text.trimStart (layout .high (Text.trim source)).output = (layout .high (Text.trim source)).output := by
  have spaces : ∀ line ∈ Text.pieces '\n' (Text.trim (segmented .medium (Text.trim source))),
      ∀ c ∈ line, Text.isBlank c = true → c = ' ' := fun line member c => eq_space_of_mem_line member
  obtain ⟨fragments, _, high, _⟩ := exists_fragments spaces 0
  have output : (layout .high (Text.trim source)).output = fragments.flatMap Fragment.text := high
  rw [output, trimStart_flatMap_text]

/-- The token has no blanks, so those of the pressed text are those of what is laid out. -/
theorem countP_minify_high (source : Text) :
    (minify source .high).countP Text.isBlank = (layout .high (Text.trim source)).output.countP Text.isBlank := by
  rcases minify_of_pressed (show Level.high ≠ .off by decide) source with ⟨none, nothing⟩ | signed
  · rw [none, nothing]
  · have token : (Token.ofLevel .high).countP Text.isBlank = 0 := by decide
    rw [signed, List.countP_append, token, Nat.add_zero, trimStart_output_high]

theorem countP_output_le (source : Text) :
    (layout .high (Text.trim source)).output.countP Text.isBlank ≤
      (Token.strip (Text.trim source)).countP Text.isBlank + gain source := by
  have lines := countP_flatMap_text_le (writtenLines source)
  have kept := (flatMap_kept_sublist_strip (Text.trim source)).countP_le (p := Text.isBlank)
  have spaces := countP_map_spaced (Token.strip (Text.trim source))
  rw [writtenLines, flatMap_kept_shapes, ← writtenLines] at lines
  rw [output_layout_high, gain]
  omega

/-- Of a source that is stripped to nothing, nothing is written. -/
theorem output_of_strip {source : Text} (none : Token.strip (Text.trim source) = []) :
    (layout .high (Text.trim source)).output = [] := by
  have nothing : (lines (segmented .high (Text.trim source))).flatMap kept = [] := by
    have inside := flatMap_kept_sublist_strip (Text.trim source)
    rw [none] at inside
    exact List.sublist_nil.mp inside
  have unwritten : (layout .high (Text.trim source)).output.filter isSolid = [] := by
    rw [layout, filter_layoutOf solid_isSolid, nothing]
    rfl
  have blank : ∀ c ∈ (layout .high (Text.trim source)).output, Text.isBlank c = true := by
    simpa [List.filter_eq_nil_iff, isSolid] using unwritten
  rw [← trimStart_output_high, Text.trimStart, List.dropWhile_eq_nil_iff.mpr blank]

theorem countP_off {source : Text} {c : Char} {rest : Text} (stripped : Token.strip (Text.trim source) = c :: rest) :
    (minify source .off).countP Text.isBlank = (c :: rest).countP Text.isBlank + 1 := by
  have filled : (Text.trim source).isEmpty = false := by
    cases css : Text.trim source with
    | nil =>
      have nothing : (c :: rest).Sublist [] := by
        rw [← stripped, css]
        exact Token.strip_sublist []
      simp at nothing
    | cons d more => rfl
  have signed : minify source .off = c :: rest ++ '\n' :: Token.ofLevel .off := by
    simp [minify, filled, sign, stripped]
  have token : ('\n' :: Token.ofLevel .off).countP Text.isBlank = 1 := by decide
  rw [signed, List.countP_append, token]

/-- The blanks of `high` exceed those of `off` by less than there are open sides of conditions and vowel
    separators; with one of them at most, they do not exceed them. -/
theorem blanks_high_le (source : Text) :
    (minify source .high).countP Text.isBlank ≤
      (minify source .off).countP Text.isBlank + (gain source - 1) := by
  cases none : Token.strip (Text.trim source) with
  | nil =>
    rw [countP_minify_high, output_of_strip none]
    exact Nat.zero_le _
  | cons c rest =>
    have combined := countP_off none
    have pressed := countP_minify_high source
    have most := countP_output_le source
    rw [none] at most
    omega

end Stylepress.Css
