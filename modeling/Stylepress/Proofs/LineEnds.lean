import Stylepress.Proofs.Agreement
import Stylepress.Proofs.Runs
import Stylepress.Proofs.Words

/-!
Line ends and other blanks. A run of blanks that holds horizontal space is pressed like a single space, but
one of line ends alone is pressed like no run at all (`clean_run_cases`). Beside a mark, beside other space
and at the ends of the stylesheet this makes no difference; between two words it makes one word of them
(`minify_run`).
-/
namespace Stylepress.Css

/-! ### One space more -/

theorem collapse_run_append {run : Text} (filled : run ≠ []) (inRun : ∀ c ∈ run, Text.isHorizontal c = true)
    (t : Text) :
    Spacing.collapse (run ++ t) =
      if t.head?.any Text.isHorizontal then Spacing.collapse t else ' ' :: Spacing.collapse t := by
  induction run with
  | nil => exact absurd rfl filled
  | cons c run ih =>
    obtain ⟨here, later⟩ := List.forall_mem_cons.mp inRun
    rw [List.cons_append, Spacing.collapse, if_pos here]
    cases run with
    | nil => rfl
    | cons d run =>
      have followed : (d :: run ++ t).head?.any Text.isHorizontal = true := later d (by simp)
      rw [if_pos followed, ih (by simp) later]

/-- A run of horizontal space is collapsed like a single space. -/
theorem collapse_run_eq {run : Text} (filled : run ≠ []) (inRun : ∀ c ∈ run, Text.isHorizontal c = true)
    (a b : Text) : Spacing.collapse (a ++ run ++ b) = Spacing.collapse (a ++ [' '] ++ b) := by
  have space : ∀ c ∈ [' '], Text.isHorizontal c = true := List.forall_mem_singleton.mpr (by decide)
  induction a with
  | nil =>
    rw [List.nil_append, List.nil_append, collapse_run_append filled inRun,
      collapse_run_append (by simp) space]
  | cons c a ih =>
    have next : (a ++ run ++ b).head?.any Text.isHorizontal = (a ++ [' '] ++ b).head?.any Text.isHorizontal := by
      cases a with
      | nil =>
        obtain ⟨d, run, rfl⟩ := List.exists_cons_of_ne_nil filled
        exact inRun d (by simp)
      | cons d a => rfl
    simp only [List.cons_append, Spacing.collapse, next, ih]

/-- A space beside other horizontal space is collapsed with it. -/
theorem collapse_beside_space {a b : Text}
    (beside : a.getLast?.any Text.isHorizontal = true ∨ b.head?.any Text.isHorizontal = true) :
    Spacing.collapse (a ++ [' '] ++ b) = Spacing.collapse (a ++ b) := by
  rcases beside with ended | started
  · rcases List.eq_nil_or_concat a with rfl | ⟨front, c, rfl⟩
    · simp at ended
    · rw [List.concat_eq_append] at *
      have horizontal : Text.isHorizontal c = true := by simpa using ended
      have inRun : ∀ d ∈ [c, ' '], Text.isHorizontal d = true := by
        simpa using And.intro horizontal (by decide)
      have one := collapse_run_eq (by simp) (List.forall_mem_singleton.mpr horizontal) front b
      have two := collapse_run_eq (by simp) inRun front b
      simpa using two.trans one.symm
  · cases b with
    | nil => simp at started
    | cons d b =>
      have inRun : ∀ c ∈ [' ', d], Text.isHorizontal c = true := by
        simpa using And.intro (by decide) started
      have one := collapse_run_eq (by simp) (List.forall_mem_singleton.mpr started) a b
      have two := collapse_run_eq (by simp) inRun a b
      simpa using two.trans one.symm

/-- Collapsing looks at nothing behind a character that is no horizontal space. -/
theorem exists_collapse_append {c : Char} (other : Text.isHorizontal c = false) (t : Text) :
    ∃ left, ∀ rest, Spacing.collapse (t ++ c :: rest) = left ++ c :: Spacing.collapse rest := by
  induction t with
  | nil => exact ⟨[], fun rest => by simp [Spacing.collapse, other]⟩
  | cons d t ih =>
    obtain ⟨left, collapsed⟩ := ih
    have next : ∀ rest, (t ++ c :: rest).head?.any Text.isHorizontal = (t ++ [c]).head?.any Text.isHorizontal := by
      intro rest
      cases t <;> rfl
    by_cases horizontal : Text.isHorizontal d = true
    · by_cases followed : (t ++ [c]).head?.any Text.isHorizontal = true
      · refine ⟨left, fun rest => ?_⟩
        rw [List.cons_append, Spacing.collapse, if_pos horizontal, next, if_pos followed, collapsed]
      · refine ⟨' ' :: left, fun rest => ?_⟩
        rw [List.cons_append, Spacing.collapse, if_pos horizontal, next, if_neg followed, collapsed,
          List.cons_append]
    · refine ⟨d :: left, fun rest => ?_⟩
      rw [List.cons_append, Spacing.collapse, if_neg horizontal, collapsed, List.cons_append]

/-- Tightening looks behind a character that is no space only for whether that character is a mark. -/
theorem exists_tightenFrom_append {c : Char} (other : c ≠ ' ') (afterMark : Bool) (t : Text) :
    ∃ left, ∀ rest, Spacing.tightenFrom afterMark (t ++ c :: rest) =
      left ++ c :: Spacing.tightenFrom (Spacing.isMark c) rest := by
  induction t generalizing afterMark with
  | nil => exact ⟨[], fun rest => by simp [Spacing.tightenFrom, other]⟩
  | cons d t ih =>
    have next : ∀ rest, (t ++ c :: rest).head?.any Spacing.isMark = (t ++ [c]).head?.any Spacing.isMark := by
      intro rest
      cases t <;> rfl
    by_cases dropped : (d = ' ' && (afterMark || (t ++ [c]).head?.any Spacing.isMark)) = true
    · obtain ⟨left, tightened⟩ := ih false
      refine ⟨left, fun rest => ?_⟩
      rw [List.cons_append, Spacing.tightenFrom, next, if_pos dropped, tightened]
    · obtain ⟨left, tightened⟩ := ih (Spacing.isMark d)
      refine ⟨d :: left, fun rest => ?_⟩
      rw [List.cons_append, Spacing.tightenFrom, next, if_neg dropped, tightened, List.cons_append]

theorem tightenFrom_of_head {t : Text} (other : t.head? ≠ some ' ') (afterMark : Bool) :
    Spacing.tightenFrom afterMark t = Spacing.tightenFrom false t := by
  cases t with
  | nil => rfl
  | cons c t =>
    have solid : c ≠ ' ' := fun same => other (by rw [same]; rfl)
    simp [Spacing.tightenFrom, solid]

/-- A space before a text that does not start with horizontal space is dropped beside a mark and kept
    otherwise. -/
theorem tightenFrom_collapse_space {t : Text} (start : t.head?.any Text.isHorizontal = false) (afterMark : Bool) :
    Spacing.tightenFrom afterMark (Spacing.collapse (' ' :: t)) =
      (if afterMark || t.head?.any Spacing.isMark then [] else [' ']) ++
        Spacing.tightenFrom afterMark (Spacing.collapse t) := by
  have first := head?_collapse start
  have noSpace : (Spacing.collapse t).head? ≠ some ' ' := by
    rw [first]
    intro same
    rw [same] at start
    exact absurd start (by decide)
  have collapsed : Spacing.collapse (' ' :: t) = ' ' :: Spacing.collapse t := by
    rw [Spacing.collapse, if_pos (by decide), start]
    rfl
  rw [collapsed, Spacing.tightenFrom, first, tightenFrom_of_head noSpace afterMark]
  by_cases dropped : (afterMark || t.head?.any Spacing.isMark) = true
  · rw [if_pos (by simpa using dropped), if_pos dropped]
    rfl
  · rw [if_neg (by simpa using dropped), if_neg dropped]
    rfl

theorem ne_space_of_not_isHorizontal {c : Char} (other : Text.isHorizontal c = false) : c ≠ ' ' := by
  rintro rfl
  exact absurd other (by decide)

/-- A character beside which a space is kept. -/
structure KeepsSpace (c : Char) : Prop where
  solid : Plain.isSpacing c = false
  unmarked : Spacing.isMark c = false

/-- Two texts that differ in a space between two characters. -/
def Divides (c d : Char) (joined spaced : Text) : Prop :=
  ∃ x y, joined = x ++ [c] ++ d :: y ∧ spaced = x ++ [c] ++ ' ' :: d :: y

/-- The clean-up of a text on one line that does not end with horizontal space knows of it, behind it, only
    whether it ends with a mark. -/
theorem exists_tighten_append {a : Text} (ended : ∀ c ∈ a.getLast?, Text.isHorizontal c = false) :
    ∃ left, left.getLast? = a.getLast? ∧ ∀ t, Spacing.tighten (Spacing.collapse (a ++ t)) =
      left ++ Spacing.tightenFrom (a.getLast?.any Spacing.isMark) (Spacing.collapse t) := by
  rcases List.eq_nil_or_concat a with rfl | ⟨front, c, rfl⟩
  · exact ⟨[], rfl, fun _ => rfl⟩
  · rw [List.concat_eq_append] at ended ⊢
    have other : Text.isHorizontal c = false := ended c List.getLast?_concat
    obtain ⟨left, collapsed⟩ := exists_collapse_append other front
    obtain ⟨tightened, behind⟩ := exists_tightenFrom_append (ne_space_of_not_isHorizontal other) false left
    refine ⟨tightened ++ [c], by simp, ?_⟩
    intro t
    rw [List.append_assoc, List.singleton_append, collapsed, Spacing.tighten, behind, List.getLast?_concat]
    simp

/-- A space more in a text on one line is lost in the clean-up, or it comes to stand at an end of the text or
    between two characters that keep it. -/
theorem tighten_space_cases {a b joined spaced : Text} (oneLine : ∀ c ∈ a ++ b, Text.isVertical c = false)
    (joined_eq : joined = Spacing.tighten (Spacing.collapse (a ++ b)))
    (spaced_eq : spaced = Spacing.tighten (Spacing.collapse (a ++ [' '] ++ b))) :
    spaced = joined ∨ spaced = ' ' :: joined ∨ spaced = joined ++ [' '] ∨
      ∃ c d, KeepsSpace c ∧ KeepsSpace d ∧ Divides c d joined spaced := by
  by_cases beside : a.getLast?.any Text.isHorizontal = true ∨ b.head?.any Text.isHorizontal = true
  · left
    rw [spaced_eq, joined_eq, collapse_beside_space beside]
  obtain ⟨ended, started⟩ := not_or.mp beside
  have start : b.head?.any Text.isHorizontal = false := by simpa using started
  have last : ∀ c ∈ a.getLast?, Text.isHorizontal c = false := by
    intro c member
    simpa [Option.mem_def.mp member] using ended
  obtain ⟨left, sameLast, cleaned⟩ := exists_tighten_append last
  rw [cleaned] at joined_eq
  rw [List.append_assoc, List.singleton_append, cleaned, tightenFrom_collapse_space start] at spaced_eq
  by_cases dropped : (a.getLast?.any Spacing.isMark || b.head?.any Spacing.isMark) = true
  · rw [if_pos dropped, List.nil_append, ← joined_eq] at spaced_eq
    exact .inl spaced_eq
  · rw [if_neg dropped] at spaced_eq
    simp only [Bool.or_eq_true, not_or, Bool.not_eq_true] at dropped
    rcases List.eq_nil_or_concat left with rfl | ⟨x, c, rfl⟩
    · rw [joined_eq]
      exact .inr (.inl spaced_eq)
    · rw [List.concat_eq_append] at *
      rw [List.getLast?_concat] at sameLast
      have inLine : Text.isVertical c = false :=
        oneLine c (List.mem_append_left b (List.mem_of_getLast? sameLast.symm))
      have before : KeepsSpace c :=
        ⟨by simp [Plain.isSpacing, inLine, last c sameLast.symm], by simpa [← sameLast] using dropped.1⟩
      cases b with
      | nil =>
        refine .inr (.inr (.inl ?_))
        simpa [joined_eq, Spacing.collapse, Spacing.tightenFrom] using spaced_eq
      | cons d b =>
        have other : Text.isHorizontal d = false := by simpa using start
        have behind : KeepsSpace d :=
          ⟨by simp [Plain.isSpacing, other, oneLine d (by simp)], by simpa using dropped.2⟩
        have first : ∀ afterMark, Spacing.tightenFrom afterMark (Spacing.collapse (d :: b)) =
            d :: Spacing.tightenFrom (Spacing.isMark d) (Spacing.collapse b) := by
          intro afterMark
          simp [Spacing.collapse, other, Spacing.tightenFrom, ne_space_of_not_isHorizontal other]
        rw [first] at joined_eq spaced_eq
        exact .inr (.inr (.inr ⟨c, d, before, behind, x, _, joined_eq, by simpa using spaced_eq⟩))

/-! ### Space at the ends -/

theorem settle_cons_space (level : Level) (t : Text) :
    Semicolon.settle level (' ' :: t) = ' ' :: Semicolon.settle level t := by
  rw [Semicolon.settle, Semicolon.settle]
  split
  · rfl
  · exact Plain.drop_append (t := [' ']) (by decide) (by simp)

theorem segment_cons_space (t : Text) : Segment.segment (' ' :: t) = ' ' :: Segment.segment t := by
  have statements : Segment.afterStatements (' ' :: t) = ' ' :: Segment.afterStatements t :=
    Plain.afterStatements_append (t := [' ']) (by decide) t
  have closings : ∀ u, Segment.afterClosings (' ' :: u) = ' ' :: Segment.afterClosings u := fun _ => rfl
  have nested : ∀ u, Segment.beforeNested (' ' :: u) = ' ' :: Segment.beforeNested u :=
    Plain.beforeNested_append (t := [' ']) (by decide) (by decide)
  rw [Segment.segment, statements, closings, nested]
  rfl

theorem drop_concat_space (t : Text) : Semicolon.drop (t ++ [' ']) = Semicolon.drop t ++ [' '] := by
  fun_induction Semicolon.drop t with
  | case1 => rfl
  | case2 rest ih => exact congrArg ('}' :: ·) ih
  | case3 c rest noPair ih =>
    have still : ∀ later, c = ';' → rest ++ [' '] = '}' :: later → False := by
      intro later semicolon shape
      cases rest with
      | nil => simp at shape
      | cons d rest =>
        obtain ⟨rfl, _⟩ := List.cons.inj shape
        exact noPair rest semicolon rfl
    rw [List.cons_append, Semicolon.drop.eq_3 _ _ still, ih, List.cons_append]

theorem restoreFrom_concat_space (ended : Bool) (t : Text) :
    Semicolon.restoreFrom ended (t ++ [' ']) = Semicolon.restoreFrom ended t ++ [' '] := by
  fun_induction Semicolon.restoreFrom ended t with
  | case1 => rfl
  | case2 rest ih => simp [Semicolon.restoreFrom, ih]
  | case3 _ rest unended ih => simp [Semicolon.restoreFrom, unended, ih]
  | case4 _ c rest other ih => simp [Semicolon.restoreFrom, other, ih]

theorem settle_concat_space (level : Level) (t : Text) :
    Semicolon.settle level (t ++ [' ']) = Semicolon.settle level t ++ [' '] := by
  rw [Semicolon.settle, Semicolon.settle]
  split
  · exact restoreFrom_concat_space false t
  · exact drop_concat_space t

/-- A space at the end of a text makes no statement of what was none. -/
theorem statement?_concat_space {c : Char} {t : Text} (none : Segment.statement? (c :: t) = none) :
    Segment.statement? (c :: (t ++ [' '])) = Option.none := by
  by_contra some
  obtain ⟨edit, found⟩ := Option.ne_none_iff_exists'.mp some
  obtain ⟨name, named, rest, shape, cases⟩ := statement?_eq_some found
  obtain ⟨rfl, whole⟩ := List.cons.inj shape
  have noSpace : ' ' ∉ name := by
    simp only [Segment.statementNames, List.mem_cons, List.not_mem_nil, or_false] at named
    rcases named with rfl | rfl | rfl <;> decide
  -- No name holds a space, so the one at the end is behind the name.
  obtain ⟨behind, rfl, rfl⟩ : ∃ behind, t = name ++ behind ∧ rest = behind ++ [' '] := by
    rcases List.append_eq_append_iff.mp whole with ⟨inName, name_eq, last⟩ | ⟨behind, before, last⟩
    · cases inName with
      | nil => exact ⟨[], by simpa using name_eq.symm, by simpa using last.symm⟩
      | cons d inName =>
        obtain ⟨rfl, _⟩ := List.cons.inj last
        exact absurd (by simp [name_eq]) noSpace
    · exact ⟨behind, before, last⟩
  rcases cases with ⟨open?, _⟩ | ⟨body, more, filled, absent, ended, _⟩
  · rw [statement?_open named fun member => open? (by simp [member])] at none
    cases none
  · have ended : behind ++ [' '] ++ [] = body ++ ';' :: more := by rw [List.append_nil, ended]
    rcases Text.append_eq_append_cons_cases (by decide) ended with ⟨later, rfl, _⟩ | ⟨front, _, nothing⟩
    · rw [statement?_ended named filled absent] at none
      cases none
    · simp at nothing

theorem afterStatements_concat_space (t : Text) :
    Segment.afterStatements (t ++ [' ']) = Segment.afterStatements t ++ [' '] := by
  induction size : t.length using Nat.strong_induction_on generalizing t with
  | _ n ih =>
    cases t with
    | nil => rfl
    | cons c t =>
      cases found : Segment.statement? (c :: t) with
      | none =>
        rw [List.cons_append, afterStatements_cons (statement?_concat_space found), afterStatements_cons found,
          ih t.length (by simp [← size]) t rfl, List.cons_append]
      | some edit =>
        obtain ⟨name, named, rest, shape, ⟨open?, _⟩ | ⟨body, more, filled, absent, rfl, _⟩⟩ :=
          statement?_eq_some found
        · have still : ';' ∉ rest ++ [' '] := by simpa using open?
          have spaced := afterStatements_open named still
          rw [shape, afterStatements_open named open?]
          simpa using spaced
        · have smaller : more.length < n := by
            simp only [← size, shape, List.length_cons, List.length_append]
            omega
          have later := ih more.length smaller more rfl
          have spaced := afterStatements_ended named filled absent (more ++ [' '])
          rw [later] at spaced
          rw [shape, afterStatements_ended named filled absent]
          simpa using spaced

/-- A space at the end of a stylesheet stays there. -/
theorem segment_concat_space (t : Text) : Segment.segment (t ++ [' ']) = Segment.segment t ++ [' '] := by
  have closings : ∀ u, Segment.afterClosings (u ++ [' ']) = Segment.afterClosings u ++ [' '] := fun u =>
    Plain.afterClosings_append u [' ']
  have nested : ∀ u, Segment.beforeNested (u ++ [' ']) = Segment.beforeNested u ++ [' '] := by
    intro u
    rcases List.eq_nil_or_concat (Text.pieces '\n' u) with none | ⟨others, line, cut⟩
    · exact absurd none (Text.pieces_ne_nil '\n' u)
    · rw [List.concat_eq_append] at cut
      have noOpen : '{' ∉ [' '] := by decide
      rw [Segment.beforeNested, Segment.beforeNested, Text.pieces_append_right cut (by decide), cut,
        List.map_append, List.map_append, List.map_singleton, List.map_singleton,
        nestLine_append_right line noOpen, Text.join_concat_append]
  rw [Segment.segment, afterStatements_concat_space, closings, nested]
  rfl

theorem layout_congr {level : Level} {css other : Text} (same : clean other = clean css) :
    layout level other = layout level css := by
  rw [layout, layout, segmented, segmented, same]

theorem layout_of_margin {level : Level} {css other : Text}
    (margin : clean other = ' ' :: clean css ∨ clean other = clean css ++ [' ']) :
    layout level other = layout level css := by
  have space : ∀ c ∈ [' '], Text.isBlank c = true := List.forall_mem_singleton.mpr (by decide)
  rw [layout, layout, layoutOf, layoutOf, segmented, segmented]
  rcases margin with front | back
  · have trimmed := Text.trim_between (Segment.segment (Semicolon.settle level (clean css))) space
      (List.forall_mem_nil _)
    rw [front, settle_cons_space, segment_cons_space, ← trimmed]
    simp
  · have trimmed := Text.trim_between (Segment.segment (Semicolon.settle level (clean css)))
      (List.forall_mem_nil _) space
    rw [back, settle_concat_space, segment_concat_space, ← trimmed]
    simp

/-! ### Runs of blanks -/

theorem clean_eq {source stripped : Text} (same : EmptyRuleset.strip (Comment.strip source) = stripped) :
    clean source = Spacing.tighten (Spacing.collapse (Spacing.joinLines stripped)) := by
  rw [clean, same]

/-- What the clean-up makes of a run of blanks outside of comments: the same as of a space, or nothing, if
    the run is made of line ends and the characters that come to stand beside it keep a space. -/
theorem clean_run_cases {before run after : Text} (isRun : IsRun run)
    (outside : Comment.Outside before after) (level : Level) :
    layout level (Text.trim (before ++ run ++ after)) = layout level (Text.trim (before ++ [' '] ++ after)) ∨
      (∀ c ∈ run, Text.isVertical c = true) ∧ ∃ c d, KeepsSpace c ∧ KeepsSpace d ∧
        Divides c d (clean (Text.trim (before ++ run ++ after))) (clean (Text.trim (before ++ [' '] ++ after))) := by
  have isSpace : IsRun [' '] := isRun_singleton (by decide)
  rcases uniform_stripped outside with ⟨t, gone⟩ | ⟨a, b, kept⟩
  · exact .inl (layout_congr ((clean_eq (gone run isRun)).trans (clean_eq (gone [' '] isSpace)).symm))
  · have joinedLines : ∀ r, Spacing.joinLines (a ++ r ++ b) =
        Spacing.joinLines a ++ Spacing.joinLines r ++ Spacing.joinLines b := by
      intro r
      simp [Spacing.joinLines]
    have joined := clean_eq (kept run isRun)
    have spaced := clean_eq (kept [' '] isSpace)
    rw [joinedLines] at joined spaced
    have inRun := Plain.isHorizontal_of_mem_joinLines fun c member => isSpacing_of_isBlank (isRun.blank c member)
    by_cases vertical : ∀ c ∈ run, Text.isVertical c = true
    · have none : Spacing.joinLines run = [] := by
        rw [Spacing.joinLines, List.filter_eq_nil_iff]
        intro c member
        simp [vertical c member]
      have oneLine : ∀ c ∈ Spacing.joinLines a ++ Spacing.joinLines b, Text.isVertical c = false := by
        intro c member
        rcases List.mem_append.mp member with inside | inside <;>
          simpa using (List.mem_filter.mp inside).2
      rw [none, List.append_nil] at joined
      rcases tighten_space_cases oneLine joined spaced with same | front | back | ⟨c, d, before, behind, divides⟩
      · exact .inl (layout_congr same.symm)
      · exact .inl (layout_of_margin (.inl front)).symm
      · exact .inl (layout_of_margin (.inr back)).symm
      · exact .inr ⟨vertical, c, d, before, behind, divides⟩
    · left
      have some : Spacing.joinLines run ≠ [] := by
        intro none
        rw [Spacing.joinLines, List.filter_eq_nil_iff] at none
        exact vertical fun c member => by simpa using none c member
      refine layout_congr ?_
      rw [joined, spaced, collapse_run_eq some inRun]
      rfl

/-- Two words of the one text are one word of the other. -/
def JoinsWords (joined spaced : Text) : Prop :=
  ∃ former first second latter, words joined = former ++ (first ++ second) :: latter ∧
    words spaced = former ++ first :: second :: latter

/-- A space between word characters divides a word in two. -/
theorem Divides.joinsWords {c d : Char} {joined spaced : Text} (divides : Divides c d joined spaced)
    (left : isWordChar c = true) (right : isWordChar d = true) : JoinsWords joined spaced := by
  obtain ⟨x, y, rfl, rfl⟩ := divides
  obtain ⟨former, first, second, latter, before, behind, both⟩ := exists_words_append left right x y
  refine ⟨former, first, second, latter, both, ?_⟩
  rw [words_append_cons (by decide), before, behind]
  simp

/-- A run of blanks outside of comments is pressed like a single space, unless it is made of line ends alone
    and comes to stand between two characters that keep a space. There it is pressed like nothing at all: if
    both are word characters and no line is stray, two words become one. -/
theorem minify_run {before run after : Text} (isRun : IsRun run) (outside : Comment.Outside before after)
    {level : Level} (pressed : level ≠ .off) :
    minify (before ++ run ++ after) level = minify (before ++ [' '] ++ after) level ∨
      (∀ c ∈ run, Text.isVertical c = true) ∧ ∃ c d, KeepsSpace c ∧ KeepsSpace d ∧
        Divides c d (clean (Text.trim (before ++ run ++ after))) (clean (Text.trim (before ++ [' '] ++ after))) ∧
        (isWordChar c = true → isWordChar d = true →
          (layout level (Text.trim (before ++ run ++ after))).skipped = 0 →
          (layout level (Text.trim (before ++ [' '] ++ after))).skipped = 0 →
          JoinsWords (minify (before ++ run ++ after) level) (minify (before ++ [' '] ++ after) level)) := by
  have isSpace : IsRun [' '] := isRun_singleton (by decide)
  by_cases filled : ∃ c ∈ before ++ after, Text.isBlank c = false
  · have filledWith : ∀ r, ∃ c ∈ before ++ r ++ after, Text.isBlank c = false := by
      intro r
      obtain ⟨c, member, solid⟩ := filled
      refine ⟨c, ?_, solid⟩
      rcases List.mem_append.mp member with inside | inside <;> simp [inside]
    rcases clean_run_cases isRun outside level with same | ⟨vertical, c, d, left, right, divides⟩
    · left
      rw [minify_of_filled (filledWith run) pressed, minify_of_filled (filledWith [' ']) pressed, same]
    · refine .inr ⟨vertical, c, d, left, right, divides, ?_⟩
      intro wordBefore wordBehind none noneSpaced
      obtain ⟨former, first, second, latter, joined, spaced⟩ := divides.joinsWords wordBefore wordBehind
      refine ⟨former, first, second, latter ++ [Token.ofLevel level], ?_, ?_⟩
      · rw [words_minify (filledWith run) pressed none, joined]
        simp
      · rw [words_minify (filledWith [' ']) pressed noneSpaced, spaced]
        simp
  · left
    have blank : ∀ c ∈ before ++ [] ++ after, Text.isBlank c = true := by simpa using filled
    have blankWith : ∀ r, IsRun r → ∀ c ∈ before ++ r ++ after, Text.isBlank c = true := fun _ isRunToo =>
      isRunToo.forall_mem (fun _ => id) blank
    rw [minify_of_blank (blankWith run isRun), minify_of_blank (blankWith [' '] isSpace)]

/-- A selector of two words with a line end between them, and what follows it. -/
def brokenRule : Text := ['b', '{', 'c', ':', 'd', '}']

theorem isRun_lineEnd : IsRun ['\n'] := isRun_singleton (by decide)

theorem outside_letter (after : Text) : Comment.Outside ['a'] after := .inl (.copy (.inl (by decide)) .nil)

theorem minify_run_broken :
    JoinsWords (minify (['a'] ++ ['\n'] ++ brokenRule) .high) (minify (['a'] ++ [' '] ++ brokenRule) .high) := by
  have high : Level.high ≠ .off := by decide
  rcases minify_run isRun_lineEnd (outside_letter brokenRule) high with
    same | ⟨_, c, d, _, _, ⟨x, y, joined, spaced⟩, joins⟩
  · exact absurd same (by decide +kernel)
  · have joinedClean : clean (Text.trim (['a'] ++ ['\n'] ++ brokenRule)) = 'a' :: brokenRule := by decide +kernel
    have spacedClean : clean (Text.trim (['a'] ++ [' '] ++ brokenRule)) = 'a' :: ' ' :: brokenRule := by
      decide +kernel
    rw [joinedClean] at joined
    rw [spacedClean] at spaced
    obtain ⟨rfl, rfl⟩ : 'a' = c ∧ 'b' = d := by
      cases x with
      | nil => exact ⟨(List.cons.inj joined).1, (List.cons.inj (List.cons.inj joined).2).1⟩
      | cons e x =>
        -- The two texts differ in their second character already.
        have same : (x ++ [c] ++ d :: y).head? = (x ++ [c] ++ ' ' :: d :: y).head? := by cases x <;> rfl
        have joinedTail : brokenRule = x ++ [c] ++ d :: y := (List.cons.inj joined).2
        have spacedTail : ' ' :: brokenRule = x ++ [c] ++ ' ' :: d :: y := (List.cons.inj spaced).2
        rw [← joinedTail, ← spacedTail] at same
        exact absurd same (by decide)
    exact joins (by decide) (by decide) (by decide +kernel) (by decide +kernel)

/-- The replacement of any run of blanks outside of comments by a single space makes no difference to what a
    source without quotes is pressed to. -/
def BlanksAlike : Prop :=
  ∀ before run after : Text, (∀ c ∈ before ++ run ++ after, c ≠ '\x22' ∧ c ≠ '\x27') → IsRun run →
    (∀ c ∈ before.getLast?, Text.isBlank c = false) → (∀ c ∈ after.head?, Text.isBlank c = false) →
    Comment.Outside before after → ∀ level ≠ Level.off,
      minify (before ++ run ++ after) level = minify (before ++ [' '] ++ after) level

theorem not_blanksAlike : ¬ BlanksAlike := by
  intro alike
  have solidBefore : ∀ c ∈ ['a'].getLast?, Text.isBlank c = false := fun c last => Option.some.inj last ▸ rfl
  have solidBehind : ∀ c ∈ brokenRule.head?, Text.isBlank c = false := fun c first => Option.some.inj first ▸ rfl
  have same := alike ['a'] ['\n'] brokenRule (by simp [brokenRule]) isRun_lineEnd solidBefore solidBehind
    (outside_letter brokenRule) .high (by decide)
  exact absurd same (by decide +kernel)

end Stylepress.Css
