import Stylepress.Css.Minify
import Stylepress.Proofs.Plain.Rows
import Stylepress.Proofs.TextLaws

/-!
Cleaning a spelling. Every clean-up pass changes the gaps of a spelling and keeps its lexemes, so a
pass is described by the gaps that it finds (`Joined`, `Blanked`, `Collapsed`) and the gaps that it
leaves (`Blanked`, `Collapsed`, `Tidy`); `Spaced.transfer` and `Spelled.transfer` carry such a
description from one gap to whole rows. What is left at the end is a spelling in which only the space
around commas, colons and conditions is still open (`clean_spelling`).
-/
namespace Stylepress.Plain
open Css

/-! ### From gaps to rows -/

variable {J K : Lexeme → Lexeme → Text → Prop}

/-- A pass `f`, whose state is the last lexeme it has seen, turns gaps of `J` into gaps of `K` and
    copies lexemes; `follows` is what it needs to know of the text behind a lexeme. -/
structure Passes (J K : Lexeme → Lexeme → Text → Prop) (follows : Text → Prop)
    (f : Lexeme → Text → Text) : Prop where
  step : ∀ {a b : Lexeme} {gap : Text}, J a b gap → ∃ left, K a b left ∧
    ∀ rest, follows rest → f a (gap ++ b.text ++ rest) = left ++ b.text ++ f b rest
  before : ∀ {a b : Lexeme} {gap : Text} (rest : Text), J a b gap → follows (gap ++ b.text ++ rest)
  marks : ∀ {a b : Lexeme}, a.isMark = true → b.isMark = true → f a = f b

theorem Spaced.follows {follows : Text → Prop} {f : Lexeme → Text → Text}
    (passes : Passes J K follows f) {a : Lexeme} {lexemes : List Lexeme} {t rest : Text}
    (spaced : Spaced J a lexemes t) (behind : follows rest) : follows (t ++ rest) := by
  cases spaced with
  | nil => exact behind
  | cons join _ =>
    rw [List.append_assoc]
    exact passes.before _ join

theorem Spaced.transfer {follows : Text → Prop} {f : Lexeme → Text → Text}
    (passes : Passes J K follows f) {a : Lexeme} {lexemes : List Lexeme} {t : Text}
    (spaced : Spaced J a lexemes t) :
    ∃ left, Spaced K a lexemes left ∧ ∀ rest, follows rest →
      f a (t ++ rest) = left ++ f (lexemes.getLastD a) rest := by
  induction spaced with
  | nil => exact ⟨[], .nil, fun _ _ => rfl⟩
  | @cons a b lexemes gap t join later ih =>
    obtain ⟨left, spacedLeft, run⟩ := ih
    obtain ⟨gapLeft, joinLeft, gapRun⟩ := passes.step join
    refine ⟨gapLeft ++ b.text ++ left, .cons joinLeft spacedLeft, ?_⟩
    intro rest behind
    rw [List.append_assoc, gapRun _ (later.follows passes behind), run rest behind,
      List.getLastD_cons, ← List.append_assoc]

theorem Spelled.transfer {follows : Text → Prop} {f : Lexeme → Text → Text}
    (passes : Passes J K follows f) {rows : List Row} {t : Text} (spelled : Spelled J rows t) :
    ∃ left, Spelled K rows left ∧ ∀ rest, follows rest →
      follows (t ++ rest) ∧ f .semicolon (t ++ rest) = left ++ f .semicolon rest := by
  induction spelled with
  | nil => exact ⟨[], .nil, fun _ behind => ⟨behind, rfl⟩⟩
  | @cons row rows t later ended here _ ih =>
    obtain ⟨left, spelledLeft, run⟩ := ih
    obtain ⟨rowLeft, spacedLeft, rowRun⟩ := here.transfer passes
    refine ⟨rowLeft ++ left, .cons ended spacedLeft spelledLeft, ?_⟩
    intro rest behind
    obtain ⟨behindRow, laterRun⟩ := run rest behind
    have same : f ((row.lexemes ended).getLastD .semicolon) = f .semicolon := by
      obtain ⟨front, mark, shape, isMark⟩ := row.exists_mark ended
      rw [shape, List.getLastD_concat]
      exact passes.marks isMark rfl
    refine ⟨?_, ?_⟩
    · rw [List.append_assoc]
      exact here.follows passes behindRow
    · rw [List.append_assoc, rowRun _ behindRow, same, laterRun, ← List.append_assoc]

/-! ### Comments -/

/-- Gaps without comments: wide ones hold horizontal space, tight ones are empty. -/
structure Blanked (a b : Lexeme) (run : Text) : Prop where
  spacing : ∀ c ∈ run, isSpacing c = true
  wide : joint a b = .wide → ∃ c ∈ run, Text.isHorizontal c = true
  tight : joint a b = .tight → run = []

theorem closeLength?_append {body : Text} (closed : ¬ ['*', '/'] <:+: body) (rest : Text) :
    Comment.closeLength? (body ++ '*' :: '/' :: rest) = some (body.length + 2) := by
  induction body with
  | nil => rfl
  | cons c body ih =>
    have later : ¬ ['*', '/'] <:+: body := fun inside => closed (List.infix_cons inside)
    have noClose : ∀ tail, c = '*' → body ++ '*' :: '/' :: rest = '/' :: tail → False := by
      rintro tail rfl shape
      cases body with
      | nil => simp at shape
      | cons d body =>
        obtain rfl : d = '/' := by simpa using And.left (List.cons.inj shape)
        exact closed ⟨[], body, rfl⟩
    rw [List.cons_append, Comment.closeLength?.eq_3 _ _ noClose, ih later]
    simp [Nat.add_right_comm]

theorem removal?_eq_none {c : Char} {rest : Text} (open? : c ≠ '/' ∨ rest.head? ≠ some '*') :
    Comment.removal? (c :: rest) = none := by
  unfold Comment.removal?
  split
  · next same =>
    obtain ⟨rfl, rfl⟩ := List.cons.inj same
    simp at open?
  · rfl

theorem strip_cons_of_isSpacing {c : Char} (space : isSpacing c = true) (rest : Text) :
    Comment.strip (c :: rest) = c :: Comment.strip rest := by
  have other : c ≠ '/' := by rintro rfl; exact absurd space (by decide)
  rw [Comment.strip, Text.pass_cons, removal?_eq_none (.inl other)]
  rfl

theorem isSpacing_of_isHorizontal {c : Char} (horizontal : Text.isHorizontal c = true) :
    isSpacing c = true := by simp [isSpacing, horizontal]

theorem Gap.head?_ne {gap : Text} (h : Gap gap) : gap.head? ≠ some '*' := by
  cases h with
  | empty => simp
  | spacing space _ =>
    intro same
    obtain rfl := Option.some.inj same
    exact absurd space (by decide)
  | comment => simp

theorem strip_comment {body : Text} (closed : ¬ ['*', '/'] <:+: body) (rest : Text) :
    Comment.strip ('/' :: '*' :: (body ++ '*' :: '/' :: rest)) = Comment.strip rest := by
  have found : Comment.removal? ('/' :: '*' :: (body ++ ['*', '/']) ++ rest) = some ⟨body.length + 3, []⟩ := by
    simp [Comment.removal?, closeLength?_append closed]
  simpa [Comment.strip] using Text.pass_append_of_some found (by simp)

/-- Removing comments leaves the spacing of a gap, and looks at nothing behind the gap. -/
theorem Gap.strip {gap : Text} (h : Gap gap) :
    ∃ run, (∀ c ∈ run, isSpacing c = true) ∧
      ∀ rest, Comment.strip (gap ++ rest) = run ++ Comment.strip rest := by
  induction h with
  | empty => exact ⟨[], by simp, fun _ => rfl⟩
  | @spacing c gap space _ ih =>
    obtain ⟨run, inRun, stripped⟩ := ih
    refine ⟨c :: run, by simpa [space] using inRun, ?_⟩
    intro rest
    rw [List.cons_append, strip_cons_of_isSpacing space, stripped, List.cons_append]
  | @comment body gap closed _ ih =>
    obtain ⟨run, inRun, stripped⟩ := ih
    refine ⟨run, inRun, ?_⟩
    intro rest
    simpa using (strip_comment closed (gap ++ rest)).trans (stripped rest)

theorem strip_append {t rest : Text} (noStar : '*' ∉ t) (behind : rest.head? ≠ some '*') :
    Comment.strip (t ++ rest) = t ++ Comment.strip rest := by
  induction t with
  | nil => rfl
  | cons c t ih =>
    have later := ih fun member => noStar (by simp [member])
    have next : (t ++ rest).head? ≠ some '*' := by
      cases t with
      | nil => exact behind
      | cons d t => intro same; exact noStar (by simp_all)
    rw [List.cons_append, Comment.strip, Text.pass_cons, removal?_eq_none (.inr next)]
    exact congrArg (c :: ·) later

/-- The gaps of a spelling are spacing once its comments are removed. -/
theorem Joined.strip {a b : Lexeme} {gap : Text} (join : Joined a b gap) :
    ∃ run, Blanked a b run ∧ ∀ rest, Comment.strip (gap ++ rest) = run ++ Comment.strip rest := by
  unfold Joined at join
  split at join
  · next kind =>
    obtain ⟨run, inRun, stripped⟩ := join.strip
    exact ⟨run, ⟨inRun, by simp [kind], by simp [kind]⟩, stripped⟩
  · next kind =>
    obtain ⟨before, c, after, gapBefore, horizontal, gapAfter, rfl⟩ := join
    obtain ⟨left, inLeft, leftStripped⟩ := gapBefore.strip
    obtain ⟨right, inRight, rightStripped⟩ := gapAfter.strip
    have space := isSpacing_of_isHorizontal horizontal
    refine ⟨left ++ c :: right, ⟨?_, fun _ => ⟨c, by simp, horizontal⟩, by simp [kind]⟩, ?_⟩
    · intro d member
      rcases List.mem_append.mp member with inside | inside
      · exact inLeft d inside
      · rcases List.mem_cons.mp inside with rfl | inside
        · exact space
        · exact inRight d inside
    · intro rest
      rw [List.append_assoc, leftStripped, List.cons_append, strip_cons_of_isSpacing space,
        rightStripped, List.append_assoc, List.cons_append]
  · next kind =>
    subst join
    exact ⟨[], ⟨by simp, by simp [kind], fun _ => rfl⟩, fun _ => rfl⟩

theorem Joined.head?_ne {a b : Lexeme} {gap : Text} (join : Joined a b gap) (rest : Text) :
    (gap ++ b.text ++ rest).head? ≠ some '*' := by
  have first : gap.head? ≠ some '*' := by
    unfold Joined at join
    split at join
    · exact join.head?_ne
    · obtain ⟨before, c, after, gapBefore, horizontal, _, rfl⟩ := join
      cases before with
      | nil =>
        intro same
        obtain rfl : c = '*' := by simpa using same
        exact absurd horizontal (by decide)
      | cons d before => exact gapBefore.head?_ne
    · simp [join]
  cases gap with
  | nil =>
    obtain ⟨c, letters, shape⟩ := b.exists_cons
    have solid := (Lexeme.solid_of_mem (l := b) (c := c) (by simp [shape])).2
    simpa [shape] using solid
  | cons c gap => exact first

theorem passes_comments : Passes Joined Blanked (fun rest => rest.head? ≠ some '*')
    fun _ => Comment.strip where
  step := by
    intro a b gap join
    obtain ⟨run, blanked, stripped⟩ := join.strip
    refine ⟨run, blanked, ?_⟩
    intro rest behind
    rw [List.append_assoc, stripped, strip_append (fun star => (Lexeme.solid_of_mem star).2 rfl) behind,
      List.append_assoc]
  before := fun rest join => join.head?_ne rest
  marks := fun _ _ => rfl

/-! ### Empty rulesets -/

/-- A text whose first character other than a blank is no closing brace. -/
def HasBody (t : Text) : Prop := (t.dropWhile Text.isBlank).head? ≠ some '}'

/-- A text in which every opening brace has a body behind it. -/
def Bodied (t : Text) : Prop := ∀ before after, t = before ++ '{' :: after → HasBody after

theorem bodied_append {t rest : Text} (absent : '{' ∉ t) (behind : Bodied rest) :
    Bodied (t ++ rest) := by
  intro before after shape
  rcases List.append_eq_append_iff.mp shape with ⟨u, rfl, same⟩ | ⟨u, rfl, same⟩
  · exact behind u after same
  · cases u with
    | nil => exact behind [] after same.symm
    | cons c u =>
      obtain ⟨rfl, _⟩ := List.cons.inj same
      exact absurd (by simp) absent

theorem bodied_cons {rest : Text} (body : HasBody rest) (behind : Bodied rest) :
    Bodied ('{' :: rest) := by
  intro before after shape
  cases before with
  | nil =>
    obtain ⟨_, rfl⟩ := List.cons.inj shape
    exact body
  | cons c before =>
    obtain ⟨_, same⟩ := List.cons.inj shape
    exact behind before after same

theorem hasBody_append {t : Text} (absent : '}' ∉ t) (solid : ∃ c ∈ t, Text.isBlank c = false)
    (rest : Text) : HasBody (t ++ rest) := by
  induction t with
  | nil => simp at solid
  | cons c t ih =>
    cases blank : Text.isBlank c with
    | false =>
      have other : c ≠ '}' := fun same => absent (by simp [same])
      simpa [HasBody, blank] using other
    | true =>
      obtain ⟨d, member, notBlank⟩ := solid
      have later : d ∈ t := by
        rcases List.mem_cons.mp member with rfl | later
        · simp [blank] at notBlank
        · exact later
      have body := ih (fun member => absent (by simp [member])) ⟨d, later, notBlank⟩
      simpa [HasBody, blank] using body

/-- No empty ruleset is found where every brace has a body. -/
theorem length?_eq_none {t : Text} (bodied : Bodied t) : EmptyRuleset.length? t = none := by
  unfold EmptyRuleset.length?
  split
  · next body shape =>
    have filled : HasBody body := by
      apply bodied (t.takeWhile EmptyRuleset.isPrelude)
      rw [← shape, List.takeWhile_append_dropWhile]
    split
    · next same => exact absurd (by rw [same]; rfl) filled
    · rfl
  · rfl

theorem removal?_of_bodied {t : Text} (bodied : Bodied t) : EmptyRuleset.removal? t = none := by
  cases t with
  | nil => rfl
  | cons c t =>
    have later : Bodied t := fun before after same => bodied (c :: before) after (by simp [same])
    simp [EmptyRuleset.removal?, length?_eq_none later]

/-- Sweeping changes nothing where every brace has a body. -/
theorem strip_of_bodied {t : Text} (bodied : Bodied t) : EmptyRuleset.strip t = t := by
  have none : ∀ before rest, t = before ++ rest → EmptyRuleset.removal? rest = none := by
    rintro before rest rfl
    exact removal?_of_bodied fun a b same => bodied (before ++ a) b (by simp [same])
  have kept : EmptyRuleset.sweep t = t := by
    rw [EmptyRuleset.sweep, length?_eq_none bodied]
    exact Text.pass_eq_self none
  rw [EmptyRuleset.strip]
  simp [kept]

/-- A word and all that follows it is a body. -/
theorem Spaced.hasBody (gaps : Bare J) {a : Lexeme} {w : Word .any} {lexemes : List Lexeme} {t : Text}
    (spaced : Spaced J a (.word w :: lexemes) t) (rest : Text) : HasBody (t ++ rest) := by
  obtain ⟨gap, later, join, _, rfl⟩ := spaced.cons_inv
  rw [List.append_assoc]
  refine hasBody_append ?_ ?_ _
  · refine List.not_mem_append (fun member => absurd (gaps join _ member) (by decide)) ?_
    intro member
    exact absurd (Lexeme.eq_of_isMark .closeBrace rfl rfl member) (by simp)
  · obtain ⟨c, letters, shape⟩ := (Lexeme.word w).exists_cons
    have member : c ∈ (Lexeme.word w).text := by simp [shape]
    exact ⟨c, by simp [member], isBlank_of_not_isSpacing (Lexeme.solid_of_mem member).1⟩

/-- Every brace of a row has a body if the row opens no block, or if there is one behind it. -/
theorem Spaced.bodied (gaps : Bare J) {row : Row} {ended : Bool} {t : Text} (spaced : Spaced J .semicolon (row.lexemes ended) t)
    {rest : Text} (behind : Bodied rest) (opened : row.isOpening = true → HasBody rest) :
    Bodied (t ++ rest) := by
  have noBrace : ∀ {a : Lexeme} {lexemes : List Lexeme} {t : Text}, Spaced J a lexemes t →
      (∀ l ∈ lexemes, l ≠ .openBrace) → '{' ∉ t :=
    fun spaced other => spaced.not_mem gaps .openBrace rfl rfl other
  have noGapBrace : ∀ {a b : Lexeme} {gap : Text}, J a b gap → '{' ∉ gap :=
    fun join member => absurd (gaps join _ member) (by decide)
  cases row with
  | closing => exact bodied_append (noBrace spaced (by simp [Row.lexemes])) behind
  | statement name words =>
    refine bodied_append (noBrace spaced ?_) behind
    intro l member
    simp only [Row.lexemes, List.mem_cons, List.mem_append, List.not_mem_nil, or_false] at member
    rcases member with rfl | inside | rfl
    · simp
    · exact Lexeme.ne_of_isMark (Phrase.inner_of_mem (by simp) inside).notMark rfl
    · simp
  | opening name headed =>
    rw [Row.lexemes, ← List.cons_append] at spaced
    obtain ⟨u, v, front, back, rfl⟩ := spaced.append_inv
    obtain ⟨gap, nothing, join, last, rfl⟩ := back.cons_inv
    obtain rfl := last.nil_inv
    have absent : '{' ∉ u ++ gap := by
      refine List.not_mem_append (noBrace front ?_) (noGapBrace join)
      intro l member
      rcases List.mem_cons.mp member with rfl | member
      · simp
      · obtain ⟨part, _, inside⟩ := List.mem_flatMap.mp member
        exact Lexeme.ne_of_isMark (Part.inner_of_mem inside).notMark rfl
    have bodied := bodied_append absent (bodied_cons (opened rfl) behind)
    simpa [Lexeme.text] using bodied
  | ruleset selectors declarations =>
    obtain ⟨u, v, front, back, rfl⟩ := spaced.append_inv
    obtain ⟨gap, body, join, inBody, rfl⟩ := back.cons_inv
    have absent : '{' ∉ u ++ gap :=
      List.not_mem_append
        (noBrace front fun l member => Lexeme.ne_of_isMark (Series.inner_of_mem member).notMark rfl)
        (noGapBrace join)
    have absentBody : '{' ∉ body := by
      refine noBrace inBody ?_
      intro l member
      simp only [List.mem_append] at member
      rcases member with inside | inside | inside
      · rcases body_inner_of_mem inside with rfl | inner
        · simp
        · exact Lexeme.ne_of_isMark inner.notMark rfl
      · cases ended <;> simp_all
      · simp_all
    -- The first declaration stands right behind the brace, so the body is not empty.
    have filled : HasBody (body ++ rest) := by
      obtain ⟨first, lexemes, shape⟩ := body_exists_word declarations
      rw [shape, List.cons_append] at inBody
      exact inBody.hasBody gaps rest
    have bodied := bodied_append absent (bodied_cons filled (bodied_append absentBody behind))
    simpa [Lexeme.text] using bodied

/-- Every brace of a stylesheet has a body: its own declarations or the first rule of its block. -/
theorem Spelled.bodied (gaps : Bare J) {rows : List Row} {t : Text} (spelled : Spelled J rows t)
    (follow : rows.IsChain Row.Follows) (last : ∀ row ∈ rows.getLast?, row.isOpening = false)
    {rest : Text} (behind : Bodied rest) : Bodied (t ++ rest) ∧
      ∀ row ∈ rows.head?, row.startsRule = true → HasBody (t ++ rest) := by
  induction spelled with
  | nil => exact ⟨behind, by simp⟩
  | @cons row rows t later ended here spelledLater ih =>
    rw [List.isChain_cons] at follow
    have laterLast : ∀ next ∈ rows.getLast?, next.isOpening = false := by
      intro next member
      exact last next (List.mem_getLast?_cons member)
    obtain ⟨bodiedLater, bodyLater⟩ := ih follow.2 laterLast
    rw [List.append_assoc]
    refine ⟨here.bodied gaps bodiedLater ?_, ?_⟩
    · -- The body of a block is the rule behind its opening.
      intro opening
      cases rows with
      | nil => simp [last row (by simp)] at opening
      | cons next rows => exact bodyLater next rfl ((follow.1 next rfl).opened opening)
    · intro first member starts
      obtain rfl : row = first := by simpa using member
      have other : row ≠ .closing := by rintro rfl; simp [Row.startsRule] at starts
      obtain ⟨w, lexemes, shape⟩ := row.exists_word other ended
      rw [shape] at here
      exact here.hasBody gaps _

/-! ### White space -/

/-- Gaps of at most one space. -/
structure Collapsed (a b : Lexeme) (gap : Text) : Prop where
  single : gap = [] ∨ gap = [' ']
  wide : joint a b = .wide → gap = [' ']
  tight : joint a b = .tight → gap = []

theorem collapse_append {t : Text} (solid : ∀ c ∈ t, Text.isHorizontal c = false) (rest : Text) :
    Spacing.collapse (t ++ rest) = t ++ Spacing.collapse rest := by
  induction t with
  | nil => rfl
  | cons c t ih =>
    have later := ih fun d member => solid d (by simp [member])
    simp [Spacing.collapse, solid c (by simp), later]

/-- A run of horizontal space becomes one space. -/
theorem collapse_run {run rest : Text} (inRun : ∀ c ∈ run, Text.isHorizontal c = true)
    (behind : rest.head?.any Text.isHorizontal = false) :
    Spacing.collapse (run ++ rest) = (if run = [] then [] else [' ']) ++ Spacing.collapse rest := by
  induction run with
  | nil => rfl
  | cons c run ih =>
    have later := ih fun d member => inRun d (by simp [member])
    cases run with
    | nil => simp [Spacing.collapse, inRun c (by simp), behind]
    | cons d run => simpa [Spacing.collapse, inRun c (by simp), inRun d (by simp)] using later

theorem not_isVertical_of_isHorizontal {c : Char} (horizontal : Text.isHorizontal c = true) :
    Text.isVertical c = false := by
  simp only [Text.isHorizontal, Bool.or_eq_true, Bool.and_eq_true, decide_eq_true_eq, beq_iff_eq]
    at horizontal
  simp only [Text.isVertical, Bool.or_eq_false_iff, Bool.and_eq_false_iff, decide_eq_false_iff_not,
    beq_eq_false_iff_ne]
  omega

theorem isHorizontal_of_mem_joinLines {run : Text} (spaces : ∀ c ∈ run, isSpacing c = true) :
    ∀ c ∈ Spacing.joinLines run, Text.isHorizontal c = true := by
  intro c member
  obtain ⟨inside, notVertical⟩ := List.mem_filter.mp member
  have space := spaces c inside
  simp_all [isSpacing]

theorem passes_spacing : Passes Blanked Collapsed (fun _ => True)
    fun _ t => Spacing.collapse (Spacing.joinLines t) where
  step := by
    intro a b run blanked
    have solid : ∀ c ∈ b.text, Text.isVertical c = false ∧ Text.isHorizontal c = false := by
      intro c member
      simpa [isSpacing] using (Lexeme.solid_of_mem member).1
    have kept : Spacing.joinLines b.text = b.text := by
      rw [Spacing.joinLines, List.filter_eq_self]
      intro c member
      simp [(solid c member).1]
    have inRun := isHorizontal_of_mem_joinLines blanked.spacing
    refine ⟨if Spacing.joinLines run = [] then [] else [' '], ⟨?_, ?_, ?_⟩, ?_⟩
    · split
      · exact .inl rfl
      · exact .inr rfl
    · intro kind
      obtain ⟨c, inside, horizontal⟩ := blanked.wide kind
      have member : c ∈ Spacing.joinLines run := by
        simp [Spacing.joinLines, inside, not_isVertical_of_isHorizontal horizontal]
      rw [if_neg (List.ne_nil_of_mem member)]
    · intro kind
      rw [blanked.tight kind]
      rfl
    · intro rest _
      obtain ⟨c, letters, shape⟩ := b.exists_cons
      have behind : (b.text ++ Spacing.joinLines rest).head?.any Text.isHorizontal = false := by
        simp [shape, (solid c (by simp [shape])).2]
      have split : Spacing.joinLines (run ++ b.text ++ rest) =
          Spacing.joinLines run ++ (b.text ++ Spacing.joinLines rest) := by
        rw [← kept]
        simp [Spacing.joinLines, List.filter_filter]
      rw [split, collapse_run inRun behind, collapse_append fun c member => (solid c member).2,
        List.append_assoc]
  before := fun _ _ => trivial
  marks := fun _ _ => rfl

/-- Gaps of at most one space, and none beside a mark. -/
structure Tidy (a b : Lexeme) (gap : Text) : Prop extends Collapsed a b gap where
  mark : a.isMark = true ∨ b.isMark = true → gap = []

theorem not_isMark_of_wide {a b : Lexeme} (wide : joint a b = .wide) :
    a.isMark = false ∧ b.isMark = false := by
  cases a <;> cases b <;> simp_all [joint, Lexeme.isMark]

theorem Lexeme.head?_any_isMark (l : Lexeme) (rest : Text) :
    (l.text ++ rest).head?.any Spacing.isMark = l.isMark := by
  obtain ⟨c, letters, shape⟩ := l.exists_cons
  have first : c ∈ l.text := by simp [shape]
  simp [shape, Lexeme.isMark_of_mem first]

theorem tightenFrom_append (l : Lexeme) (afterMark : Bool) (rest : Text) :
    Spacing.tightenFrom afterMark (l.text ++ rest) = l.text ++ Spacing.tightenFrom l.isMark rest := by
  have run : ∀ (t : Text), t ≠ [] → (∀ c ∈ t, c ∈ l.text) → ∀ afterMark,
      Spacing.tightenFrom afterMark (t ++ rest) = t ++ Spacing.tightenFrom l.isMark rest := by
    intro t
    induction t with
    | nil => intro filled; exact absurd rfl filled
    | cons c t ih =>
      intro _ inside afterMark
      have member := inside c (by simp)
      have other : c ≠ ' ' := by
        rintro rfl
        exact absurd (Lexeme.solid_of_mem member).1 (by decide)
      have step : Spacing.tightenFrom afterMark (c :: (t ++ rest)) =
          c :: Spacing.tightenFrom l.isMark (t ++ rest) := by
        simp [Spacing.tightenFrom, other, Lexeme.isMark_of_mem member]
      rw [List.cons_append, step]
      cases t with
      | nil => rfl
      | cons d t =>
        exact congrArg (c :: ·) (ih (by simp) (fun e later => inside e (by simp [later])) _)
  exact run l.text l.text_ne_nil (fun _ member => member) afterMark

theorem passes_marks : Passes Collapsed Tidy (fun _ => True)
    fun a => Spacing.tightenFrom a.isMark where
  step := by
    intro a b gap collapsed
    by_cases beside : a.isMark = true ∨ b.isMark = true
    · refine ⟨[], ⟨⟨.inl rfl, ?_, fun _ => rfl⟩, fun _ => rfl⟩, ?_⟩
      · intro wide
        obtain ⟨left, right⟩ := not_isMark_of_wide wide
        simp [left, right] at beside
      · intro rest _
        rcases collapsed.single with rfl | rfl
        · simp [tightenFrom_append]
        · have dropped : Spacing.tightenFrom a.isMark (' ' :: (b.text ++ rest)) =
              Spacing.tightenFrom false (b.text ++ rest) := by
            rw [Spacing.tightenFrom, b.head?_any_isMark, if_pos (by simpa using beside)]
          simpa [tightenFrom_append] using dropped
    · refine ⟨gap, ⟨collapsed, fun mark => absurd mark beside⟩, ?_⟩
      intro rest _
      rcases collapsed.single with rfl | rfl
      · simp [tightenFrom_append]
      · have kept : Spacing.tightenFrom a.isMark (' ' :: (b.text ++ rest)) =
            ' ' :: Spacing.tightenFrom false (b.text ++ rest) := by
          rw [Spacing.tightenFrom, b.head?_any_isMark, if_neg (by simpa using beside)]
          rfl
        simpa [tightenFrom_append] using kept
  before := fun _ _ => trivial
  marks := by
    intro a b left right
    rw [left, right]

/-- A space at the very start is kept; all else is as behind a mark. -/
theorem exists_tighten_eq (t : Text) : ∃ lead, (lead = [] ∨ lead = [' ']) ∧
    Spacing.tighten t = lead ++ Spacing.tightenFrom true t := by
  cases t with
  | nil => exact ⟨[], .inl rfl, rfl⟩
  | cons c t =>
    by_cases space : c = ' '
    · subst space
      by_cases mark : t.head?.any Spacing.isMark = true
      · exact ⟨[], .inl rfl, by simp [Spacing.tighten, Spacing.tightenFrom, mark]⟩
      · refine ⟨[' '], .inr rfl, ?_⟩
        simp only [Spacing.tighten, Spacing.tightenFrom]
        simp [mark, Spacing.isMark]
    · exact ⟨[], .inl rfl, by simp [Spacing.tighten, Spacing.tightenFrom, space]⟩

/-- Cleaning a spelling leaves a tidy one of the same stylesheet, perhaps behind one space. -/
theorem clean_spelling {sheet : Sheet} {x : Text} (spells : sheet.Spells x) :
    ∃ lead t, (lead = [] ∨ lead = [' ']) ∧ Spelled Tidy sheet.rows t ∧ clean x = lead ++ t := by
  obtain ⟨t, gap, spelled, isGap, rfl⟩ := spells
  obtain ⟨bare, spelledBare, uncommented⟩ := spelled.transfer passes_comments
  obtain ⟨run, inRun, stripped⟩ := isGap.strip
  have comments : Comment.strip (t ++ gap) = bare ++ run := by
    have tail : Comment.strip gap = run := by simpa [Comment.strip] using stripped []
    rw [(uncommented gap isGap.head?_ne).2, tail]
  have rulesets : EmptyRuleset.strip (bare ++ run) = bare ++ run := by
    have noBrace : Bodied run := by
      intro before after shape
      exact absurd (inRun '{' (by simp [shape])) (by decide)
    have linked := sheet.rows_follow
    exact strip_of_bodied
      (spelledBare.bodied (fun blanked => blanked.spacing) linked.follow linked.last noBrace).1
  obtain ⟨narrow, spelledNarrow, collapsed⟩ := spelledBare.transfer passes_spacing
  obtain ⟨tidy, spelledTidy, tightened⟩ := spelledNarrow.transfer passes_marks
  have tail : Spacing.tightenFrom true (Spacing.collapse (Spacing.joinLines run)) = [] := by
    have horizontal := isHorizontal_of_mem_joinLines inRun
    have single := @collapse_run (Spacing.joinLines run) [] horizontal rfl
    rw [List.append_nil] at single
    rw [single]
    split <;> rfl
  obtain ⟨lead, small, start⟩ :=
    exists_tighten_eq (Spacing.collapse (Spacing.joinLines (bare ++ run)))
  refine ⟨lead, tidy, small, spelledTidy, ?_⟩
  rw [clean, comments, rulesets, start, (collapsed run trivial).2]
  have marks := (tightened (Spacing.collapse (Spacing.joinLines run)) trivial).2
  simp only [Lexeme.isMark] at marks
  rw [marks, tail, List.append_nil]

end Stylepress.Plain
