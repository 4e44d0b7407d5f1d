import Stylepress.Proofs.Agreement
import Stylepress.Proofs.EmptyRulesets
import Stylepress.Proofs.Words

/-!
What is left of comments. A span is `/*` with `*/` somewhere behind it. Both are part of a word, so what is laid
out has a span only if its words have one. And no word comes about behind the removal of comments and line ends,
for empty rulesets and stray lines go with all their words. So a pressed stylesheet has a span only where taking
the comments and line ends out of the source brings one about, and there it has one unless an empty ruleset or
a stray line takes it along (`hasSpan_minify`).
-/
namespace Stylepress.Css

def OpensComment (t : Text) : Prop := ['/', '*'] <:+: t

def ClosesComment (t : Text) : Prop := ['*', '/'] <:+: t

/-- A text that has the start of a comment, and behind it the end of one. -/
def HasSpan (t : Text) : Prop := ∃ a b c, t = a ++ ['/', '*'] ++ (b ++ ['*', '/'] ++ c)

/-- Words, one after the other, that have a span: within a word, or from one to a later one. -/
def Spans : List Text → Prop
  | [] => False
  | word :: later => HasSpan word ∨ (OpensComment word ∧ ∃ other ∈ later, ClosesComment other) ∨ Spans later

theorem hasSpan_iff_split {t : Text} :
    HasSpan t ↔ ∃ n < t.length + 1, OpensComment (t.take n) ∧ ClosesComment (t.drop n) := by
  constructor
  · rintro ⟨a, b, c, rfl⟩
    refine ⟨(a ++ ['/', '*']).length, ?_, ?_, ?_⟩
    · simp only [List.length_append]
      omega
    · rw [List.take_left]
      exact ⟨a, [], by simp⟩
    · rw [List.drop_left]
      exact ⟨b, c, rfl⟩
  · rintro ⟨n, _, ⟨a, x, before⟩, ⟨y, c, behind⟩⟩
    refine ⟨a, x ++ y, c, ?_⟩
    rw [← List.take_append_drop n t, ← before, ← behind]
    simp

instance (t : Text) : Decidable (OpensComment t) := inferInstanceAs (Decidable (_ <:+: _))

instance (t : Text) : Decidable (ClosesComment t) := inferInstanceAs (Decidable (_ <:+: _))

instance (t : Text) : Decidable (HasSpan t) := decidable_of_iff _ hasSpan_iff_split.symm

/-! ### Spans of words -/

/-- A stretch that does not hold a character stands on one side of it. -/
theorem infix_append_cons_iff {stretch : Text} {c : Char} (absent : c ∉ stretch) (a b : Text) :
    stretch <:+: a ++ c :: b ↔ stretch <:+: a ∨ stretch <:+: b := by
  constructor
  · rintro ⟨x, y, shape⟩
    rcases Text.append_eq_append_cons_cases absent shape with ⟨rest, rfl, rfl⟩ | ⟨front, rfl, rfl⟩
    · exact .inr ⟨rest, y, rfl⟩
    · exact .inl ⟨x, front, rfl⟩
  · rintro (⟨x, y, rfl⟩ | ⟨x, y, rfl⟩)
    · exact ⟨x, y ++ c :: b, by simp⟩
    · exact ⟨a ++ c :: x, y, by simp⟩

theorem not_mem_of_isWordChar {t : Text} (each : ∀ c ∈ t, isWordChar c = true) {c : Char}
    (other : isWordChar c = false) : c ∉ t := by
  intro member
  simp [each c member] at other

theorem not_mem_opener {c : Char} (other : isWordChar c = false) : c ∉ ['/', '*'] :=
  not_mem_of_isWordChar (List.all_eq_true.mp (by decide)) other

theorem not_mem_closer {c : Char} (other : isWordChar c = false) : c ∉ ['*', '/'] :=
  not_mem_of_isWordChar (List.all_eq_true.mp (by decide)) other

/-- What divides words is on one side of a span, or between its ends. -/
theorem hasSpan_append_cons {c : Char} (other : isWordChar c = false) (a b : Text) :
    HasSpan (a ++ c :: b) ↔ HasSpan a ∨ (OpensComment a ∧ ClosesComment b) ∨ HasSpan b := by
  constructor
  · rintro ⟨x, y, z, shape⟩
    rcases Text.append_eq_append_cons_cases (not_mem_opener other) shape.symm with
      ⟨rest, rfl, rfl⟩ | ⟨front, rfl, inside⟩
    · exact .inr (.inr ⟨rest, y, z, rfl⟩)
    · rcases Text.append_eq_append_cons_cases (not_mem_closer other) inside with
        ⟨rest, rfl, rfl⟩ | ⟨last, rfl, rfl⟩
      · exact .inr (.inl ⟨⟨x, front, rfl⟩, ⟨rest, z, rfl⟩⟩)
      · exact .inl ⟨x, y, last, rfl⟩
  · rintro (⟨x, y, z, rfl⟩ | ⟨⟨x, y, rfl⟩, ⟨u, z, rfl⟩⟩ | ⟨x, y, z, rfl⟩)
    · exact ⟨x, y, z ++ c :: b, by simp⟩
    · exact ⟨x, y ++ c :: u, z, by simp⟩
    · exact ⟨a ++ c :: x, y, z, by simp⟩

/-- Induction along the words of a text. -/
theorem words_induction {motive : Text → Prop} (word : ∀ t, (∀ c ∈ t, isWordChar c = true) → motive t)
    (divided : ∀ t c rest, (∀ d ∈ t, isWordChar d = true) → isWordChar c = false → motive rest →
      motive (t ++ c :: rest)) (t : Text) : motive t := by
  induction size : t.length using Nat.strong_induction_on generalizing t with
  | _ n ih =>
    have whole := List.takeWhile_append_dropWhile (p := isWordChar) (l := t)
    have inWord : ∀ c ∈ t.takeWhile isWordChar, isWordChar c = true := List.all_eq_true.mp List.all_takeWhile
    have stops := List.head?_dropWhile_not isWordChar t
    cases rest : t.dropWhile isWordChar with
    | nil =>
      rw [rest, List.append_nil] at whole
      rw [← whole]
      exact word _ inWord
    | cons c rest' =>
      rw [rest] at stops whole
      have other : isWordChar c = false := by simpa using stops
      rw [← whole]
      refine divided _ c rest' inWord other (ih rest'.length ?_ rest' rfl)
      have count := congrArg List.length whole
      simp only [List.length_append, List.length_cons] at count
      omega

/-- A word, or none if it is empty. -/
theorem words_of_word {t : Text} (each : ∀ c ∈ t, isWordChar c = true) : words t = if t = [] then [] else [t] := by
  by_cases empty : t = []
  · rw [if_pos empty, empty, words_nil]
  · rw [if_neg empty, words_of_forall empty each]

theorem closesComment_iff_words (t : Text) : ClosesComment t ↔ ∃ word ∈ words t, ClosesComment word := by
  induction t using words_induction with
  | word t each =>
    rw [words_of_word each]
    split
    · next empty => simp [empty, ClosesComment]
    · simp
  | divided t c rest each other ih =>
    rw [words_append_cons other, words_of_word each, ClosesComment, infix_append_cons_iff (not_mem_closer other)]
    rw [ClosesComment] at ih
    split
    · next empty => simp [empty, ih]
    · simp [ih, ClosesComment]

/-- The spans of a text are those of its words. -/
theorem hasSpan_iff_words (t : Text) : HasSpan t ↔ Spans (words t) := by
  have bare : ¬ HasSpan [] := by decide
  have closed : ¬ OpensComment [] := by decide
  induction t using words_induction with
  | word t each =>
    rw [words_of_word each]
    split
    · next empty => simp [empty, Spans, bare]
    · simp [Spans]
  | divided t c rest each other ih =>
    have later : HasSpan rest ↔ Spans (words rest) := ih
    rw [words_append_cons other, words_of_word each, hasSpan_append_cons other, later,
      closesComment_iff_words rest]
    split
    · next empty => simp [empty, bare, closed]
    · simp [Spans]

/-- Words more do not take a span away. -/
theorem Spans.of_sublist {ws vs : List Text} (fewer : ws.Sublist vs) (spans : Spans ws) : Spans vs := by
  induction fewer with
  | slnil => exact spans
  | cons word _ ih => exact .inr (.inr (ih spans))
  | cons_cons word fewer ih =>
    rcases spans with here | ⟨opens, other, member, closes⟩ | later
    · exact .inl here
    · exact .inr (.inl ⟨opens, other, fewer.subset member, closes⟩)
    · exact .inr (.inr (ih later))

/-! ### Words of a clean stylesheet -/

theorem isGap_singleton {c : Char} (other : isWordChar c = false) : IsGap [c] :=
  List.forall_mem_singleton.mpr other

theorem isWordChar_of_isHorizontal {c : Char} (horizontal : Text.isHorizontal c = true) :
    isWordChar c = false := by
  simp [isWordChar, Plain.isSpacing_of_isHorizontal horizontal]

theorem sameWords_collapse (t : Text) : SameWords (Spacing.collapse t) t := by
  fun_induction Spacing.collapse t with
  | case1 => exact SameWords.refl []
  | case2 c rest horizontal more ih =>
    cases rest with
    | nil => simp at more
    | cons d rest =>
      have next : IsGap [d] := isGap_singleton (isWordChar_of_isHorizontal (by simpa using more))
      have both : IsGap [c, d] := isGap_cons.mpr ⟨isWordChar_of_isHorizontal horizontal, next⟩
      exact ih.trans ((sameWords_of_isGap next (by simp) both (by simp)).append (SameWords.refl rest))
  | case3 c rest horizontal last ih =>
    have space : IsGap [' '] := by decide
    have here : IsGap [c] := isGap_singleton (isWordChar_of_isHorizontal horizontal)
    exact (sameWords_of_isGap space (by simp) here (by simp)).append ih
  | case4 c rest other ih => exact ih.cons c

/-- A space goes beside a mark only, behind the text or before it. -/
theorem sameWords_append_tightenFrom (afterMark : Bool) (t gap : Text) (isGap : IsGap gap)
    (filled : afterMark = true → gap ≠ []) : SameWords (gap ++ Spacing.tightenFrom afterMark t) (gap ++ t) := by
  fun_induction Spacing.tightenFrom afterMark t generalizing gap with
  | case1 => exact SameWords.refl _
  | case2 afterMark c rest gone ih =>
    obtain ⟨rfl, beside⟩ : c = ' ' ∧ _ := by simpa using gone
    refine (ih gap isGap fun no => absurd no Bool.false_ne_true).trans ?_
    have spaced : IsGap (gap ++ [' ']) := isGap_append.mpr ⟨isGap, by decide⟩
    rcases beside with behind | before
    · simpa using (sameWords_of_isGap isGap (filled behind) spaced (by simp)).append (SameWords.refl rest)
    · cases rest with
      | nil => simp at before
      | cons d rest =>
        have mark : IsGap [d] := isGap_singleton (isWordChar_of_isMark (by simpa using before))
        have without := sameWords_of_isGap (isGap_append.mpr ⟨isGap, mark⟩) (by simp)
          (isGap_append.mpr ⟨spaced, mark⟩) (by simp)
        simpa using without.append (SameWords.refl rest)
  | case3 afterMark c rest kept ih =>
    refine (SameWords.refl gap).append ?_
    by_cases mark : Spacing.isMark c = true
    · exact ih [c] (isGap_singleton (isWordChar_of_isMark mark)) (by simp)
    · exact (ih [] (by decide) (fun yes => absurd yes mark)).cons c

theorem words_clean (css : Text) :
    words (clean css) = words (Spacing.joinLines (EmptyRuleset.strip (Comment.strip css))) := by
  have tight := sameWords_append_tightenFrom false
    (Spacing.collapse (Spacing.joinLines (EmptyRuleset.strip (Comment.strip css)))) [] (by decide) (by simp)
  rw [clean, Spacing.tighten]
  exact (tight.trans (sameWords_collapse _)).words_eq

theorem joinLines_append (t u : Text) : Spacing.joinLines (t ++ u) = Spacing.joinLines t ++ Spacing.joinLines u :=
  List.filter_append t u

/-- No word goes on where a ruleset may start. -/
theorem MayStart.words_append {t : Text} (start : MayStart t) (rest : Text) :
    words (Spacing.joinLines (t ++ rest)) = words (Spacing.joinLines t) ++ words (Spacing.joinLines rest) := by
  rcases List.eq_nil_or_concat t with rfl | ⟨front, c, rfl⟩
  · simp [Spacing.joinLines]
  · have terminator : EmptyRuleset.isTerminator c = true := start c (by simp)
    have stays : Spacing.joinLines [c] = [c] ∧ IsGap [c] := by
      simp only [EmptyRuleset.isTerminator, Bool.or_eq_true, beq_iff_eq] at terminator
      rcases terminator with rfl | rfl <;> exact ⟨by decide, by decide⟩
    rw [List.concat_eq_append, joinLines_append, joinLines_append, stays.1, stays.2.words_append (by simp),
      stays.2.words_append_right]

/-- An empty ruleset goes with its words. -/
theorem words_strip_sublist (t : Text) :
    (words (Spacing.joinLines (EmptyRuleset.strip t))).Sublist (words (Spacing.joinLines t)) := by
  refine related_strip (R := fun t u => (words (Spacing.joinLines t)).Sublist (words (Spacing.joinLines u)))
    (fun _ => List.Sublist.refl _) (fun _ _ _ => List.Sublist.trans) ?_ t
  intro before ruleset after start vacant
  rw [start.words_append, start.words_append, vacant.mayStart.words_append]
  exact (List.Sublist.refl _).append (List.sublist_append_right _ _)

/-- Blanks around a source are around its words. -/
theorem words_strip_trim (source : Text) :
    words (Spacing.joinLines (Comment.strip (Text.trim source))) =
      words (Spacing.joinLines (Comment.strip source)) := by
  have isGap : ∀ blanks : Text, (∀ c ∈ blanks, Text.isBlank c = true) → IsGap (Spacing.joinLines blanks) :=
    fun blanks blank => isGap_of_blank fun c member => blank c (List.mem_of_mem_filter member)
  obtain ⟨a, b, whole, blankA, blankB⟩ := exists_strip_trim source
  rw [whole, joinLines_append, joinLines_append, (isGap a blankA).words_append_left,
    (isGap b blankB).words_append_right]

/-! ### Words laid out -/

/-- A stray line goes with its words. -/
theorem words_ofLinesAt_sublist {ts : List Text} (each : ∀ t ∈ ts, LineText t) (level : Level) (depth : Int) :
    (words (Layout.ofLinesAt level depth ts).output).Sublist (ts.flatMap words) := by
  induction ts generalizing depth with
  | nil => simp [Layout.ofLinesAt]
  | cons t ts ih =>
    obtain ⟨here, later⟩ := List.forall_mem_cons.mp each
    rw [Layout.ofLinesAt, List.flatMap_cons]
    cases written : Layout.lineText? level depth (Line.classify (Text.trim t)) with
    | none => exact (ih later _).trans (List.sublist_append_right _ _)
    | some u =>
      have ends := (here.trim.endsMark_lineText? written).written level
        ((Line.classify (Text.trim t)).depthAt depth)
      have kept := (words_lineText? written).trans (words_kept written)
      dsimp only
      rw [ends.words_append, words_written, kept, words_trim]
      exact (List.Sublist.refl _).append (ih later _)

theorem words_layout_sublist (level : Level) (css : Text) :
    (words (layout level css).output).Sublist (words (clean css)) := by
  have laid : (words (layout level css).output).Sublist _ :=
    words_ofLinesAt_sublist (fun _ => lineText_of_mem) level 0
  rwa [flatMap_words_pieces, words_trim, (sameWords_segment _).words_eq,
    (sameWords_settle level _).words_eq] at laid

/-- A pressed stylesheet without its token has a span only if the source has one once its comments and line ends
    are out. If no line is stray, it has one as soon as there is one outside of the empty rulesets. -/
theorem hasSpan_minify {level : Level} (pressed : level ≠ .off) (source : Text) :
    (HasSpan (Token.strip (minify source level)) → HasSpan (Spacing.joinLines (Comment.strip source))) ∧
      ((layout level (Text.trim source)).skipped = 0 →
        (HasSpan (Token.strip (minify source level)) ↔
          HasSpan (Spacing.joinLines (EmptyRuleset.strip (Comment.strip (Text.trim source)))))) := by
  rw [strip_minify pressed]
  simp only [hasSpan_iff_words, words_trim]
  constructor
  · intro spans
    have clean := spans.of_sublist (words_layout_sublist level (Text.trim source))
    rw [words_clean] at clean
    rw [← words_strip_trim]
    exact clean.of_sublist (words_strip_sublist _)
  · intro none
    rw [words_layout none, words_clean]

/-- A comment in the middle of what would start another one. -/
def openerByComment : Text := ['a', '/', '/', '*', '*', '/', '*', 'b', '*', '/', '{', 'c', ':', 'd', '}']

/-- A line end in the middle of what would start a comment. -/
def openerByLineEnd : Text := ['a', '/', '\n', '*', 'b', '*', '/', '{', 'c', ':', 'd', '}']

/-- A comment and the selector behind it. -/
def commentedSource : Text := ['/', '*', 'a', '*', '/', 'b', '{', 'c', ':', 'd', '}']

theorem hasSpan_minify_sources :
    ¬ HasSpan (Token.strip (minify commentedSource .low)) ∧
      HasSpan (Token.strip (minify openerByComment .high)) := by
  constructor
  · intro spans
    exact absurd ((hasSpan_minify (by decide) commentedSource).1 spans) (by decide +kernel)
  · exact ((hasSpan_minify (by decide) openerByComment).2 (by decide +kernel)).mpr (by decide +kernel)

/-- Every level leaves a span. -/
def KeepsSpan (source : Text) : Prop :=
  HasSpan (Token.strip (minify source .low)) ∧ HasSpan (Token.strip (minify source .medium)) ∧
    HasSpan (Token.strip (minify source .high))

instance (source : Text) : Decidable (KeepsSpan source) := inferInstanceAs (Decidable (_ ∧ _ ∧ _))

/-- A comment that comes about when another one or a line end goes is not removed. -/
theorem keepsSpan_openers : KeepsSpan openerByComment ∧ KeepsSpan openerByLineEnd := by
  decide +kernel

end Stylepress.Css
