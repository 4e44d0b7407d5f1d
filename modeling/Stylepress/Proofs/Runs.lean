import Stylepress.Proofs.Nesting
import Stylepress.Proofs.Plain.Repressing

/-!
Runs of blanks. Removing comments and empty rulesets does not look at a run of blanks outside of comments:
whatever the run is, it goes with the ruleset that it stands in, or it stays where it is and the text around
it does not depend on it (`uniform_strip`).
-/
namespace Stylepress.Css

/-- A run of blanks. -/
structure IsRun (run : Text) : Prop where
  filled : run ≠ []
  blank : ∀ c ∈ run, Text.isBlank c = true

/-- A text made from a run of blanks without looking at it: the run is not in it, or it stands at one place. -/
def Uniform (f : Text → Text) : Prop :=
  (∃ t, ∀ run, IsRun run → f run = t) ∨
    ∃ before after, ∀ run, IsRun run → f run = before ++ run ++ after

theorem Uniform.append {f : Text → Text} (uniform : Uniform f) (t : Text) : Uniform fun run => t ++ f run := by
  rcases uniform with ⟨u, gone⟩ | ⟨before, after, kept⟩
  · exact .inl ⟨t ++ u, fun run isRun => by simp [gone run isRun]⟩
  · exact .inr ⟨t ++ before, after, fun run isRun => by simp [kept run isRun]⟩

theorem Uniform.congr {f g : Text → Text} (uniform : Uniform f) (same : ∀ run, IsRun run → g run = f run) :
    Uniform g := by
  rcases uniform with ⟨u, gone⟩ | ⟨before, after, kept⟩
  · exact .inl ⟨u, fun run isRun => (same run isRun).trans (gone run isRun)⟩
  · exact .inr ⟨before, after, fun run isRun => (same run isRun).trans (kept run isRun)⟩

theorem uniform_gone (t : Text) : Uniform fun _ => t := .inl ⟨t, fun _ _ => rfl⟩

theorem uniform_kept (before after : Text) : Uniform fun run => before ++ run ++ after :=
  .inr ⟨before, after, fun _ _ => rfl⟩

theorem isRun_singleton {c : Char} (blank : Text.isBlank c = true) : IsRun [c] :=
  ⟨by simp, List.forall_mem_singleton.mpr blank⟩

theorem IsRun.not_mem {run : Text} (isRun : IsRun run) {c : Char} (solid : Text.isBlank c = false) :
    c ∉ run := by
  intro member
  simp [isRun.blank c member] at solid

theorem IsRun.exists_cons {run : Text} (isRun : IsRun run) :
    ∃ c rest, run = c :: rest ∧ Text.isBlank c = true := by
  obtain ⟨c, rest, rfl⟩ := List.exists_cons_of_ne_nil isRun.filled
  exact ⟨c, rest, rfl, isRun.blank c (by simp)⟩

theorem IsRun.head?_ne {run : Text} (isRun : IsRun run) {c : Char} (solid : Text.isBlank c = false)
    (rest : Text) : (run ++ rest).head? ≠ some c := by
  obtain ⟨d, more, rfl, blank⟩ := isRun.exists_cons
  intro same
  obtain rfl : d = c := Option.some.inj same
  simp [blank] at solid

/-- What holds of all blanks and of all characters around one run holds of all characters around another. -/
theorem IsRun.forall_mem {P : Char → Prop} {run other a b : Text} (isOther : IsRun other)
    (blanks : ∀ c, Text.isBlank c = true → P c) (each : ∀ c ∈ a ++ run ++ b, P c) :
    ∀ c ∈ a ++ other ++ b, P c := by
  obtain ⟨front, behind⟩ := List.forall_mem_append.mp each
  refine List.forall_mem_append.mpr ⟨List.forall_mem_append.mpr ⟨?_, ?_⟩, behind⟩
  · exact (List.forall_mem_append.mp front).1
  · exact fun c member => blanks c (isOther.blank c member)

/-! ### Comments -/

namespace Comment

/-- Every comment that starts in the text ends in it. -/
inductive Closed : Text → Prop where
  | nil : Closed []
  | copy {c : Char} {rest : Text} (other : c ≠ '/' ∨ rest.head? ≠ some '*') (later : Closed rest) :
      Closed (c :: rest)
  | comment {body rest : Text} (closed : ¬ ['*', '/'] <:+: body) (later : Closed rest) :
      Closed ('/' :: '*' :: (body ++ '*' :: '/' :: rest))

/-- A place in a text is outside of its comments: those that start before it end before it, or nothing
    behind it ends one. -/
def Outside (before after : Text) : Prop := Closed before ∨ ¬ ['*', '/'] <:+: after

end Comment

/-- Removing comments looks at nothing behind a text in which they are closed. -/
theorem strip_closed {t : Text} (closed : Comment.Closed t) :
    ∃ left, ∀ rest : Text, rest.head? ≠ some '*' → Comment.strip (t ++ rest) = left ++ Comment.strip rest := by
  induction closed with
  | nil => exact ⟨[], fun _ _ => rfl⟩
  | @copy c t other _ ih =>
    obtain ⟨left, stripped⟩ := ih
    refine ⟨c :: left, ?_⟩
    intro rest behind
    have still : c ≠ '/' ∨ (t ++ rest).head? ≠ some '*' := by
      refine other.imp_right ?_
      intro inside
      cases t with
      | nil => exact behind
      | cons d t => exact inside
    rw [List.cons_append, Comment.strip, Text.pass_cons, Plain.removal?_eq_none still]
    exact congrArg (c :: ·) (stripped rest behind)
  | @comment body t closed _ ih =>
    obtain ⟨left, stripped⟩ := ih
    refine ⟨left, ?_⟩
    intro rest behind
    simpa using (Plain.strip_comment closed (t ++ rest)).trans (stripped rest behind)

theorem exists_first_close {t : Text} (inside : ['*', '/'] <:+: t) :
    ∃ body rest, t = body ++ '*' :: '/' :: rest ∧ ¬ ['*', '/'] <:+: body := by
  induction t with
  | nil => simp at inside
  | cons c t ih =>
    rcases List.infix_cons_iff.mp inside with ⟨rest, start⟩ | later
    · exact ⟨[], rest, by simpa using start.symm, by simp⟩
    · obtain ⟨body, rest, rfl, closed⟩ := ih later
      by_cases start : ['*', '/'] <+: c :: (body ++ '*' :: '/' :: rest)
      · obtain ⟨more, shape⟩ := start
        exact ⟨[], more, by simpa using shape.symm, by simp⟩
      · refine ⟨c :: body, rest, rfl, ?_⟩
        intro inBody
        rcases List.infix_cons_iff.mp inBody with first | deeper
        · exact start (first.trans ⟨'*' :: '/' :: rest, rfl⟩)
        · exact closed deeper

theorem closeLength?_eq_none {t : Text} (open? : ¬ ['*', '/'] <:+: t) : Comment.closeLength? t = none := by
  fun_induction Comment.closeLength? t with
  | case1 => rfl
  | case2 rest => exact absurd ⟨[], rest, rfl⟩ open?
  | case3 c rest _ ih => rw [ih fun inside => open? (List.infix_cons inside)]; rfl

/-- The comments of a text are all closed, but for one that nothing closes. -/
theorem closed_or_open (t : Text) :
    Comment.Closed t ∨ ∃ front rest, t = front ++ '/' :: '*' :: rest ∧ Comment.Closed front ∧
      ¬ ['*', '/'] <:+: rest := by
  induction size : t.length using Nat.strong_induction_on generalizing t with
  | _ n ih =>
    cases t with
    | nil => exact .inl .nil
    | cons c t =>
      by_cases opens : c = '/' ∧ t.head? = some '*'
      · obtain ⟨rfl, first⟩ := opens
        obtain ⟨t, rfl⟩ := List.head?_eq_some_iff.mp first
        by_cases inside : ['*', '/'] <:+: t
        · obtain ⟨body, rest, rfl, closed⟩ := exists_first_close inside
          have smaller : rest.length < n := by
            simp only [← size, List.length_cons, List.length_append]
            omega
          rcases ih rest.length smaller rest rfl with later | ⟨front, tail, rfl, later, open?⟩
          · exact .inl (.comment closed later)
          · exact .inr ⟨_, tail, by simp, .comment closed later, open?⟩
        · exact .inr ⟨[], t, rfl, .nil, inside⟩
      · have other : c ≠ '/' ∨ t.head? ≠ some '*' := not_and_or.mp opens
        rcases ih t.length (by simp [← size]) t rfl with later | ⟨front, tail, rfl, later, open?⟩
        · exact .inl (.copy other later)
        · refine .inr ⟨c :: front, tail, rfl, .copy ?_ later, open?⟩
          refine other.imp_right ?_
          intro star
          cases front with
          | nil => simp
          | cons d front => exact star

/-- A run of blanks divides what would close a comment. -/
theorem not_closed_run {a b : Text} (openA : ¬ ['*', '/'] <:+: a) (openB : ¬ ['*', '/'] <:+: b) {run : Text}
    (isRun : IsRun run) : ¬ ['*', '/'] <:+: a ++ run ++ b := by
  have openRun : ¬ ['*', '/'] <:+: run := fun inside =>
    isRun.not_mem (by decide) (inside.subset (List.mem_cons_self (a := '*')))
  have last : (a ++ run).getLast? = run.getLast? := by
    rw [List.getLast?_append, List.getLast?_eq_some_getLast isRun.filled]
    rfl
  rw [Plain.not_closed_iff] at openA openB openRun ⊢
  refine List.isChain_append.mpr ⟨List.isChain_append.mpr ⟨openA, openRun, ?_⟩, openB, ?_⟩
  · rintro c _ d first ⟨_, rfl⟩
    exact isRun.not_mem (by decide) (List.mem_of_mem_head? first)
  · rw [last]
    rintro c ends d _ ⟨rfl, _⟩
    exact isRun.not_mem (by decide) (List.mem_of_getLast? ends)

theorem strip_open {t : Text} (open? : ¬ ['*', '/'] <:+: t) :
    Comment.strip ('/' :: '*' :: t) = '/' :: '*' :: t := by
  have found : Comment.removal? ('/' :: '*' :: t) = some ⟨t.length + 1, '/' :: '*' :: t⟩ := by
    simp [Comment.removal?, closeLength?_eq_none open?]
  rw [Comment.strip, Text.pass_cons, found]
  simp

theorem strip_blank_append {blanks : Text} (blank : ∀ c ∈ blanks, Text.isBlank c = true) (rest : Text) :
    Comment.strip (blanks ++ rest) = blanks ++ Comment.strip rest := by
  induction blanks with
  | nil => rfl
  | cons c blanks ih =>
    obtain ⟨here, later⟩ := List.forall_mem_cons.mp blank
    rw [List.cons_append, Plain.strip_cons_of_isSpacing (isSpacing_of_isBlank here), ih later, List.cons_append]

/-- A run of blanks outside of comments stays where it is. -/
theorem uniform_comments {before after : Text} (outside : Comment.Outside before after) :
    ∃ a b, ∀ run, IsRun run → Comment.strip (before ++ run ++ after) = a ++ run ++ b := by
  have closedCase : ∀ t : Text, Comment.Closed t →
      ∃ a b, ∀ run, IsRun run → Comment.strip (t ++ run ++ after) = a ++ run ++ b := by
    intro t closed
    obtain ⟨left, stripped⟩ := strip_closed closed
    refine ⟨left, Comment.strip after, ?_⟩
    intro run isRun
    rw [List.append_assoc, stripped _ (isRun.head?_ne (by decide) after), strip_blank_append isRun.blank]
    simp
  rcases closed_or_open before with closed | ⟨front, tail, rfl, closed, open?⟩
  · exact closedCase before closed
  · rcases outside with whole | last
    · exact closedCase _ whole
    · obtain ⟨left, stripped⟩ := strip_closed closed
      refine ⟨left ++ '/' :: '*' :: tail, after, ?_⟩
      intro run isRun
      have shape : front ++ '/' :: '*' :: tail ++ run ++ after =
          front ++ '/' :: '*' :: (tail ++ run ++ after) := by simp
      rw [shape, stripped _ (by simp), strip_open (not_closed_run open? last isRun)]
      simp

/-! ### Empty rulesets -/

theorem isPrelude_of_isBlank {c : Char} (blank : Text.isBlank c = true) : EmptyRuleset.isPrelude c = true := by
  show (!Spacing.isMark c) = true
  cases mark : Spacing.isMark c with
  | false => rfl
  | true => simp [Spacing.isBlank_of_isMark mark] at blank

/-- Whether an empty ruleset stands at the head of a text does not depend on a run of blanks in the text:
    there is none, or it ends before the run, or it holds the run. -/
theorem length?_run (a b : Text) :
    (∀ run, IsRun run → EmptyRuleset.length? (a ++ run ++ b) = none) ∨
      (∃ ruleset rest, a = ruleset ++ rest ∧
        ∀ run, IsRun run → EmptyRuleset.length? (a ++ run ++ b) = some ruleset.length) ∨
      ∃ front rest, b = front ++ rest ∧
        ∀ run, IsRun run → EmptyRuleset.length? (a ++ run ++ b) = some (a ++ run ++ front).length := by
  by_cases some : ∃ run n, IsRun run ∧ EmptyRuleset.length? (a ++ run ++ b) = some n
  · obtain ⟨run, n, isRun, found⟩ := some
    obtain ⟨headed, blanks, rest, shape, filled, inHead, blank, rfl⟩ := length?_eq_some_iff.mp found
    rcases Text.append_eq_append_cons_cases (isRun.not_mem (by decide)) shape with
      ⟨behind, rfl, inside⟩ | ⟨front, rfl, rfl⟩
    · rcases Text.append_eq_append_cons_cases (isRun.not_mem (by decide)) inside.symm with
        ⟨later, rfl, rfl⟩ | ⟨front, rfl, rfl⟩
      · -- The ruleset ends before the run.
        refine .inr (.inl ⟨headed ++ '{' :: (blanks ++ ['}']), later, by simp, ?_⟩)
        intro other isOther
        refine length?_eq_some_iff.mpr ⟨headed, blanks, later ++ other ++ b, by simp, filled, inHead, blank, ?_⟩
        simp only [List.length_append, List.length_cons, List.length_nil]
        omega
      · -- The run is part of its body.
        refine .inr (.inr ⟨front ++ ['}'], rest, by simp, ?_⟩)
        intro other isOther
        refine length?_eq_some_iff.mpr ⟨headed, behind ++ other ++ front, rest, by simp, filled, inHead, ?_, ?_⟩
        · exact isOther.forall_mem (fun _ => id) blank
        · simp only [List.length_append, List.length_cons, List.length_nil]
          omega
    · -- The run is part of its prelude.
      refine .inr (.inr ⟨front ++ '{' :: (blanks ++ ['}']), rest, by simp, ?_⟩)
      intro other isOther
      refine length?_eq_some_iff.mpr
        ⟨a ++ other ++ front, blanks, rest, by simp, by simp [isOther.filled], ?_, blank, ?_⟩
      · exact isOther.forall_mem (fun _ => isPrelude_of_isBlank) inHead
      · simp only [List.length_append, List.length_cons, List.length_nil]
        omega
  · refine .inl ?_
    intro run isRun
    cases found : EmptyRuleset.length? (a ++ run ++ b) with
    | none => rfl
    | some n => exact absurd ⟨run, n, isRun, found⟩ some

theorem not_isTerminator_of_isBlank {c : Char} (blank : Text.isBlank c = true) :
    ¬ EmptyRuleset.isTerminator c = true := by
  intro terminator
  have mark : Spacing.isMark c = true := by
    simp only [EmptyRuleset.isTerminator, Bool.or_eq_true, beq_iff_eq] at terminator
    rcases terminator with rfl | rfl <;> decide
  simp [Spacing.isBlank_of_isMark mark] at blank

theorem pass_removal?_cons (c : Char) (t : Text) :
    Text.pass EmptyRuleset.removal? (c :: t) =
      c :: Text.pass EmptyRuleset.removal?
        (if EmptyRuleset.isTerminator c then t.drop ((EmptyRuleset.length? t).getD 0) else t) := by
  rw [Text.pass_cons, EmptyRuleset.removal?]
  by_cases terminator : EmptyRuleset.isTerminator c = true
  · rw [if_pos terminator, if_pos terminator]
    cases EmptyRuleset.length? t <;> rfl
  · rw [if_neg terminator, if_neg terminator]

/-- What removing empty rulesets behind terminators makes of a run of blanks. -/
theorem uniform_pass (a b : Text) : Uniform fun run => Text.pass EmptyRuleset.removal? (a ++ run ++ b) := by
  induction size : a.length using Nat.strong_induction_on generalizing a with
  | _ n ih =>
    cases a with
    | nil =>
      refine .inr ⟨[], Text.pass EmptyRuleset.removal? b, ?_⟩
      intro run isRun
      refine Text.pass_append_of_forall ?_ b
      intro c member rest
      rw [EmptyRuleset.removal?, if_neg (not_isTerminator_of_isBlank (isRun.blank c member))]
    | cons c a =>
      have copied := (ih a.length (by simp [← size]) a rfl).append [c]
      by_cases terminator : EmptyRuleset.isTerminator c = true
      · rcases length?_run a b with none | ⟨ruleset, rest, rfl, before⟩ | ⟨front, rest, rfl, around⟩
        · refine copied.congr ?_
          intro run isRun
          rw [List.cons_append, List.cons_append, pass_removal?_cons, if_pos terminator, none run isRun]
          rfl
        · have smaller : rest.length < n := by
            simp only [← size, List.length_cons, List.length_append]
            omega
          refine ((ih rest.length smaller rest rfl).append [c]).congr ?_
          intro run isRun
          rw [List.cons_append, List.cons_append, pass_removal?_cons, if_pos terminator, before run isRun]
          simp
        · refine (uniform_gone (c :: Text.pass EmptyRuleset.removal? rest)).congr ?_
          intro run isRun
          rw [List.cons_append, List.cons_append, pass_removal?_cons, if_pos terminator, around run isRun,
            Option.getD_some, ← List.append_assoc, List.drop_left]
      · refine copied.congr ?_
        intro run isRun
        rw [List.cons_append, List.cons_append, pass_removal?_cons, if_neg terminator]
        rfl

theorem sweep_eq (t : Text) :
    EmptyRuleset.sweep t = Text.pass EmptyRuleset.removal? (t.drop ((EmptyRuleset.length? t).getD 0)) := by
  rw [EmptyRuleset.sweep]
  cases EmptyRuleset.length? t <;> rfl

theorem uniform_sweep (a b : Text) : Uniform fun run => EmptyRuleset.sweep (a ++ run ++ b) := by
  rcases length?_run a b with none | ⟨ruleset, rest, rfl, before⟩ | ⟨front, rest, rfl, around⟩
  · refine (uniform_pass a b).congr ?_
    intro run isRun
    rw [sweep_eq, none run isRun]
    rfl
  · refine (uniform_pass rest b).congr ?_
    intro run isRun
    rw [sweep_eq, before run isRun]
    simp
  · refine (uniform_gone (Text.pass EmptyRuleset.removal? rest)).congr ?_
    intro run isRun
    rw [sweep_eq, around run isRun, Option.getD_some, ← List.append_assoc, List.drop_left]

theorem length?_bounds {t : Text} {n : Nat} (found : EmptyRuleset.length? t = some n) : 0 < n ∧ n ≤ t.length := by
  obtain ⟨headed, blanks, rest, rfl, _, _, _, rfl⟩ := length?_eq_some_iff.mp found
  simp only [List.length_append, List.length_cons]
  omega

/-- A pass that removes empty rulesets shortens the text or changes nothing. -/
theorem pass_removal?_cases (t : Text) :
    Text.pass EmptyRuleset.removal? t = t ∨ (Text.pass EmptyRuleset.removal? t).length < t.length := by
  induction t using Text.pass_induction EmptyRuleset.removal? with
  | nil => exact .inl rfl
  | copy c rest none ih =>
    rcases ih with same | shorter
    · exact .inl (by rw [same])
    · exact .inr (by simpa using shorter)
  | replace c rest edit found ih =>
    obtain ⟨_, n, length, rfl⟩ := show _ ∧ _ by simpa [EmptyRuleset.removal?] using found
    obtain ⟨filled, inside⟩ := length?_bounds length
    have atMost : (Text.pass EmptyRuleset.removal? (rest.drop n)).length ≤ (rest.drop n).length := by
      rcases ih with same | shorter
      · rw [same]
      · exact shorter.le
    rw [List.length_drop] at atMost
    right
    simp only [List.length_append, List.length_cons, List.length_nil]
    omega

theorem sweep_cases (t : Text) :
    EmptyRuleset.sweep t = t ∨ (EmptyRuleset.sweep t).length < t.length := by
  rw [sweep_eq]
  cases found : EmptyRuleset.length? t with
  | none => exact pass_removal?_cases t
  | some n =>
    obtain ⟨filled, inside⟩ := length?_bounds found
    right
    rcases pass_removal?_cases (t.drop n) with same | shorter
    · rw [Option.getD_some, same, List.length_drop]
      omega
    · rw [List.length_drop] at shorter
      rw [Option.getD_some]
      omega

/-- A sweep that takes a run of blanks away shortens the text. -/
theorem length_lt_of_gone {a b t : Text} (gone : ∀ run, IsRun run → EmptyRuleset.sweep (a ++ run ++ b) = t)
    {run : Text} (isRun : IsRun run) : t.length < (a ++ run ++ b).length := by
  have space : IsRun [' '] := isRun_singleton (by decide)
  have lineEnd : IsRun ['\n'] := isRun_singleton (by decide)
  have least : t.length < (a ++ [' '] ++ b).length := by
    have first := sweep_cases (a ++ [' '] ++ b)
    have second := sweep_cases (a ++ ['\n'] ++ b)
    rw [gone _ space] at first
    rw [gone _ lineEnd] at second
    -- Two runs that differ cannot both be left as they are.
    rcases first with same | shorter
    · rcases second with sameToo | shorter
      · simp [same] at sameToo
      · simpa using shorter
    · exact shorter
  have size : 0 < run.length := List.length_pos_iff.mpr isRun.filled
  simp only [List.length_append, List.length_cons, List.length_nil] at least ⊢
  omega

/-- Removing empty rulesets takes a run of blanks away with what is around it, or leaves it where it is. -/
theorem uniform_strip (a b : Text) : Uniform fun run => EmptyRuleset.strip (a ++ run ++ b) := by
  -- On the size of what is around the run, so that one sweep less is due for all runs at once.
  induction size : (a ++ b).length using Nat.strong_induction_on generalizing a b with
  | _ n ih =>
    rcases uniform_sweep a b with ⟨t, gone⟩ | ⟨before, after, kept⟩
    · beta_reduce at gone
      refine (uniform_gone (EmptyRuleset.strip t)).congr ?_
      intro run isRun
      have shorter := length_lt_of_gone gone isRun
      rw [EmptyRuleset.strip, gone run isRun, dif_pos shorter]
    · beta_reduce at kept
      by_cases shorter : (before ++ after).length < (a ++ b).length
      · refine (ih _ (by omega) before after rfl).congr ?_
        intro run isRun
        rw [EmptyRuleset.strip, kept run isRun, dif_pos]
        simp only [List.length_append] at shorter ⊢
        omega
      · refine (uniform_kept a b).congr ?_
        intro run isRun
        rw [EmptyRuleset.strip, kept run isRun, dif_neg]
        simp only [List.length_append] at shorter ⊢
        omega

/-! ### Both together -/

theorem Comment.Closed.trimStart {t : Text} (closed : Comment.Closed t) : Comment.Closed (Text.trimStart t) := by
  induction closed with
  | nil => exact .nil
  | @copy c rest other later ih =>
    rw [Text.trimStart, List.dropWhile_cons]
    split
    · exact ih
    · exact .copy other later
  | comment closed later _ => exact .comment closed later

theorem Comment.Outside.trim {before after : Text} (outside : Comment.Outside before after) :
    Comment.Outside (Text.trimStart before) (Text.trimEnd after) := by
  rcases outside with closed | open?
  · exact .inl closed.trimStart
  · refine .inr ?_
    intro inside
    obtain ⟨blanks, shape, _⟩ := Text.exists_dropEndWhile Text.isBlank after
    exact open? (inside.trans ⟨[], blanks, by rw [List.nil_append]; exact shape.symm⟩)

/-- Trimming a text and removing its comments and empty rulesets takes a run of blanks outside of comments
    away, or leaves it where it is. -/
theorem uniform_stripped {before after : Text} (outside : Comment.Outside before after) :
    Uniform fun run => EmptyRuleset.strip (Comment.strip (Text.trim (before ++ run ++ after))) := by
  by_cases filledBefore : ∃ c ∈ before, Text.isBlank c = false
  · by_cases filledAfter : ∃ c ∈ after, Text.isBlank c = false
    · obtain ⟨a, b, stripped⟩ := uniform_comments outside.trim
      refine (uniform_strip a b).congr ?_
      intro run isRun
      rw [← stripped run isRun, Text.trim, List.append_assoc, Text.trimStart_append_of_filled filledBefore,
        ← List.append_assoc, Text.trimEnd_append_of_filled _ filledAfter]
    · have blankAfter : ∀ c ∈ after, Text.isBlank c = true := by simpa using filledAfter
      refine (uniform_gone (EmptyRuleset.strip (Comment.strip (Text.trim before)))).congr ?_
      intro run isRun
      have around := Text.trim_between before (List.forall_mem_nil _)
        (List.forall_mem_append.mpr ⟨isRun.blank, blankAfter⟩)
      rw [← around]
      simp
  · have blankBefore : ∀ c ∈ before, Text.isBlank c = true := by simpa using filledBefore
    refine (uniform_gone (EmptyRuleset.strip (Comment.strip (Text.trim after)))).congr ?_
    intro run isRun
    have around := Text.trim_between after (List.forall_mem_append.mpr ⟨blankBefore, isRun.blank⟩)
      (List.forall_mem_nil _)
    rw [← around]
    simp

end Stylepress.Css
