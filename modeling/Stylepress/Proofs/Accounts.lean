import Stylepress.Proofs.Fragments

/-!
The accounts of laying out, for any lines at all. The shapes are read off the text of a line: its first and
last character, and whether it is a ruleset from end to end. Openings less closings give the depth, the lines
of no shape are those left out, and of every other line each character that is not blank is written in its
place, but for the braces that an opening has too many (`ofLines_account`).
-/
namespace Stylepress.Css

/-! ### Shapes by text -/

/-- A line that leaves a block. -/
def Leaves (t : Text) : Prop := t.head? = some '}'

/-- A line that opens a block and leaves none. -/
def Enters (t : Text) : Prop := t.getLast? = some '{' ∧ ¬ Leaves t

/-- Selectors without an opening brace, and declarations without a closing one between the braces. -/
def IsRuleset (t : Text) : Prop :=
  ∃ selectors body, t = selectors ++ '{' :: body ++ ['}'] ∧ selectors ≠ [] ∧ '{' ∉ selectors ∧
    body ≠ [] ∧ '}' ∉ body

/-- A line of none of the shapes. -/
def IsStray (t : Text) : Prop :=
  ¬ (t.getLast? = some ';' ∨ t.getLast? = some '{' ∨ Leaves t ∨ IsRuleset t)

theorem ruleset?_eq_some_iff {t selectors body : Text} :
    Line.ruleset? t = some (selectors, body) ↔
      t = selectors ++ '{' :: body ++ ['}'] ∧ selectors ≠ [] ∧ '{' ∉ selectors ∧ body ≠ [] ∧ '}' ∉ body := by
  constructor
  · intro found
    have whole := eq_of_ruleset? found
    unfold Line.ruleset? at found
    split at found
    · cases found
    · next before behind opened =>
      split at found
      · next inside closed =>
        split at found
        · cases found
        · next filled =>
          obtain ⟨rfl, rfl⟩ := Prod.mk.inj (Option.some.inj found)
          simp only [Bool.or_eq_true, List.isEmpty_iff, not_or] at filled
          exact ⟨whole, filled.1, (Text.splitFirst_eq_some_iff.mp opened).1, filled.2,
            (Text.splitFirst_eq_some_iff.mp closed).1⟩
      · cases found
  · rintro ⟨rfl, chosen, noOpen, declared, noClose⟩
    have opened : Text.splitFirst '{' (selectors ++ '{' :: body ++ ['}']) = some (selectors, body ++ ['}']) := by
      simpa using Text.splitFirst_append noOpen (body ++ ['}'])
    have closed : Text.splitFirst '}' (body ++ ['}']) = some (body, []) := Text.splitFirst_append noClose []
    rw [Line.ruleset?, opened]
    simp [closed, chosen, declared]

theorem isSome_ruleset?_iff {t : Text} : (Line.ruleset? t).isSome = true ↔ IsRuleset t := by
  rw [Option.isSome_iff_exists]
  constructor
  · rintro ⟨⟨selectors, body⟩, found⟩
    exact ⟨selectors, body, ruleset?_eq_some_iff.mp found⟩
  · rintro ⟨selectors, body, shape⟩
    exact ⟨(selectors, body), ruleset?_eq_some_iff.mpr shape⟩

instance (t : Text) : Decidable (Leaves t) := inferInstanceAs (Decidable (_ = _))

instance (t : Text) : Decidable (Enters t) := inferInstanceAs (Decidable (_ ∧ _))

instance (t : Text) : Decidable (IsRuleset t) := decidable_of_iff _ isSome_ruleset?_iff

instance (t : Text) : Decidable (IsStray t) := inferInstanceAs (Decidable (¬ _))

/-- A line with one brace for those that it ends with, if it opens a block. -/
def shortened (t : Text) : Text :=
  if Enters t then Text.dropEndWhile (· == '{') t ++ ['{'] else t

/-! ### One line -/

theorem startsWith_iff {c : Char} {t : Text} : t.startsWith c = true ↔ t.head? = some c := beq_iff_eq

theorem endsWith_iff {c : Char} {t : Text} : t.endsWith c = true ↔ t.getLast? = some c := beq_iff_eq

/-- The shape that a line is taken for, by its text. -/
inductive Shaped (t : Text) : Line → Prop where
  | leaving (leaves : Leaves t) : Shaped t (.leaving t)
  | statement (inside : ¬ Leaves t) (last : t.getLast? = some ';') : Shaped t (.statement t)
  | opening (enters : Enters t) : Shaped t (.opening (Text.dropEndWhile (· == '{') t))
  | ruleset {selectors body : Text} (inside : ¬ Leaves t) (last : t.getLast? = some '}') (ruleset : IsRuleset t)
      (parts : t = selectors ++ '{' :: body ++ ['}']) : Shaped t (.ruleset selectors body)
  | stray (none : IsStray t) : Shaped t (.stray t)

theorem shaped_classify (t : Text) : Shaped t (Line.classify t) := by
  unfold Line.classify
  simp only [startsWith_iff, endsWith_iff]
  by_cases leaves : t.head? = some '}'
  · rw [if_pos leaves]
    exact .leaving leaves
  · rw [if_neg leaves]
    by_cases statement : t.getLast? = some ';'
    · rw [if_pos statement]
      exact .statement leaves statement
    · rw [if_neg statement]
      by_cases opens : t.getLast? = some '{'
      · rw [if_pos opens]
        exact .opening ⟨opens, leaves⟩
      · rw [if_neg opens]
        cases found : Line.ruleset? t with
        | none =>
          refine .stray ?_
          rintro (last | last | first | ruleset)
          · exact statement last
          · exact opens last
          · exact leaves first
          · simp [← isSome_ruleset?_iff, found] at ruleset
        | some parts =>
          have whole := eq_of_ruleset? found
          refine .ruleset leaves ?_ (isSome_ruleset?_iff.mp (by rw [found]; rfl)) whole
          rw [whole]
          exact List.getLast?_concat

theorem isStray_classify_iff (t : Text) : (Line.classify t).isStray = true ↔ IsStray t := by
  have shaped := shaped_classify t
  generalize Line.classify t = line at shaped ⊢
  cases shaped with
  | leaving leaves => exact iff_of_false (by simp [Line.isStray]) (not_not.mpr (.inr (.inr (.inl leaves))))
  | statement _ last => exact iff_of_false (by simp [Line.isStray]) (not_not.mpr (.inl last))
  | opening enters => exact iff_of_false (by simp [Line.isStray]) (not_not.mpr (.inr (.inl enters.1)))
  | ruleset _ _ ruleset _ => exact iff_of_false (by simp [Line.isStray]) (not_not.mpr (.inr (.inr (.inr ruleset))))
  | stray none => exact iff_of_true rfl none

theorem not_enters_of_last {t : Text} {c : Char} (last : t.getLast? = some c) (other : c ≠ '{') : ¬ Enters t := by
  rintro ⟨opens, -⟩
  exact other (Option.some.inj (last.symm.trans opens))

/-- A line climbs where it opens a block and descends where it leaves one. -/
theorem climb_eq (t : Text) : climb t = (if Enters t then 1 else 0) - (if Leaves t then 1 else 0) := by
  rw [climb]
  have shaped := shaped_classify t
  generalize Line.classify t = line at shaped ⊢
  cases shaped with
  | leaving leaves =>
    have enters : ¬ Enters t := fun both => both.2 leaves
    simp [leaves, enters, Line.depthAfter]
  | statement inside last =>
    have enters : ¬ Enters t := not_enters_of_last last (by decide)
    simp [inside, enters, Line.depthAfter]
  | opening enters => simp [enters, enters.2, Line.depthAfter]
  | ruleset inside last _ _ =>
    have enters : ¬ Enters t := not_enters_of_last last (by decide)
    simp [inside, enters, Line.depthAfter]
  | stray none =>
    have enters : ¬ Enters t := fun both => none (.inr (.inl both.1))
    have inside : ¬ Leaves t := fun leaves => none (.inr (.inr (.inl leaves)))
    simp [inside, enters, Line.depthAfter]

theorem shortened_of_not_enters {t : Text} (enters : ¬ Enters t) : shortened t = t := if_neg enters

/-- Of a line that is not stray all is written, but for the braces that an opening has too many. -/
theorem kept_eq_shortened {t : Text} (known : ¬ IsStray t) : kept t = shortened t := by
  rw [kept]
  have shaped := shaped_classify t
  generalize Line.classify t = line at shaped ⊢
  cases shaped with
  | leaving leaves => exact (shortened_of_not_enters fun both => both.2 leaves).symm
  | statement _ last => exact (shortened_of_not_enters (not_enters_of_last last (by decide))).symm
  | opening enters => exact (if_pos enters).symm
  | ruleset _ last _ parts =>
    rw [shortened_of_not_enters (not_enters_of_last last (by decide))]
    exact parts.symm
  | stray none => exact absurd none known

theorem kept_of_isStray {t : Text} (stray : IsStray t) : kept t = [] := by
  rw [← isStray_classify_iff] at stray
  rw [kept]
  cases shape : Line.classify t with
  | stray _ => rfl
  | _ => simp [shape, Line.isStray] at stray

/-! ### All lines -/

theorem lineText?_eq_none_iff (level : Level) (depth : Int) (line : Line) :
    Layout.lineText? level depth line = none ↔ line.isStray = true := by
  cases line <;> simp [Layout.lineText?, Line.isStray]

/-- The lines left out are those of no shape. -/
theorem skipped_ofLinesAt (level : Level) (depth : Int) (ts : List Text) :
    (Layout.ofLinesAt level depth ts).skipped = (ts.map Text.trim).countP (IsStray ·) := by
  induction ts generalizing depth with
  | nil => rfl
  | cons t ts ih =>
    have later := ih ((Line.classify (Text.trim t)).depthAfter depth)
    have stray := (lineText?_eq_none_iff level depth _).trans (isStray_classify_iff (Text.trim t))
    rw [List.map_cons, List.countP_cons, Layout.ofLinesAt]
    cases written : Layout.lineText? level depth (Line.classify (Text.trim t)) with
    | none =>
      have here : IsStray (Text.trim t) := stray.mp written
      simp [here, later]
    | some u =>
      have here : ¬ IsStray (Text.trim t) := fun none => by simp [stray.mpr none] at written
      simp [here, later]

theorem sum_climb_eq (ts : List Text) :
    (ts.map climb).sum = (ts.countP (Enters ·) : Int) - ts.countP (Leaves ·) := by
  induction ts with
  | nil => rfl
  | cons t ts ih =>
    rw [List.map_cons, List.sum_cons, ih, climb_eq, List.countP_cons, List.countP_cons]
    by_cases enters : Enters t <;> by_cases leaves : Leaves t <;> simp [enters, leaves] <;> omega

theorem flatMap_kept_eq (ts : List Text) :
    ts.flatMap kept = (ts.filter (¬ IsStray ·)).flatMap shortened := by
  induction ts with
  | nil => rfl
  | cons t ts ih =>
    rw [List.flatMap_cons, ih]
    by_cases stray : IsStray t
    · simp [stray, kept_of_isStray stray]
    · simp [stray, kept_eq_shortened stray]

/-- Whatever the lines and the level, the depth at the end is the number of lines that open a block and leave
    none, less that of the lines that leave one; the lines left out are those that end neither with a semicolon
    nor with an opening brace, leave no block and are no ruleset; both are the same at every level; and, blanks
    aside, what is written is the other lines one after the other, with one brace for those that an opening ends
    with. -/
theorem ofLines_account (level : Level) (ts : List Text) :
    (Layout.ofLines level ts).depth =
        ((ts.map Text.trim).countP (Enters ·) : Int) - (ts.map Text.trim).countP (Leaves ·) ∧
      (Layout.ofLines level ts).skipped = (ts.map Text.trim).countP (IsStray ·) ∧
      (∀ other : Level, (Layout.ofLines other ts).depth = (Layout.ofLines level ts).depth ∧
        (Layout.ofLines other ts).skipped = (Layout.ofLines level ts).skipped) ∧
      (Layout.ofLines level ts).output.filter isSolid =
        ((ts.map Text.trim).filter (¬ IsStray ·)).flatMap fun t => (shortened t).filter isSolid := by
  have depth : ∀ other : Level, (Layout.ofLines other ts).depth =
      ((ts.map Text.trim).countP (Enters ·) : Int) - (ts.map Text.trim).countP (Leaves ·) := by
    intro other
    rw [Layout.ofLines, depth_ofLinesAt, sum_climb_eq, Int.zero_add]
  have skipped : ∀ other : Level, (Layout.ofLines other ts).skipped = (ts.map Text.trim).countP (IsStray ·) :=
    fun other => skipped_ofLinesAt other 0 ts
  refine ⟨depth level, skipped level, ?_, ?_⟩
  · intro other
    exact ⟨(depth other).trans (depth level).symm, (skipped other).trans (skipped level).symm⟩
  · rw [Layout.ofLines, filter_ofLinesAt solid_isSolid, flatMap_kept_eq, List.filter_flatMap]

end Stylepress.Css
