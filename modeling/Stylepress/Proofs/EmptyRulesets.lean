import Stylepress.Proofs.Runs

/-!
Removing empty rulesets sweep by sweep, and all at once. A sweep leaves every other one of empty rulesets that
touch, and what it takes away changes what stands before the next one. But a ruleset ends with the only
terminator in it, so the rulesets to remove never overlap, and a text can be cut wherever a ruleset may start
without changing which of its characters go (`erased_append`). What the sweeps leave in the end is therefore
the text without the characters of all its vacant rulesets (`strip_erases_at_once`).
-/
namespace Stylepress.Css

open EmptyRuleset (isTerminator isPrelude)

/-- A ruleset with a prelude, and nothing but blanks between its braces. -/
def IsVacant (ruleset : Text) : Prop :=
  ∃ headed blanks, ruleset = headed ++ '{' :: blanks ++ ['}'] ∧ headed ≠ [] ∧
    (∀ c ∈ headed, isPrelude c = true) ∧ ∀ c ∈ blanks, Text.isBlank c = true

/-- A ruleset may start behind a text: the text is empty or ends with a terminator. -/
def MayStart (before : Text) : Prop := ∀ c, before.getLast? = some c → isTerminator c = true

/-- A vacant ruleset of a text, where one may start. -/
structure Vacancy (t : Text) where
  before : Text
  ruleset : Text
  after : Text
  whole : t = before ++ ruleset ++ after
  start : MayStart before
  vacant : IsVacant ruleset

/-- The characters of a vacancy, by their places in the text. -/
def Vacancy.Covers {t : Text} (vacancy : Vacancy t) (i : Nat) : Prop :=
  vacancy.before.length ≤ i ∧ i < vacancy.before.length + vacancy.ruleset.length

/-- The character at a place belongs to a vacancy. -/
def Covered (t : Text) (i : Nat) : Prop := ∃ vacancy : Vacancy t, vacancy.Covers i

/-! ### Where rulesets start and end -/

theorem mayStart_nil : MayStart [] := fun _ last => nomatch last

theorem mayStart_concat {t : Text} {c : Char} (terminator : isTerminator c = true) : MayStart (t ++ [c]) := by
  intro d last
  rw [List.getLast?_concat] at last
  rwa [← Option.some.inj last]

theorem MayStart.append {t u : Text} (first : MayStart t) (second : MayStart u) : MayStart (t ++ u) := by
  intro c last
  cases u with
  | nil => exact first c (by simpa using last)
  | cons d u =>
    refine second c ?_
    simpa [List.getLast?_append] using last

theorem MayStart.of_append {t u : Text} (both : MayStart (t ++ u)) : MayStart u := by
  intro c last
  exact both c (by simp [List.getLast?_append, last])

theorem not_isTerminator_of_isPrelude {c : Char} (inside : isPrelude c = true) : ¬ isTerminator c = true := by
  simp only [isPrelude, isTerminator, Bool.not_eq_true', Bool.or_eq_false_iff, Bool.or_eq_true] at inside ⊢
  simp [inside.1.2, inside.2]

/-- A vacant ruleset ends with the only terminator in it. -/
theorem IsVacant.exists_concat {ruleset : Text} (vacant : IsVacant ruleset) :
    ∃ front, ruleset = front ++ ['}'] ∧ ∀ c ∈ front, ¬ isTerminator c = true := by
  obtain ⟨headed, blanks, rfl, _, inHead, blank⟩ := vacant
  refine ⟨headed ++ '{' :: blanks, rfl, ?_⟩
  intro c member
  rcases List.mem_append.mp member with head | body
  · exact not_isTerminator_of_isPrelude (inHead c head)
  · rcases List.mem_cons.mp body with rfl | inside
    · decide
    · exact not_isTerminator_of_isBlank (blank c inside)

theorem IsVacant.mayStart {ruleset : Text} (vacant : IsVacant ruleset) : MayStart ruleset := by
  obtain ⟨front, rfl, _⟩ := vacant.exists_concat
  exact mayStart_concat (by decide)

theorem isVacant_iff_length? {ruleset : Text} (after : Text) :
    IsVacant ruleset ↔ EmptyRuleset.length? (ruleset ++ after) = some ruleset.length := by
  rw [length?_eq_some_iff]
  constructor
  · rintro ⟨headed, blanks, rfl, filled, inHead, blank⟩
    refine ⟨headed, blanks, after, by simp, filled, inHead, blank, ?_⟩
    simp only [List.length_append, List.length_cons, List.length_nil]
    omega
  · rintro ⟨headed, blanks, rest, shape, filled, inHead, blank, size⟩
    have cut : ruleset ++ after = headed ++ '{' :: blanks ++ ['}'] ++ rest := by simp [shape]
    refine ⟨headed, blanks, (List.append_inj cut ?_).1, filled, inHead, blank⟩
    simp only [List.length_append, List.length_cons, List.length_nil]
    omega

theorem isVacant_take {t : Text} {n : Nat} (found : EmptyRuleset.length? t = some n) :
    IsVacant (t.take n) := by
  have inside := (length?_bounds found).2
  rw [isVacant_iff_length? (t.drop n), List.take_append_drop, List.length_take, Nat.min_eq_left inside]
  exact found

/-- A place where a ruleset may start cuts no vacancy in two. -/
theorem Vacancy.before_or_behind {t rest : Text} (start : MayStart t) (vacancy : Vacancy (t ++ rest)) :
    (∃ middle, t = vacancy.before ++ vacancy.ruleset ++ middle) ∨
      ∃ middle, vacancy.before = t ++ middle ∧ rest = middle ++ vacancy.ruleset ++ vacancy.after := by
  obtain ⟨before, ruleset, after, whole, _, vacant⟩ := vacancy
  rw [List.append_assoc] at whole
  rcases List.append_eq_append_iff.mp whole with ⟨middle, rfl, rfl⟩ | ⟨front, rfl, split⟩
  · exact .inr ⟨middle, rfl, by simp⟩
  · rcases List.append_eq_append_iff.mp split with ⟨middle, rfl, rfl⟩ | ⟨behind, rfl, rfl⟩
    · exact .inl ⟨middle, by simp⟩
    · rcases List.eq_nil_or_concat front with rfl | ⟨front, c, rfl⟩
      · exact .inr ⟨[], by simp, by simp⟩
      · -- The text would end inside the ruleset, and with a terminator.
        rcases List.eq_nil_or_concat behind with rfl | ⟨behind, d, rfl⟩
        · exact .inl ⟨[], by simp⟩
        · obtain ⟨inner, shape, none⟩ := vacant.exists_concat
          have same : front ++ [c] ++ behind = inner := by
            rw [List.concat_eq_append, List.concat_eq_append, ← List.append_assoc] at shape
            exact List.append_inj_left' shape rfl
          have last : isTerminator c = true := start c (by simp)
          exact absurd last (none c (by simp [← same]))

/-- Whether a place is covered, by looking for a ruleset at every place up to it. -/
theorem covered_iff_length? {t : Text} {i : Nat} :
    Covered t i ↔ ∃ n < i + 1, MayStart (t.take n) ∧ i < n + (EmptyRuleset.length? (t.drop n)).getD 0 := by
  constructor
  · rintro ⟨⟨before, ruleset, after, rfl, start, vacant⟩, first, last⟩
    refine ⟨before.length, Nat.lt_succ_of_le first, ?_, ?_⟩
    · rwa [List.append_assoc, List.take_left]
    · rwa [List.append_assoc, List.drop_left, (isVacant_iff_length? _).mp vacant]
  · rintro ⟨n, first, start, last⟩
    cases found : EmptyRuleset.length? (t.drop n) with
    | none =>
      rw [found, Option.getD_none] at last
      omega
    | some m =>
      rw [found, Option.getD_some] at last
      have fits := length?_bounds found
      rw [List.length_drop] at fits
      have whole : t = t.take n ++ (t.drop n).take m ++ (t.drop n).drop m := by
        rw [List.append_assoc, List.take_append_drop, List.take_append_drop]
      refine ⟨⟨t.take n, (t.drop n).take m, (t.drop n).drop m, whole, start, isVacant_take found⟩, ?_⟩
      simp only [Vacancy.Covers, List.length_take, List.length_drop]
      omega

instance (t : Text) : Decidable (MayStart t) :=
  decidable_of_iff (t.getLast?.all isTerminator = true) (by simp [MayStart, Option.all_eq_true])

instance (t : Text) (i : Nat) : Decidable (Covered t i) := decidable_of_iff _ covered_iff_length?.symm

/-- `t` without the characters of its vacancies, all taken away at once. -/
def erased (t : Text) : Text := (t.zipIdx.filter fun place => ¬ Covered t place.2).map Prod.fst

/-! ### Cutting a text -/

section
variable {t : Text} (start : MayStart t) (rest : Text)
include start

theorem covered_append_left {i : Nat} (inside : i < t.length) : Covered (t ++ rest) i ↔ Covered t i := by
  constructor
  · rintro ⟨vacancy, first, last⟩
    rcases vacancy.before_or_behind start with ⟨middle, shape⟩ | ⟨middle, shape, _⟩
    · exact ⟨⟨vacancy.before, vacancy.ruleset, middle, shape, vacancy.start, vacancy.vacant⟩, first, last⟩
    · rw [shape, List.length_append] at first
      omega
  · rintro ⟨⟨before, ruleset, after, whole, free, vacant⟩, covers⟩
    exact ⟨⟨before, ruleset, after ++ rest, by simp [whole], free, vacant⟩, covers⟩

theorem covered_append_right (i : Nat) : Covered (t ++ rest) (t.length + i) ↔ Covered rest i := by
  constructor
  · rintro ⟨vacancy, first, last⟩
    rcases vacancy.before_or_behind start with ⟨middle, shape⟩ | ⟨middle, shape, behind⟩
    · have size := congrArg List.length shape
      simp only [List.length_append] at size
      omega
    · have free : MayStart middle := by
        have both := vacancy.start
        rw [shape] at both
        exact both.of_append
      rw [shape, List.length_append] at first last
      refine ⟨⟨middle, vacancy.ruleset, vacancy.after, behind, free, vacancy.vacant⟩, ?_⟩
      simp only [Vacancy.Covers]
      omega
  · rintro ⟨⟨before, ruleset, after, whole, free, vacant⟩, first, last⟩
    refine ⟨⟨t ++ before, ruleset, after, by simp [whole], start.append free, vacant⟩, ?_⟩
    dsimp only at first last
    simp only [Vacancy.Covers, List.length_append]
    omega

/-- A text may be cut where a ruleset may start, and its vacancies be taken away on either side. -/
theorem erased_append : erased (t ++ rest) = erased t ++ erased rest := by
  have before : t.zipIdx.filter (fun place => ¬ Covered (t ++ rest) place.2) =
      t.zipIdx.filter fun place => ¬ Covered t place.2 := by
    refine List.filter_congr ?_
    rintro ⟨c, i⟩ member
    have inside : i < t.length := by simpa using List.snd_lt_of_mem_zipIdx member
    simp only [covered_append_left start rest inside]
  have behind : (rest.zipIdx t.length).filter (fun place => ¬ Covered (t ++ rest) place.2) =
      (rest.zipIdx.filter fun place => ¬ Covered rest place.2).map fun place => (place.1, t.length + place.2) := by
    rw [List.zipIdx_eq_map_add, List.filter_map]
    congr 1
    refine List.filter_congr ?_
    rintro ⟨c, i⟩ _
    simp only [Function.comp_apply, covered_append_right start rest i]
  rw [erased, List.zipIdx_append, List.filter_append, List.map_append, Nat.zero_add, before, behind, List.map_map]
  rfl

end

theorem erased_of_isVacant {ruleset : Text} (vacant : IsVacant ruleset) : erased ruleset = [] := by
  rw [erased, List.map_eq_nil_iff, List.filter_eq_nil_iff]
  rintro ⟨c, i⟩ member
  have inside : i < ruleset.length := by simpa using List.snd_lt_of_mem_zipIdx member
  have covered : Covered ruleset i :=
    ⟨⟨[], ruleset, [], by simp, mayStart_nil, vacant⟩, by simp, by simpa using inside⟩
  simpa using covered

theorem erased_of_isEmpty {t : Text} (none : IsEmpty (Vacancy t)) : erased t = t := by
  have free : ∀ i, ¬ Covered t i := fun i covered => none.elim covered.choose
  rw [erased, List.filter_eq_self.mpr (fun place _ => by simpa using free place.2), List.zipIdx_map_fst]

/-- One vacancy less makes no difference to what is left when all are taken away. -/
theorem erased_vacancy {before ruleset : Text} (start : MayStart before) (vacant : IsVacant ruleset)
    (after : Text) :
    erased (before ++ (ruleset ++ after)) = erased (before ++ after) := by
  rw [erased_append start, erased_append vacant.mayStart, erased_of_isVacant vacant, List.nil_append,
    ← erased_append start]

/-! ### Sweeps -/

section
variable {R : Text → Text → Prop} (refl : ∀ t, R t t) (trans : ∀ t u v, R t u → R u v → R t v)
  (vacancy : ∀ before ruleset after, MayStart before → IsVacant ruleset →
    R (before ++ after) (before ++ (ruleset ++ after)))
include refl trans vacancy

theorem related_append_pass (front t : Text) : R (front ++ Text.pass EmptyRuleset.removal? t) (front ++ t) := by
  induction t using Text.pass_induction EmptyRuleset.removal? generalizing front with
  | nil => exact refl _
  | copy c rest none ih => simpa using ih (front ++ [c])
  | replace c rest edit found ih =>
    obtain ⟨terminator, n, length, rfl⟩ := show _ ∧ _ by simpa [EmptyRuleset.removal?] using found
    have gone := vacancy (front ++ [c]) _ (rest.drop n) (mayStart_concat terminator) (isVacant_take length)
    rw [List.take_append_drop] at gone
    simpa using trans _ _ _ (ih (front ++ [c])) gone

/-- What relates a text with one vacancy less to the text relates a swept text to the text. -/
theorem related_sweep (t : Text) : R (EmptyRuleset.sweep t) t := by
  rw [sweep_eq]
  have swept := related_append_pass refl trans vacancy [] (t.drop ((EmptyRuleset.length? t).getD 0))
  cases found : EmptyRuleset.length? t with
  | none => simpa [found] using swept
  | some n =>
    have gone := vacancy [] _ (t.drop n) mayStart_nil (isVacant_take found)
    rw [List.take_append_drop] at gone
    rw [found] at swept
    exact trans _ _ _ swept gone

theorem related_strip (t : Text) : R (EmptyRuleset.strip t) t := by
  fun_induction EmptyRuleset.strip t with
  | case1 t swept shorter ih => exact trans _ _ _ ih (related_sweep refl trans vacancy t)
  | case2 t swept stays => exact refl t

end

theorem erased_sweep (t : Text) : erased (EmptyRuleset.sweep t) = erased t :=
  related_sweep (R := fun t u => erased t = erased u) (fun _ => rfl) (fun _ _ _ => Eq.trans)
    (fun _ _ after start vacant => (erased_vacancy start vacant after).symm) t

theorem length_pass_removal?_le (t : Text) : (Text.pass EmptyRuleset.removal? t).length ≤ t.length := by
  rcases pass_removal?_cases t with same | shorter
  · rw [same]
  · exact shorter.le

/-- A pass that leaves a text as it is finds nothing at its start, and leaves the rest as it is. -/
theorem of_pass_removal?_eq {c : Char} {t : Text}
    (same : Text.pass EmptyRuleset.removal? (c :: t) = c :: t) :
    (isTerminator c = true → EmptyRuleset.length? t = none) ∧ Text.pass EmptyRuleset.removal? t = t := by
  rw [pass_removal?_cons, List.cons.injEq] at same
  by_cases terminator : isTerminator c = true
  · rw [if_pos terminator] at same
    cases found : EmptyRuleset.length? t with
    | none =>
      rw [found] at same
      exact ⟨fun _ => rfl, same.2⟩
    | some n =>
      have fits := length?_bounds found
      have atMost := length_pass_removal?_le (t.drop n)
      rw [found, Option.getD_some] at same
      rw [same.2, List.length_drop] at atMost
      omega
  · rw [if_neg terminator] at same
    exact ⟨fun here => absurd here terminator, same.2⟩

/-- Where a text has a vacancy, a sweep shortens it. -/
theorem Vacancy.length_sweep_lt {t : Text} (vacancy : Vacancy t) : (EmptyRuleset.sweep t).length < t.length := by
  refine (sweep_cases t).resolve_left ?_
  intro same
  rw [sweep_eq] at same
  obtain ⟨before, ruleset, after, rfl, start, vacant⟩ := vacancy
  have found := (isVacant_iff_length? after).mp vacant
  cases first : EmptyRuleset.length? (before ++ ruleset ++ after) with
  | some n =>
    have fits := length?_bounds first
    have atMost := length_pass_removal?_le ((before ++ ruleset ++ after).drop n)
    rw [first, Option.getD_some] at same
    rw [same, List.length_drop] at atMost
    omega
  | none =>
    rw [first, Option.getD_none, List.drop_zero] at same
    -- A pass that changes nothing has found nothing behind any terminator.
    rcases List.eq_nil_or_concat before with rfl | ⟨before, c, rfl⟩
    · simp [found] at first
    · have terminator : isTerminator c = true := start c (by simp)
      have fixed : ∀ front, Text.pass EmptyRuleset.removal? (front ++ c :: (ruleset ++ after)) =
          front ++ c :: (ruleset ++ after) → EmptyRuleset.length? (ruleset ++ after) = none := by
        intro front same
        induction front with
        | nil => exact (of_pass_removal?_eq same).1 terminator
        | cons d front ih => exact ih (of_pass_removal?_eq same).2
      have none := fixed before (by simpa using same)
      simp [found] at none

theorem isEmpty_vacancy_of_not_lt {t : Text} (stays : ¬ (EmptyRuleset.sweep t).length < t.length) :
    IsEmpty (Vacancy t) :=
  ⟨fun vacancy => stays vacancy.length_sweep_lt⟩

/-- What all sweeps together leave is what is left when all vacancies are taken away at once. -/
theorem strip_eq_erased (t : Text) : EmptyRuleset.strip t = erased t := by
  fun_induction EmptyRuleset.strip t with
  | case1 t swept shorter ih => rw [ih, erased_sweep]
  | case2 t swept stays => rw [erased_of_isEmpty (isEmpty_vacancy_of_not_lt stays)]

theorem isEmpty_vacancy_strip (t : Text) : IsEmpty (Vacancy (EmptyRuleset.strip t)) := by
  fun_induction EmptyRuleset.strip t with
  | case1 t swept shorter ih => exact ih
  | case2 t swept stays => exact isEmpty_vacancy_of_not_lt stays

theorem strip_of_isEmpty {t : Text} (none : IsEmpty (Vacancy t)) : EmptyRuleset.strip t = t := by
  rw [strip_eq_erased, erased_of_isEmpty none]

/-- Sweeping comes to an end after at most as many sweeps as the text has characters. -/
theorem exists_sweeps (t : Text) : ∃ rounds ≤ t.length, EmptyRuleset.strip t = EmptyRuleset.sweep^[rounds] t := by
  fun_induction EmptyRuleset.strip t with
  | case1 t swept shorter ih =>
    obtain ⟨rounds, few, last⟩ := ih
    exact ⟨rounds + 1, by omega, last⟩
  | case2 t swept stays => exact ⟨0, Nat.zero_le _, rfl⟩

/-- Every sweep of a text that has a vacancy shortens it, and another one follows; so the sweeps come to an end.
    What they leave is the text without the characters of all its vacancies, taken away at once. It has no
    vacancy, so removing again changes nothing, and its braces are balanced if those of the text are. -/
theorem strip_erases_at_once (t : Text) :
    (∀ _vacancy : Vacancy t, (EmptyRuleset.sweep t).length < t.length ∧
        EmptyRuleset.strip t = EmptyRuleset.strip (EmptyRuleset.sweep t)) ∧
      (∃ rounds ≤ t.length, EmptyRuleset.strip t = EmptyRuleset.sweep^[rounds] t) ∧
      EmptyRuleset.strip t = erased t ∧
      IsEmpty (Vacancy (EmptyRuleset.strip t)) ∧
      EmptyRuleset.strip (EmptyRuleset.strip t) = EmptyRuleset.strip t ∧
      (Balanced t → Balanced (EmptyRuleset.strip t)) := by
  refine ⟨?_, exists_sweeps t, strip_eq_erased t, isEmpty_vacancy_strip t, ?_, Balanced.strip⟩
  · intro vacancy
    refine ⟨vacancy.length_sweep_lt, ?_⟩
    rw [strip_eq_erased, strip_eq_erased, erased_sweep]
  · exact strip_of_isEmpty (isEmpty_vacancy_strip t)

/-- Two empty rulesets that touch, of which a sweep takes one away. -/
theorem strip_erases_touching :
    Balanced ['a', '{', '}', 'b', '{', ' ', '}', 'c', '{', 'd', '}'] ∧
      EmptyRuleset.sweep ['a', '{', '}', 'b', '{', ' ', '}', 'c', '{', 'd', '}'] =
        ['b', '{', ' ', '}', 'c', '{', 'd', '}'] ∧
      EmptyRuleset.strip ['a', '{', '}', 'b', '{', ' ', '}', 'c', '{', 'd', '}'] = ['c', '{', 'd', '}'] ∧
      Balanced (EmptyRuleset.strip ['a', '{', '}', 'b', '{', ' ', '}', 'c', '{', 'd', '}']) := by
  obtain ⟨_, _, same, _, _, balanced⟩ :=
    strip_erases_at_once ['a', '{', '}', 'b', '{', ' ', '}', 'c', '{', 'd', '}']
  exact ⟨by decide, by decide, same.trans (by decide), balanced (by decide)⟩

end Stylepress.Css
