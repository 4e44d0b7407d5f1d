import Mathlib.Data.List.Chain
import Mathlib.Data.List.TakeWhile
import Stylepress.Text.Pass
import Stylepress.Text.Pieces

/-!
Laws of texts that the theory of stylesheets rests on: what trimming leaves of a text between blanks,
how a text with a known separator is cut, which characters a pass copies, and what it keeps of those
that it does not copy.
-/
namespace Stylepress.Text

/-! ### Trimming -/

/-- A text that neither starts nor ends with a blank. -/
structure Trimmed (t : Text) : Prop where
  head : ∀ c ∈ t.head?, isBlank c = false
  last : ∀ c ∈ t.getLast?, isBlank c = false

theorem dropEndWhile_append_run {p : Char → Bool} {run : Text} (inRun : ∀ c ∈ run, p c = true) (t : Text) :
    dropEndWhile p (t ++ run) = dropEndWhile p t := by
  have gone : (run.reverse ++ t.reverse).dropWhile p = t.reverse.dropWhile p :=
    List.dropWhile_append_of_pos (by simpa using inRun)
  rw [dropEndWhile, dropEndWhile, List.reverse_append, gone]

theorem dropEndWhile_eq_self {p : Char → Bool} {t : Text} (last : ∀ c ∈ t.getLast?, p c = false) :
    dropEndWhile p t = t := by
  have kept : t.reverse.dropWhile p = t.reverse := by
    cases same : t.reverse with
    | nil => rfl
    | cons c rest =>
      have atEnd : t.getLast? = some c := by rw [List.getLast?_eq_head?_reverse, same]; rfl
      rw [List.dropWhile_cons_of_neg]
      simp [last c (by simp [atEnd])]
  rw [dropEndWhile, kept, List.reverse_reverse]

theorem dropEndWhile_append {p : Char → Bool} {t run : Text} (inRun : ∀ c ∈ run, p c = true)
    (last : ∀ c ∈ t.getLast?, p c = false) : dropEndWhile p (t ++ run) = t := by
  rw [dropEndWhile_append_run inRun, dropEndWhile_eq_self last]

theorem exists_dropEndWhile (p : Char → Bool) (t : Text) :
    ∃ run, t = dropEndWhile p t ++ run ∧ ∀ c ∈ run, p c = true := by
  have ending := List.takeWhile_append_dropWhile (p := p) (l := t.reverse)
  refine ⟨(t.reverse.takeWhile p).reverse, ?_, ?_⟩
  · rw [dropEndWhile, ← List.reverse_append, ending, List.reverse_reverse]
  · intro c member
    exact List.all_eq_true.mp List.all_takeWhile c (List.mem_reverse.mp member)

theorem dropEndWhile_last (p : Char → Bool) (t : Text) : ∀ c ∈ (dropEndWhile p t).getLast?, p c = false := by
  intro c last
  rw [dropEndWhile, List.getLast?_reverse] at last
  have stops := List.head?_dropWhile_not p t.reverse
  rw [Option.mem_def.mp last] at stops
  simpa using stops

theorem dropEndWhile_sublist (p : Char → Bool) (t : Text) : (dropEndWhile p t).Sublist t := by
  rw [dropEndWhile, ← List.reverse_sublist, List.reverse_reverse]
  exact List.dropWhile_sublist p

/-- A text that does not end in a run lies before it. -/
theorem sublist_of_append {p : Char → Bool} {t u run : Text} (last : ∀ c ∈ t.getLast?, p c = false)
    (inRun : ∀ c ∈ run, p c = true) (sub : t.Sublist (u ++ run)) : t.Sublist u := by
  obtain ⟨front, ending, rfl, inFront, inEnding⟩ := List.sublist_append_iff.mp sub
  obtain rfl | ⟨more, c, rfl⟩ := List.eq_nil_or_concat ending
  · simpa using inFront
  · have stops : p c = false := last c (by simp)
    have goes : p c = true := inRun c (inEnding.subset (by simp))
    simp [stops] at goes

theorem sublist_dropEndWhile {p : Char → Bool} {t u : Text} (last : ∀ c ∈ t.getLast?, p c = false)
    (sub : t.Sublist u) : t.Sublist (dropEndWhile p u) := by
  obtain ⟨run, shape, inRun⟩ := exists_dropEndWhile p u
  rw [shape] at sub
  exact sublist_of_append last inRun sub

theorem dropEndWhile_map (p : Char → Bool) (f : Char → Char) (t : Text) :
    dropEndWhile p (t.map f) = (dropEndWhile (p ∘ f) t).map f := by
  rw [dropEndWhile, ← List.map_reverse, List.dropWhile_map, ← List.map_reverse]
  rfl

/-- Less of a text is less of it when both are trimmed at the end. -/
theorem trimEnd_sublist_trimEnd {t u : Text} (sub : t.Sublist u) : (trimEnd t).Sublist (trimEnd u) :=
  sublist_dropEndWhile (dropEndWhile_last _ t) ((dropEndWhile_sublist _ t).trans sub)

theorem trimEnd_append_sublist (a b : Text) : (trimEnd (a ++ b)).Sublist (a ++ trimEnd b) := by
  obtain ⟨run, shape, blank⟩ := exists_dropEndWhile isBlank b
  refine sublist_of_append (dropEndWhile_last isBlank (a ++ b)) blank ?_
  rw [List.append_assoc, trimEnd, trimEnd, ← shape]
  exact dropEndWhile_sublist _ _

theorem trimEnd_append {t blanks : Text} (blank : ∀ c ∈ blanks, isBlank c = true)
    (last : ∀ c ∈ t.getLast?, isBlank c = false) : trimEnd (t ++ blanks) = t :=
  dropEndWhile_append blank last

theorem trimStart_append {blanks t : Text} (blank : ∀ c ∈ blanks, isBlank c = true)
    (head : ∀ c ∈ t.head?, isBlank c = false) : trimStart (blanks ++ t) = t := by
  rw [trimStart, List.dropWhile_append_of_pos blank]
  cases t with
  | nil => rfl
  | cons c rest =>
    rw [List.dropWhile_cons_of_neg]
    simp [head c rfl]

/-- Blanks at the start of a text end before the first character that is none. -/
theorem trimStart_append_of_head (a : Text) {b : Text} (head : ∀ c ∈ b.head?, isBlank c = false) :
    trimStart (a ++ b) = trimStart a ++ b := by
  have kept : b.dropWhile isBlank = b := by
    exact trimStart_append (fun _ member => absurd member (List.not_mem_nil)) head
  rw [trimStart, trimStart, List.dropWhile_append]
  split
  · next none => rw [kept, List.isEmpty_iff.mp none, List.nil_append]
  · rfl

/-- Blanks at the end of a text start behind the last character that is none. -/
theorem trimEnd_append_of_last {a : Text} (last : ∀ c ∈ a.getLast?, isBlank c = false) (b : Text) :
    trimEnd (a ++ b) = a ++ trimEnd b := by
  have head : ∀ c ∈ a.reverse.head?, isBlank c = false := by simpa using last
  have same := trimStart_append_of_head b.reverse head
  rw [trimStart, trimStart] at same
  rw [trimEnd, dropEndWhile, List.reverse_append, same, List.reverse_append, List.reverse_reverse]
  rfl

/-- A text that is not blank keeps what follows it from being trimmed at the start. -/
theorem trimStart_append_of_filled {a : Text} (filled : ∃ c ∈ a, isBlank c = false) (b : Text) :
    trimStart (a ++ b) = trimStart a ++ b := by
  have some : ¬ (a.dropWhile isBlank).isEmpty = true := by
    rw [List.isEmpty_iff, List.dropWhile_eq_nil_iff]
    intro blank
    obtain ⟨c, member, solid⟩ := filled
    simp [blank c member] at solid
  rw [trimStart, trimStart, List.dropWhile_append, if_neg some]

theorem trimEnd_append_of_filled (a : Text) {b : Text} (filled : ∃ c ∈ b, isBlank c = false) :
    trimEnd (a ++ b) = a ++ trimEnd b := by
  have same := trimStart_append_of_filled (a := b.reverse) (by simpa using filled) a.reverse
  rw [trimStart, trimStart] at same
  rw [trimEnd, dropEndWhile, List.reverse_append, same, List.reverse_append, List.reverse_reverse]
  rfl

theorem trimEnd_cons (c : Char) (t : Text) :
    trimEnd (c :: t) = if (trimEnd t).isEmpty && isBlank c then [] else c :: trimEnd t := by
  rw [trimEnd, trimEnd, dropEndWhile, dropEndWhile, List.reverse_cons, List.dropWhile_append,
    List.isEmpty_reverse]
  cases none : (t.reverse.dropWhile isBlank).isEmpty with
  | false => simp
  | true => cases blank : isBlank c <;> simp [List.isEmpty_iff.mp none, blank]

/-- Trimming takes away exactly the blanks around a trimmed text. -/
theorem Trimmed.trim_between {t : Text} (trimmed : Trimmed t) {a b : Text}
    (left : ∀ c ∈ a, isBlank c = true) (right : ∀ c ∈ b, isBlank c = true) :
    trim (a ++ t ++ b) = t := by
  cases t with
  | nil =>
    have blank : ∀ c ∈ a ++ b, isBlank c = true := by
      intro c member
      rcases List.mem_append.mp member with inside | inside
      · exact left c inside
      · exact right c inside
    have gone : trimStart (a ++ b) = [] := by
      simpa using trimStart_append (t := []) blank (by simp)
    rw [List.append_nil, trim, gone]
    rfl
  | cons c rest =>
    have start : trimStart (a ++ (c :: rest ++ b)) = c :: rest ++ b :=
      trimStart_append left (by simpa using trimmed.head)
    rw [trim, List.append_assoc, start, trimEnd_append right trimmed.last]

theorem Trimmed.trim_eq {t : Text} (trimmed : Trimmed t) : trim t = t := by
  simpa using trimmed.trim_between (a := []) (b := []) (by simp) (by simp)

/-- A text between two trimmed ones that are not empty stays between them. -/
theorem Trimmed.append {a b : Text} (left : Trimmed a) (right : Trimmed b) (first : a ≠ [])
    (second : b ≠ []) (middle : Text) : Trimmed (a ++ middle ++ b) := by
  obtain ⟨c, rest, rfl⟩ := List.exists_cons_of_ne_nil first
  obtain ⟨front, d, rfl⟩ := List.eq_nil_or_concat b |>.resolve_left second
  refine ⟨by simpa using left.head, ?_⟩
  rw [List.concat_eq_append, ← List.append_assoc, List.getLast?_concat]
  simpa using right.last

theorem trimmed_of_forall {t : Text} (solid : ∀ c ∈ t, isBlank c = false) : Trimmed t :=
  ⟨fun c member => solid c (List.mem_of_mem_head? member),
    fun c member => solid c (List.mem_of_getLast? member)⟩

theorem trimmed_singleton {c : Char} (solid : isBlank c = false) : Trimmed [c] :=
  trimmed_of_forall (List.forall_mem_singleton.mpr solid)

/-- Only blanks are trimmed to nothing. -/
theorem trim_eq_nil_iff {t : Text} : trim t = [] ↔ ∀ c ∈ t, isBlank c = true := by
  constructor
  · intro gone
    have ended : (trimStart t).reverse.dropWhile isBlank = [] := by
      simpa [trim, trimEnd, dropEndWhile] using gone
    have blank : ∀ c ∈ trimStart t, isBlank c = true := by
      simpa [List.dropWhile_eq_nil_iff] using ended
    rw [← List.dropWhile_eq_nil_iff]
    cases start : t.dropWhile isBlank with
    | nil => rfl
    | cons c rest =>
      have stops := List.head?_dropWhile_not isBlank t
      simp only [start, List.head?_cons] at stops
      have also := blank c (by simp [trimStart, start])
      simp [also] at stops
  · intro blank
    rw [trim, trimStart, List.dropWhile_eq_nil_iff.mpr blank]
    rfl

/-- Trimming takes away blanks only. -/
theorem exists_blanks (t : Text) :
    ∃ a b, t = a ++ trim t ++ b ∧ (∀ c ∈ a, isBlank c = true) ∧ ∀ c ∈ b, isBlank c = true := by
  have start := List.takeWhile_append_dropWhile (p := isBlank) (l := t)
  obtain ⟨ending, shape, blank⟩ := exists_dropEndWhile isBlank (trimStart t)
  refine ⟨t.takeWhile isBlank, ending, ?_, List.all_eq_true.mp List.all_takeWhile, blank⟩
  rw [List.append_assoc, trim, trimEnd, ← shape]
  exact start.symm

/-- Trimming leaves a stretch of the text. -/
theorem exists_trim (t : Text) : ∃ a b, t = a ++ trim t ++ b := by
  obtain ⟨a, b, shape, _⟩ := exists_blanks t
  exact ⟨a, b, shape⟩

theorem trim_sublist (t : Text) : (trim t).Sublist t :=
  (dropEndWhile_sublist _ _).trans (List.dropWhile_sublist _)

theorem forall_mem_trim {P : Char → Prop} {t : Text} (each : ∀ c ∈ t, P c) : ∀ c ∈ trim t, P c := by
  obtain ⟨a, b, shape⟩ := exists_trim t
  rw [shape] at each
  exact fun c member => each c (by simp [member])

theorem trimmed_trim (t : Text) : Trimmed (trim t) := by
  have stops : ∀ u : Text, ∀ c ∈ (u.dropWhile isBlank).head?, isBlank c = false := by
    intro u c first
    have other := List.head?_dropWhile_not isBlank u
    rw [Option.mem_def.mp first] at other
    simpa using other
  constructor
  · intro c first
    obtain ⟨more, shape⟩ : trim t <+: trimStart t := by
      rw [trim, trimEnd, dropEndWhile, ← List.reverse_suffix, List.reverse_reverse]
      exact List.dropWhile_suffix _
    apply stops t c
    rw [← trimStart, ← shape, List.head?_append, Option.mem_def.mp first]
    rfl
  · intro c last
    apply stops (trimStart t).reverse c
    rwa [trim, trimEnd, dropEndWhile, List.getLast?_reverse] at last

/-- Blanks around a text are trimmed with it. -/
theorem trim_between (t : Text) {a b : Text} (left : ∀ c ∈ a, isBlank c = true)
    (right : ∀ c ∈ b, isBlank c = true) : trim (a ++ t ++ b) = trim t := by
  obtain ⟨before, after, shape, blankBefore, blankAfter⟩ := exists_blanks t
  have trimmed := trimmed_trim t
  have around := trimmed.trim_between (a := a ++ before) (b := after ++ b)
    (List.forall_mem_append.mpr ⟨left, blankBefore⟩) (List.forall_mem_append.mpr ⟨blankAfter, right⟩)
  have whole : a ++ t ++ b = a ++ before ++ trim t ++ (after ++ b) := by
    rw [congrArg (a ++ · ++ b) shape]
    simp
  rw [whole, around]

theorem filter_eq_nil_of_blank {p : Char → Bool} (solid : ∀ c, isBlank c = true → p c = false)
    {t : Text} (blank : ∀ c ∈ t, isBlank c = true) : t.filter p = [] := by
  rw [List.filter_eq_nil_iff]
  intro c member
  simp [solid c (blank c member)]

theorem filter_trimStart {p : Char → Bool} (solid : ∀ c, isBlank c = true → p c = false) (t : Text) :
    (trimStart t).filter p = t.filter p := by
  have start := List.takeWhile_append_dropWhile (p := isBlank) (l := t)
  have blank : ∀ c ∈ t.takeWhile isBlank, isBlank c = true := List.all_eq_true.mp List.all_takeWhile
  rw [← congrArg (List.filter p) start, List.filter_append, filter_eq_nil_of_blank solid blank]
  rfl

/-- Trimming keeps what is not blank. -/
theorem filter_trim {p : Char → Bool} (solid : ∀ c, isBlank c = true → p c = false) (t : Text) :
    (trim t).filter p = t.filter p := by
  obtain ⟨a, b, shape, blankA, blankB⟩ := exists_blanks t
  rw [congrArg (List.filter p) shape, List.filter_append, List.filter_append,
    filter_eq_nil_of_blank solid blankA, filter_eq_nil_of_blank solid blankB, List.nil_append,
    List.append_nil]

/-- Trimming leaves the last character that is not blank at the end. -/
theorem getLast?_trim (t : Text) : (trim t).getLast? = (t.filter fun c => !isBlank c).getLast? := by
  rw [← filter_trim (p := fun c => !isBlank c) (fun c blank => by simp [blank]) t]
  obtain none | ⟨front, c, shape⟩ := List.eq_nil_or_concat (trim t)
  · rw [none]
    rfl
  · have solid := (trimmed_trim t).last
    rw [shape, List.concat_eq_append] at solid ⊢
    have last : isBlank c = false := solid c (by simp)
    simp [last]

/-! ### Neighbours -/

/-- Two elements stand side by side nowhere if and only if no neighbours are these two. -/
theorem not_pair_iff {α : Type} {a b : α} {t : List α} :
    ¬ [a, b] <:+: t ↔ t.IsChain fun c d => ¬ (c = a ∧ d = b) := by
  rw [List.isChain_iff_forall_rel_of_append_cons_cons]
  constructor
  · rintro absent c d before after rfl ⟨rfl, rfl⟩
    exact absent ⟨before, after, by simp⟩
  · rintro pairs ⟨before, after, rfl⟩
    exact pairs (show _ = before ++ a :: b :: after by simp) ⟨rfl, rfl⟩

/-- Neighbours in a text that both pass a filter are neighbours in what the filter leaves. -/
theorem isChain_of_filter {R : Char → Char → Prop} {p : Char → Bool} {t : Text}
    (chain : (t.filter p).IsChain R) : t.IsChain fun c d => p c = true → p d = true → R c d := by
  induction t with
  | nil => exact .nil
  | cons c t ih =>
    refine List.isChain_cons.mpr ⟨?_, ih ?_⟩
    · intro d first here next
      obtain ⟨rest, rfl⟩ := List.head?_eq_some_iff.mp first
      rw [List.filter_cons_of_pos here, List.filter_cons_of_pos next] at chain
      exact (List.isChain_cons_cons.mp chain).1
    · rw [List.filter_cons] at chain
      split at chain
      · exact chain.tail
      · exact chain

/-! ### Cutting -/

theorem splitFirst_append {sep : Char} {before : Text} (absent : sep ∉ before) (after : Text) :
    splitFirst sep (before ++ sep :: after) = some (before, after) := by
  induction before with
  | nil => simp [splitFirst]
  | cons c rest ih =>
    have other : c ≠ sep := fun same => absent (by simp [same])
    have later : sep ∉ rest := fun member => absent (by simp [member])
    simp [splitFirst, other, ih later]

theorem splitFirst_eq_none_iff {sep : Char} {t : Text} : splitFirst sep t = none ↔ sep ∉ t := by
  constructor
  · intro none member
    obtain ⟨before, after, rfl, absent⟩ := List.eq_append_cons_of_mem member
    simp [splitFirst_append absent] at none
  · intro absent
    induction t with
    | nil => rfl
    | cons c t ih =>
      have other : c ≠ sep := fun same => absent (by simp [same])
      rw [splitFirst, if_neg other, ih fun member => absent (by simp [member])]
      rfl

theorem splitFirst_eq_some_iff {sep : Char} {t before after : Text} :
    splitFirst sep t = some (before, after) ↔ sep ∉ before ∧ t = before ++ sep :: after := by
  constructor
  · intro found
    have member : sep ∈ t := by
      by_contra absent
      simp [splitFirst_eq_none_iff.mpr absent] at found
    obtain ⟨a, b, rfl, absent⟩ := List.eq_append_cons_of_mem member
    obtain ⟨rfl, rfl⟩ : a = before ∧ b = after := by
      simpa [splitFirst_append absent] using found
    exact ⟨absent, rfl⟩
  · rintro ⟨absent, rfl⟩
    exact splitFirst_append absent after

theorem pieces_of_not_mem {sep : Char} {t : Text} (absent : sep ∉ t) : pieces sep t = [t] := by
  induction t with
  | nil => rfl
  | cons c rest ih =>
    have other : c ≠ sep := fun same => absent (by simp [same])
    have later : sep ∉ rest := fun member => absent (by simp [member])
    simp [pieces, other, ih later]

theorem pieces_append {sep : Char} {before : Text} (absent : sep ∉ before) (after : Text) :
    pieces sep (before ++ sep :: after) = before :: pieces sep after := by
  induction before with
  | nil => simp [pieces]
  | cons c rest ih =>
    have other : c ≠ sep := fun same => absent (by simp [same])
    have later : sep ∉ rest := fun member => absent (by simp [member])
    simp [pieces, other, ih later]

/-- A text without separators in front of another one joins its first piece. -/
theorem pieces_append_of_not_mem {sep : Char} {before : Text} (absent : sep ∉ before) {after : Text}
    {first : Text} {others : List Text} (cut : pieces sep after = first :: others) :
    pieces sep (before ++ after) = (before ++ first) :: others := by
  induction before with
  | nil => simpa using cut
  | cons c rest ih =>
    have other : c ≠ sep := fun same => absent (by simp [same])
    have later : sep ∉ rest := fun member => absent (by simp [member])
    simp [pieces, other, ih later]

theorem not_mem_of_mem_pieces {sep : Char} {t u : Text} (member : u ∈ pieces sep t) : sep ∉ u := by
  induction t generalizing u with
  | nil =>
    obtain rfl : u = [] := by simpa [pieces] using member
    simp
  | cons c t ih =>
    obtain ⟨first, others, cut⟩ := List.exists_cons_of_ne_nil (pieces_ne_nil sep t)
    rw [cut] at ih
    by_cases same : c = sep
    · rw [pieces, if_pos same, cut] at member
      rcases List.mem_cons.mp member with rfl | inside
      · simp
      · exact ih inside
    · simp only [pieces, if_neg same, cut] at member
      rcases List.mem_cons.mp member with rfl | inside
      · have absent := ih (u := first) (by simp)
        simp [Ne.symm same, absent]
      · exact ih (by simp [inside])

@[simp] theorem join_cons_cons (sep first second : Text) (others : List Text) :
    join sep (first :: second :: others) = first ++ sep ++ join sep (second :: others) := rfl

@[simp] theorem join_singleton (sep only : Text) : join sep [only] = only := rfl

/-- Joining is writing the separator in front of every text but the first. -/
theorem join_cons (sep first : Text) (others : List Text) :
    join sep (first :: others) = first ++ others.flatMap (sep ++ ·) := by
  induction others generalizing first with
  | nil => simp
  | cons second others ih => simp [ih]

/-- Joining shorter texts with a shorter separator. -/
theorem join_sublist {α : Type} {sep shortSep : Text} (inSep : shortSep.Sublist sep) {full short : α → Text}
    (inEach : ∀ a, (short a).Sublist (full a)) (first : α) (others : List α) :
    (join shortSep ((first :: others).map short)).Sublist (join sep ((first :: others).map full)) := by
  induction others generalizing first with
  | nil => exact inEach first
  | cons second others ih =>
    simp only [List.map_cons, join_cons_cons] at ih ⊢
    exact ((inEach first).append inSep).append (ih second)

theorem forall_mem_join {P : Char → Prop} {sep : Text} (inSep : ∀ c ∈ sep, P c) {ts : List Text}
    (each : ∀ t ∈ ts, ∀ c ∈ t, P c) : ∀ c ∈ join sep ts, P c := by
  fun_induction join sep ts with
  | case1 => exact List.forall_mem_nil _
  | case2 last => exact each last (by simp)
  | case3 first others _ ih =>
    obtain ⟨here, later⟩ := List.forall_mem_cons.mp each
    exact List.forall_mem_append.mpr ⟨List.forall_mem_append.mpr ⟨here, inSep⟩, ih later⟩

theorem exists_of_mem_join (sep : Text) {ts : List Text} {u : Text} (member : u ∈ ts) :
    ∃ a b, join sep ts = a ++ u ++ b := by
  cases ts with
  | nil => cases member
  | cons first others =>
    rw [join_cons]
    rcases List.mem_cons.mp member with rfl | inside
    · exact ⟨[], _, rfl⟩
    · obtain ⟨before, after, rfl⟩ := List.append_of_mem inside
      exact ⟨first ++ before.flatMap (sep ++ ·) ++ sep, after.flatMap (sep ++ ·), by simp⟩

/-- A piece is a stretch of the text. -/
theorem exists_of_mem_pieces {sep : Char} {t u : Text} (member : u ∈ pieces sep t) :
    ∃ a b, t = a ++ u ++ b := by
  obtain ⟨a, b, shape⟩ := exists_of_mem_join [sep] member
  exact ⟨a, b, by rw [← shape, join_pieces]⟩

/-- Texts without separators are the pieces of what joining them gives. -/
theorem pieces_join {sep : Char} {first : Text} {others : List Text}
    (absent : ∀ t ∈ first :: others, sep ∉ t) :
    pieces sep (join [sep] (first :: others)) = first :: others := by
  induction others generalizing first with
  | nil => exact pieces_of_not_mem (absent first (by simp))
  | cons second others ih =>
    have later := @ih second fun t member => absent t (by simp [member])
    rw [join_cons_cons, List.append_assoc, List.singleton_append,
      pieces_append (absent first (by simp)), later]

/-- An empty text at the end adds a separator. -/
theorem join_concat_nil (sep : Text) {ts : List Text} (filled : ts ≠ []) :
    join sep (ts ++ [[]]) = join sep ts ++ sep := by
  obtain ⟨first, others, rfl⟩ := List.exists_cons_of_ne_nil filled
  simp [join_cons]

/-- What follows joined texts can be taken to the last of them. -/
theorem join_concat_append (sep : Text) (ts : List Text) (last u : Text) :
    join sep (ts ++ [last ++ u]) = join sep (ts ++ [last]) ++ u := by
  cases ts with
  | nil => rfl
  | cons first others => simp [join_cons]

/-- Trimmed texts that are not empty give such a text when they are joined. -/
theorem trimmed_join {sep first : Text} {others : List Text}
    (parts : ∀ t ∈ first :: others, Trimmed t ∧ t ≠ []) :
    Trimmed (join sep (first :: others)) ∧ join sep (first :: others) ≠ [] := by
  induction others generalizing first with
  | nil => simpa using parts first (by simp)
  | cons second others ih =>
    obtain ⟨trimmed, filled⟩ := parts first (by simp)
    obtain ⟨laterTrimmed, laterFilled⟩ := @ih second fun t member => parts t (by simp [member])
    rw [join_cons_cons]
    exact ⟨trimmed.append laterTrimmed filled laterFilled sep, by simp [filled]⟩

/-- Lines that are each ended by a separator are joined by it, but for the last one. -/
theorem flatMap_concat_eq_join (sep first : Text) (others : List Text) :
    (first :: others).flatMap (· ++ sep) = join sep (first :: others) ++ sep := by
  induction others generalizing first with
  | nil => simp
  | cons second others ih =>
    rw [List.flatMap_cons, ih, join_cons_cons]
    simp

/-- Where two texts meet, the last piece of the one and the first piece of the other make one. -/
theorem exists_pieces_append (sep : Char) (t : Text) {u first : Text} {others : List Text}
    (cut : pieces sep u = first :: others) :
    ∃ front last, pieces sep t = front ++ [last] ∧
      pieces sep (t ++ u) = front ++ (last ++ first) :: others := by
  induction t with
  | nil => exact ⟨[], [], rfl, cut⟩
  | cons c t ih =>
    obtain ⟨front, last, cutLeft, cutBoth⟩ := ih
    by_cases same : c = sep
    · refine ⟨[] :: front, last, ?_, ?_⟩
      · rw [pieces, if_pos same, cutLeft, List.cons_append]
      · rw [List.cons_append, pieces, if_pos same, cutBoth, List.cons_append]
    · cases front with
      | nil =>
        refine ⟨[], c :: last, ?_, ?_⟩
        · simp [pieces, same, cutLeft]
        · simp [pieces, same, cutBoth]
      | cons piece front =>
        refine ⟨(c :: piece) :: front, last, ?_, ?_⟩
        · simp [pieces, same, cutLeft]
        · simp [pieces, same, cutBoth]

/-- The first piece reaches to the first separator. -/
theorem exists_pieces_takeWhile (sep : Char) (t : Text) :
    ∃ others, pieces sep t = t.takeWhile (· != sep) :: others := by
  induction t with
  | nil => exact ⟨[], rfl⟩
  | cons c t ih =>
    by_cases same : c = sep
    · refine ⟨pieces sep t, ?_⟩
      rw [pieces, if_pos same, List.takeWhile_cons_of_neg (by simpa using same)]
    · obtain ⟨others, cut⟩ := ih
      refine ⟨others, ?_⟩
      rw [pieces, if_neg same, cut, List.takeWhile_cons_of_pos (by simpa using same)]

/-- A separator cuts a text in two. -/
theorem pieces_append_cons (sep : Char) (t u : Text) :
    pieces sep (t ++ sep :: u) = pieces sep t ++ pieces sep u := by
  have cut : pieces sep (sep :: u) = [] :: pieces sep u := by rw [pieces, if_pos rfl]
  obtain ⟨front, last, cutLeft, cutBoth⟩ := exists_pieces_append sep t cut
  rw [cutBoth, cutLeft]
  simp

/-- A text without separators goes to the last piece of the one that it follows. -/
theorem pieces_append_right {sep : Char} {t line u : Text} {others : List Text}
    (cut : pieces sep t = others ++ [line]) (absent : sep ∉ u) :
    pieces sep (t ++ u) = others ++ [line ++ u] := by
  obtain ⟨front, last, cutLeft, cutBoth⟩ := exists_pieces_append sep t (pieces_of_not_mem absent)
  obtain ⟨rfl, same⟩ := List.append_inj' (cut.symm.trans cutLeft) rfl
  obtain rfl : line = last := by simpa using same
  exact cutBoth

/-- The pieces of joined texts are the pieces of each of them. -/
theorem pieces_join_flatMap {sep : Char} {ts : List Text} (filled : ts ≠ []) :
    pieces sep (join [sep] ts) = ts.flatMap (pieces sep) := by
  obtain ⟨first, others, rfl⟩ := List.exists_cons_of_ne_nil filled
  induction others generalizing first with
  | nil => simp
  | cons second others ih =>
    have later := ih second (by simp)
    have cut : pieces sep (sep :: join [sep] (second :: others)) =
        [] :: pieces sep (join [sep] (second :: others)) := by rw [pieces, if_pos rfl]
    obtain ⟨front, last, cutFirst, cutBoth⟩ := exists_pieces_append sep first cut
    rw [join_cons_cons, List.append_assoc, List.singleton_append, cutBoth, later,
      List.flatMap_cons (x := first), cutFirst]
    simp

/-- A piece stands before a separator or at the end of the text. -/
theorem exists_of_mem_pieces_or {sep : Char} {t u : Text} (member : u ∈ pieces sep t) :
    (∃ a, t = a ++ u) ∨ ∃ a b, t = a ++ u ++ sep :: b := by
  obtain ⟨before, after, cut⟩ := List.append_of_mem member
  have behind : (∃ a, t = a ++ (u ++ after.flatMap ([sep] ++ ·))) := by
    rw [← join_pieces sep t, cut]
    cases before with
    | nil => exact ⟨[], join_cons ..⟩
    | cons first before => exact ⟨first ++ before.flatMap ([sep] ++ ·) ++ [sep], by simp [join_cons]⟩
  obtain ⟨a, shape⟩ := behind
  cases after with
  | nil => exact .inl ⟨a, by simpa using shape⟩
  | cons next after => exact .inr ⟨a, next ++ after.flatMap ([sep] ++ ·), by simpa using shape⟩

/-- A character that a stretch of a text does not hold stands before the stretch or behind it. -/
theorem append_eq_append_cons_cases {c : Char} {a run b x y : Text} (absent : c ∉ run)
    (same : a ++ run ++ b = x ++ c :: y) :
    (∃ rest, a = x ++ c :: rest ∧ y = rest ++ run ++ b) ∨ ∃ front, x = a ++ run ++ front ∧ b = front ++ c :: y := by
  rcases List.append_eq_append_iff.mp same with ⟨front, before, behind⟩ | ⟨rest, before, behind⟩
  · exact .inr ⟨front, before, behind⟩
  · cases rest with
    | nil => exact .inr ⟨[], by simpa using before.symm, by simpa using behind.symm⟩
    | cons d rest =>
      obtain ⟨rfl, rfl⟩ := List.cons.inj behind
      rcases List.append_eq_append_iff.mp before with ⟨front, rfl, inRun⟩ | ⟨front, rfl, inRun⟩
      · exact absurd (by rw [inRun]; simp) absent
      · cases front with
        | nil => exact absurd (List.mem_of_mem_head? (congrArg List.head? inRun.symm)) absent
        | cons d front =>
          obtain ⟨rfl, rfl⟩ := List.cons.inj inRun
          exact .inl ⟨front, rfl, rfl⟩

/-! ### Characters in their places -/

/-- A text with each character written as `rule` says, which sees what stands before the character and behind
    it. -/
def inContext (rule : Text → Char → Text → Text) (before : Text) : Text → Text
  | [] => []
  | c :: rest => rule before c rest ++ inContext rule (before ++ [c]) rest

/-- A rewriting that does at every character what a rule says is the one that the rule describes. -/
theorem eq_inContext {rule : Text → Char → Text → Text} (write : Text → Text → Text)
    (nil : ∀ before, write before [] = [])
    (cons : ∀ before c rest, write before (c :: rest) = rule before c rest ++ write (before ++ [c]) rest)
    (before t : Text) : write before t = inContext rule before t := by
  induction t generalizing before with
  | nil => exact nil before
  | cons c rest ih => rw [cons, ih, inContext]

/-! ### Passes -/

/-- A pass copies characters at which it never finds a span. -/
theorem pass_append_of_forall {front : Text → Option Edit} {t : Text}
    (plain : ∀ c ∈ t, ∀ rest, front (c :: rest) = none) (rest : Text) :
    pass front (t ++ rest) = t ++ pass front rest := by
  induction t with
  | nil => rfl
  | cons c t ih =>
    have later := ih fun d member => plain d (by simp [member])
    rw [List.cons_append, pass_cons, plain c (by simp)]
    simp [later]

/-- A pass that finds no span anywhere changes nothing. -/
theorem pass_eq_self {front : Text → Option Edit} {t : Text}
    (none : ∀ before rest, t = before ++ rest → front rest = none) : pass front t = t := by
  induction t with
  | nil => rfl
  | cons c t ih =>
    have later := ih fun before rest same => none (c :: before) rest (by simp [same])
    rw [pass_cons, none [] (c :: t) rfl]
    simp [later]

/-- A pass replaces a span that it finds and goes on behind it. -/
theorem pass_append_of_some {front : Text → Option Edit} {span rest image : Text} {n : Nat}
    (found : front (span ++ rest) = some ⟨n, image⟩) (size : span.length = n + 1) :
    pass front (span ++ rest) = image ++ pass front rest := by
  cases span with
  | nil => cases size
  | cons c span =>
    have tail : n = span.length := by simpa using size.symm
    rw [List.cons_append] at found ⊢
    rw [pass_cons, found]
    simp [tail]

/-- Induction along a pass. -/
theorem pass_induction (front : Text → Option Edit) {motive : Text → Text → Prop} (nil : motive [] [])
    (copy : ∀ c rest, front (c :: rest) = none → motive rest (pass front rest) →
      motive (c :: rest) (c :: pass front rest))
    (replace : ∀ c rest edit, front (c :: rest) = some edit →
      motive (rest.drop edit.tail) (pass front (rest.drop edit.tail)) →
      motive (c :: rest) (edit.image ++ pass front (rest.drop edit.tail))) (t : Text) :
    motive t (pass front t) := by
  induction size : t.length using Nat.strong_induction_on generalizing t with
  | _ n ih =>
    cases t with
    | nil => exact nil
    | cons c rest =>
      rw [pass_cons]
      cases found : front (c :: rest) with
      | none => exact copy c rest found (ih rest.length (by simp [← size]) rest rfl)
      | some edit =>
        refine replace c rest edit found (ih _ ?_ _ rfl)
        rw [← size, List.length_drop, List.length_cons]
        omega

theorem take_succ_cons_append_drop (c : Char) (rest : Text) (n : Nat) :
    (c :: rest).take (n + 1) ++ rest.drop n = c :: rest := by
  rw [List.take_succ_cons, List.cons_append, List.take_append_drop]

/-- A pass that writes what it finds changes nothing. -/
theorem pass_eq_self_of_image {front : Text → Option Edit} {t : Text}
    (same : ∀ before rest edit, t = before ++ rest → front rest = some edit →
      edit.image = rest.take (edit.tail + 1)) : pass front t = t := by
  induction t using pass_induction front with
  | nil => rfl
  | copy c rest none ih =>
    rw [ih fun before later edit shape => same (c :: before) later edit (by rw [shape]; rfl)]
  | replace c rest edit found ih =>
    have whole := take_succ_cons_append_drop c rest edit.tail
    have later : pass front (rest.drop edit.tail) = rest.drop edit.tail := by
      refine ih fun before more other shape => ?_
      refine same ((c :: rest).take (edit.tail + 1) ++ before) more other ?_
      rw [List.append_assoc, ← shape, whole]
    rw [same [] (c :: rest) edit rfl found, later, whole]

/-- A pass takes characters away if each replacement does. -/
theorem pass_sublist {front : Text → Option Edit}
    (shrinks : ∀ t edit, front t = some edit → edit.image.Sublist (t.take (edit.tail + 1))) (t : Text) :
    (pass front t).Sublist t := by
  induction t using pass_induction front with
  | nil => exact List.Sublist.refl []
  | copy c rest none ih => exact ih.cons_cons c
  | replace c rest edit found ih =>
    rw [← take_succ_cons_append_drop c rest edit.tail]
    exact (shrinks _ _ found).append ih

/-- What holds of all characters of a text holds of all that a pass leaves, if it holds of all that each
    replacement writes. -/
theorem forall_mem_pass {P : Char → Prop} {front : Text → Option Edit}
    (writes : ∀ t edit, front t = some edit → (∀ c ∈ t, P c) → ∀ c ∈ edit.image, P c) {t : Text}
    (each : ∀ c ∈ t, P c) : ∀ c ∈ pass front t, P c := by
  induction t using pass_induction front with
  | nil => exact each
  | copy c rest none ih =>
    obtain ⟨here, later⟩ := List.forall_mem_cons.mp each
    exact List.forall_mem_cons.mpr ⟨here, ih later⟩
  | replace c rest edit found ih =>
    refine List.forall_mem_append.mpr ⟨writes _ _ found each, ih ?_⟩
    exact fun d member => each d (List.mem_cons_of_mem c (List.mem_of_mem_drop member))

/-- A pass keeps the characters that each replacement keeps. -/
theorem filter_pass {p : Char → Bool} {front : Text → Option Edit}
    (keeps : ∀ t edit, front t = some edit →
      edit.image.filter p = (t.take (edit.tail + 1)).filter p) (t : Text) :
    (pass front t).filter p = t.filter p := by
  induction t using pass_induction front with
  | nil => rfl
  | copy c rest none ih => rw [List.filter_cons, List.filter_cons, ih]
  | replace c rest edit found ih =>
    rw [List.filter_append, keeps _ _ found, ih, ← List.filter_append, take_succ_cons_append_drop]

/-- A scan of a text reads the same over a pass whose replacements read as what they replace. -/
theorem foldlM_pass {σ : Type} {step : σ → Char → Option σ} {front : Text → Option Edit}
    (keeps : ∀ t edit s r, front t = some edit →
      (t.take (edit.tail + 1)).foldlM step s = some r → edit.image.foldlM step s = some r)
    {t : Text} {s r : σ} (scanned : t.foldlM step s = some r) :
    (pass front t).foldlM step s = some r := by
  induction t using pass_induction front generalizing s with
  | nil => exact scanned
  | copy c rest none ih =>
    rw [List.foldlM_cons] at scanned ⊢
    obtain ⟨next, here, later⟩ := Option.bind_eq_some_iff.mp scanned
    exact Option.bind_eq_some_iff.mpr ⟨next, here, ih later⟩
  | replace c rest edit found ih =>
    rw [← take_succ_cons_append_drop c rest edit.tail, List.foldlM_append] at scanned
    obtain ⟨next, here, later⟩ := Option.bind_eq_some_iff.mp scanned
    rw [List.foldlM_append]
    exact Option.bind_eq_some_iff.mpr ⟨next, keeps _ _ _ _ found here, ih later⟩

end Stylepress.Text
