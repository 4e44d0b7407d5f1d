import Stylepress.Css.Spacing
import Stylepress.Css.Token
import Stylepress.Proofs.TextLaws

/-!
Tokens at the end of a text. `back?_eq_some_iff` says what a trailing token is; from it follow that
the token just written is the one read (`levelOf?_signed`), that nothing which ends with a token is
left by stripping (`not_token_suffix_strip`), and that stripping takes away nothing but blanks and
tokens (`exists_trailer`).
-/
namespace Stylepress.Css.Token

/-- A text from its end has a token at its head if, blanks aside, it starts with the reverse of one. -/
theorem back?_eq_some_iff {t before : Text} {d : Char} :
    back? t = some (d, before) ↔
      d.isDigit = true ∧ Text.trimStart t = (withDigit d).reverse ++ before := by
  have reversed : (withDigit d).reverse = '/' :: '*' :: d :: opener.reverse := by simp [withDigit, closer]
  rw [reversed]
  constructor
  · intro found
    unfold back? at found
    split at found
    · next e rest same =>
      split at found
      · next token =>
        rw [Bool.and_eq_true, List.isPrefixOf_iff_prefix] at token
        obtain ⟨digit, after, rfl⟩ := token
        obtain ⟨rfl, rfl⟩ : e = d ∧ (opener.reverse ++ after).drop opener.length = before := by
          simpa using found
        have dropped : (opener.reverse ++ after).drop opener.length = after := by
          rw [← List.length_reverse, List.drop_left]
        rw [dropped, same]
        exact ⟨digit, rfl⟩
      · cases found
    · cases found
  · rintro ⟨digit, same⟩
    have opened : opener.reverse.isPrefixOf (opener.reverse ++ before) = true := by
      rw [List.isPrefixOf_iff_prefix]
      exact List.prefix_append ..
    have dropped : (opener.reverse ++ before).drop opener.length = before := by
      rw [← List.length_reverse, List.drop_left]
    unfold back?
    rw [same]
    simp only [List.cons_append, digit, opened, dropped, Bool.and_true, if_true]

theorem isDigit_digit (level : Level) : level.digit.isDigit = true := by
  cases level <;> decide

theorem isBlank_slash : Text.isBlank '/' = false := by decide

theorem trimmed_ofLevel (level : Level) : Text.Trimmed (ofLevel level) := by
  constructor
  all_goals
    intro c member
    obtain rfl : '/' = c := Option.some.inj member
    exact isBlank_slash

/-- No token holds a brace or a semicolon. -/
theorem not_mem_of_isMark {c d : Char} (mark : Spacing.isMark c = true) (digit : d.isDigit = true) :
    c ∉ withDigit d := by
  have other : c ≠ d := by
    rintro rfl
    simp only [Spacing.isMark, Bool.or_eq_true, beq_iff_eq] at mark
    rcases mark with (rfl | rfl) | rfl <;> exact absurd digit (by decide)
  simp only [Spacing.isMark, Bool.or_eq_true, beq_iff_eq] at mark
  rcases mark with (rfl | rfl) | rfl <;> simp [withDigit, opener, closer, other]

/-- The token just written is the one read, blanks behind it or not. -/
theorem levelOf?_signed (r : Text) (level : Level) {blanks : Text}
    (blank : ∀ c ∈ blanks, Text.isBlank c = true) :
    levelOf? (r ++ ofLevel level ++ blanks) = some level := by
  have trimmed : Text.trimStart (blanks.reverse ++ ((ofLevel level).reverse ++ r.reverse)) =
      (ofLevel level).reverse ++ r.reverse := by
    refine Text.trimStart_append (by simpa using blank) ?_
    intro c member
    have first : c = '/' := by simpa [ofLevel, withDigit, closer, eq_comm] using member
    rw [first]
    exact isBlank_slash
  have found : back? (r ++ ofLevel level ++ blanks).reverse = some (level.digit, r.reverse) := by
    rw [back?_eq_some_iff]
    refine ⟨isDigit_digit level, ?_⟩
    rw [List.reverse_append, List.reverse_append, trimmed]
    rfl
  rw [levelOf?, found]
  exact Level.ofDigit?_digit level

/-- A text trimmed with a token behind it keeps the token and all that stands before it but for the
    blanks at its start. -/
theorem trim_signed (t : Text) (level : Level) :
    Text.trim (t ++ ofLevel level) = Text.trimStart t ++ ofLevel level := by
  have last : ∀ c ∈ (Text.trimStart t ++ ofLevel level).getLast?, Text.isBlank c = false := by
    intro c member
    rw [List.getLast?_append] at member
    obtain rfl : '/' = c := Option.some.inj member
    exact isBlank_slash
  rw [Text.trim, Text.trimStart_append_of_head t (trimmed_ofLevel level).head]
  have same := Text.trimEnd_append_of_last last []
  rwa [List.append_nil, show Text.trimEnd [] = [] from rfl, List.append_nil] at same

/-! ### Stripping -/

theorem stripBack_of_some {t before : Text} {d : Char} (found : back? t = some (d, before)) :
    stripBack t = stripBack before := by
  rw [stripBack]
  split
  · next e rest same =>
    rw [found] at same
    obtain ⟨_, rfl⟩ := Prod.mk.inj (Option.some.inj same)
    rfl
  · next none => simp [found] at none

theorem stripBack_of_none {t : Text} (none : back? t = none) : stripBack t = Text.trimStart t := by
  rw [stripBack]
  split
  · next found => simp [none] at found
  · rfl

/-- Nothing that ends with a token is left. -/
theorem not_token_stripBack (t : Text) {d : Char} (digit : d.isDigit = true) :
    ¬ (withDigit d).reverse <+: stripBack t := by
  induction t using stripBack.induct with
  | case1 t e before found ih => rwa [stripBack_of_some found]
  | case2 t none =>
    rw [stripBack_of_none none]
    rintro ⟨before, same⟩
    have found := back?_eq_some_iff.mpr ⟨digit, same.symm⟩
    simp [none] at found

theorem isBlank_head_stripBack (t : Text) : ∀ c ∈ (stripBack t).head?, Text.isBlank c = false := by
  induction t using stripBack.induct with
  | case1 t e before found ih => rwa [stripBack_of_some found]
  | case2 t none =>
    rw [stripBack_of_none none]
    intro c first
    have stops := List.head?_dropWhile_not Text.isBlank t
    rw [Text.trimStart] at first
    rw [Option.mem_def.mp first] at stops
    simpa using stops

/-- Blanks and tokens, with any digits, in any order. -/
inductive Trailer : Text → Prop where
  | nil : Trailer []
  | blank {q : Text} {c : Char} : Trailer q → Text.isBlank c = true → Trailer (q ++ [c])
  | token {q : Text} {d : Char} : Trailer q → d.isDigit = true → Trailer (q ++ withDigit d)

theorem Trailer.append_blanks {q w : Text} (trailer : Trailer q) (blank : ∀ c ∈ w, Text.isBlank c = true) :
    Trailer (q ++ w) := by
  induction w generalizing q with
  | nil => rwa [List.append_nil]
  | cons c w ih =>
    rw [List.forall_mem_cons] at blank
    have longer := ih (trailer.blank blank.1) blank.2
    rwa [List.append_assoc, List.singleton_append] at longer

/-- A trailer starts with a blank or with the slash of a token. -/
theorem Trailer.head {q : Text} (trailer : Trailer q) : ∀ c ∈ q.head?, Text.isBlank c = true ∨ c = '/' := by
  induction trailer with
  | nil => simp
  | @blank q e _ blank ih =>
    cases q with
    | nil => simpa using .inl blank
    | cons c q => simpa using ih
  | @token q d _ _ ih =>
    cases q with
    | nil => simp [withDigit, opener]
    | cons c q => simpa using ih

/-- What is taken away is, read backwards, a trailer. -/
theorem exists_trailer_stripBack (t : Text) : ∃ q, t = q.reverse ++ stripBack t ∧ Trailer q := by
  have blanks : ∀ t : Text, ∀ c ∈ (t.takeWhile Text.isBlank).reverse, Text.isBlank c = true := by
    intro t c member
    exact List.all_eq_true.mp List.all_takeWhile c (List.mem_reverse.mp member)
  induction t using stripBack.induct with
  | case1 t d before found ih =>
    obtain ⟨q, shape, trailer⟩ := ih
    obtain ⟨digit, same⟩ := back?_eq_some_iff.mp found
    refine ⟨q ++ withDigit d ++ (t.takeWhile Text.isBlank).reverse, ?_, (trailer.token digit).append_blanks (blanks t)⟩
    rw [stripBack_of_some found, List.reverse_append, List.reverse_append, List.reverse_reverse, List.append_assoc,
      List.append_assoc, ← shape, ← same, Text.trimStart, List.takeWhile_append_dropWhile]
  | case2 t none =>
    refine ⟨(t.takeWhile Text.isBlank).reverse, ?_, Trailer.nil.append_blanks (blanks t)⟩
    rw [stripBack_of_none none, List.reverse_reverse, Text.trimStart, List.takeWhile_append_dropWhile]

/-- Stripping stops at a character that no token holds. -/
theorem stripBack_append (t : Text) {m : Char} (solid : Text.isBlank m = false)
    (other : ∀ d, d.isDigit = true → m ∉ withDigit d) (rest : Text) :
    stripBack (t ++ m :: rest) = stripBack t ++ m :: rest := by
  have trimmed : ∀ u, Text.trimStart (u ++ m :: rest) = Text.trimStart u ++ m :: rest := fun u =>
    Text.trimStart_append_of_head u (by simpa using solid)
  induction t using stripBack.induct with
  | case1 t d before found ih =>
    obtain ⟨digit, same⟩ := back?_eq_some_iff.mp found
    have again : back? (t ++ m :: rest) = some (d, before ++ m :: rest) := by
      rw [back?_eq_some_iff, trimmed, same, List.append_assoc]
      exact ⟨digit, rfl⟩
    rw [stripBack_of_some again, ih, stripBack_of_some found]
  | case2 t none =>
    have noneAgain : back? (t ++ m :: rest) = Option.none := by
      rw [Option.eq_none_iff_forall_ne_some]
      rintro ⟨d, before⟩ found
      obtain ⟨digit, same⟩ := back?_eq_some_iff.mp found
      rw [trimmed, List.append_eq_append_iff] at same
      rcases same with ⟨more, token, behind⟩ | ⟨more, front, _⟩
      · cases more with
        | nil =>
          have here := back?_eq_some_iff.mpr ⟨digit, (by simpa using token.symm :
            Text.trimStart t = (withDigit d).reverse ++ [])⟩
          simp [none] at here
        | cons e more =>
          -- A token that reaches beyond `t` would hold `m`.
          obtain ⟨rfl, _⟩ := List.cons.inj behind
          refine other d digit ?_
          rw [← List.mem_reverse, token]
          simp
      · have here := back?_eq_some_iff.mpr ⟨digit, front⟩
        simp [none] at here
    rw [stripBack_of_none noneAgain, stripBack_of_none none, trimmed]

/-- A stripped text does not end with a token. -/
theorem not_token_suffix_strip (t : Text) {d : Char} (digit : d.isDigit = true) :
    ¬ withDigit d <:+ strip t := by
  rw [strip, ← List.reverse_prefix, List.reverse_reverse]
  exact not_token_stripBack t.reverse digit

/-- A stripped text does not end with a blank. -/
theorem isBlank_last_strip (t : Text) : ∀ c ∈ (strip t).getLast?, Text.isBlank c = false := by
  simpa [strip] using isBlank_head_stripBack t.reverse

/-- Stripping takes a trailer away. -/
theorem exists_trailer (t : Text) : ∃ q, t = strip t ++ q ∧ Trailer q := by
  obtain ⟨q, shape, trailer⟩ := exists_trailer_stripBack t.reverse
  refine ⟨q, ?_, trailer⟩
  have back := congrArg List.reverse shape
  rwa [List.reverse_reverse, List.reverse_append, List.reverse_reverse] at back

theorem strip_append_token (t : Text) {d : Char} (digit : d.isDigit = true) :
    strip (t ++ withDigit d) = strip t := by
  have found : back? (t ++ withDigit d).reverse = some (d, t.reverse) := by
    rw [back?_eq_some_iff, List.reverse_append]
    refine ⟨digit, Text.trimStart_append (List.forall_mem_nil _) ?_⟩
    intro c first
    obtain rfl : '/' = c := by simpa [withDigit, closer] using first
    exact isBlank_slash
  rw [strip, strip, stripBack_of_some found]

theorem strip_concat_blank (t : Text) {c : Char} (blank : Text.isBlank c = true) :
    strip (t ++ [c]) = strip t := by
  have trimmed : Text.trimStart (c :: t.reverse) = Text.trimStart t.reverse := List.dropWhile_cons_of_pos blank
  have same : back? (c :: t.reverse) = back? t.reverse := by rw [back?, back?, trimmed]
  rw [strip, strip, List.reverse_append, List.reverse_singleton, List.singleton_append]
  cases found : back? t.reverse with
  | some token => rw [stripBack_of_some (same.trans found), stripBack_of_some found]
  | none => rw [stripBack_of_none (same.trans found), stripBack_of_none found, trimmed]

/-- Stripping goes through a trailer to what stands before it. -/
theorem Trailer.strip_append {q : Text} (trailer : Trailer q) (t : Text) : strip (t ++ q) = strip t := by
  induction trailer with
  | nil => rw [List.append_nil]
  | blank _ blank ih => rw [← List.append_assoc, strip_concat_blank _ blank, ih]
  | token _ digit ih => rw [← List.append_assoc, strip_append_token _ digit, ih]

theorem strip_sublist (t : Text) : (strip t).Sublist t := by
  obtain ⟨q, shape, _⟩ := exists_trailer t
  have front := List.sublist_append_left (strip t) q
  rwa [← shape] at front

@[simp] theorem strip_nil : strip [] = [] := List.sublist_nil.mp (strip_sublist [])

/-- Stripping leaves a text alone up to a character that no token holds. -/
theorem strip_append (t : Text) {m : Char} (solid : Text.isBlank m = false)
    (other : ∀ d, d.isDigit = true → m ∉ withDigit d) (rest : Text) :
    strip (t ++ m :: rest) = t ++ m :: strip rest := by
  have same := stripBack_append rest.reverse solid other t.reverse
  rw [strip, strip]
  simp [same]

end Stylepress.Css.Token
