import Stylepress.Proofs.Signing

/-!
Reading, stripping and renewing the tokens at the end of a text. A text records a level exactly if it ends,
blanks aside, with the token of that level (`levelOf?_eq_some_iff`). Stripping takes one blank or token after
the other from the end, so what it leaves is the only front of the text that is bare and has nothing but
blanks and tokens behind it (`strip_eq_iff`). Combining only signs that front anew, and so forgets all
earlier runs (`trailing_tokens`).
-/
namespace Stylepress.Css

namespace Token

/-! ### Reading the level -/

theorem ofDigit?_eq_some_iff {d : Char} {level : Level} : Level.ofDigit? d = some level ↔ d = level.digit := by
  constructor
  · intro found
    have same := List.find?_some found
    exact (beq_iff_eq.mp same).symm
  · rintro rfl
    exact Level.ofDigit?_digit level

/-- A text records a level exactly if it ends with the token of that level and blanks. -/
theorem levelOf?_eq_some_iff {t : Text} {level : Level} :
    levelOf? t = some level ↔ ∃ u w, t = u ++ ofLevel level ++ w ∧ ∀ c ∈ w, Text.isBlank c = true := by
  constructor
  · intro found
    obtain ⟨⟨d, before⟩, token, digit⟩ := Option.bind_eq_some_iff.mp found
    obtain ⟨_, same⟩ := back?_eq_some_iff.mp token
    -- The token is read behind the run of blanks that the text begins with from its end.
    have spelled : t.reverse = t.reverse.takeWhile Text.isBlank ++ ((withDigit d).reverse ++ before) := by
      rw [← same, Text.trimStart, List.takeWhile_append_dropWhile]
    refine ⟨before.reverse, (t.reverse.takeWhile Text.isBlank).reverse, ?_, ?_⟩
    · have back := congrArg List.reverse spelled
      rw [List.reverse_reverse, List.reverse_append, List.reverse_append, List.reverse_reverse] at back
      rw [ofLevel, ← ofDigit?_eq_some_iff.mp digit]
      exact back
    · intro c member
      exact List.all_eq_true.mp List.all_takeWhile c (List.mem_reverse.mp member)
  · rintro ⟨u, w, rfl, blank⟩
    exact levelOf?_signed u level blank

/-! ### Stripping -/

/-- A text that ends neither with a blank nor with a token. -/
structure Bare (r : Text) : Prop where
  noBlank : ∀ c ∈ r.getLast?, Text.isBlank c = false
  noToken : ∀ d, d.isDigit = true → ¬ withDigit d <:+ r

theorem bare_strip (t : Text) : Bare (strip t) :=
  ⟨isBlank_last_strip t, fun _ => not_token_suffix_strip t⟩

theorem Bare.strip_eq {r : Text} (bare : Bare r) : strip r = r := by
  have whole : Text.trimEnd r = r := by
    have same := Text.trimEnd_append (List.forall_mem_nil _) bare.noBlank
    rwa [List.append_nil] at same
  have unsigned : Unsigned r := by
    rw [Unsigned, whole]
    exact bare.noToken
  rw [strip_of_unsigned unsigned, whole]

/-- What stripping leaves is the only bare front of a text that has nothing but a trailer behind it. -/
theorem strip_eq_iff {t r : Text} : strip t = r ↔ Bare r ∧ ∃ q, t = r ++ q ∧ Trailer q := by
  constructor
  · rintro rfl
    exact ⟨bare_strip t, exists_trailer t⟩
  · rintro ⟨bare, q, rfl, trailer⟩
    rw [trailer.strip_append, bare.strip_eq]

end Token

/-! ### Signing anew -/

theorem trailer_token (level : Level) : Token.Trailer (Token.ofLevel level) :=
  Token.Trailer.nil.token (Token.isDigit_digit level)

theorem trailer_line (level : Level) : Token.Trailer ('\n' :: Token.ofLevel level) :=
  (Token.Trailer.nil.blank (by decide)).token (Token.isDigit_digit level)

theorem sign_strip (css : Text) : sign (Token.strip css) = sign css := by
  rw [sign, sign, (Token.bare_strip css).strip_eq]

/-- Signing adds a trailer, so it leaves the same to be signed again. -/
theorem strip_sign (css : Text) : Token.strip (sign css) = Token.strip css := by
  rw [sign]
  by_cases none : Token.strip css = []
  · have gone := (trailer_token .off).strip_append []
    simpa [none] using gone
  · simp only [List.isEmpty_eq_false_iff.mpr none, Bool.false_eq_true, if_false]
    rw [(trailer_line .off).strip_append, (Token.bare_strip css).strip_eq]

theorem sign_sign (css : Text) : sign (sign css) = sign css := by
  rw [sign, strip_sign, ← sign]

theorem trimmed_strip {t : Text} (trimmed : Text.Trimmed t) : Text.Trimmed (Token.strip t) := by
  refine ⟨?_, Token.isBlank_last_strip t⟩
  intro c first
  obtain ⟨q, shape, _⟩ := Token.exists_trailer t
  refine trimmed.head c ?_
  rw [shape, List.head?_append, Option.mem_def.mp first]
  rfl

theorem trimmed_sign {css : Text} (trimmed : Text.Trimmed css) : Text.Trimmed (sign css) := by
  rw [sign]
  by_cases none : Token.strip css = []
  · simpa [none] using Token.trimmed_ofLevel .off
  · simp only [List.isEmpty_eq_false_iff.mpr none, Bool.false_eq_true, if_false]
    have signed := (trimmed_strip trimmed).append (Token.trimmed_ofLevel .off) none (by decide) ['\n']
    simpa using signed

theorem trimmed_minify (s : Text) (level : Level) : Text.Trimmed (minify s level) := by
  rw [minify]
  by_cases none : Text.trim s = []
  · simpa [none] using Text.trimmed_of_forall (List.forall_mem_nil _)
  · simp only [List.isEmpty_eq_false_iff.mpr none, Bool.false_eq_true, if_false]
    split
    · exact trimmed_sign (Text.trimmed_trim s)
    · exact Text.trimmed_trim _

/-- A trimmed text is only signed anew. -/
theorem minify_of_trimmed {t : Text} (trimmed : Text.Trimmed t) (some : t ≠ []) : minify t .off = sign t := by
  rw [minify, trimmed.trim_eq]
  simp [some]

theorem minify_minify_off (s : Text) : minify (minify s .off) .off = minify s .off := by
  by_cases none : Text.trim s = []
  · have nothing : minify s .off = [] := by simp [minify, none]
    rw [nothing]
    rfl
  · have signed : minify s .off = sign (Text.trim s) := by simp [minify, none]
    have some : sign (Text.trim s) ≠ [] := by
      rw [sign]
      split <;> simp [Token.ofLevel, Token.withDigit]
    rw [signed, minify_of_trimmed (trimmed_sign (Text.trimmed_trim s)) some, sign_sign]

/-- A text records a level exactly if it ends, blanks aside, with the token of that level, and stripping
    leaves the only bare front of it that has nothing but blanks and tokens behind it. So combining only
    signs that front of the source, gives the same for a pressed text with its token and without, and
    changes nothing the second time. -/
theorem trailing_tokens (s t : Text) :
    (∀ level, Token.levelOf? t = some level ↔
      ∃ u w, t = u ++ Token.ofLevel level ++ w ∧ ∀ c ∈ w, Text.isBlank c = true) ∧
      (∀ r, Token.strip t = r ↔ Token.Bare r ∧ ∃ q, t = r ++ q ∧ Token.Trailer q) ∧
      ((∃ c ∈ s, Text.isBlank c = false) →
        minify s .off =
          if Token.strip (Text.trim s) = [] then Token.ofLevel .off
          else Token.strip (Text.trim s) ++ '\n' :: Token.ofLevel .off) ∧
      (∀ level, Token.strip (minify s level) ≠ [] →
        minify (minify s level) .off = minify (Token.strip (minify s level)) .off) ∧
      minify (minify s .off) .off = minify s .off := by
  refine ⟨fun _ => Token.levelOf?_eq_some_iff, fun _ => Token.strip_eq_iff, ?_, ?_, minify_minify_off s⟩
  · rintro ⟨c, member, solid⟩
    have some : Text.trim s ≠ [] := by
      intro none
      rw [Text.trim_eq_nil_iff.mp none c member] at solid
      cases solid
    simp [minify, some, sign]
  · intro level left
    have some : minify s level ≠ [] := by
      intro none
      rw [none, Token.strip_nil] at left
      exact left rfl
    rw [minify_of_trimmed (trimmed_minify s level) some,
      minify_of_trimmed (trimmed_strip (trimmed_minify s level)) left, sign_strip]

/-- A ruleset with two tokens behind it, one of which records no level. -/
def signedTwice : Text :=
  ['a', '{', 'b', ':', 'c', '}'] ++ Token.withDigit '7' ++ [' '] ++ Token.withDigit '3' ++ ['\n']

theorem trailing_tokens_twice :
    (∃ c ∈ signedTwice, Text.isBlank c = false) ∧
      minify signedTwice .off = ['a', '{', 'b', ':', 'c', '}', '\n'] ++ Token.ofLevel .off ∧
      Token.strip (minify signedTwice .low) ≠ [] ∧
      minify (minify signedTwice .low) .off = minify (Token.strip (minify signedTwice .low)) .off := by
  have filled : ∃ c ∈ signedTwice, Text.isBlank c = false := ⟨'a', by decide, by decide⟩
  have left : Token.strip (minify signedTwice .low) ≠ [] := by decide +kernel
  have laws := trailing_tokens signedTwice signedTwice
  exact ⟨filled, (laws.2.2.1 filled).trans (by decide +kernel), left, laws.2.2.2.1 .low left⟩

end Stylepress.Css
