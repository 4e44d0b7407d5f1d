import Stylepress.Manifest.Toml.Quoted

/-!
The pieces of a document. Cutting a text into tokens settles strings, comments and line ends; it ends
because behind every token the text is shorter (`length_lt_of_token?`).
-/
namespace Stylepress.Toml

/-- A piece of a document. -/
inductive Token where
  /-- The end of a line. -/
  | lineEnd
  | equals
  | comma
  | openBracket
  | closeBracket
  /-- A string; one in triple quotes is `long`. -/
  | string (long : Bool) (text : Text)
  /-- A bare key, number or boolean. -/
  | word (text : Text)
deriving DecidableEq, Repr

/-- A string at the head of the text, whose first character is a quote. -/
def string? : Text → Option (Token × Text)
  | '"' :: rest =>
    if startsTriple '"' ('"' :: rest) then
      (longBasic? .plain (dropLineEnd (rest.drop 2))).map fun parts => (.string true parts.1, parts.2)
    else (basic? .plain rest).map fun parts => (.string false parts.1, parts.2)
  | '\x27' :: rest =>
    if startsTriple '\x27' ('\x27' :: rest) then
      (longLiteral? (dropLineEnd (rest.drop 2))).map fun parts => (.string true parts.1, parts.2)
    else (literal? rest).map fun parts => (.string false parts.1, parts.2)
  | _ => none

/-- The first token of a text that starts with none of the blanks that stand between tokens. -/
def token? : Text → Option (Token × Text)
  | [] => none
  | '\n' :: rest => some (.lineEnd, rest)
  | '\r' :: '\n' :: rest => some (.lineEnd, rest)
  | '=' :: rest => some (.equals, rest)
  | ',' :: rest => some (.comma, rest)
  | '[' :: rest => some (.openBracket, rest)
  | ']' :: rest => some (.closeBracket, rest)
  | c :: rest =>
    if isWord c then some (.word (c :: rest.takeWhile isWord), rest.dropWhile isWord)
    else string? (c :: rest)

/-- `t` without the blanks and the comment that it may start with. -/
def skip (t : Text) : Text :=
  match t.dropWhile fun c => c == ' ' || c == '\t' with
  | '#' :: rest => rest.dropWhile isPlain
  | rest => rest

theorem length_lt_of_string? {t behind : Text} {token : Token}
    (h : string? t = some (token, behind)) : behind.length < t.length := by
  unfold string? at h
  split at h
  · next rest =>
    have shorter := length_dropLineEnd_le (rest.drop 2)
    split at h <;> obtain ⟨⟨s, r⟩, found, same⟩ := Option.map_eq_some_iff.1 h <;> cases same
    · have ends := length_lt_of_longBasic? found
      simp only [List.length_drop, List.length_cons] at *
      omega
    · have ends := length_lt_of_basic? found
      simp only [List.length_cons]
      omega
  · next rest =>
    have shorter := length_dropLineEnd_le (rest.drop 2)
    split at h <;> obtain ⟨⟨s, r⟩, found, same⟩ := Option.map_eq_some_iff.1 h <;> cases same
    · have ends := length_lt_of_longLiteral? found
      simp only [List.length_drop, List.length_cons] at *
      omega
    · have ends := length_lt_of_literal? found
      simp only [List.length_cons]
      omega
  · cases h

theorem length_lt_of_token? {t behind : Text} {token : Token}
    (h : token? t = some (token, behind)) : behind.length < t.length := by
  unfold token? at h
  split at h <;> try grind
  next c rest _ _ _ _ _ _ =>
  have word := (List.dropWhile_suffix (l := rest) isWord).length_le
  split at h
  · cases h
    simp only [List.length_cons]
    omega
  · exact length_lt_of_string? h

theorem length_skip_le (t : Text) : (skip t).length ≤ t.length := by
  have blanks := (List.dropWhile_suffix (l := t) fun c => c == ' ' || c == '\t').length_le
  unfold skip
  split
  · next rest same =>
    have comment := (List.dropWhile_suffix (l := rest) isPlain).length_le
    rw [same, List.length_cons] at blanks
    omega
  · exact blanks

/-- The tokens of a text; none if some of it is no token. -/
def tokens? (t : Text) : Option (List Token) :=
  if (skip t).isEmpty then some []
  else
    match _h : token? (skip t) with
    | none => none
    | some (token, behind) => (tokens? behind).map (token :: ·)
termination_by t.length
decreasing_by exact Nat.lt_of_lt_of_le (length_lt_of_token? _h) (length_skip_le t)

end Stylepress.Toml
