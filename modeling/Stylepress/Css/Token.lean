import Stylepress.Css.Level

/-!
The level token, a comment at the end of a pressed stylesheet that records the level it was pressed
at. Reading it back needs the end of the text only: `levelOf?` finds the level of a trailing token,
and `strip` takes all trailing tokens away, those whose digit is no level's among them.
-/
namespace Stylepress.Css.Token

/-- What stands before the digit of a token. -/
def opener : Text :=
  ['/', '*', 'l', 'm', 'd', 'c', 'r', 'u', 'n', 'c', 'h', 'c', 's', 's', '=']

def closer : Text := ['*', '/']

/-- A token with any character in the place of the digit. -/
def withDigit (d : Char) : Text := opener ++ d :: closer

def ofLevel (level : Level) : Text := withDigit level.digit

/-- The digit of a token at the end of a text that is given from its end, and the text before the
    token, from its end too; blanks may follow the token. -/
def back? (t : Text) : Option (Char × Text) :=
  match Text.trimStart t with
  | '/' :: '*' :: d :: rest =>
    if d.isDigit && opener.reverse.isPrefixOf rest then some (d, rest.drop opener.length) else none
  | _ => none

/-- The level that a token at the end of `t` records, if there is one and it records a level. -/
def levelOf? (t : Text) : Option Level := (back? t.reverse).bind fun found => Level.ofDigit? found.1

theorem length_lt_of_back? {t before : Text} {d : Char} (h : back? t = some (d, before)) :
    before.length < t.length := by
  unfold back? at h
  have shorter := (List.dropWhile_suffix (l := t) Text.isBlank).length_le
  split at h
  · next rest same =>
    split at h
    · obtain ⟨rfl, rfl⟩ : _ = d ∧ rest.drop opener.length = before := by simpa using h
      have count := congrArg List.length same
      simp only [Text.trimStart, List.length_cons] at count
      simp only [List.length_drop]
      omega
    · cases h
  · cases h

/-- A text that is given from its end, without its trailing tokens and the blanks around them. -/
def stripBack (t : Text) : Text :=
  match _h : back? t with
  | some (_, before) => stripBack before
  | none => Text.trimStart t
termination_by t.length
decreasing_by exact length_lt_of_back? _h

def strip (t : Text) : Text := (stripBack t.reverse).reverse

end Stylepress.Css.Token
