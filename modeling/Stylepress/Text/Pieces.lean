import Stylepress.Text.Blank

/-!
Cutting a text at a separator and joining it again. `pieces` cuts at every occurrence, so a text
with `n` separators has `n + 1` pieces, some of them perhaps empty; `splitFirst` cuts at the first
occurrence only. Joining the pieces with the separator gives the text back (`join_pieces`).
-/
namespace Stylepress.Text

/-- The stretches of `t` between the occurrences of `sep`. -/
def pieces (sep : Char) : Text → List Text
  | [] => [[]]
  | c :: rest =>
    if c = sep then [] :: pieces sep rest
    else
      match pieces sep rest with
      | [] => [[c]]
      | first :: others => (c :: first) :: others

/-- The texts one after the other with `sep` between neighbours. -/
def join (sep : Text) : List Text → Text
  | [] => []
  | [last] => last
  | first :: others => first ++ sep ++ join sep others

/-- The stretches before and after the first `sep`, if there is one. -/
def splitFirst (sep : Char) : Text → Option (Text × Text)
  | [] => none
  | c :: rest =>
    if c = sep then some ([], rest)
    else (splitFirst sep rest).map fun parts => (c :: parts.1, parts.2)

theorem pieces_ne_nil (sep : Char) (t : Text) : pieces sep t ≠ [] := by
  induction t with
  | nil => simp [pieces]
  | cons c rest ih =>
    unfold pieces
    split
    · simp
    · split <;> simp

/-- Joining the pieces of a text with their separator gives the text. -/
theorem join_pieces (sep : Char) (t : Text) : join [sep] (pieces sep t) = t := by
  induction t with
  | nil => simp [pieces, join]
  | cons c rest ih =>
    unfold pieces
    split
    · next same =>
      cases h : pieces sep rest with
      | nil => exact absurd h (pieces_ne_nil sep rest)
      | cons first others => simp [join, ← h, ih, same]
    · cases h : pieces sep rest with
      | nil => exact absurd h (pieces_ne_nil sep rest)
      | cons first others =>
        cases others with
        | nil => simp_all [join]
        | cons second more => simp_all [join]

end Stylepress.Text
