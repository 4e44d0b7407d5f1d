import Stylepress.Css.Level

/-!
The semicolon before a closing brace. Above `low` it is dropped; up to `low` a missing one is written,
so that every declaration ends with its own.
-/
namespace Stylepress.Css.Semicolon

/-- `css` with `}` for every `;}`. -/
def drop : Text → Text
  | [] => []
  | ';' :: '}' :: rest => '}' :: drop rest
  | c :: rest => c :: drop rest

/-- `css` with a semicolon before each closing brace that follows neither a semicolon nor a closing
    brace; `ended` tells whether one of the two stands before it. -/
def restoreFrom (ended : Bool) : Text → Text
  | [] => []
  | c :: rest =>
    if c = '}' then
      if ended then '}' :: restoreFrom true rest else ';' :: '}' :: restoreFrom true rest
    else c :: restoreFrom (c == ';') rest

def restore (css : Text) : Text := restoreFrom false css

/-- The semicolons before closing braces as `level` wants them. -/
def settle (level : Level) (css : Text) : Text :=
  if level.keepsLastSemicolon then restore css else drop css

end Stylepress.Css.Semicolon
