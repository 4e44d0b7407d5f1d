import Stylepress.Text.Blank

/-!
White space outside of layout: line ends go, runs of horizontal space become one space, and no space
stays beside a brace or semicolon.
-/
namespace Stylepress.Css.Spacing

/-- The marks that need no space beside them. -/
def isMark (c : Char) : Bool := c == '{' || c == '}' || c == ';'

theorem isBlank_of_isMark {c : Char} (mark : isMark c = true) : Text.isBlank c = false := by
  simp only [isMark, Bool.or_eq_true, beq_iff_eq] at mark
  rcases mark with (rfl | rfl) | rfl <;> decide

/-- `css` on one line. -/
def joinLines (css : Text) : Text := css.filter fun c => !Text.isVertical c

/-- `css` with one space for every longest run of horizontal space. -/
def collapse : Text → Text
  | [] => []
  | c :: rest =>
    if Text.isHorizontal c then
      if rest.head?.any Text.isHorizontal then collapse rest else ' ' :: collapse rest
    else c :: collapse rest

/-- `css` without the spaces next to a mark; `afterMark` tells whether a mark stands before it. -/
def tightenFrom (afterMark : Bool) : Text → Text
  | [] => []
  | c :: rest =>
    if c = ' ' && (afterMark || rest.head?.any isMark) then tightenFrom false rest
    else c :: tightenFrom (isMark c) rest

def tighten (css : Text) : Text := tightenFrom false css

end Stylepress.Css.Spacing
