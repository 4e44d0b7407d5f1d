import Stylepress.Css.Comment
import Stylepress.Css.EmptyRuleset
import Stylepress.Css.Layout
import Stylepress.Css.Segment
import Stylepress.Css.Semicolon
import Stylepress.Css.Spacing
import Stylepress.Css.Token

/-!
Pressing a stylesheet. `clean` removes what no level keeps, `segmented` puts each statement, opening
and ruleset on its own line, `layout` lays these lines out, and `minify` signs the result with the
level's token. At `off` the text is only trimmed and signed anew.
-/
namespace Stylepress.Css

/-- `css` without comments, empty rulesets and needless white space. -/
def clean (css : Text) : Text :=
  Spacing.tighten (Spacing.collapse (Spacing.joinLines (EmptyRuleset.strip (Comment.strip css))))

/-- The lines of `css`, with its semicolons as `level` wants them. -/
def segmented (level : Level) (css : Text) : Text :=
  Segment.segment (Semicolon.settle level (clean css))

/-- The lines of a segmented stylesheet laid out for a level. -/
def layoutOf (level : Level) (segmented : Text) : Layout :=
  Layout.ofLines level (Text.pieces '\n' (Text.trim segmented))

def layout (level : Level) (css : Text) : Layout := layoutOf level (segmented level css)

/-- A text that is not empty and has no blanks at its ends, signed as only combined. -/
def sign (css : Text) : Text :=
  let body := Token.strip css
  if body.isEmpty then Token.ofLevel .off else body ++ '\n' :: Token.ofLevel .off

/-- A stylesheet pressed at a level; a blank one gives an empty text. -/
def minify (source : Text) (level : Level) : Text :=
  let css := Text.trim source
  if css.isEmpty then []
  else if level = .off then sign css
  else Text.trim ((layout level css).output ++ Token.ofLevel level)

end Stylepress.Css
