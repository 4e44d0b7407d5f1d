import Stylepress.Text.Blank

/-!
What a bundle demands of its files and how it is linked.
-/
namespace Stylepress

/-- The rules that a bundle is checked against and linked by. -/
structure Policy where
  /-- The media types that a source may have. -/
  mediaTypes : List String := ["text/css", "text/plain"]
  /-- The extension of every source and of the output. -/
  extension : Text := ['c', 's', 's']
  /-- Whether the sources are linked in place of the output. -/
  linksSources : Bool := false
  /-- Whether links carry the time, so that browsers fetch them anew. -/
  stampsLinks : Bool := false
deriving DecidableEq, Repr, Inhabited

def Policy.accepts (policy : Policy) (mediaType : String) : Bool :=
  policy.mediaTypes.contains mediaType

end Stylepress
