import Stylepress.Text.Blank

/-!
The markup that links stylesheets, one line for each of them.
-/
namespace Stylepress.Web

/-- What is added to a linked path so that a browser fetches it anew. -/
def stampQuery : Option Nat → String
  | none => ""
  | some stamp => "?t=" ++ toString stamp

/-- The line that links one stylesheet. -/
def link (stamp : Option Nat) (path : Text) : String :=
  "<link href=\"" ++ String.ofList path ++ stampQuery stamp ++ "\" rel=\"stylesheet\">\n"

def links (stamp : Option Nat) (paths : List Text) : String :=
  String.join (paths.map (link stamp))

end Stylepress.Web
