import Stylepress.Text.Pieces

/-!
The shapes of a line of a segmented stylesheet: one that leaves a block, a statement, the opening of
a block, a ruleset with both its braces, or a stray line of none of these shapes.
-/
namespace Stylepress.Css

/-- A line by its shape. -/
inductive Line where
  /-- Starts with a closing brace. -/
  | leaving (text : Text)
  /-- Ends with a semicolon. -/
  | statement (text : Text)
  /-- Ends with an opening brace; `header` stands before the braces at the end. -/
  | opening (header : Text)
  /-- Selectors before the first `{`, and declarations between it and the final `}`. -/
  | ruleset (selectors declarations : Text)
  /-- Anything else. -/
  | stray (text : Text)
deriving DecidableEq, Repr

namespace Line

/-- The selectors and declarations of a line that is a ruleset: neither is empty, the selectors hold
    no `{` and the declarations no `}`. -/
def ruleset? (t : Text) : Option (Text × Text) :=
  match Text.splitFirst '{' t with
  | none => none
  | some (selectors, body) =>
    match Text.splitFirst '}' body with
    | some (declarations, []) =>
      if selectors.isEmpty || declarations.isEmpty then none else some (selectors, declarations)
    | _ => none

/-- The shape of a line without blanks at its ends. -/
def classify (t : Text) : Line :=
  if t.startsWith '}' then .leaving t
  else if t.endsWith ';' then .statement t
  else if t.endsWith '{' then .opening (Text.dropEndWhile (· == '{') t)
  else
    match ruleset? t with
    | some (selectors, declarations) => .ruleset selectors declarations
    | none => .stray t

/-- The depth at which a line stands, one less than before it if it leaves a block. -/
def depthAt (depth : Int) : Line → Int
  | .leaving _ => depth - 1
  | _ => depth

/-- The depth behind a line that comes at some depth. -/
def depthAfter (depth : Int) : Line → Int
  | .leaving _ => depth - 1
  | .opening _ => depth + 1
  | _ => depth

end Line

end Stylepress.Css
