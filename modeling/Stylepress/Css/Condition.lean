import Stylepress.Text.Pass
import Stylepress.Text.Pieces

/-!
Feature conditions in the header of a block, such as `(min-width: 600px)`. A condition is an opening
parenthesis, a feature that holds neither colon nor blank, a colon with blanks around it, and a value
up to the next closing parenthesis; a value of blanks only counts as its last blank. A blank before
and a blank after belong to it too and are written anew.
-/
namespace Stylepress.Css

/-- A feature and the value asked of it. -/
structure Condition where
  feature : Text
  value : Text
deriving DecidableEq, Repr

namespace Condition

def isFeature (c : Char) : Bool := c != ':' && !Text.isBlank c

/-- What stands behind an opening parenthesis. -/
inductive Opened where
  /-- A condition whose text, with its closing parenthesis, has `length` characters. -/
  | condition (condition : Condition) (length : Nat)
  /-- A feature that is asked no value. -/
  | feature (feature : Text)
  /-- No feature. -/
  | bare
  /-- A feature and a colon, and no closing parenthesis up to the end of the text. -/
  | unclosed
deriving DecidableEq, Repr

/-- Reads the text behind an opening parenthesis. -/
def read (t : Text) : Opened :=
  let feature := t.takeWhile isFeature
  let gap := (t.drop feature.length).takeWhile Text.isBlank
  if feature.isEmpty then .bare
  else
    match t.drop (feature.length + gap.length) with
    | ':' :: rest =>
      let blanks := rest.takeWhile Text.isBlank
      match Text.splitFirst ')' (rest.drop blanks.length) with
      | none => .unclosed
      | some (word, _) =>
        let value := if word.isEmpty then blanks.getLast?.toList else word
        if value.isEmpty then .feature feature
        else
          .condition ⟨feature, value⟩
            (feature.length + gap.length + 1 + blanks.length + word.length + 1)
    | _ => .feature feature

/-- A condition with one space on either side and `space` behind its colon. -/
def write (space : Text) (condition : Condition) : Text :=
  [' ', '('] ++ condition.feature ++ ':' :: space ++ condition.value ++ [')', ' ']

/-- The one blank that a text may start with. -/
def firstBlank : Text → Text
  | [] => []
  | c :: _ => if Text.isBlank c then [c] else []

/-- The respacing of a condition at the head of the text. A feature that is asked no value stays, with
    each parenthesis in it; behind a condition that is not closed no other one is, so all of it stays. -/
def respacing? (space : Text) (t : Text) : Option Text.Edit :=
  let lead := firstBlank t
  match t.drop lead.length with
  | '(' :: rest =>
    match read rest with
    | .condition condition length =>
      some ⟨lead.length + length + (firstBlank (rest.drop length)).length, condition.write space⟩
    | .feature feature => some ⟨lead.length + feature.length, lead ++ '(' :: feature⟩
    | .bare => none
    | .unclosed => some ⟨lead.length + rest.length, t⟩
  | _ => none

/-- A header with `space` behind the colon of every condition. -/
def respace (space : Text) (header : Text) : Text := Text.pass (respacing? space) header

end Condition

end Stylepress.Css
