import Stylepress.Text.Pass

/-!
Comments. A comment runs from `/*` to the nearest `*/` behind it; a `/*` that nothing closes is
ordinary text, and so is all that follows it, because nothing closes a later `/*` either.
-/
namespace Stylepress.Css.Comment

/-- How many characters the text has up to the end of its first `*/`. -/
def closeLength? : Text → Option Nat
  | [] => none
  | '*' :: '/' :: _ => some 2
  | _ :: rest => (closeLength? rest).map (· + 1)

/-- The removal of a comment at the head of the text; one that nothing closes stays to the end. -/
def removal? : Text → Option Text.Edit
  | '/' :: '*' :: rest =>
    match closeLength? rest with
    | some n => some ⟨n + 1, []⟩
    | none => some ⟨rest.length + 1, '/' :: '*' :: rest⟩
  | _ => none

def strip (css : Text) : Text := Text.pass removal? css

end Stylepress.Css.Comment
