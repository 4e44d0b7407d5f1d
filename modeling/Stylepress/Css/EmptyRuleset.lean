import Stylepress.Text.Pass

/-!
Rulesets with nothing but blanks between their braces. A ruleset is seen only at the start of the
text or after a terminator, a closing brace or semicolon; its prelude is not empty and holds no brace
and no semicolon. One sweep removes the empty rulesets that do not touch, because a removed ruleset
takes its closing brace along; sweeping goes on until a sweep removes nothing.
-/
namespace Stylepress.Css.EmptyRuleset

/-- The characters after which a ruleset may start. -/
def isTerminator (c : Char) : Bool := c == ';' || c == '}'

def isPrelude (c : Char) : Bool := !(c == '{' || c == '}' || c == ';')

/-- The length of an empty ruleset at the head of the text. -/
def length? (t : Text) : Option Nat :=
  let prelude := t.takeWhile isPrelude
  match t.dropWhile isPrelude with
  | '{' :: body =>
    match body.dropWhile Text.isBlank with
    | '}' :: _ =>
      if prelude.isEmpty then none
      else some (prelude.length + 1 + (body.takeWhile Text.isBlank).length + 1)
    | _ => none
  | _ => none

/-- The removal of an empty ruleset right behind the terminator at the head of the text, which
    stays. -/
def removal? : Text → Option Text.Edit
  | [] => none
  | c :: rest => if isTerminator c then (length? rest).map fun n => ⟨n, [c]⟩ else none

/-- One pass that removes empty rulesets, first one at the start of the text. -/
def sweep (css : Text) : Text :=
  match length? css with
  | some n => Text.pass removal? (css.drop n)
  | none => Text.pass removal? css

/-- `css` swept until nothing is removed any more. -/
def strip (css : Text) : Text :=
  let swept := sweep css
  if _shorter : swept.length < css.length then strip swept else css
termination_by css.length

end Stylepress.Css.EmptyRuleset
