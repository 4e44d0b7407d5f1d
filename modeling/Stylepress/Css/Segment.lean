import Stylepress.Text.Pieces
import Stylepress.Text.Pass

/-!
Cutting a one-line stylesheet into lines: a line ends after `@charset`, `@import` and `@namespace`
statements, after every closing brace, and before every ruleset inside a block.
-/
namespace Stylepress.Css.Segment

/-- The names of the at-rules that are statements. -/
def statementNames : List Text :=
  [['c', 'h', 'a', 'r', 's', 'e', 't'], ['i', 'm', 'p', 'o', 'r', 't'],
    ['n', 'a', 'm', 'e', 's', 'p', 'a', 'c', 'e']]

/-- A statement at the head of the text, followed by a line end; one without its semicolon stays to
    the end of the text, where no other can end either. -/
def statement? : Text → Option Text.Edit
  | '@' :: rest =>
    match statementNames.find? (·.isPrefixOf rest) with
    | none => none
    | some name =>
      match Text.splitFirst ';' (rest.drop name.length) with
      | none => some ⟨rest.length, '@' :: rest⟩
      | some ([], _) => none
      | some (body, _) =>
        some ⟨name.length + body.length + 1, '@' :: name ++ body ++ [';', '\n']⟩
  | _ => none

def afterStatements (css : Text) : Text := Text.pass statement? css

def afterClosings : Text → Text
  | [] => []
  | c :: rest => if c = '}' then '}' :: '\n' :: afterClosings rest else c :: afterClosings rest

/-- One line with a line end after each opening brace that another one follows, not counting the
    character right behind it. -/
def nestLine : Text → Text
  | [] => []
  | [c] => [c]
  | c :: d :: rest =>
    if c = '{' then
      if rest.contains '{' then '{' :: '\n' :: d :: nestLine rest else c :: d :: rest
    else c :: nestLine (d :: rest)

/-- `css` with a line end before each ruleset inside a block. -/
def beforeNested (css : Text) : Text := Text.join ['\n'] ((Text.pieces '\n' css).map nestLine)

/-- `css` with each statement, block opening and ruleset on a line of its own. -/
def segment (css : Text) : Text := beforeNested (afterClosings (afterStatements css))

end Stylepress.Css.Segment
