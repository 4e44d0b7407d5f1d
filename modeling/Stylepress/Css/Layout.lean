import Stylepress.Css.Condition
import Stylepress.Css.Level
import Stylepress.Css.Line

/-!
Laying the lines of a stylesheet out for a level. Only the nesting depth is carried from line to line,
and the indentation is a function of it; on unbalanced input the depth may be negative. Stray lines
are left out and counted.
-/
namespace Stylepress.Css

/-- Lines laid out. -/
structure Layout where
  /-- How many blocks are open behind the lines; below zero if more were left than opened. -/
  depth : Int
  /-- How many stray lines were left out. -/
  skipped : Nat
  /-- The lines written. -/
  output : Text
deriving DecidableEq, Repr

namespace Layout

/-- The indentation at a depth: none below zero. -/
def tabs (depth : Int) : Text := List.replicate depth.toNat '\t'

theorem not_mem_tabs {c : Char} (other : c ≠ '\t') (depth : Int) : c ∉ tabs depth :=
  fun member => other (List.eq_of_mem_replicate member)

/-- A comma at the head of the text with at most one space on either side, written with `space`
    behind it. -/
def comma? (space : Text) : Text → Option Text.Edit
  | ',' :: ' ' :: _ => some ⟨1, ',' :: space⟩
  | ',' :: _ => some ⟨0, ',' :: space⟩
  | ' ' :: ',' :: ' ' :: _ => some ⟨2, ',' :: space⟩
  | ' ' :: ',' :: _ => some ⟨1, ',' :: space⟩
  | _ => none

/-- `t` with `space` behind every comma. -/
def respaceCommas (space : Text) (t : Text) : Text := Text.pass (comma? space) t

def dropLastSpace (t : Text) : Text := if t.endsWith ' ' then t.dropLast else t

def dropFirstSpace : Text → Text
  | ' ' :: rest => rest
  | t => t

/-- A declaration with `space` behind its first colon; later colons belong to the value. -/
def declaration (space : Text) (t : Text) : Text :=
  match Text.splitFirst ':' t with
  | some (property, value) => dropLastSpace property ++ ':' :: space ++ dropFirstSpace value
  | none => t

def opening (level : Level) (header : Text) : Text :=
  Text.trim (Condition.respace level.space header) ++ level.space ++ ['{']

/-- The line end before each declaration of a ruleset at a depth, if it has one. -/
def declarationBreak (level : Level) (depth : Int) : Text :=
  if level.breaksDeclarations then '\n' :: tabs (depth + 1) else []

/-- The line end before the closing brace of a ruleset at a depth, if it has one. -/
def closingBreak (level : Level) (depth : Int) : Text :=
  if level.breaksDeclarations then '\n' :: tabs depth else []

def declarations (level : Level) (depth : Int) (t : Text) : Text :=
  Text.join (';' :: declarationBreak level depth)
    ((Text.pieces ';' (respaceCommas level.space t)).map (declaration level.space))

/-- A ruleset at a depth. -/
def ruleset (level : Level) (depth : Int) (selectors body : Text) : Text :=
  Text.trim (respaceCommas level.space selectors) ++ level.space ++ '{' ::
    declarationBreak level depth ++ Text.trim (declarations level depth body) ++
    closingBreak level depth ++ ['}']

/-- A line of output, indented and ended if the level keeps layout. -/
def written (level : Level) (depth : Int) (t : Text) : Text :=
  if level.keepsLayout then tabs depth ++ t ++ ['\n'] else t

/-- What is written for a line, if it is not stray. -/
def lineText? (level : Level) (depth : Int) : Line → Option Text
  | .leaving t => some t
  | .statement t => some t
  | .opening header => some (opening level header)
  | .ruleset selectors body => some (ruleset level depth selectors body)
  | .stray _ => none

/-- Lines laid out from a depth on. -/
def ofLinesAt (level : Level) (depth : Int) : List Text → Layout
  | [] => ⟨depth, 0, []⟩
  | line :: rest =>
    let shape := Line.classify (Text.trim line)
    let after := ofLinesAt level (shape.depthAfter depth) rest
    match lineText? level depth shape with
    | some t => { after with output := written level (shape.depthAt depth) t ++ after.output }
    | none => { after with skipped := after.skipped + 1 }

/-- The lines of a stylesheet laid out. -/
def ofLines (level : Level) (lines : List Text) : Layout := ofLinesAt level 0 lines

end Layout

end Stylepress.Css
