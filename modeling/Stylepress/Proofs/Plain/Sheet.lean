import Mathlib.Data.List.Chain
import Stylepress.Css.Token
import Stylepress.Text.Pieces

/-!
Plain stylesheets as data, and their canonical layout at a level. A plain stylesheet is a list of
statements, rulesets and blocks; blocks hold rulesets and blocks again, to any depth. Its words hold
no white space, no comment and none of the marks that the layout itself writes, so a plain stylesheet
says what is laid out and nothing of how it was spelled.

The canonical layout (`Sheet.written`) is a function of the data alone: one word apart, a level's
space behind commas, colons and before braces, and, where the level keeps layout, a line for each
statement, ruleset, block opening and block end, indented with one tab for each open block.
-/
namespace Stylepress.Plain
open Css (Level)

/-! ### Words -/

/-- Where a word stands. -/
inductive WordKind where
  /-- Anywhere in a stylesheet, at-keywords included. -/
  | any
  /-- In a statement, a selector or the value of a declaration. -/
  | plain
  /-- The property of a declaration. -/
  | property
  /-- The name of a block, or a word of its prelude. -/
  | header
deriving DecidableEq, Repr

/-- The characters of a word: no white space, no U+180E, no mark of the layout and no asterisk. -/
def isSolid (c : Char) : Bool :=
  !Text.isBlank c && c.toNat != 0x180E &&
    !(c == '{' || c == '}' || c == ';' || c == ',' || c == '*')

/-- The characters of a word of each kind. -/
def WordKind.allows : WordKind → Char → Bool
  | .any, c => isSolid c
  | .plain, c => isSolid c && c != '@'
  | .property, c => isSolid c && c != '@' && c != ':'
  | .header, c => isSolid c && c != '@' && c != ':' && c != '(' && c != ')'

/-- A word of a kind: not empty, and of the characters that the kind allows. -/
structure Word (kind : WordKind) where
  text : Text
  filled : text ≠ []
  allowed : ∀ c ∈ text, kind.allows c = true

/-- A list that is not empty. -/
structure Several (α : Type) where
  first : α
  others : List α

def Several.toList {α : Type} (several : Several α) : List α := several.first :: several.others

/-- Words one after the other. -/
abbrev Phrase (kind : WordKind) := Several (Word kind)

/-- Phrases with commas between them. -/
abbrev Series := Several (Phrase .plain)

/-! ### Stylesheets -/

/-- The name of an at-rule that is a statement. -/
inductive StatementName where
  | charset
  | imports
  | namespaces
deriving DecidableEq, Repr

def StatementName.text : StatementName → Text
  | .charset => ['c', 'h', 'a', 'r', 's', 'e', 't']
  | .imports => ['i', 'm', 'p', 'o', 'r', 't']
  | .namespaces => ['n', 'a', 'm', 'e', 's', 'p', 'a', 'c', 'e']

structure Declaration where
  property : Word .property
  value : Series

/-- A part of a block's prelude: a word, or a feature with the value asked of it. -/
inductive Part where
  | word (word : Word .header)
  | condition (feature : Word .header) (value : Phrase .header)

def Part.isCondition : Part → Bool
  | .word _ => false
  | .condition .. => true

/-- The prelude of a block: parts of which no two conditions are neighbours. -/
structure Prelude where
  parts : List Part
  apart : parts.IsChain fun a b => ¬ (a.isCondition = true ∧ b.isCondition = true)

/-- The name of a block, which does not start like a statement. -/
structure BlockName extends Word .header where
  other : ∀ statement : StatementName, ¬ statement.text <+: text

/-- A ruleset, or a block of rules. -/
inductive Rule where
  | ruleset (selectors : Series) (declarations : Several Declaration)
  | block (name : BlockName) (headed : Prelude) (first : Rule) (others : List Rule)

/-- A member of a stylesheet. -/
inductive Item where
  | statement (name : StatementName) (words : Phrase .plain)
  | rule (rule : Rule)

/-- A plain stylesheet. -/
abbrev Sheet := Several Item

/-! ### The canonical layout -/

/-- Words with one space between neighbours. -/
def Phrase.written {kind : WordKind} (phrase : Phrase kind) : Text :=
  Text.join [' '] (phrase.toList.map (·.text))

/-- Phrases with a comma and `space` between neighbours. -/
def Series.written (space : Text) (series : Series) : Text :=
  Text.join (',' :: space) (series.toList.map Phrase.written)

/-- A declaration with `space` behind its colon. -/
def Declaration.written (space : Text) (declaration : Declaration) : Text :=
  declaration.property.text ++ ':' :: space ++ declaration.value.written space

/-- A part with `space` behind the colon of a condition. -/
def Part.written (space : Text) : Part → Text
  | .word w => w.text
  | .condition feature value => '(' :: feature.text ++ ':' :: space ++ value.written ++ [')']

/-- The name of a block and its prelude, with one space before every part. -/
def header (space : Text) (name : BlockName) (headed : Prelude) : Text :=
  '@' :: name.text ++ headed.parts.flatMap fun part => ' ' :: part.written space

/-- The indentation at a depth. -/
def indent (depth : Nat) : Text := List.replicate depth '\t'

/-- A ruleset at a depth. -/
def ruleset (level : Level) (depth : Nat) (selectors : Series) (declarations : Several Declaration) :
    Text :=
  let lineBreak (depth : Nat) := if level.breaksDeclarations then '\n' :: indent depth else []
  selectors.written level.space ++ level.space ++ '{' :: lineBreak (depth + 1) ++
    Text.join (';' :: lineBreak (depth + 1))
      (declarations.toList.map (Declaration.written level.space)) ++
    (if level.keepsLastSemicolon then [';'] else []) ++ lineBreak depth ++ ['}']

/-- A line at a depth, if the level keeps lines, and its text alone if not. -/
def line (level : Level) (depth : Nat) (text : Text) : Text :=
  if level.keepsLayout then indent depth ++ text ++ ['\n'] else text

mutual

def Rule.written (level : Level) (depth : Nat) : Rule → Text
  | .ruleset selectors declarations =>
    line level depth (Plain.ruleset level depth selectors declarations)
  | .block name headed first others =>
    line level depth (header level.space name headed ++ level.space ++ ['{']) ++
      (first.written level (depth + 1) ++ rulesWritten level (depth + 1) others) ++
      line level depth ['}']

def rulesWritten (level : Level) (depth : Nat) : List Rule → Text
  | [] => []
  | rule :: others => rule.written level depth ++ rulesWritten level depth others

end

/-- A member of a stylesheet. -/
def Item.written (level : Level) : Item → Text
  | .statement name words => line level 0 ('@' :: name.text ++ ' ' :: words.written ++ [';'])
  | .rule r => r.written level 0

/-- A stylesheet in its canonical layout at a level, without the level's token. -/
def Sheet.written (level : Level) (sheet : Sheet) : Text := sheet.toList.flatMap (Item.written level)

end Stylepress.Plain
