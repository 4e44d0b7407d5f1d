import Stylepress.Proofs.Plain.Sheet

/-!
The spellings of a plain stylesheet. A stylesheet is a list of lexemes: words, commas, colons,
parentheses, semicolons and braces. A spelling writes them in order with a gap between neighbours, a
mix of white space and closed comments. Any gap will do, even none, beside a mark, comma or colon and
on the outside of a condition; between two words the gap has to hold horizontal space outside its
comments, because line ends alone join words; and nothing stands between a parenthesis and what it
encloses. The semicolon of a ruleset's last declaration may be left out.
-/
namespace Stylepress.Plain

/-! ### Gaps -/

/-- White space and U+180E. -/
def isSpacing (c : Char) : Bool := Text.isVertical c || Text.isHorizontal c

/-- A mix of spacing and closed comments. -/
inductive Gap : Text → Prop where
  | empty : Gap []
  | spacing {c : Char} {gap : Text} (space : isSpacing c = true) (rest : Gap gap) : Gap (c :: gap)
  | comment {body gap : Text} (closed : ¬ ['*', '/'] <:+: body) (rest : Gap gap) :
      Gap ('/' :: '*' :: (body ++ '*' :: '/' :: gap))

/-- A gap that keeps words apart: horizontal space stands outside its comments. -/
def WideGap (gap : Text) : Prop :=
  ∃ before c after, Gap before ∧ Text.isHorizontal c = true ∧ Gap after ∧
    gap = before ++ c :: after

/-! ### Lexemes -/

/-- The smallest parts of a stylesheet. -/
inductive Lexeme where
  | word (word : Word .any)
  | comma
  | colon
  | openParen
  | closeParen
  | semicolon
  | openBrace
  | closeBrace

namespace Lexeme

/-- What is written for a lexeme. -/
def text : Lexeme → Text
  | word w => w.text
  | comma => [',']
  | colon => [':']
  | openParen => ['(']
  | closeParen => [')']
  | semicolon => [';']
  | openBrace => ['{']
  | closeBrace => ['}']

/-- Whether a lexeme needs no space beside it. -/
def isMark : Lexeme → Bool
  | semicolon | openBrace | closeBrace => true
  | _ => false

end Lexeme

/-- What may stand between two lexemes. -/
inductive Joint where
  /-- Any gap. -/
  | free
  /-- A gap that keeps words apart. -/
  | wide
  /-- Nothing. -/
  | tight
deriving DecidableEq, Repr

/-- What may stand between a lexeme and the next one. -/
def joint : Lexeme → Lexeme → Joint
  | .openParen, _ => .tight
  | _, .closeParen => .tight
  | .word _, .word _ => .wide
  | _, _ => .free

/-- The gaps that a stylesheet may have between a lexeme and the next one. -/
def Joined (a b : Lexeme) (gap : Text) : Prop :=
  match joint a b with
  | .free => Gap gap
  | .wide => WideGap gap
  | .tight => gap = []

/-- Lexemes written behind the lexeme `a`, each with a gap before it that `J` allows there. -/
inductive Spaced (J : Lexeme → Lexeme → Text → Prop) : Lexeme → List Lexeme → Text → Prop where
  | nil {a : Lexeme} : Spaced J a [] []
  | cons {a b : Lexeme} {lexemes : List Lexeme} {gap rest : Text} (join : J a b gap)
      (later : Spaced J b lexemes rest) : Spaced J a (b :: lexemes) (gap ++ b.text ++ rest)

/-! ### The lexemes of a stylesheet -/

theorem WordKind.isSolid_of_allows {kind : WordKind} {c : Char} (allowed : kind.allows c = true) :
    isSolid c = true := by
  cases kind <;> simp_all [WordKind.allows]

/-- A word as one that may stand anywhere. -/
def Word.anywhere {kind : WordKind} (word : Word kind) : Word .any :=
  ⟨word.text, word.filled, fun c member => WordKind.isSolid_of_allows (word.allowed c member)⟩

def StatementName.keyword (name : StatementName) : Word .any :=
  ⟨'@' :: name.text, by simp, List.all_eq_true.mp (by cases name <;> decide)⟩

def BlockName.keyword (name : BlockName) : Word .any :=
  ⟨'@' :: name.text, by simp, by
    intro c member
    rcases List.mem_cons.mp member with rfl | inside
    · decide
    · exact WordKind.isSolid_of_allows (name.allowed c inside)⟩

def Phrase.lexemes {kind : WordKind} (phrase : Phrase kind) : List Lexeme :=
  phrase.toList.map fun word => .word word.anywhere

def Series.lexemes (series : Series) : List Lexeme :=
  series.first.lexemes ++ series.others.flatMap fun phrase => .comma :: phrase.lexemes

def Declaration.lexemes (declaration : Declaration) : List Lexeme :=
  .word declaration.property.anywhere :: .colon :: declaration.value.lexemes

/-- The lexemes of declarations, but for a semicolon behind the last one. -/
def bodyLexemes (declarations : Several Declaration) : List Lexeme :=
  declarations.first.lexemes ++
    declarations.others.flatMap fun declaration => .semicolon :: declaration.lexemes

def Part.lexemes : Part → List Lexeme
  | .word w => [.word w.anywhere]
  | .condition feature value =>
    .openParen :: .word feature.anywhere :: .colon :: (value.lexemes ++ [.closeParen])

/-- What a stylesheet has on a line of its own. -/
inductive Row where
  | statement (name : StatementName) (words : Phrase .plain)
  | opening (name : BlockName) (headed : Prelude)
  | ruleset (selectors : Series) (declarations : Several Declaration)
  | closing

/-- The lexemes of a row; `ended` tells whether the last declaration has its semicolon. -/
def Row.lexemes (ended : Bool) : Row → List Lexeme
  | .statement name words => .word name.keyword :: (words.lexemes ++ [.semicolon])
  | .opening name headed =>
    .word name.keyword :: (headed.parts.flatMap Part.lexemes ++ [.openBrace])
  | .ruleset selectors declarations =>
    selectors.lexemes ++ .openBrace ::
      (bodyLexemes declarations ++ ((if ended then [.semicolon] else []) ++ [.closeBrace]))
  | .closing => [.closeBrace]

mutual

def Rule.rows : Rule → List Row
  | .ruleset selectors declarations => [.ruleset selectors declarations]
  | .block name headed first others =>
    .opening name headed :: (first.rows ++ rulesRows others ++ [.closing])

def rulesRows : List Rule → List Row
  | [] => []
  | rule :: others => rule.rows ++ rulesRows others

end

def Item.rows : Item → List Row
  | .statement name words => [.statement name words]
  | .rule r => r.rows

def Sheet.rows (sheet : Sheet) : List Row := sheet.toList.flatMap Item.rows

/-- Rows written one after the other with gaps that `J` allows; a row always follows a mark or
    starts the text. -/
inductive Spelled (J : Lexeme → Lexeme → Text → Prop) : List Row → Text → Prop where
  | nil : Spelled J [] []
  | cons {row : Row} {rows : List Row} {t rest : Text} (ended : Bool)
      (here : Spaced J .semicolon (row.lexemes ended) t) (later : Spelled J rows rest) :
      Spelled J (row :: rows) (t ++ rest)

/-- `x` is a spelling of a stylesheet. -/
def Sheet.Spells (sheet : Sheet) (x : Text) : Prop :=
  ∃ t gap, Spelled Joined sheet.rows t ∧ Gap gap ∧ x = t ++ gap

end Stylepress.Plain
