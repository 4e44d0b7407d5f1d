import Stylepress.Manifest.Toml.Character

/-!
Strings between quotes: with escapes or without, on one line or over several. Each reader takes the
text behind the opening quotes and gives the string and the text behind the closing ones, which is
always shorter.
-/
namespace Stylepress.Toml

/-- Where a reader stands in a string with escapes. -/
inductive Place where
  | plain
  /-- Behind a back slash. -/
  | escape
  /-- In a code point: `left` more digits after the next one. -/
  | code (left : Nat) (value : Nat)
  /-- Behind a back slash and blanks that should end their line. -/
  | lineTail
  /-- In the blanks and line ends that a back slash at the end of a line takes away. -/
  | gap
deriving DecidableEq, Repr

/-- The string with `c` before it. -/
def before (c : Char) (found : Option (Text × Text)) : Option (Text × Text) :=
  found.map fun parts => (c :: parts.1, parts.2)

/-- The rest of a string with escapes on one line, and the text behind its quote. -/
def basic? : Place → Text → Option (Text × Text)
  | _, [] => none
  | .plain, c :: rest =>
    if c = '"' then some ([], rest)
    else if c = '\\' then basic? .escape rest
    else if isPlain c then before c (basic? .plain rest)
    else none
  | .escape, c :: rest =>
    if c = 'u' then basic? (.code 3 0) rest
    else if c = 'U' then basic? (.code 7 0) rest
    else (escaped? c).bind fun e => before e (basic? .plain rest)
  | .code left value, c :: rest =>
    match digit? 16 c, left with
    | none, _ => none
    | some d, left + 1 => basic? (.code left (value * 16 + d)) rest
    | some d, 0 => (char? (value * 16 + d)).bind fun e => before e (basic? .plain rest)
  | .lineTail, _ | .gap, _ => none

def startsTriple (quote : Char) (t : Text) : Bool := [quote, quote, quote].isPrefixOf t

/-- The rest of a string with escapes over lines, and the text behind its quotes. Up to two quotes may
    stand right before the three that end it. -/
def longBasic? : Place → Text → Option (Text × Text)
  | _, [] => none
  | .escape, c :: rest =>
    if c = 'u' then longBasic? (.code 3 0) rest
    else if c = 'U' then longBasic? (.code 7 0) rest
    else if c = ' ' || c = '\t' then longBasic? .lineTail rest
    else if c = '\n' then longBasic? .gap rest
    else if c = '\r' then
      if rest.head? = some '\n' then longBasic? .lineTail rest else none
    else (escaped? c).bind fun e => before e (longBasic? .plain rest)
  | .code left value, c :: rest =>
    match digit? 16 c, left with
    | none, _ => none
    | some d, left + 1 => longBasic? (.code left (value * 16 + d)) rest
    | some d, 0 => (char? (value * 16 + d)).bind fun e => before e (longBasic? .plain rest)
  | .lineTail, c :: rest =>
    if c = ' ' || c = '\t' then longBasic? .lineTail rest
    else if c = '\n' then longBasic? .gap rest
    else if c = '\r' then
      if rest.head? = some '\n' then longBasic? .lineTail rest else none
    else none
  | place, c :: rest =>
    if place = .gap && (c = ' ' || c = '\t' || c = '\n') then longBasic? .gap rest
    else if c = '\r' then
      if rest.head? = some '\n' then longBasic? place rest else none
    else if c = '\\' then longBasic? .escape rest
    else if c = '"' && startsTriple '"' (c :: rest) then
      if startsTriple '"' (rest.drop 2) then none
      else if startsTriple '"' rest then before c (longBasic? .plain rest)
      else some ([], rest.drop 2)
    else if c = '\n' || isPlain c then before c (longBasic? .plain rest)
    else none

/-- The rest of a string without escapes on one line, and the text behind its quote. -/
def literal? : Text → Option (Text × Text)
  | [] => none
  | c :: rest =>
    if c = '\x27' then some ([], rest)
    else if isPlain c then before c (literal? rest)
    else none

/-- The rest of a string without escapes over lines, and the text behind its quotes. -/
def longLiteral? : Text → Option (Text × Text)
  | [] => none
  | c :: rest =>
    if c = '\r' then
      if rest.head? = some '\n' then longLiteral? rest else none
    else if c = '\x27' && startsTriple '\x27' (c :: rest) then
      if startsTriple '\x27' (rest.drop 2) then none
      else if startsTriple '\x27' rest then before c (longLiteral? rest)
      else some ([], rest.drop 2)
    else if c = '\n' || isPlain c then before c (longLiteral? rest)
    else none

def dropLineEnd : Text → Text
  | '\n' :: rest => rest
  | '\r' :: '\n' :: rest => rest
  | t => t

/-! ## Strings end -/

theorem before_eq_some_iff {c : Char} {found : Option (Text × Text)} {s behind : Text} :
    before c found = some (s, behind) ↔ ∃ t, found = some (t, behind) ∧ c :: t = s := by
  simp [before, Option.map_eq_some_iff]

theorem length_lt_of_basic? {place : Place} {t s behind : Text}
    (h : basic? place t = some (s, behind)) : behind.length < t.length := by
  fun_induction basic? place t generalizing s <;>
    grind [before_eq_some_iff, Option.bind_eq_some_iff]

theorem length_lt_of_longBasic? {place : Place} {t s behind : Text}
    (h : longBasic? place t = some (s, behind)) : behind.length < t.length := by
  fun_induction longBasic? place t generalizing s <;>
    grind [before_eq_some_iff, Option.bind_eq_some_iff]

theorem length_lt_of_literal? {t s behind : Text} (h : literal? t = some (s, behind)) :
    behind.length < t.length := by
  fun_induction literal? t generalizing s <;> grind [before_eq_some_iff]

theorem length_lt_of_longLiteral? {t s behind : Text} (h : longLiteral? t = some (s, behind)) :
    behind.length < t.length := by
  fun_induction longLiteral? t generalizing s <;> grind [before_eq_some_iff]

theorem length_dropLineEnd_le (t : Text) : (dropLineEnd t).length ≤ t.length := by
  unfold dropLineEnd
  split
  · exact Nat.le_succ _
  · exact Nat.le_add_right _ 2
  · exact Nat.le_refl _

end Stylepress.Toml
