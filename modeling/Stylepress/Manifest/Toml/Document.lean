import Stylepress.Manifest.Toml.Token
import Stylepress.Text.Integer

/-!
The part of TOML that a manifest is written in: pairs of a key and a value, one on a line, where a
value is a string, an integer, a boolean or an array of strings. Tables, dotted keys, floats and
dates are no part of it.
-/
namespace Stylepress.Toml

inductive Value where
  | text (text : Text)
  | integer (number : Int)
  | boolean (truth : Bool)
  | texts (texts : List Text)
deriving DecidableEq, Repr

/-! ## Numbers -/

/-- The number that digits of a base spell, the first of them `start`; a low line may stand between
    two digits. -/
def digits? (base : Nat) (start : Nat) : Text → Option Nat
  | [] => some start
  | '_' :: c :: rest => (digit? base c).bind fun d => digits? base (start * base + d) rest
  | c :: rest => (digit? base c).bind fun d => digits? base (start * base + d) rest

def natural? (base : Nat) : Text → Option Nat
  | [] => none
  | c :: rest => (digit? base c).bind fun d => digits? base d rest

/-- A decimal number without a sign: no zero stands before another digit. -/
def decimal? : Text → Option Nat
  | ['0'] => some 0
  | '0' :: _ => none
  | t => natural? 10 t

/-- The integer that a word spells. -/
def integer? : Text → Option Int
  | '0' :: 'x' :: rest => (natural? 16 rest).bind fun n => Text.within64? n
  | '0' :: 'o' :: rest => (natural? 8 rest).bind fun n => Text.within64? n
  | '0' :: 'b' :: rest => (natural? 2 rest).bind fun n => Text.within64? n
  | '+' :: rest => (decimal? rest).bind fun n => Text.within64? n
  | '-' :: rest => (decimal? rest).bind fun n => Text.within64? (-n)
  | t => (decimal? t).bind fun n => Text.within64? n

/-! ## Pairs -/

/-- The tokens behind the line ends at the head. -/
def skipLineEnds : List Token → List Token
  | .lineEnd :: rest => skipLineEnds rest
  | rest => rest

/-- The strings of an array behind its opening bracket, or behind one of its strings if `filled`, and
    the tokens behind its closing bracket. A comma may stand behind the last string. -/
def array? (filled : Bool) : List Token → Option (List Text × List Token)
  | [] => none
  | .lineEnd :: rest => array? filled rest
  | .closeBracket :: rest => some ([], rest)
  | .comma :: rest => if filled then array? false rest else none
  | .string _ text :: rest =>
    if filled then none
    else (array? true rest).map fun parts => (text :: parts.1, parts.2)
  | _ => none

def value? : List Token → Option (Value × List Token)
  | .string _ text :: rest => some (.text text, rest)
  | .openBracket :: rest => (array? false rest).map fun parts => (.texts parts.1, parts.2)
  | .word word :: rest =>
    if word = ['t', 'r', 'u', 'e'] then some (.boolean true, rest)
    else if word = ['f', 'a', 'l', 's', 'e'] then some (.boolean false, rest)
    else (integer? word).map fun number => (.integer number, rest)
  | _ => none

def key? : List Token → Option (Text × List Token)
  | .word word :: rest => if word.all isBareKey then some (word, rest) else none
  | .string false text :: rest => some (text, rest)
  | _ => none

/-- A pair at the head up to the end of its line, and the tokens behind. -/
def pair? (tokens : List Token) : Option ((Text × Value) × List Token) :=
  match key? tokens with
  | some (key, .equals :: rest) =>
    match value? rest with
    | some (value, []) => some ((key, value), [])
    | some (value, .lineEnd :: behind) => some ((key, value), behind)
    | _ => none
  | _ => none

theorem length_skipLineEnds_le (tokens : List Token) :
    (skipLineEnds tokens).length ≤ tokens.length := by
  fun_induction skipLineEnds tokens <;> grind

theorem length_lt_of_array? {filled : Bool} {tokens behind : List Token} {texts : List Text}
    (h : array? filled tokens = some (texts, behind)) : behind.length < tokens.length := by
  fun_induction array? filled tokens generalizing texts <;> grind [Option.map_eq_some_iff]

theorem length_lt_of_value? {tokens behind : List Token} {value : Value}
    (h : value? tokens = some (value, behind)) : behind.length < tokens.length := by
  fun_cases value? tokens <;> grind [value?, → length_lt_of_array?, Option.map_eq_some_iff]

theorem length_lt_of_key? {tokens behind : List Token} {key : Text}
    (h : key? tokens = some (key, behind)) : behind.length < tokens.length := by
  fun_cases key? tokens <;> grind [key?]

theorem length_lt_of_pair? {tokens behind : List Token} {pair : Text × Value}
    (h : pair? tokens = some (pair, behind)) : behind.length < tokens.length := by
  fun_cases pair? tokens <;> grind [pair?, → length_lt_of_key?, → length_lt_of_value?]

/-- The pairs of a document in order. -/
def pairs? (tokens : List Token) : Option (List (Text × Value)) :=
  if (skipLineEnds tokens).isEmpty then some []
  else
    match _h : pair? (skipLineEnds tokens) with
    | none => none
    | some (pair, behind) => (pairs? behind).map (pair :: ·)
termination_by tokens.length
decreasing_by exact Nat.lt_of_lt_of_le (length_lt_of_pair? _h) (length_skipLineEnds_le tokens)

/-- `t` without the byte order mark that it may start with. -/
def dropMark : Text → Text
  | c :: rest => if c.toNat = 0xFEFF then rest else c :: rest
  | [] => []

/-- The pairs of a text in order; none if the text is no such document. -/
def parse? (t : Text) : Option (List (Text × Value)) := (tokens? (dropMark t)).bind pairs?

end Stylepress.Toml
