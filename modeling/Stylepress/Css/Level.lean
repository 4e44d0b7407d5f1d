import Stylepress.Text.Blank

/-!
The four levels of pressing and what each of them keeps of the layout. `off` combines only; `low`
keeps one declaration on a line, `medium` one ruleset on a line, `high` a single line. A level is
given by its index or its name: `ofIndex?` is strict, `coerce` takes every other number for `off`.
-/
namespace Stylepress.Css

/-- How much of a stylesheet's layout is pressed out. -/
inductive Level where
  | off
  | low
  | medium
  | high
deriving DecidableEq, Repr, Inhabited

namespace Level

/-- The levels from the mildest on. -/
def all : List Level := [.off, .low, .medium, .high]

/-- The level that nothing asks for. -/
def usual : Level := .off

def index : Level → Nat
  | .off => 0
  | .low => 1
  | .medium => 2
  | .high => 3

/-- The decimal digit of a level's number. -/
def digit : Level → Char
  | .off => '0'
  | .low => '1'
  | .medium => '2'
  | .high => '3'

def name : Level → Text
  | .off => ['n', 'o', 'n', 'e']
  | .low => ['l', 'o', 'w']
  | .medium => ['m', 'e', 'd', 'i', 'u', 'm']
  | .high => ['h', 'i', 'g', 'h']

/-- The level of a number, if it is the number of one. -/
def ofIndex? : Nat → Option Level
  | 0 => some .off
  | 1 => some .low
  | 2 => some .medium
  | 3 => some .high
  | _ => none

/-- The level of a digit, if it is the digit of one. -/
def ofDigit? (c : Char) : Option Level := all.find? fun level => level.digit == c

/-- The level of any number; one that is no level's number asks for nothing. -/
def coerce : Int → Level
  | .ofNat n => (ofIndex? n).getD usual
  | .negSucc _ => usual

/-- The level of a name, in any mix of ASCII capitals and small letters. -/
def ofName? (t : Text) : Option Level := all.find? fun level => level.name == t.map Char.toLower

/-- What stands after a colon or comma and before an opening brace. -/
def space : Level → Text
  | .off | .low => [' ']
  | .medium | .high => []

/-- Whether each declaration gets a line of its own. -/
def breaksDeclarations : Level → Bool
  | .off | .low => true
  | .medium | .high => false

/-- Whether lines and their indentation are kept. -/
def keepsLayout : Level → Bool
  | .off | .low | .medium => true
  | .high => false

/-- Whether the semicolon of a block's last declaration is written. -/
def keepsLastSemicolon : Level → Bool
  | .off | .low => true
  | .medium | .high => false

@[simp] theorem ofIndex?_index (level : Level) : ofIndex? level.index = some level := by
  cases level <;> rfl

@[simp] theorem ofDigit?_digit (level : Level) : ofDigit? level.digit = some level := by
  cases level <;> rfl

@[simp] theorem ofName?_name (level : Level) : ofName? level.name = some level := by
  cases level <;> decide

end Level

end Stylepress.Css
