import Stylepress.Text.Blank

/-!
Decimal integers of sixty-four bits in text: a sign or none, then ASCII digits and nothing else.
-/
namespace Stylepress.Text

/-- The number that decimal digits spell, at least one of them. -/
def natural? (t : Text) : Option Nat :=
  if t.isEmpty || !t.all Char.isDigit then none
  else some (t.foldl (fun number c => number * 10 + (c.toNat - '0'.toNat)) 0)

/-- A number if it fits into sixty-four bits with a sign. -/
def within64? (number : Int) : Option Int :=
  if -9223372036854775808 ≤ number && number ≤ 9223372036854775807 then some number else none

/-- The integer that a text spells, if it fits into sixty-four bits. -/
def integer? : Text → Option Int
  | '-' :: digits => (natural? digits).bind fun n => within64? (-n)
  | '+' :: digits => (natural? digits).bind fun n => within64? n
  | digits => (natural? digits).bind fun n => within64? n

end Stylepress.Text
