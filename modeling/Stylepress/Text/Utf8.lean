import Stylepress.Text.Blank

/-!
Texts as bytes in UTF-8. Reading goes byte by byte and knows which bytes may come next, so it tells
three endings apart: the bytes end between characters, they end inside a character that could still
be completed, or a byte stands where none of its kind may. Only the first kind decodes; the second is
what is left when a longer text is cut at a byte.
-/
namespace Stylepress.Utf8

/-- Where the reader stands between two bytes. -/
inductive State where
  /-- Between characters. -/
  | between
  /-- Inside a character: `owed` more bytes after the next one, which lies from `low` to `high`;
      `value` collects the code point. -/
  | inside (owed : Nat) (low high : UInt8) (value : Nat)
deriving DecidableEq, Repr

/-- How a sequence of bytes ends. -/
inductive Ending where
  | complete
  | cut
  | malformed
deriving DecidableEq, Repr

/-- The state after the first byte of a character of more than one byte. -/
def lead (b : UInt8) : Option State :=
  if b < 0xC2 then none
  else if b ≤ 0xDF then some (.inside 0 0x80 0xBF (b.toNat - 0xC0))
  else if b = 0xE0 then some (.inside 1 0xA0 0xBF 0)
  else if b = 0xED then some (.inside 1 0x80 0x9F (b.toNat - 0xE0))
  else if b ≤ 0xEF then some (.inside 1 0x80 0xBF (b.toNat - 0xE0))
  else if b = 0xF0 then some (.inside 2 0x90 0xBF 0)
  else if b ≤ 0xF3 then some (.inside 2 0x80 0xBF (b.toNat - 0xF0))
  else if b = 0xF4 then some (.inside 2 0x80 0x8F (b.toNat - 0xF0))
  else none

/-- The characters that the bytes spell before they end or go wrong, and how they end. -/
def readFrom : State → List UInt8 → Text × Ending
  | .between, [] => ([], .complete)
  | .inside .., [] => ([], .cut)
  | .between, b :: rest =>
    if b < 0x80 then
      let after := readFrom .between rest
      (Char.ofNat b.toNat :: after.1, after.2)
    else
      match lead b with
      | none => ([], .malformed)
      | some state => readFrom state rest
  | .inside owed low high value, b :: rest =>
    if low ≤ b ∧ b ≤ high then
      match owed with
      | 0 =>
        let after := readFrom .between rest
        (Char.ofNat (value * 64 + (b.toNat - 0x80)) :: after.1, after.2)
      | owed + 1 => readFrom (.inside owed 0x80 0xBF (value * 64 + (b.toNat - 0x80))) rest
    else ([], .malformed)

def read (bytes : List UInt8) : Text × Ending := readFrom .between bytes

/-- The text that the bytes spell, if they spell one to their end. -/
def decode? (bytes : List UInt8) : Option Text :=
  match read bytes with
  | (text, .complete) => some text
  | _ => none

def encodeChar (c : Char) : List UInt8 :=
  let n := c.toNat
  if n < 0x80 then [UInt8.ofNat n]
  else if n < 0x800 then [UInt8.ofNat (0xC0 + n / 64), UInt8.ofNat (0x80 + n % 64)]
  else if n < 0x10000 then
    [UInt8.ofNat (0xE0 + n / 4096), UInt8.ofNat (0x80 + n / 64 % 64), UInt8.ofNat (0x80 + n % 64)]
  else
    [UInt8.ofNat (0xF0 + n / 262144), UInt8.ofNat (0x80 + n / 4096 % 64),
      UInt8.ofNat (0x80 + n / 64 % 64), UInt8.ofNat (0x80 + n % 64)]

def encode (t : Text) : List UInt8 := t.flatMap encodeChar

end Stylepress.Utf8
