/-!
Texts and their white space. A text is the list of its characters. `isBlank` is the Unicode property
White_Space; `isVertical` and `isHorizontal` are the two classes that the clean-up of a stylesheet
treats apart, and the horizontal class also holds the Mongolian vowel separator (U+180E), which has
not been white space since Unicode 6.3. Trimming drops maximal runs of blanks at the ends.
-/
namespace Stylepress

/-- A text: its characters in order. -/
abbrev Text := List Char

namespace Text

/-- The Unicode property White_Space. -/
def isBlank (c : Char) : Bool :=
  (0x09 ≤ c.toNat && c.toNat ≤ 0x0D) || c.toNat == 0x20 || c.toNat == 0x85 || c.toNat == 0xA0 ||
    c.toNat == 0x1680 || (0x2000 ≤ c.toNat && c.toNat ≤ 0x200A) || c.toNat == 0x2028 ||
    c.toNat == 0x2029 || c.toNat == 0x202F || c.toNat == 0x205F || c.toNat == 0x3000

/-- The characters that end a line. -/
def isVertical (c : Char) : Bool :=
  (0x0A ≤ c.toNat && c.toNat ≤ 0x0D) || c.toNat == 0x85 || c.toNat == 0x2028 || c.toNat == 0x2029

/-- The characters that space a line out, the Mongolian vowel separator among them. -/
def isHorizontal (c : Char) : Bool :=
  c.toNat == 0x09 || c.toNat == 0x20 || c.toNat == 0xA0 || c.toNat == 0x1680 || c.toNat == 0x180E ||
    (0x2000 ≤ c.toNat && c.toNat ≤ 0x200A) || c.toNat == 0x202F || c.toNat == 0x205F ||
    c.toNat == 0x3000

/-- `t` without the longest run of characters in `p` at its end. -/
def dropEndWhile (p : Char → Bool) (t : Text) : Text := (t.reverse.dropWhile p).reverse

def trimStart (t : Text) : Text := t.dropWhile isBlank

def trimEnd (t : Text) : Text := dropEndWhile isBlank t

def trim (t : Text) : Text := trimEnd (trimStart t)

def endsWith (t : Text) (c : Char) : Bool := t.getLast? == some c

def startsWith (t : Text) (c : Char) : Bool := t.head? == some c

/-- Every blank is vertical or horizontal, and the two classes hold nothing else but U+180E. -/
theorem isBlank_iff (c : Char) :
    isBlank c = true ↔ isVertical c = true ∨ (isHorizontal c = true ∧ c.toNat ≠ 0x180E) := by
  simp only [isBlank, isVertical, isHorizontal, Bool.or_eq_true, Bool.and_eq_true,
    decide_eq_true_eq, beq_iff_eq]
  omega

end Text

end Stylepress
