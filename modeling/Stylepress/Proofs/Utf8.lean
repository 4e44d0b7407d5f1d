import Mathlib.Tactic.SplitIfs
import Stylepress.Text.Utf8

/-!
Reading back what was encoded. `lead_two`, `lead_three` and `lead_four` say which bytes may stand behind
the first byte of a character, in numbers; the bytes of each character meet these bounds, because no
character is a surrogate, lies beyond the last code point or could be written in fewer bytes
(`readFrom_encodeChar`). So every text is read back from its bytes (`decode?_encode`). Conversely, bytes
within these bounds are those of the character that they spell (`exists_encodeChar`), so no other bytes
are read as the same text (`decode?_eq_some_iff`).
-/
namespace Stylepress.Utf8

/-! ### First bytes -/

theorem lead_two {b : UInt8} (low : 0xC2 ≤ b.toNat) (high : b.toNat ≤ 0xDF) :
    lead b = some (.inside 0 0x80 0xBF (b.toNat - 0xC0)) := by
  have notSmall : ¬ b < 0xC2 := by rw [UInt8.lt_iff_toNat_lt]; simp; omega
  have small : b ≤ 0xDF := by rw [UInt8.le_iff_toNat_le]; exact high
  rw [lead, if_neg notSmall, if_pos small]

/-- The first byte of three bounds the second from below if a shorter form exists, and from above if
    surrogates follow. -/
theorem lead_three {b : UInt8} (low : 0xE0 ≤ b.toNat) (high : b.toNat ≤ 0xEF) :
    ∃ first last, lead b = some (.inside 1 first last (b.toNat - 0xE0)) ∧
      first.toNat = (if b.toNat = 0xE0 then 0xA0 else 0x80) ∧
      last.toNat = (if b.toNat = 0xED then 0x9F else 0xBF) := by
  have notSmall : ¬ b < 0xC2 := by rw [UInt8.lt_iff_toNat_lt]; simp; omega
  have notTwo : ¬ b ≤ 0xDF := by rw [UInt8.le_iff_toNat_le]; simp; omega
  have three : b ≤ 0xEF := by rw [UInt8.le_iff_toNat_le]; exact high
  rw [lead, if_neg notSmall, if_neg notTwo]
  by_cases least : b = 0xE0
  · subst least
    exact ⟨0xA0, 0xBF, rfl, rfl, rfl⟩
  · by_cases surrogates : b = 0xED
    · subst surrogates
      exact ⟨0x80, 0x9F, rfl, rfl, rfl⟩
    · have other : b.toNat ≠ 0xE0 ∧ b.toNat ≠ 0xED := by
        rw [ne_eq, ne_eq, ← UInt8.toNat_inj] at *
        exact ⟨least, surrogates⟩
      refine ⟨0x80, 0xBF, ?_, ?_, ?_⟩
      · rw [if_neg least, if_neg surrogates, if_pos three]
      · rw [if_neg other.1]; rfl
      · rw [if_neg other.2]; rfl

/-- The first byte of four bounds the second from below if a shorter form exists, and from above if it
    would lie beyond the last code point. -/
theorem lead_four {b : UInt8} (low : 0xF0 ≤ b.toNat) (high : b.toNat ≤ 0xF4) :
    ∃ first last, lead b = some (.inside 2 first last (b.toNat - 0xF0)) ∧
      first.toNat = (if b.toNat = 0xF0 then 0x90 else 0x80) ∧
      last.toNat = (if b.toNat = 0xF4 then 0x8F else 0xBF) := by
  have cases : b = 0xF0 ∨ b = 0xF1 ∨ b = 0xF2 ∨ b = 0xF3 ∨ b = 0xF4 := by
    simp only [← UInt8.toNat_inj]
    simp
    omega
  rcases cases with rfl | rfl | rfl | rfl | rfl <;> exact ⟨_, _, rfl, rfl, rfl⟩

/-! ### Characters -/

theorem toNat_byte {n : Nat} (small : n < 256) : (UInt8.ofNat n).toNat = n := by
  simp [Nat.mod_eq_of_lt small]

theorem readFrom_ascii {b : UInt8} (ascii : b.toNat < 0x80) (rest : List UInt8) :
    readFrom .between (b :: rest) =
      (Char.ofNat b.toNat :: (readFrom .between rest).1, (readFrom .between rest).2) := by
  have small : b < 0x80 := by rw [UInt8.lt_iff_toNat_lt]; exact ascii
  rw [readFrom, if_pos small]

theorem readFrom_lead {b : UInt8} {state : State} (found : lead b = some state) (rest : List UInt8) :
    readFrom .between (b :: rest) = readFrom state rest := by
  have large : ¬ b < 0x80 := by
    intro small
    have under : b < 0xC2 := UInt8.lt_trans small (by decide)
    simp [lead, under] at found
  rw [readFrom, if_neg large, found]

theorem readFrom_owed {first last b : UInt8} (low : first.toNat ≤ b.toNat) (high : b.toNat ≤ last.toNat)
    (owed value : Nat) (rest : List UInt8) :
    readFrom (.inside (owed + 1) first last value) (b :: rest) =
      readFrom (.inside owed 0x80 0xBF (value * 64 + (b.toNat - 0x80))) rest := by
  rw [readFrom, if_pos ⟨UInt8.le_iff_toNat_le.mpr low, UInt8.le_iff_toNat_le.mpr high⟩]

theorem readFrom_last {first last b : UInt8} (low : first.toNat ≤ b.toNat) (high : b.toNat ≤ last.toNat)
    (value : Nat) (rest : List UInt8) :
    readFrom (.inside 0 first last value) (b :: rest) =
      (Char.ofNat (value * 64 + (b.toNat - 0x80)) :: (readFrom .between rest).1,
        (readFrom .between rest).2) := by
  rw [readFrom, if_pos ⟨UInt8.le_iff_toNat_le.mpr low, UInt8.le_iff_toNat_le.mpr high⟩]

theorem scalar_bounds (c : Char) : c.toNat < 0xD800 ∨ 0xDFFF < c.toNat ∧ c.toNat < 0x110000 :=
  c.valid

/-- A character is read back from its bytes, whatever bytes follow. -/
theorem readFrom_encodeChar (c : Char) (rest : List UInt8) :
    readFrom .between (encodeChar c ++ rest) =
      (c :: (readFrom .between rest).1, (readFrom .between rest).2) := by
  have valid := scalar_bounds c
  have back : Char.ofNat c.toNat = c := Char.ofNat_toNat c
  rw [encodeChar]
  split_ifs with one two three
  · have first : (UInt8.ofNat c.toNat).toNat = c.toNat := toNat_byte (by omega)
    rw [List.singleton_append, readFrom_ascii (by omega), first, back]
  · have first := toNat_byte (n := 0xC0 + c.toNat / 64) (by omega)
    have second := toNat_byte (n := 0x80 + c.toNat % 64) (by omega)
    have number : (0xC0 + c.toNat / 64 - 0xC0) * 64 + (0x80 + c.toNat % 64 - 0x80) = c.toNat := by omega
    have led := lead_two (b := UInt8.ofNat (0xC0 + c.toNat / 64)) (by omega) (by omega)
    rw [List.cons_append, readFrom_lead led, List.singleton_append,
      readFrom_last (by rw [second]; simp) (by rw [second]; simp; omega), first, second, number, back]
  · have first := toNat_byte (n := 0xE0 + c.toNat / 4096) (by omega)
    have second := toNat_byte (n := 0x80 + c.toNat / 64 % 64) (by omega)
    have third := toNat_byte (n := 0x80 + c.toNat % 64) (by omega)
    have number : ((0xE0 + c.toNat / 4096 - 0xE0) * 64 + (0x80 + c.toNat / 64 % 64 - 0x80)) * 64 +
        (0x80 + c.toNat % 64 - 0x80) = c.toNat := by omega
    obtain ⟨least, greatest, led, atLeast, atMost⟩ :=
      lead_three (b := UInt8.ofNat (0xE0 + c.toNat / 4096)) (by omega) (by omega)
    -- A second byte below 0xA0 would spell a shorter form, one above 0x9F behind 0xED a surrogate.
    have low : least.toNat ≤ 0x80 + c.toNat / 64 % 64 := by
      rw [atLeast, first]
      split_ifs <;> omega
    have high : 0x80 + c.toNat / 64 % 64 ≤ greatest.toNat := by
      rw [atMost, first]
      split_ifs <;> omega
    rw [← second] at low high
    rw [List.cons_append, readFrom_lead led, List.cons_append, readFrom_owed low high,
      List.singleton_append, readFrom_last (by rw [third]; simp) (by rw [third]; simp; omega), first, second,
      third, number, back]
  · have first := toNat_byte (n := 0xF0 + c.toNat / 262144) (by omega)
    have second := toNat_byte (n := 0x80 + c.toNat / 4096 % 64) (by omega)
    have third := toNat_byte (n := 0x80 + c.toNat / 64 % 64) (by omega)
    have fourth := toNat_byte (n := 0x80 + c.toNat % 64) (by omega)
    have number : (((0xF0 + c.toNat / 262144 - 0xF0) * 64 + (0x80 + c.toNat / 4096 % 64 - 0x80)) * 64 +
        (0x80 + c.toNat / 64 % 64 - 0x80)) * 64 + (0x80 + c.toNat % 64 - 0x80) = c.toNat := by omega
    obtain ⟨least, greatest, led, atLeast, atMost⟩ :=
      lead_four (b := UInt8.ofNat (0xF0 + c.toNat / 262144)) (by omega) (by omega)
    have low : least.toNat ≤ 0x80 + c.toNat / 4096 % 64 := by
      rw [atLeast, first]
      split_ifs <;> omega
    have high : 0x80 + c.toNat / 4096 % 64 ≤ greatest.toNat := by
      rw [atMost, first]
      split_ifs <;> omega
    rw [← second] at low high
    rw [List.cons_append, readFrom_lead led, List.cons_append, readFrom_owed low high, List.cons_append,
      readFrom_owed (by rw [third]; simp) (by rw [third]; simp; omega), List.singleton_append,
      readFrom_last (by rw [fourth]; simp) (by rw [fourth]; simp; omega), first, second, third, fourth, number,
      back]

/-- Every text is read back from its bytes. -/
theorem read_encode (t : Text) : read (encode t) = (t, .complete) := by
  rw [read]
  induction t with
  | nil => rfl
  | cons c t ih =>
    rw [encode, List.flatMap_cons, readFrom_encodeChar]
    rw [encode] at ih
    rw [ih]

@[simp] theorem decode?_encode (t : Text) : decode? (encode t) = some t := by
  rw [decode?, read_encode]

/-! ### Canonical bytes -/

theorem toNat_scalar {n : Nat} (valid : n < 0xD800 ∨ 0xDFFF < n ∧ n < 0x110000) :
    (Char.ofNat n).toNat = n := by
  have scalar : n.isValidChar := valid
  rw [Char.ofNat, dif_pos scalar]
  rfl

theorem byte_of_toNat {n : Nat} {b : UInt8} (same : n = b.toNat) : UInt8.ofNat n = b := by
  rw [same, UInt8.ofNat_toNat]

/-- Only these bytes come first in a character of more than one byte. -/
theorem lead_bounds {b : UInt8} {state : State} (found : lead b = some state) :
    0xC2 ≤ b.toNat ∧ b.toNat ≤ 0xF4 := by
  simp only [lead, UInt8.lt_iff_toNat_lt, UInt8.le_iff_toNat_le, ← UInt8.toNat_inj] at found
  simp only [UInt8.reduceToNat] at found
  split_ifs at found <;> omega

/-- Bytes that end between characters go on inside a character with a byte in its bounds. -/
theorem readFrom_inside {owed value : Nat} {first last : UInt8} {bytes : List UInt8} {t : Text}
    (done : readFrom (.inside owed first last value) bytes = (t, .complete)) :
    ∃ b rest, bytes = b :: rest ∧ first.toNat ≤ b.toNat ∧ b.toNat ≤ last.toNat ∧
      ∀ more, owed = more + 1 →
        readFrom (.inside more 0x80 0xBF (value * 64 + (b.toNat - 0x80))) rest = (t, .complete) := by
  cases bytes with
  | nil => simp [readFrom] at done
  | cons b rest =>
    rw [readFrom.eq_def] at done
    dsimp only at done
    split at done
    · next bounds =>
      refine ⟨b, rest, rfl, UInt8.le_iff_toNat_le.mp bounds.1, UInt8.le_iff_toNat_le.mp bounds.2, ?_⟩
      rintro more rfl
      exact done
    · simp at done

theorem encodeChar_two {a b : UInt8} (lowA : 0xC2 ≤ a.toNat) (highA : a.toNat ≤ 0xDF)
    (lowB : 0x80 ≤ b.toNat) (highB : b.toNat ≤ 0xBF) :
    encodeChar (Char.ofNat ((a.toNat - 0xC0) * 64 + (b.toNat - 0x80))) = [a, b] := by
  rw [encodeChar, toNat_scalar (by omega)]
  rw [if_neg (by omega), if_pos (by omega), byte_of_toNat (b := a) (by omega), byte_of_toNat (b := b) (by omega)]

/-- Three bytes within their bounds spell a character that needs three. -/
theorem encodeChar_three {a b c : UInt8} (lowA : 0xE0 ≤ a.toNat) (highA : a.toNat ≤ 0xEF)
    (lowB : (if a.toNat = 0xE0 then 0xA0 else 0x80) ≤ b.toNat)
    (highB : b.toNat ≤ if a.toNat = 0xED then 0x9F else 0xBF)
    (lowC : 0x80 ≤ c.toNat) (highC : c.toNat ≤ 0xBF) :
    encodeChar (Char.ofNat (((a.toNat - 0xE0) * 64 + (b.toNat - 0x80)) * 64 + (c.toNat - 0x80))) =
      [a, b, c] := by
  have long : 0x800 ≤ ((a.toNat - 0xE0) * 64 + (b.toNat - 0x80)) * 64 + (c.toNat - 0x80) := by
    split_ifs at lowB <;> omega
  have valid : ((a.toNat - 0xE0) * 64 + (b.toNat - 0x80)) * 64 + (c.toNat - 0x80) < 0xD800 ∨
      0xDFFF < ((a.toNat - 0xE0) * 64 + (b.toNat - 0x80)) * 64 + (c.toNat - 0x80) ∧
        ((a.toNat - 0xE0) * 64 + (b.toNat - 0x80)) * 64 + (c.toNat - 0x80) < 0x110000 := by
    split_ifs at lowB highB <;> omega
  have tailB : 0x80 ≤ b.toNat ∧ b.toNat ≤ 0xBF := by
    split_ifs at lowB highB <;> omega
  rw [encodeChar, toNat_scalar valid]
  rw [if_neg (by omega), if_neg (by omega), if_pos (by omega), byte_of_toNat (b := a) (by omega),
    byte_of_toNat (b := b) (by omega), byte_of_toNat (b := c) (by omega)]

theorem encodeChar_four {a b c d : UInt8} (lowA : 0xF0 ≤ a.toNat) (highA : a.toNat ≤ 0xF4)
    (lowB : (if a.toNat = 0xF0 then 0x90 else 0x80) ≤ b.toNat)
    (highB : b.toNat ≤ if a.toNat = 0xF4 then 0x8F else 0xBF)
    (lowC : 0x80 ≤ c.toNat) (highC : c.toNat ≤ 0xBF) (lowD : 0x80 ≤ d.toNat) (highD : d.toNat ≤ 0xBF) :
    encodeChar (Char.ofNat ((((a.toNat - 0xF0) * 64 + (b.toNat - 0x80)) * 64 + (c.toNat - 0x80)) * 64 +
      (d.toNat - 0x80))) = [a, b, c, d] := by
  have long : 0x10000 ≤ (((a.toNat - 0xF0) * 64 + (b.toNat - 0x80)) * 64 + (c.toNat - 0x80)) * 64 +
      (d.toNat - 0x80) := by
    split_ifs at lowB <;> omega
  have valid : (((a.toNat - 0xF0) * 64 + (b.toNat - 0x80)) * 64 + (c.toNat - 0x80)) * 64 +
      (d.toNat - 0x80) < 0x110000 := by
    split_ifs at highB <;> omega
  have tailB : 0x80 ≤ b.toNat ∧ b.toNat ≤ 0xBF := by
    split_ifs at lowB highB <;> omega
  rw [encodeChar, toNat_scalar (by omega)]
  rw [if_neg (by omega), if_neg (by omega), if_neg (by omega), byte_of_toNat (b := a) (by omega),
    byte_of_toNat (b := b) (by omega), byte_of_toNat (b := c) (by omega), byte_of_toNat (b := d) (by omega)]

/-- Bytes that are read to their end begin with those of a character. -/
theorem exists_encodeChar {a : UInt8} {bytes : List UInt8} {t : Text}
    (done : readFrom .between (a :: bytes) = (t, .complete)) :
    ∃ c rest, a :: bytes = encodeChar c ++ rest := by
  by_cases ascii : a.toNat < 0x80
  · refine ⟨Char.ofNat a.toNat, bytes, ?_⟩
    rw [encodeChar, toNat_scalar (by omega)]
    rw [if_pos ascii, byte_of_toNat rfl, List.singleton_append]
  · have large : ¬ a < 0x80 := by rw [UInt8.lt_iff_toNat_lt]; exact ascii
    rw [readFrom, if_neg large] at done
    cases found : lead a with
    | none => simp [found] at done
    | some state =>
      simp only [found] at done
      have bounds := lead_bounds found
      by_cases two : a.toNat ≤ 0xDF
      · rw [lead_two bounds.1 two] at found
        obtain rfl := Option.some.inj found
        obtain ⟨b, rest, rfl, lowB, highB, _⟩ := readFrom_inside done
        exact ⟨_, rest, by rw [encodeChar_two bounds.1 two lowB highB]; rfl⟩
      · by_cases three : a.toNat ≤ 0xEF
        · obtain ⟨least, greatest, led, atLeast, atMost⟩ := lead_three (b := a) (by omega) three
          rw [led] at found
          obtain rfl := Option.some.inj found
          obtain ⟨b, rest, rfl, lowB, highB, next⟩ := readFrom_inside done
          obtain ⟨c, rest, rfl, lowC, highC, _⟩ := readFrom_inside (next 0 rfl)
          rw [atLeast] at lowB
          rw [atMost] at highB
          exact ⟨_, rest, by rw [encodeChar_three (by omega) three lowB highB lowC highC]; rfl⟩
        · obtain ⟨least, greatest, led, atLeast, atMost⟩ := lead_four (b := a) (by omega) bounds.2
          rw [led] at found
          obtain rfl := Option.some.inj found
          obtain ⟨b, rest, rfl, lowB, highB, next⟩ := readFrom_inside done
          obtain ⟨c, rest, rfl, lowC, highC, next⟩ := readFrom_inside (next 1 rfl)
          obtain ⟨d, rest, rfl, lowD, highD, _⟩ := readFrom_inside (next 0 rfl)
          rw [atLeast] at lowB
          rw [atMost] at highB
          exact ⟨_, rest, by
            rw [encodeChar_four (by omega) bounds.2 lowB highB lowC highC lowD highD]; rfl⟩

theorem encodeChar_ne_nil (c : Char) : encodeChar c ≠ [] := by
  rw [encodeChar]
  split_ifs <;> simp

/-- Bytes that are read to their end are those of the text. -/
theorem eq_encode_of_complete (bytes : List UInt8) {t : Text}
    (done : readFrom .between bytes = (t, .complete)) : bytes = encode t := by
  match bytes with
  | [] =>
    obtain ⟨rfl, _⟩ := Prod.mk.inj done
    rfl
  | a :: others =>
    obtain ⟨c, rest, begins⟩ := exists_encodeChar done
    have shorter : rest.length < (a :: others).length := by
      have some : 0 < (encodeChar c).length := List.length_pos_iff.mpr (encodeChar_ne_nil c)
      rw [begins, List.length_append]
      omega
    rw [begins, readFrom_encodeChar] at done
    obtain ⟨rfl, ending⟩ := Prod.mk.inj done
    have remaining := eq_encode_of_complete rest (Prod.ext rfl ending)
    rw [begins, encode, List.flatMap_cons, ← encode, ← remaining]
termination_by bytes.length
decreasing_by exact shorter

/-- A text decodes from no bytes but its own. -/
theorem decode?_eq_some_iff {bytes : List UInt8} {t : Text} : decode? bytes = some t ↔ bytes = encode t := by
  constructor
  · intro decoded
    rw [decode?] at decoded
    split at decoded
    · next text done =>
      obtain rfl := Option.some.inj decoded
      exact eq_encode_of_complete bytes done
    · cases decoded
  · rintro rfl
    exact decode?_encode t

end Stylepress.Utf8
