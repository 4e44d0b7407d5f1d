import Stylepress.Disk.Edit
import Stylepress.Disk.Media
import Stylepress.Proofs.Utf8

/-!
Texts cut at a byte. After any bytes the reader has gone wrong for good or stands in a state that can be
completed (`lost_or_open`), so bytes that are not malformed are exactly those that some text begins with
(`not_malformed_iff`). They end between characters or inside one (`cut_iff`). A file that holds a text is
therefore taken for one wherever the window cuts it (`sniffed_text`).
-/
namespace Stylepress.Utf8

/-! ### Bytes that begin a text -/

/-- Some byte may come next. -/
def State.IsOpen : State → Prop
  | .between => True
  | .inside _ low high _ => low ≤ high

/-- The least bytes that end the character at hand. -/
def State.completion : State → List UInt8
  | .between => []
  | .inside owed low _ _ => low :: List.replicate owed 0x80

theorem isOpen_of_lead {b : UInt8} {state : State} (found : lead b = some state) : state.IsOpen := by
  unfold lead at found
  split_ifs at found <;> obtain rfl := Option.some.inj found <;> simp [State.IsOpen]

theorem isOpen_owed (owed value : Nat) : (State.inside owed 0x80 0xBF value).IsOpen := by
  simp [State.IsOpen]

/-- After any bytes the reader has gone wrong for good or stands in an open state. -/
theorem lost_or_open (state : State) (possible : state.IsOpen) (bytes : List UInt8) :
    (∀ more, (readFrom state (bytes ++ more)).2 = .malformed) ∨
      ∃ next : State, next.IsOpen ∧ ∀ more, (readFrom state (bytes ++ more)).2 = (readFrom next more).2 := by
  fun_induction readFrom state bytes with
  | case1 => exact .inr ⟨.between, trivial, fun _ => rfl⟩
  | case2 owed low high value => exact .inr ⟨_, possible, fun _ => rfl⟩
  | case3 b rest ascii after ih =>
    simp only [List.cons_append, readFrom, if_pos ascii]
    exact ih trivial
  | case4 b rest large wrong =>
    refine .inl fun more => ?_
    rw [List.cons_append, readFrom, if_neg large, wrong]
  | case5 b rest large state found ih =>
    simp only [List.cons_append, readFrom, if_neg large, found]
    exact ih (isOpen_of_lead found)
  | case6 low high value b rest bounds after ih =>
    simp only [List.cons_append, readFrom, if_pos bounds]
    exact ih trivial
  | case7 low high value b rest bounds owed ih =>
    simp only [List.cons_append, readFrom, if_pos bounds]
    exact ih (isOpen_owed ..)
  | case8 owed low high value b rest out =>
    refine .inl fun more => ?_
    rw [List.cons_append, readFrom.eq_def]
    simp only [if_neg out]

theorem ending_completion {state : State} (possible : state.IsOpen) :
    (readFrom state state.completion).2 = .complete := by
  cases state with
  | between => rfl
  | inside owed low high value =>
    rw [State.completion]
    induction owed generalizing low high value with
    | zero => rw [readFrom, if_pos ⟨UInt8.le_refl low, possible⟩]; rfl
    | succ owed ih =>
      rw [readFrom, if_pos ⟨UInt8.le_refl low, possible⟩, List.replicate_succ]
      exact ih _ _ _ (isOpen_owed ..)

theorem complete_iff {bytes : List UInt8} : (read bytes).2 = .complete ↔ ∃ t, bytes = encode t := by
  constructor
  · intro done
    exact ⟨(read bytes).1, eq_encode_of_complete bytes (Prod.ext rfl done)⟩
  · rintro ⟨t, rfl⟩
    rw [read_encode]

/-- The bytes that are not malformed are those that some text begins with. -/
theorem not_malformed_iff {bytes : List UInt8} : (read bytes).2 ≠ .malformed ↔ ∃ t, bytes <+: encode t := by
  have outcome := lost_or_open .between trivial bytes
  constructor
  · intro right
    rcases outcome with lost | ⟨next, possible, same⟩
    · have malformed := lost []
      rw [List.append_nil] at malformed
      exact absurd malformed right
    · -- The bytes end in an open state, so its completion makes them the bytes of a text.
      obtain ⟨t, whole⟩ := complete_iff.mp ((same next.completion).trans (ending_completion possible))
      exact ⟨t, next.completion, whole⟩
  · rintro ⟨t, more, whole⟩ wrong
    rcases outcome with lost | ⟨next, _, same⟩
    · have malformed := lost more
      rw [whole, ← read, read_encode] at malformed
      cases malformed
    · have ending := same []
      rw [List.append_nil, ← read, wrong] at ending
      cases next with
      | between => cases ending
      | inside owed low high value => cases ending

/-! ### Bytes that end inside a character -/

/-- The bytes of a text, and behind them the first bytes of one more character. -/
def EndsInside (bytes : List UInt8) : Prop :=
  ∃ t c front, bytes = encode t ++ front ∧ front ≠ [] ∧ front <+: encodeChar c ∧ front ≠ encodeChar c

theorem encode_cons (c : Char) (t : Text) : encode (c :: t) = encodeChar c ++ encode t := List.flatMap_cons

theorem encode_or_endsInside {bytes : List UInt8} {t : Text} (begins : bytes <+: encode t) :
    (∃ u, bytes = encode u) ∨ EndsInside bytes := by
  induction t generalizing bytes with
  | nil => exact .inl ⟨[], List.prefix_nil.mp begins⟩
  | cons c t ih =>
    obtain ⟨more, whole⟩ := begins
    rw [encode_cons, List.append_eq_append_iff] at whole
    rcases whole with ⟨others, first, _⟩ | ⟨rest, rfl, behind⟩
    · -- The bytes end within those of the first character.
      by_cases none : bytes = []
      · exact .inl ⟨[], none⟩
      · by_cases all : bytes = encodeChar c
        · exact .inl ⟨[c], by rw [all, encode_cons, encode, List.flatMap_nil, List.append_nil]⟩
        · exact .inr ⟨[], c, bytes, rfl, none, ⟨others, first.symm⟩, all⟩
    · rcases ih ⟨more, behind.symm⟩ with ⟨u, rfl⟩ | ⟨u, d, front, rfl, some, starts, proper⟩
      · exact .inl ⟨c :: u, (encode_cons c u).symm⟩
      · exact .inr ⟨c :: u, d, front, by rw [encode_cons, List.append_assoc], some, starts, proper⟩

theorem ending_encode_append (t : Text) (rest : List UInt8) :
    (read (encode t ++ rest)).2 = (read rest).2 := by
  rw [read, read]
  induction t with
  | nil => rfl
  | cons c t ih => rw [encode_cons, List.append_assoc, readFrom_encodeChar, ih]

/-- No character's bytes begin with those of another one. -/
theorem encodeChar_prefix_iff {c d : Char} : encodeChar c <+: encodeChar d ↔ c = d := by
  constructor
  · rintro ⟨rest, same⟩
    have one := readFrom_encodeChar c rest
    have other := readFrom_encodeChar d []
    rw [List.append_nil, ← same, one] at other
    exact (List.cons.inj (Prod.mk.inj other).1).1
  · rintro rfl
    exact List.prefix_refl _

theorem not_complete_of_front {c : Char} {front : List UInt8} (some : front ≠ []) (starts : front <+: encodeChar c)
    (proper : front ≠ encodeChar c) : (read front).2 ≠ .complete := by
  intro done
  obtain ⟨t, rfl⟩ := complete_iff.mp done
  cases t with
  | nil => exact some rfl
  | cons d t =>
    rw [encode_cons] at starts proper
    obtain rfl := encodeChar_prefix_iff.mp ((List.prefix_append _ _).trans starts)
    -- The front holds the whole first character, so nothing of the character is left behind it.
    refine proper (starts.eq_of_length_le ?_)
    rw [List.length_append]
    omega

/-- Bytes that are cut end inside a character. -/
theorem cut_iff {bytes : List UInt8} : (read bytes).2 = .cut ↔ EndsInside bytes := by
  constructor
  · intro cut
    obtain ⟨t, begins⟩ := not_malformed_iff.mp (by rw [cut]; decide)
    rcases encode_or_endsInside begins with whole | inside
    · rw [complete_iff.mpr whole] at cut
      cases cut
    · exact inside
  · rintro ⟨t, c, front, rfl, some, starts, proper⟩
    have incomplete := not_complete_of_front some starts proper
    have right : (read front).2 ≠ .malformed := by
      refine not_malformed_iff.mpr ⟨[c], ?_⟩
      rwa [encode_cons, encode, List.flatMap_nil, List.append_nil]
    rw [ending_encode_append]
    cases ending : (read front).2 with
    | complete => exact absurd ending incomplete
    | cut => rfl
    | malformed => exact absurd ending right

/-! ### Bytes of the standard encoding -/

theorem encodeChar_eq (c : Char) : encodeChar c = String.utf8EncodeChar c := by
  have valid := scalar_bounds c
  have number : c.val.toNat = c.toNat := rfl
  rw [encodeChar, String.utf8EncodeChar]
  simp only [number]
  by_cases one : c.toNat < 0x80
  · rw [if_pos one, if_pos (by omega)]
  · by_cases two : c.toNat < 0x800
    · have first : c.toNat / 64 % 32 = c.toNat / 64 := by omega
      rw [if_neg one, if_pos two, if_neg (by omega), if_pos (by omega), first]
      simp only [Nat.add_comm]
    · by_cases three : c.toNat < 0x10000
      · have first : c.toNat / 4096 % 16 = c.toNat / 4096 := by omega
        rw [if_neg one, if_neg two, if_pos three, if_neg (by omega), if_neg (by omega), if_pos (by omega), first]
        simp only [Nat.add_comm]
      · have first : c.toNat / 262144 % 8 = c.toNat / 262144 := by omega
        rw [if_neg one, if_neg two, if_neg three, if_neg (by omega), if_neg (by omega), if_neg (by omega), first]
        simp only [Nat.add_comm]

theorem isValidUTF8_iff {bytes : List UInt8} :
    bytes.toByteArray.IsValidUTF8 ↔ ∃ t, bytes = encode t := by
  have same : ∀ t : Text, t.utf8Encode = (encode t).toByteArray := by
    intro t
    rw [List.utf8Encode, encode, funext encodeChar_eq]
  constructor
  · rintro ⟨t, spelled⟩
    rw [same, List.toByteArray_inj] at spelled
    exact ⟨t, spelled⟩
  · rintro ⟨t, rfl⟩
    exact ⟨t, (same t).symm⟩

end Stylepress.Utf8

namespace Stylepress.Media

/-- A text seems to be one if no NUL stands in the window, which may cut a character. -/
theorem ofBytes_encode (t : Text) :
    ofBytes (Utf8.encode t) = if 0 ∈ (Utf8.encode t).take window then .binary else .plainText := by
  have right : (Utf8.read ((Utf8.encode t).take window)).2 ≠ .malformed :=
    Utf8.not_malformed_iff.mpr ⟨t, List.take_prefix _ _⟩
  rw [ofBytes]
  simp [right]

/-- A file that the window holds as a whole seems to be a text if it has no NUL and is a text or the start of
    one. -/
theorem ofBytes_eq_plainText_iff {content : Bytes} (small : content.length ≤ window) :
    ofBytes content = .plainText ↔
      0 ∉ content ∧ ((∃ t, content = Utf8.encode t) ∨ Utf8.EndsInside content) := by
  rw [ofBytes, List.take_of_length_le small, ← Utf8.complete_iff, ← Utf8.cut_iff]
  cases (Utf8.read content).2 <;> simp

/-- A file that holds a text seems to be a text, unless a NUL stands in the window, wherever the window
    ends. -/
theorem sniffed_text {disk : Disk} {path : Text} {content : Bytes} {modified : Time}
    (named : disk.status path = .ok (.file content modified)) (text : content.toByteArray.IsValidUTF8) :
    (sniff? disk path).map name =
      some (if 0 ∈ content.take 8192 then "application/octet-stream" else "text/plain") := by
  obtain ⟨t, rfl⟩ := Utf8.isValidUTF8_iff.mp text
  have seen : sniff? disk path = some (ofBytes (Utf8.encode t)) := by rw [sniff?, Disk.readBytes, named]
  have size : window = 8192 := rfl
  rw [seen, Option.map_some, ofBytes_encode, size]
  by_cases nul : 0 ∈ (Utf8.encode t).take 8192
  · rw [if_pos nul, if_pos nul, name]
  · rw [if_neg nul, if_neg nul, name]

/-- A text whose byte 8192 is the second of the four of a character. -/
def longText : Text := List.replicate 8190 'a' ++ [Char.ofNat 0x1F600, 'b']

def longDisk : Disk := (Disk.bare [] 0).putFile 0 [['a']] (Utf8.encode longText) 1

theorem sniffed_text_cut :
    longDisk.status ['a'] = .ok (.file (Utf8.encode longText) 1) ∧
      (Utf8.encode longText).toByteArray.IsValidUTF8 ∧
      (sniff? longDisk ['a']).map name = some "text/plain" := by
  have named : longDisk.status ['a'] = .ok (.file (Utf8.encode longText) 1) := rfl
  have valid : (Utf8.encode longText).toByteArray.IsValidUTF8 := Utf8.isValidUTF8_iff.mpr ⟨longText, rfl⟩
  have bytes : Utf8.encode longText = List.replicate 8190 97 ++ [0xF0, 0x9F, 0x98, 0x80, 98] := by
    rw [longText, Utf8.encode, List.flatMap_append, List.flatMap_replicate]
    have letter : Utf8.encodeChar 'a' = [97] := rfl
    rw [letter, List.flatten_replicate_singleton]
    rfl
  have noNul : 0 ∉ (Utf8.encode longText).take 8192 := by
    intro member
    have inside := List.mem_of_mem_take member
    rw [bytes, List.mem_append] at inside
    rcases inside with letter | other
    · exact absurd (List.eq_of_mem_replicate letter) (by decide)
    · exact absurd other (by decide)
  refine ⟨named, valid, ?_⟩
  rw [sniffed_text named valid, if_neg noNul]

end Stylepress.Media
