import Stylepress.Proofs.LoneRuleset
import Stylepress.Proofs.Terminated

/-!
Addresses in declarations. `low` writes a space behind every comma and breaks the line behind every semicolon,
whether it ends a declaration or stands in an address; the other levels write a ruleset without blanks as it is.
So an address is written unchanged above `low` if it has no vowel separator, and at `low` if it has no comma and
no semicolon either (`url_written_iff`).
-/
namespace Stylepress.Css

/-! ### What follows a separator -/

/-- Every `sep` of a text has a `mark` right behind it. -/
def Followed (sep mark : Char) (t : Text) : Prop := ∀ a b, t = a ++ sep :: b → b.head? = some mark

section
variable {sep mark : Char}

theorem followed_of_not_mem {t : Text} (absent : sep ∉ t) : Followed sep mark t := by
  rintro a b rfl
  simp at absent

theorem followed_cons {t : Text} (later : Followed sep mark (mark :: t)) :
    Followed sep mark (sep :: mark :: t) := by
  intro a b shape
  cases a with
  | nil =>
    obtain rfl : mark :: t = b := (List.cons.inj shape).2
    rfl
  | cons c a => exact later a b (List.cons.inj shape).2

theorem append_eq_append_cons {t u a b : Text} (same : t ++ u = a ++ sep :: b) :
    (∃ rest, t = a ++ sep :: rest ∧ b = rest ++ u) ∨ ∃ front, u = front ++ sep :: b := by
  have cut : t ++ [] ++ u = a ++ sep :: b := by simpa using same
  rcases Text.append_eq_append_cons_cases (by simp) cut with ⟨rest, left, right⟩ | ⟨front, _, right⟩
  · exact .inl ⟨rest, left, by simpa using right⟩
  · exact .inr ⟨front, right⟩

theorem Followed.append {t u : Text} (first : Followed sep mark t) (second : Followed sep mark u) :
    Followed sep mark (t ++ u) := by
  intro a b shape
  rcases append_eq_append_cons shape with ⟨rest, inside, rfl⟩ | ⟨front, inside⟩
  · rw [List.head?_append, first a rest inside]
    rfl
  · exact second front b inside

theorem Followed.of_suffix {t u : Text} (followed : Followed sep mark t) (suffix : u <:+ t) :
    Followed sep mark u := by
  obtain ⟨front, rfl⟩ := suffix
  rintro a b rfl
  exact followed (front ++ a) b (by simp)

/-- A text may be trimmed where what comes next is the mark. -/
theorem Followed.trim_append {t rest : Text} (followed : Followed sep mark t) (next : rest.head? = some mark)
    (later : Followed sep mark rest) : Followed sep mark (Text.trim t ++ rest) := by
  intro a b shape
  rcases append_eq_append_cons shape with ⟨inner, inside, rfl⟩ | ⟨front, inside⟩
  · obtain ⟨x, y, whole⟩ := Text.exists_trim t
    rw [inside] at whole
    have behind := followed (x ++ a) (inner ++ y) (by rw [whole]; simp)
    cases inner with
    | nil => exact next
    | cons c inner => exact behind
  · exact later front b inside

end

theorem followed_join (depth : Int) {ts : List Text} (each : ∀ t ∈ ts, ';' ∉ t) :
    Followed ';' '\n' (Text.join (';' :: '\n' :: Layout.tabs depth) ts) := by
  have separator : Followed ';' '\n' (';' :: '\n' :: Layout.tabs depth) :=
    followed_cons (followed_of_not_mem (by simp [Layout.not_mem_tabs]))
  induction ts with
  | nil => exact followed_of_not_mem List.not_mem_nil
  | cons first others ih =>
    obtain ⟨here, later⟩ := List.forall_mem_cons.mp each
    cases others with
    | nil => exact followed_of_not_mem here
    | cons second others => exact ((followed_of_not_mem here).append separator).append (ih later)

/-- `low` breaks the line behind every semicolon of a body. -/
theorem followed_declarations (depth : Int) (t : Text) : Followed ';' '\n' (Layout.declarations .low depth t) := by
  refine followed_join (depth + 1) ?_
  intro u member
  obtain ⟨piece, inPieces, rfl⟩ := List.mem_map.mp member
  rw [mem_iff_of_filter (by decide) fun p solid => filter_declaration solid .low piece]
  exact Text.not_mem_of_mem_pieces inPieces

theorem followed_ruleset (depth : Int) {selectors : Text} (noSemicolon : ';' ∉ selectors) (body : Text) :
    Followed ';' '\n' (Layout.ruleset .low depth selectors body) := by
  have head : ';' ∉ Text.trim (Layout.respaceCommas [' '] selectors) := by
    have same : ∀ p : Char → Bool, Solid p →
        (Text.trim (Layout.respaceCommas [' '] selectors)).filter p = selectors.filter p := fun p solid =>
      (Text.filter_trim solid _).trans (filter_respaceCommas solid .low selectors)
    rwa [mem_iff_of_filter (by decide) same]
  have lead : Followed ';' '\n' (Text.trim (Layout.respaceCommas [' '] selectors) ++ [' '] ++
      '{' :: '\n' :: Layout.tabs (depth + 1)) := followed_of_not_mem (by simp [head, Layout.not_mem_tabs])
  have foot : Followed ';' '\n' ('\n' :: Layout.tabs depth ++ ['}']) :=
    followed_of_not_mem (by simp [Layout.not_mem_tabs])
  have whole := lead.append ((followed_declarations depth body).trim_append rfl foot)
  simpa [Layout.ruleset, Layout.declarationBreak, Layout.closingBreak, Level.breaksDeclarations, Level.space]
    using whole

/-! ### Addresses -/

/-- The characters of an address without quotes: no blanks, and no character that ends it or starts another part of
    the stylesheet. -/
def isAddressChar (c : Char) : Bool :=
  !Text.isBlank c && !(c == '(' || c == ')' || c == '{' || c == '}' || c == '@' || c == '*')

/-- What stands between the parentheses of an address. -/
structure Address where
  text : Text
  allowed : ∀ c ∈ text, isAddressChar c = true

namespace Address
variable (address : Address)

def written : Text := ['u', 'r', 'l', '('] ++ address.text ++ [')']

/-- A ruleset with one declaration, whose value is an address. -/
def source (selector property : Plain.Word .header) : Text :=
  selector.text ++ '{' :: (property.text ++ ':' :: address.written) ++ ['}']

theorem not_mem {c : Char} (other : isAddressChar c = false) : c ∉ address.text := by
  intro member
  simp [address.allowed c member] at other

/-- An address with a separator that is written with a blank behind it everywhere is not written unchanged. -/
theorem not_written {sep mark : Char} (member : sep ∈ address.text) (blank : Text.isBlank mark = true) {t : Text}
    (followed : Followed sep mark t) : ¬ address.written <:+: t := by
  rintro ⟨before, after, rfl⟩
  obtain ⟨x, y, shape⟩ := List.append_of_mem member
  have next := followed (before ++ ['u', 'r', 'l', '('] ++ x) (y ++ ')' :: after) (by simp [written, shape])
  cases y with
  | nil =>
    obtain rfl : ')' = mark := by simpa using next
    exact absurd blank (by decide)
  | cons d y =>
    obtain rfl : d = mark := by simpa using next
    have solid := address.allowed d (by simp [shape])
    simp [isAddressChar, blank] at solid

end Address

/-- No level that presses writes a vowel separator. -/
theorem vowelSeparator_not_mem_minify {level : Level} (pressed : level ≠ .off) (source : Text) :
    vowelSeparator ∉ minify source level := by
  have cleaned : vowelSeparator ∉ clean (Text.trim source) := by
    intro member
    obtain ⟨c, _, same⟩ := List.mem_map.mp ((clean_sublist _).subset member)
    exact spaced_ne_vowelSeparator c same
  have settled : vowelSeparator ∉ Semicolon.settle level (clean (Text.trim source)) := by
    rw [Semicolon.settle]
    split
    · intro member
      rcases mem_restoreFrom member with semicolon | inside
      · exact absurd semicolon (by decide)
      · exact cleaned inside
    · exact fun member => cleaned (mem_drop member)
  have laid : vowelSeparator ∉ (layout level (Text.trim source)).output := by
    have same := fun p solid => filter_layoutOf (p := p) solid level (segmented level (Text.trim source))
    rw [layout, mem_iff_of_filter (by decide) same]
    have inside := flatMap_kept_sublist (not_mem_settle (not_mem_clean (Text.trim source)) level)
    exact fun member => settled (inside.subset member)
  have token : vowelSeparator ∉ Token.ofLevel level := by cases level <;> decide
  rcases minify_of_pressed pressed source with ⟨none, _⟩ | signed
  · rw [none]
    exact List.not_mem_nil
  · rw [signed, List.mem_append, not_or]
    exact ⟨fun member => laid ((List.dropWhile_sublist _).subset member), token⟩

theorem isBare_of_word (word : Plain.Word .header) {c : Char} (member : c ∈ word.text) : isBare c = true := by
  have allowed := word.allowed c member
  have solid := Plain.isSolid_iff.mp (Plain.WordKind.isSolid_of_allows allowed)
  have noAt : c ≠ '@' := by
    rintro rfl
    exact absurd allowed (by decide)
  exact isBare_iff.mpr ⟨solid.1, solid.2.1, solid.2.2.1, noAt, solid.2.2.2.2.2⟩

theorem isSpacing_eq_false {c : Char} (solid : Text.isBlank c = false) (other : c ≠ vowelSeparator) :
    Plain.isSpacing c = false := by
  rw [Bool.eq_false_iff, ne_eq, isSpacing_iff]
  simp [solid, other]

namespace Address
variable (address : Address)

theorem isBare_of_mem_written (noSeparator : vowelSeparator ∉ address.text) {c : Char}
    (member : c ∈ address.written) : isBare c = true := by
  simp only [written, List.mem_append, List.mem_singleton] at member
  rcases member with (name | inside) | rfl
  · exact List.all_eq_true.mp (show ['u', 'r', 'l', '('].all isBare = true by decide) c name
  · have allowed := address.allowed c inside
    simp only [isAddressChar, Bool.and_eq_true, Bool.not_eq_true', Bool.or_eq_false_iff, beq_eq_false_iff_ne]
      at allowed
    obtain ⟨solid, ⟨⟨⟨_, noOpen⟩, noClose⟩, noAt⟩, noStar⟩ := allowed
    have other : c ≠ vowelSeparator := by
      rintro rfl
      exact noSeparator inside
    exact isBare_iff.mpr ⟨isSpacing_eq_false solid other, noOpen, noClose, noAt, noStar⟩
  · decide

/-- An address without a vowel separator, in a ruleset on its own. -/
def lone (noSeparator : vowelSeparator ∉ address.text) (selector property : Plain.Word .header) : Lone where
  selectors := selector.text
  body := property.text ++ ':' :: address.written
  chosen := selector.filled
  declared := by simp
  bareSelectors := fun _ => isBare_of_word selector
  bareBody := by
    intro c member
    rcases List.mem_append.mp member with inside | inside
    · exact isBare_of_word property inside
    · rcases List.mem_cons.mp inside with rfl | inside
      · decide
      · exact address.isBare_of_mem_written noSeparator inside
  last := by simp [written, List.getLast?_cons]

end Address

/-! ### Commas -/

/-- A text with `space` behind every comma. -/
def commaSpaced (space t : Text) : Text := t.flatMap fun c => if c = ',' then ',' :: space else [c]

theorem commaSpaced_of_not_mem (space : Text) {t : Text} (noComma : ',' ∉ t) : commaSpaced space t = t := by
  induction t with
  | nil => rfl
  | cons c t ih =>
    have other : c ≠ ',' := fun same => noComma (by simp [same])
    have later := ih fun member => noComma (List.mem_cons_of_mem c member)
    rw [commaSpaced] at later ⊢
    simp [other, later]

theorem not_mem_commaSpaced {c : Char} {t : Text} (absent : c ∉ t) (noComma : c ≠ ',') (noSpace : c ≠ ' ') :
    c ∉ commaSpaced [' '] t := by
  intro member
  obtain ⟨d, inside, written⟩ := List.mem_flatMap.mp member
  split at written
  · simp [noComma, noSpace] at written
  · obtain rfl : c = d := by simpa using written
    exact absent inside

theorem followed_commaSpaced (t : Text) : Followed ',' ' ' (commaSpaced [' '] t) := by
  induction t with
  | nil => exact followed_of_not_mem List.not_mem_nil
  | cons c t ih =>
    refine Followed.append (t := if c = ',' then [',', ' '] else [c]) ?_ ih
    split
    · exact followed_cons (followed_of_not_mem (by decide))
    · next other => exact followed_of_not_mem (by simpa using Ne.symm other)

/-- What respacing makes of a text without spaces that a parenthesis closes. -/
theorem respaceCommas_closed (space : Text) {t : Text} (noSpace : ' ' ∉ t) (rest : Text) :
    Layout.respaceCommas space (t ++ ')' :: rest) =
      commaSpaced space t ++ ')' :: Layout.respaceCommas space rest := by
  rw [Layout.respaceCommas, Layout.respaceCommas]
  induction t with
  | nil =>
    rw [List.nil_append, Text.pass_cons, Plain.comma?_of_ne (by decide) (by decide)]
    rfl
  | cons c t ih =>
    have later := ih fun member => noSpace (List.mem_cons_of_mem c member)
    by_cases comma : c = ','
    · have found : Layout.comma? space (',' :: (t ++ ')' :: rest)) = some ⟨0, ',' :: space⟩ := by
        cases t with
        | nil => rfl
        | cons d t =>
          have other : d ≠ ' ' := fun same => noSpace (by simp [same])
          simp [Layout.comma?, other]
      rw [comma, List.cons_append, Text.pass_cons, found]
      simp [commaSpaced, later]
    · have other : c ≠ ' ' := fun same => noSpace (by simp [same])
      rw [List.cons_append, Text.pass_cons, Plain.comma?_of_ne comma other]
      simp [commaSpaced, comma, later]

namespace Address
variable (address : Address) (selector property : Plain.Word .header)

theorem not_mem_word (word : Plain.Word .header) {c : Char} (other : Plain.WordKind.header.allows c = false) :
    c ∉ word.text := by
  intro member
  simp [word.allowed c member] at other

/-- An address as `low` writes it, if no semicolon divides it. -/
def lowWritten : Text := ['u', 'r', 'l', '('] ++ commaSpaced [' '] address.text ++ [')']

theorem declarations_low (noSemicolon : ';' ∉ address.text) :
    Layout.declarations .low 0 (property.text ++ ':' :: address.written ++ [';']) =
      property.text ++ ':' :: ' ' :: address.lowWritten ++ [';', '\n', '\t'] := by
  have noSpace : ' ' ∉ address.text := address.not_mem (by decide)
  have noSemicolonWord : ';' ∉ property.text := not_mem_word property (by decide)
  have respaced : Layout.respaceCommas [' '] (property.text ++ ':' :: address.written ++ [';']) =
      (property.text ++ ':' :: address.lowWritten) ++ [';'] := by
    have before : Plain.Respaces [' '] (property.text ++ [':', 'u', 'r', 'l', '('])
        (property.text ++ [':', 'u', 'r', 'l', '(']) := by
      refine Plain.respaces_of_not_mem ?_ ?_
      · simp [not_mem_word property (c := ',') (by decide)]
      · simp [not_mem_word property (c := ' ') (by decide)]
    have behind := respaceCommas_closed [' '] noSpace [';']
    have alone : Layout.respaceCommas [' '] [';'] = [';'] := rfl
    have whole := before (address.text ++ [')', ';'])
    rw [behind, alone] at whole
    simpa [written, lowWritten] using whole
  have single : ';' ∉ property.text ++ ':' :: address.lowWritten := by
    simp [noSemicolonWord, lowWritten, not_mem_commaSpaced noSemicolon]
  have declared : Layout.declaration [' '] (property.text ++ ':' :: address.lowWritten) =
      property.text ++ ':' :: ' ' :: address.lowWritten := by
    have noColon : ':' ∉ property.text := not_mem_word property (by decide)
    have last : Layout.dropLastSpace property.text = property.text :=
      if_neg (by simpa [Text.endsWith] using property.getLast?_ne (c := ' ') (by decide))
    rw [Layout.declaration, Text.splitFirst_append noColon]
    simp [last, lowWritten, Layout.dropFirstSpace]
  show Text.join (';' :: '\n' :: Layout.tabs 1) ((Text.pieces ';' (Layout.respaceCommas [' ']
    (property.text ++ ':' :: address.written ++ [';']))).map (Layout.declaration [' '])) = _
  rw [respaced, Text.pieces_append single, List.map_cons, declared]
  simp [Text.pieces, Text.join, Layout.declaration, Text.splitFirst, Layout.tabs]

theorem ruleset_low (noSemicolon : ';' ∉ address.text) :
    Layout.ruleset .low 0 selector.text (property.text ++ ':' :: address.written ++ [';']) =
      selector.text ++ [' ', '{', '\n', '\t'] ++ (property.text ++ ':' :: ' ' :: address.lowWritten ++ [';']) ++
        ['\n', '}'] := by
  have chosen : Text.trim (Layout.respaceCommas [' '] selector.text) = selector.text := by
    have same : Layout.respaceCommas [' '] selector.text = selector.text := by
      simpa [Layout.respaceCommas] using selector.respaces [' '] []
    rw [same, selector.trimmed.1.trim_eq]
  have trimmed : Text.Trimmed (property.text ++ ':' :: ' ' :: address.lowWritten ++ [';']) := by
    constructor
    · intro c first
      obtain ⟨d, rest, shape⟩ := List.exists_cons_of_ne_nil property.filled
      obtain rfl : d = c := by simpa [shape] using first
      exact isBlank_of_isBare (isBare_of_word property (by simp [shape]))
    · intro c last
      obtain rfl : ';' = c := Option.some.inj (List.getLast?_concat.symm.trans last)
      decide
  have declared : Text.trim (Layout.declarations .low 0 (property.text ++ ':' :: address.written ++ [';'])) =
      property.text ++ ':' :: ' ' :: address.lowWritten ++ [';'] := by
    have blank : ∀ c ∈ ['\n', '\t'], Text.isBlank c = true := List.all_eq_true.mp (by decide)
    have around := trimmed.trim_between (List.forall_mem_nil _) blank
    rw [address.declarations_low property noSemicolon]
    simpa using around
  rw [Layout.ruleset, declared]
  simp [Layout.declarationBreak, Layout.closingBreak, Level.breaksDeclarations, Level.space, Layout.tabs, chosen]

/-- The ruleset at `low`, if no semicolon divides the address. -/
theorem minify_low (noSeparator : vowelSeparator ∉ address.text) (noSemicolon : ';' ∉ address.text) :
    minify (address.source selector property) .low =
      selector.text ++ [' ', '{', '\n', '\t'] ++ property.text ++ [':', ' '] ++ address.lowWritten ++
        [';', '\n', '}', '\n'] ++ Token.ofLevel .low := by
  have pressed := (address.lone noSeparator selector property).minify_text (show Level.low ≠ .off by decide)
  have laid : Layout.written .low 0 (Layout.ruleset .low 0 selector.text
      (property.text ++ ':' :: address.written ++ [';'])) = selector.text ++ ([' ', '{', '\n', '\t'] ++
        property.text ++ [':', ' '] ++ address.lowWritten ++ [';', '\n', '}', '\n']) := by
    rw [address.ruleset_low selector property noSemicolon]
    simp [Layout.written, Level.keepsLayout, Layout.tabs]
  have start := (address.lone noSeparator selector property).trimStart_selectors
    ([' ', '{', '\n', '\t'] ++ property.text ++ [':', ' '] ++ address.lowWritten ++ [';', '\n', '}', '\n'])
  have whole := pressed.trans (congrArg (Text.trimStart · ++ Token.ofLevel .low) laid)
  refine (whole.trans (congrArg (· ++ Token.ofLevel .low) start)).trans ?_
  simp [lone]

/-- At `low` an address without comma and semicolon is written unchanged. -/
theorem written_low (noSeparator : vowelSeparator ∉ address.text) (noComma : ',' ∉ address.text)
    (noSemicolon : ';' ∉ address.text) : address.written <:+: minify (address.source selector property) .low := by
  have same : address.lowWritten = address.written := by
    rw [lowWritten, commaSpaced_of_not_mem [' '] noComma, written]
  rw [address.minify_low selector property noSeparator noSemicolon, same, List.append_assoc]
  exact List.infix_append _ _ _

/-- A semicolon that divides an address has the line broken behind it. -/
theorem followed_semicolon (noSeparator : vowelSeparator ∉ address.text) :
    Followed ';' '\n' (minify (address.source selector property) .low) := by
  have pressed := (address.lone noSeparator selector property).minify_text (show Level.low ≠ .off by decide)
  have laid := followed_ruleset 0 (not_mem_word selector (c := ';') (by decide))
    ((address.lone noSeparator selector property).settled .low)
  have line : Followed ';' '\n' (Layout.written .low 0 (Layout.ruleset .low 0 selector.text
      ((address.lone noSeparator selector property).settled .low))) :=
    laid.append (followed_of_not_mem (by decide))
  have token : Followed ';' '\n' (Token.ofLevel .low) := followed_of_not_mem (by decide)
  have whole := (line.of_suffix (List.dropWhile_suffix Text.isBlank)).append token
  exact pressed ▸ whole

/-- A comma in an address has a space written behind it. -/
theorem followed_comma (noSeparator : vowelSeparator ∉ address.text) (noSemicolon : ';' ∉ address.text) :
    Followed ',' ' ' (minify (address.source selector property) .low) := by
  have inSelector := not_mem_word selector (c := ',') (by decide)
  have inProperty := not_mem_word property (c := ',') (by decide)
  have lead : Followed ',' ' ' (selector.text ++ [' ', '{', '\n', '\t'] ++ property.text ++ [':', ' '] ++
      ['u', 'r', 'l', '(']) := followed_of_not_mem (by simp [inSelector, inProperty])
  have foot : Followed ',' ' ' ([')'] ++ [';', '\n', '}', '\n'] ++ Token.ofLevel .low) :=
    followed_of_not_mem (by decide)
  have whole := (lead.append (followed_commaSpaced address.text)).append foot
  rw [address.minify_low selector property noSeparator noSemicolon, lowWritten]
  simpa using whole

theorem not_written_low (noSeparator : vowelSeparator ∉ address.text)
    (divided : ',' ∈ address.text ∨ ';' ∈ address.text) :
    ¬ address.written <:+: minify (address.source selector property) .low := by
  -- The semicolon first: behind one, a colon right after a comma takes the space of the comma away.
  by_cases semicolon : ';' ∈ address.text
  · exact address.not_written semicolon (by decide) (address.followed_semicolon selector property noSeparator)
  · have comma := divided.resolve_right semicolon
    exact address.not_written comma (by decide) (address.followed_comma selector property noSeparator semicolon)

end Address

/-- An address is written unchanged if, and only if, it has no vowel separator and, at `low`, neither a comma nor a
    semicolon. -/
theorem url_written_iff (selector property : Plain.Word .header) (address : Address) {level : Level}
    (pressed : level ≠ .off) :
    address.written <:+: minify (address.source selector property) level ↔
      vowelSeparator ∉ address.text ∧ (level = .low → ',' ∉ address.text ∧ ';' ∉ address.text) := by
  by_cases separator : vowelSeparator ∈ address.text
  · refine iff_of_false ?_ fun both => both.1 separator
    intro inside
    refine vowelSeparator_not_mem_minify pressed _ (inside.subset ?_)
    simp [Address.written, separator]
  · by_cases low : level = .low
    · subst low
      by_cases divided : ',' ∈ address.text ∨ ';' ∈ address.text
      · refine iff_of_false (address.not_written_low selector property separator divided) ?_
        rintro ⟨_, whole⟩
        exact divided.elim (whole rfl).1 (whole rfl).2
      · rw [not_or] at divided
        exact iff_of_true (address.written_low selector property separator divided.1 divided.2)
          ⟨separator, fun _ => divided⟩
    · refine iff_of_true ?_ ⟨separator, fun same => absurd same low⟩
      have inside : address.written <:+: address.source selector property :=
        ⟨selector.text ++ '{' :: (property.text ++ [':']), ['}'], by simp [Address.source]⟩
      exact inside.trans ((address.lone separator selector property).infix_minify pressed low)

/-- The words of the smallest ruleset. -/
def letterA : Plain.Word .header := ⟨['a'], by decide, List.all_eq_true.mp (by decide)⟩

def letterB : Plain.Word .header := ⟨['b'], by decide, List.all_eq_true.mp (by decide)⟩

/-- Addresses with a comma, with a semicolon, with a vowel separator, and with none of them. -/
def commaAddress : Address := ⟨['c', ',', 'd'], List.all_eq_true.mp (by decide)⟩

def semicolonAddress : Address := ⟨['c', ';', 'd'], List.all_eq_true.mp (by decide)⟩

def separatorAddress : Address := ⟨['c', vowelSeparator, 'd'], List.all_eq_true.mp (by decide)⟩

def queryAddress : Address :=
  ⟨['c', ':', '/', '/', 'd', '?', 'e', '=', 'f'], List.all_eq_true.mp (by decide)⟩

theorem url_written_letters :
    queryAddress.written <:+: minify (queryAddress.source letterA letterB) .low ∧
      commaAddress.written <:+: minify (commaAddress.source letterA letterB) .medium ∧
      semicolonAddress.written <:+: minify (semicolonAddress.source letterA letterB) .high := by
  refine ⟨(url_written_iff letterA letterB queryAddress (by decide)).mpr (by decide), ?_, ?_⟩
  · exact (url_written_iff letterA letterB commaAddress (by decide)).mpr (by decide)
  · exact (url_written_iff letterA letterB semicolonAddress (by decide)).mpr (by decide)

/-- A level does not write an address unchanged. -/
def Changes (level : Level) (address : Address) : Prop :=
  ¬ address.written <:+: minify (address.source letterA letterB) level

instance (level : Level) (address : Address) : Decidable (Changes level address) :=
  inferInstanceAs (Decidable (¬ _))

/-- Commas and semicolons do not come through `low`, and vowel separators through no level. -/
theorem url_changed :
    Changes .low commaAddress ∧ Changes .low semicolonAddress ∧ Changes .low separatorAddress ∧
      Changes .medium separatorAddress ∧ Changes .high separatorAddress := by
  decide +kernel

end Stylepress.Css
