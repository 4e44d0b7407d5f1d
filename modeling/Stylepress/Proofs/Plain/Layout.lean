import Stylepress.Proofs.Plain.Segmentation

/-!
Laying the rows of a stylesheet out. Each row is recognised by its shape and written as in the
canonical layout, whatever single spaces its tidy text still has beside commas, colons and conditions
(`RowText.classify`); and the lines of a whole rule leave the depth as they found it
(`Rule.laid`), so that a stylesheet's lines give its canonical layout (`layout_spelling`).
-/
namespace Stylepress.Plain
open Css

/-! ### Commas -/

theorem comma?_of_ne {c : Char} (noComma : c ≠ ',') (noSpace : c ≠ ' ') (space rest : Text) :
    Layout.comma? space (c :: rest) = none := by
  unfold Layout.comma?
  split <;> simp_all

theorem comma?_space {d : Char} (noComma : d ≠ ',') (space rest : Text) :
    Layout.comma? space (' ' :: d :: rest) = none := by
  unfold Layout.comma?
  split <;> simp_all

/-- Once its commas are respaced, `t` is `image`, whatever stands behind it. -/
def Respaces (space t image : Text) : Prop :=
  ∀ rest, Layout.respaceCommas space (t ++ rest) = image ++ Layout.respaceCommas space rest

section
variable {space : Text}

theorem Respaces.append {t u image next : Text} (front : Respaces space t image)
    (back : Respaces space u next) : Respaces space (t ++ u) (image ++ next) := by
  intro rest
  rw [List.append_assoc, front, back, List.append_assoc]

theorem respaces_of_not_mem {t : Text} (noComma : ',' ∉ t) (noSpace : ' ' ∉ t) : Respaces space t t := by
  refine Text.pass_append_of_forall ?_
  intro c member rest
  refine comma?_of_ne ?_ ?_ space rest
  · rintro rfl
    exact noComma member
  · rintro rfl
    exact noSpace member

/-- A single space that no comma follows stays. -/
theorem Respaces.behind_gap {gap : Text} (single : gap = [] ∨ gap = [' ']) {t image : Text}
    (start : ∀ c ∈ t.head?, c ≠ ',') (filled : t ≠ []) (respaces : Respaces space t image) :
    Respaces space (gap ++ t) (gap ++ image) := by
  intro rest
  rcases single with rfl | rfl
  · exact respaces rest
  · obtain ⟨c, u, rfl⟩ := List.exists_cons_of_ne_nil filled
    have step := respaces rest
    rw [Layout.respaceCommas] at step ⊢
    simp only [List.cons_append, List.nil_append] at step ⊢
    rw [Text.pass_cons, comma?_space (start c rfl), step]

/-- Single spaces beside a comma make way for the level's space. -/
theorem Respaces.behind_comma {before after : Text} (left : before = [] ∨ before = [' '])
    (right : after = [] ∨ after = [' ']) {t image : Text} (starts : StartsSolid t)
    (respaces : Respaces space t image) :
    Respaces space (before ++ ',' :: after ++ t) (',' :: space ++ image) := by
  intro rest
  obtain ⟨c, u, rfl, solid⟩ := starts
  have noSpace : c ≠ ' ' := ne_of_isSolid solid (by decide)
  have step := respaces rest
  rw [Layout.respaceCommas] at step ⊢
  rcases left with rfl | rfl <;> rcases right with rfl | rfl <;>
    simp_all [Text.pass_cons, Layout.comma?]

theorem Word.respaces {kind : WordKind} (word : Word kind) (space : Text) :
    Respaces space word.text word.text :=
  respaces_of_not_mem (word.not_mem (by decide)) (word.not_mem (by decide))

theorem StartsSolid.head?_ne {t : Text} (starts : StartsSolid t) : ∀ c ∈ t.head?, c ≠ ',' :=
  fun c member => ne_of_isSolid (starts.solid_of_head c member) (by decide)

theorem Phrase.starts_solid {kind : WordKind} (phrase : Phrase kind) : StartsSolid phrase.written := by
  rw [Phrase.written, Several.toList, List.map_cons, Text.join_cons]
  exact phrase.first.starts_solid.append _

/-- Words keep the single spaces between them. -/
theorem Phrase.respaces {kind : WordKind} (phrase : Phrase kind) (space : Text) :
    Respaces space phrase.written phrase.written := by
  rw [Phrase.written, Several.toList, List.map_cons, Text.join_cons]
  refine (phrase.first.respaces space).append ?_
  induction phrase.others with
  | nil => exact fun rest => rfl
  | cons word words ih =>
    have starts := word.starts_solid
    exact ((word.respaces space).behind_gap (.inr rfl) starts.head?_ne starts.ne_nil).append ih

theorem Spaced.phrases {w : Word .any} {phrases : List (Phrase .plain)} {lexemes : List Lexeme} {t : Text}
    (spaced : Spaced Tidy (.word w) (phrases.flatMap (.comma :: ·.lexemes) ++ lexemes) t) :
    ∃ v w u, Spaced Tidy (.word w) lexemes u ∧ t = v ++ u ∧
      ∀ space, Respaces space v ((phrases.map Phrase.written).flatMap (',' :: space ++ ·)) := by
  induction phrases generalizing w t with
  | nil => exact ⟨[], w, t, spaced, rfl, fun space rest => rfl⟩
  | cons phrase phrases ih =>
    simp only [List.flatMap_cons, List.cons_append, List.append_assoc] at spaced
    obtain ⟨before, rest, joinLeft, behind, rfl⟩ := spaced.cons_inv
    obtain ⟨after, w, u, joinRight, later, rfl⟩ := behind.phrase Tidy.between_words
    obtain ⟨v, w, u, spacedLater, rfl, respaces⟩ := ih later
    refine ⟨before ++ ',' :: after ++ phrase.written ++ v, w, u, spacedLater, ?_, ?_⟩
    · simp [Lexeme.text]
    · intro space
      have here := (phrase.respaces space).behind_comma joinLeft.single joinRight.single
        phrase.starts_solid
      exact here.append (respaces space)

/-- A tidy series is written with the level's space behind its commas. -/
theorem Spaced.series {a : Lexeme} {series : Series} {lexemes : List Lexeme} {t : Text}
    (spaced : Spaced Tidy a (series.lexemes ++ lexemes) t) :
    ∃ gap v w u, Tidy a (.word series.first.first.anywhere) gap ∧ Spaced Tidy (.word w) lexemes u ∧
      t = gap ++ v ++ u ∧ StartsSolid v ∧ ∀ space, Respaces space v (series.written space) := by
  rw [Series.lexemes, List.append_assoc] at spaced
  obtain ⟨gap, w, u, join, later, rfl⟩ := spaced.phrase Tidy.between_words
  obtain ⟨v, w, u, spacedLater, rfl, respaces⟩ := later.phrases
  refine ⟨gap, series.first.written ++ v, w, u, join, spacedLater, by simp,
    series.first.starts_solid.append v, ?_⟩
  intro space
  rw [Series.written, Several.toList, List.map_cons, Text.join_cons]
  exact (series.first.respaces space).append (respaces space)

/-! ### Declarations -/

/-- A declaration with at most one space on either side of its colon. -/
def Loose (space : Text) (declaration : Declaration) (t : Text) : Prop :=
  ∃ left right, (left = [] ∨ left = [' ']) ∧ (right = [] ∨ right = [' ']) ∧
    t = declaration.property.text ++ (left ++ ':' :: (right ++ declaration.value.written space))

theorem Spaced.declaration {declaration : Declaration} {lexemes : List Lexeme} {t : Text}
    (spaced : Spaced Tidy .semicolon (declaration.lexemes ++ lexemes) t) :
    ∃ v w u, Spaced Tidy (.word w) lexemes u ∧ t = v ++ u ∧
      ∀ space, ∃ image, Loose space declaration image ∧ Respaces space v image := by
  obtain ⟨gap, rest, join, behind, rfl⟩ := spaced.cons_inv
  obtain rfl := join.mark (.inl rfl)
  obtain ⟨left, rest, joinLeft, inValue, rfl⟩ := behind.cons_inv
  obtain ⟨right, v, w, u, joinRight, later, rfl, starts, respaces⟩ := inValue.series
  refine ⟨declaration.property.text ++ (left ++ ':' :: (right ++ v)), w, u, later, ?_, ?_⟩
  · simp [Lexeme.text, Word.anywhere]
  · intro space
    refine ⟨_, ⟨left, right, joinLeft.single, joinRight.single, rfl⟩, ?_⟩
    have value := (respaces space).behind_gap joinRight.single starts.head?_ne starts.ne_nil
    have colon : Respaces space [':'] [':'] := respaces_of_not_mem (by decide) (by decide)
    have inFull := (colon.append value).behind_gap joinLeft.single (by simp) (by simp)
    exact (declaration.property.respaces space).append inFull

end

theorem Spaced.declarations {w : Word .any} {declarations : List Declaration} {t : Text}
    (spaced : Spaced Tidy (.word w) (declarations.flatMap (.semicolon :: ·.lexemes)) t) (space : Text) :
    ∃ ts, List.Forall₂ (Loose space) declarations ts ∧ Respaces space t (ts.flatMap ([';'] ++ ·)) := by
  induction declarations generalizing w t with
  | nil =>
    obtain rfl := spaced.nil_inv
    exact ⟨[], .nil, fun rest => rfl⟩
  | cons declaration declarations ih =>
    rw [List.flatMap_cons, List.cons_append] at spaced
    obtain ⟨rest, behind, rfl⟩ := spaced.mark_inv rfl
    obtain ⟨v, w, u, later, rfl, images⟩ := behind.declaration
    obtain ⟨image, loose, respaces⟩ := images space
    obtain ⟨ts, all, respacesLater⟩ := ih later
    have semicolon : Respaces space [';'] [';'] := respaces_of_not_mem (by decide) (by decide)
    refine ⟨image :: ts, .cons loose all, ?_⟩
    have joined := semicolon.append (respaces.append respacesLater)
    simpa [Lexeme.text] using joined

/-- The declarations of a ruleset, once their commas are respaced. -/
theorem Spaced.body {declarations : Several Declaration} {t : Text}
    (spaced : Spaced Tidy .semicolon (bodyLexemes declarations) t) (space : Text) :
    ∃ first others, List.Forall₂ (Loose space) declarations.toList (first :: others) ∧
      Respaces space t (Text.join [';'] (first :: others)) := by
  obtain ⟨v, w, u, later, rfl, images⟩ := spaced.declaration
  obtain ⟨image, loose, respaces⟩ := images space
  obtain ⟨ts, all, respacesLater⟩ := later.declarations space
  refine ⟨image, ts, .cons loose all, ?_⟩
  rw [Text.join_cons]
  exact respaces.append respacesLater

theorem Series.not_mem_written {series : Series} {space : Text} {c : Char} (other : isSolid c = false)
    (noSpace : c ≠ ' ') (noComma : c ≠ ',') (absent : c ∉ space) : c ∉ series.written space := by
  have inPhrase : ∀ phrase : Phrase .plain, c ∉ phrase.written := by
    intro phrase member
    rcases Phrase.of_mem_written member with rfl | allowed
    · exact noSpace rfl
    · simp [WordKind.isSolid_of_allows allowed] at other
  rw [Series.written, Several.toList, List.map_cons, Text.join_cons, List.mem_append, List.mem_flatMap]
  rintro (inside | ⟨t, inList, inside⟩)
  · exact inPhrase _ inside
  · obtain ⟨phrase, _, rfl⟩ := List.mem_map.mp inList
    simp_all

theorem Loose.not_mem {space : Text} {declaration : Declaration} {t : Text}
    (loose : Loose space declaration t) (absent : ';' ∉ space) : ';' ∉ t := by
  obtain ⟨left, right, leftSingle, rightSingle, rfl⟩ := loose
  have property : ';' ∉ declaration.property.text := declaration.property.not_mem (by decide)
  have value : ';' ∉ declaration.value.written space :=
    Series.not_mem_written (by decide) (by decide) (by decide) absent
  rcases leftSingle with rfl | rfl <;> rcases rightSingle with rfl | rfl <;> simp_all

theorem Word.getLast?_ne {kind : WordKind} (word : Word kind) {c : Char} (other : isSolid c = false) :
    word.text.getLast? ≠ some c := by
  intro last
  exact word.not_mem other (List.mem_of_getLast? last)

theorem Series.starts_solid (series : Series) (space : Text) : StartsSolid (series.written space) := by
  rw [Series.written, Several.toList, List.map_cons, Text.join_cons]
  exact series.first.starts_solid.append _

/-- A loose declaration is laid out in the canonical way. -/
theorem Loose.declaration_eq {space : Text} {declaration : Declaration} {t : Text}
    (loose : Loose space declaration t) : Layout.declaration space t = declaration.written space := by
  obtain ⟨left, right, leftSingle, rightSingle, rfl⟩ := loose
  have noColon : ':' ∉ declaration.property.text ++ left := by
    intro member
    rcases List.mem_append.mp member with inside | inside
    · exact absurd (declaration.property.allowed ':' inside) (by decide)
    · rcases leftSingle with rfl | rfl <;> simp at inside
  have cut := Text.splitFirst_append noColon (right ++ declaration.value.written space)
  have property : Layout.dropLastSpace (declaration.property.text ++ left) = declaration.property.text := by
    rcases leftSingle with rfl | rfl
    · have other := declaration.property.getLast?_ne (c := ' ') (by decide)
      simp [Layout.dropLastSpace, Text.endsWith, other]
    · simp [Layout.dropLastSpace, Text.endsWith]
  have value : Layout.dropFirstSpace (right ++ declaration.value.written space) =
      declaration.value.written space := by
    obtain ⟨c, u, shape, solid⟩ := declaration.value.starts_solid space
    have other : c ≠ ' ' := ne_of_isSolid solid (by decide)
    rcases rightSingle with rfl | rfl
    · rw [shape]
      simp [Layout.dropFirstSpace, other]
    · rfl
  rw [Layout.declaration, ← List.append_assoc, cut]
  simp only [property, value]
  rfl

theorem Word.trimmed {kind : WordKind} (word : Word kind) : Text.Trimmed word.text ∧ word.text ≠ [] := by
  refine ⟨Text.trimmed_of_forall ?_, word.filled⟩
  intro c member
  exact isBlank_of_isSolid (WordKind.isSolid_of_allows (word.allowed c member))

theorem Several.trimmed_join {α : Type} (several : Several α) {f : α → Text}
    (parts : ∀ x, Text.Trimmed (f x) ∧ f x ≠ []) (sep : Text) :
    Text.Trimmed (Text.join sep (several.toList.map f)) ∧ Text.join sep (several.toList.map f) ≠ [] := by
  refine Text.trimmed_join ?_
  intro t member
  obtain ⟨x, _, rfl⟩ := List.mem_map.mp (show t ∈ several.toList.map f from member)
  exact parts x

theorem Phrase.trimmed {kind : WordKind} (phrase : Phrase kind) :
    Text.Trimmed phrase.written ∧ phrase.written ≠ [] :=
  phrase.trimmed_join (fun word => word.trimmed) [' ']

theorem Series.trimmed (series : Series) (space : Text) :
    Text.Trimmed (series.written space) ∧ series.written space ≠ [] :=
  series.trimmed_join (fun phrase => phrase.trimmed) (',' :: space)

theorem Declaration.trimmed (declaration : Declaration) (space : Text) :
    Text.Trimmed (declaration.written space) ∧ declaration.written space ≠ [] := by
  obtain ⟨property, filled⟩ := declaration.property.trimmed
  obtain ⟨value, valueFilled⟩ := declaration.value.trimmed space
  exact ⟨property.append value filled valueFilled (':' :: space), by simp [Declaration.written]⟩

theorem isBlank_of_mem_declarationBreak {level : Level} {depth : Int} {c : Char}
    (member : c ∈ Layout.declarationBreak level depth) : Text.isBlank c = true := by
  rw [Layout.declarationBreak] at member
  split at member
  · rcases List.mem_cons.mp member with rfl | inside
    · decide
    · obtain rfl := List.eq_of_mem_replicate inside
      decide
  · cases member

theorem map_declaration {space : Text} {declarations : List Declaration} {ts : List Text}
    (loose : List.Forall₂ (Loose space) declarations ts) :
    ts.map (Layout.declaration space) = declarations.map (Declaration.written space) := by
  induction loose with
  | nil => rfl
  | cons here later ih => rw [List.map_cons, List.map_cons, here.declaration_eq, ih]

/-- The declarations of a ruleset are laid out in the canonical way, one behind the other. -/
theorem trim_declarations {declarations : Several Declaration} {body : Text}
    (declared : Spaced Tidy .semicolon (bodyLexemes declarations) body) (level : Level) (depth : Int)
    (ended : Bool) :
    Text.trim (Layout.declarations level depth (body ++ if ended then [';'] else [])) =
      Text.join (';' :: Layout.declarationBreak level depth)
        (declarations.toList.map (Declaration.written level.space)) ++
      if ended then [';'] else [] := by
  obtain ⟨first, others, loose, respaces⟩ := declared.body level.space
  have noSemicolon : ∀ t ∈ first :: others, ';' ∉ t := by
    intro t member
    obtain ⟨declaration, loose⟩ := exists_of_forall₂ loose member
    exact loose.not_mem (by cases level <;> decide)
  obtain ⟨trimmed, filled⟩ := declarations.trimmed_join (fun next => next.trimmed level.space)
    (';' :: Layout.declarationBreak level depth)
  have laidOut := map_declaration loose
  rw [Layout.declarations, respaces]
  cases ended with
  | false =>
    have cut := Text.pieces_join noSemicolon
    simp only [Layout.respaceCommas, Text.pass_nil, List.append_nil, cut, laidOut, Bool.false_eq_true,
      if_false]
    exact trimmed.trim_eq
  | true =>
    have cut : Text.pieces ';' (Text.join [';'] (first :: others) ++ [';']) = first :: others ++ [[]] := by
      rw [← Text.join_concat_nil [';'] (by simp), List.cons_append, Text.pieces_join]
      intro t member
      rw [← List.cons_append, List.mem_append] at member
      rcases member with inside | inside
      · exact noSemicolon t inside
      · simp [List.mem_singleton.mp inside]
    have semicolon : Layout.respaceCommas level.space [';'] = [';'] := rfl
    have nothing : Layout.declaration level.space [] = [] := rfl
    have closed : Text.Trimmed [';'] := Text.trimmed_singleton (by decide)
    have whole := (trimmed.append closed filled (by simp) []).trim_between
      (a := []) (b := Layout.declarationBreak level depth) (by simp)
      fun c => isBlank_of_mem_declarationBreak
    simp only [if_true, semicolon, cut, List.map_append, laidOut, List.map_cons, nothing, List.map_nil]
    rw [Text.join_concat_nil _ (by simp [Several.toList])]
    simpa using whole

/-! ### Rulesets -/

theorem trim_selectors {selectors : Series} {t : Text}
    (chosen : Spaced Tidy .semicolon selectors.lexemes t) (space : Text) :
    Text.trim (Layout.respaceCommas space t) = selectors.written space := by
  rw [← List.append_nil selectors.lexemes] at chosen
  obtain ⟨gap, v, w, u, join, last, rfl, _, respaces⟩ := chosen.series
  obtain rfl := join.mark (.inl rfl)
  obtain rfl := last.nil_inv
  have same : Layout.respaceCommas space ([] ++ v ++ []) = selectors.written space := by
    simpa [Layout.respaceCommas] using respaces space []
  rw [same]
  exact (selectors.trimmed space).1.trim_eq

theorem ruleset_eq {selectors : Series} {declarations : Several Declaration} {t body : Text}
    (chosen : Spaced Tidy .semicolon selectors.lexemes t)
    (declared : Spaced Tidy .semicolon (bodyLexemes declarations) body) (level : Level) (depth : Nat) :
    Layout.ruleset level depth t (body ++ if level.keepsLastSemicolon then [';'] else []) =
      Plain.ruleset level depth selectors declarations := by
  rw [Layout.ruleset, trim_selectors chosen, trim_declarations declared]
  simp only [Plain.ruleset, Layout.declarationBreak, Layout.closingBreak, List.append_assoc,
    List.cons_append]
  rfl

/-- A line is recognised as the ruleset that it is. -/
theorem classify_ruleset {selectors : Series} {declarations : Several Declaration} {t body : Text}
    (chosen : Spaced Tidy .semicolon selectors.lexemes t)
    (declared : Spaced Tidy .semicolon (bodyLexemes declarations) body) (ended : Bool) :
    Line.classify (t ++ '{' :: body ++ (if ended then [';'] else []) ++ ['}']) =
      .ruleset t (body ++ if ended then [';'] else []) := by
  obtain ⟨c, u, rfl, solid⟩ := chosen.starts_solid
  have noClose : '}' ∉ body ++ if ended then [';'] else [] := by
    cases ended <;> simp [declared.body_inline.noClose]
  have filled : (body ++ if ended then [';'] else []).isEmpty = false := by
    obtain ⟨d, v, rfl, _⟩ := declared.starts_solid
    rfl
  have first := Text.splitFirst_append chosen.selectors_inline.noOpen
    (body ++ (if ended then [';'] else []) ++ ['}'])
  have second := Text.splitFirst_append noClose []
  have found : Line.ruleset? (c :: u ++ '{' :: body ++ (if ended then [';'] else []) ++ ['}']) =
      some (c :: u, body ++ if ended then [';'] else []) := by
    simp only [List.append_assoc, List.cons_append] at first second ⊢
    simp [Line.ruleset?, first, second, filled]
  have start : c ≠ '}' := ne_of_isSolid solid (by decide)
  rw [Line.classify, found, Text.endsWith, Text.endsWith, List.getLast?_concat]
  simp [Text.startsWith, start]

/-! ### Openings -/

theorem respacing?_of_ne {c : Char} (solid : Text.isBlank c = false) (other : c ≠ '(') (space rest : Text) :
    Condition.respacing? space (c :: rest) = none := by
  simp [Condition.respacing?, Condition.firstBlank, solid, other]

theorem respacing?_space {d : Char} (other : d ≠ '(') (space rest : Text) :
    Condition.respacing? space (' ' :: d :: rest) = none := by
  have blank : Text.isBlank ' ' = true := by decide
  simp [Condition.respacing?, Condition.firstBlank, blank, other]

theorem respace_append (space : Text) {t : Text}
    (plain : ∀ c ∈ t, Text.isBlank c = false ∧ c ≠ '(') (rest : Text) :
    Condition.respace space (t ++ rest) = t ++ Condition.respace space rest :=
  Text.pass_append_of_forall (fun c member rest =>
    respacing?_of_ne (plain c member).1 (plain c member).2 space rest) rest

theorem Word.header_plain (word : Word .header) {c : Char} (member : c ∈ word.text) :
    Text.isBlank c = false ∧ c ≠ '(' := by
  have allowed := word.allowed c member
  refine ⟨?_, ?_⟩
  · exact isBlank_of_isSolid (WordKind.isSolid_of_allows allowed)
  · rintro rfl
    exact absurd allowed (by decide)

theorem respace_word (space : Text) (word : Word .header) (rest : Text) :
    Condition.respace space (word.text ++ rest) = word.text ++ Condition.respace space rest :=
  respace_append space (fun _ => word.header_plain) rest

theorem respace_space_word (space : Text) (word : Word .header) (rest : Text) :
    Condition.respace space (' ' :: word.text ++ rest) =
      ' ' :: word.text ++ Condition.respace space rest := by
  obtain ⟨c, u, shape⟩ := List.exists_cons_of_ne_nil word.filled
  have other := (word.header_plain (c := c) (by simp [shape])).2
  have later := respace_word space word rest
  rw [shape] at later ⊢
  rw [Condition.respace] at later ⊢
  simp only [List.cons_append] at later ⊢
  rw [Text.pass_cons, respacing?_space other, later]

/-- A condition is read whatever single spaces stand beside its colon. -/
theorem read_condition (feature : Word .header) (value : Phrase .header) {left right : Text}
    (leftSingle : left = [] ∨ left = [' ']) (rightSingle : right = [] ∨ right = [' ']) (rest : Text) :
    Condition.read (feature.text ++ (left ++ ':' :: (right ++ (value.written ++ ')' :: rest)))) =
      .condition ⟨feature.text, value.written⟩
        (feature.text ++ (left ++ ':' :: (right ++ (value.written ++ [')'])))).length := by
  have isFeature : ∀ c ∈ feature.text, Condition.isFeature c = true := by
    intro c member
    have colon : c ≠ ':' := by
      rintro rfl
      exact absurd (feature.allowed ':' member) (by decide)
    simp [Condition.isFeature, colon, (feature.header_plain member).1]
  have noClose : ')' ∉ value.written := by
    intro member
    rcases Phrase.of_mem_written member with space | allowed
    · exact absurd space (by decide)
    · exact absurd allowed (by decide)
  have named : (feature.text ++ (left ++ ':' :: (right ++ (value.written ++ ')' :: rest)))).takeWhile
      Condition.isFeature = feature.text := by
    rw [List.takeWhile_append_of_pos isFeature]
    rcases leftSingle with rfl | rfl <;> simp [Condition.isFeature, Text.isBlank]
  have before : (left ++ ':' :: (right ++ (value.written ++ ')' :: rest))).takeWhile Text.isBlank = left := by
    rcases leftSingle with rfl | rfl <;> simp [Text.isBlank]
  have after : (right ++ (value.written ++ ')' :: rest)).takeWhile Text.isBlank = right := by
    obtain ⟨c, u, shape, solid⟩ := value.starts_solid
    have notBlank : Text.isBlank c = false := isBlank_of_isSolid solid
    rcases rightSingle with rfl | rfl
    · simp [shape, notBlank]
    · simp [shape, notBlank, show Text.isBlank ' ' = true by decide]
  have behind : (feature.text ++ (left ++ ':' :: (right ++ (value.written ++ ')' :: rest)))).drop
      (feature.text.length + left.length) = ':' :: (right ++ (value.written ++ ')' :: rest)) := by
    rw [← List.append_assoc, ← List.length_append, List.drop_left]
  have cut := Text.splitFirst_append noClose rest
  simp only [Condition.read, named, List.drop_left, before, behind, after, cut]
  simp [feature.filled, value.trimmed.2, Nat.add_assoc, Nat.add_comm, Nat.add_left_comm]

theorem firstBlank_append {gap : Text} (single : gap = [] ∨ gap = [' ']) {rest : Text}
    (behind : ∀ c ∈ rest.head?, Text.isBlank c = false) : Condition.firstBlank (gap ++ rest) = gap := by
  rcases single with rfl | rfl
  · cases rest with
    | nil => rfl
    | cons c rest => simp [Condition.firstBlank, behind c rfl]
  · simp [Condition.firstBlank, show Text.isBlank ' ' = true by decide]

/-- A condition takes the single spaces around it along. -/
theorem respace_read {inside lead trail rest : Text} {condition : Condition}
    (reading : Condition.read (inside ++ (trail ++ rest)) = .condition condition inside.length)
    (leadSingle : lead = [] ∨ lead = [' ']) (trailSingle : trail = [] ∨ trail = [' '])
    (behind : ∀ c ∈ rest.head?, Text.isBlank c = false) (space : Text) :
    Condition.respace space (lead ++ '(' :: (inside ++ (trail ++ rest))) =
      condition.write space ++ Condition.respace space rest := by
  have start : Condition.firstBlank (lead ++ '(' :: (inside ++ (trail ++ rest))) = lead := by
    refine firstBlank_append leadSingle ?_
    intro c member
    obtain rfl := Option.some.inj member
    decide
  have finish := firstBlank_append trailSingle behind
  have found : Condition.respacing? space (lead ++ '(' :: (inside ++ (trail ++ rest))) =
      some ⟨lead.length + inside.length + trail.length, condition.write space⟩ := by
    simp only [Condition.respacing?, start, List.drop_left, reading, finish]
  have shape : lead ++ '(' :: (inside ++ (trail ++ rest)) = lead ++ '(' :: (inside ++ trail) ++ rest := by
    simp
  rw [shape] at found ⊢
  exact Text.pass_append_of_some found (by simp; omega)

theorem Spaced.condition {w : Word .any} {feature : Word .header} {value : Phrase .header}
    {lexemes : List Lexeme} {t : Text}
    (spaced : Spaced Tidy (.word w) ((Part.condition feature value).lexemes ++ lexemes) t) :
    ∃ lead inside u, (lead = [] ∨ lead = [' ']) ∧ Spaced Tidy .closeParen lexemes u ∧
      t = lead ++ '(' :: (inside ++ u) ∧
      ∀ rest, Condition.read (inside ++ rest) =
        .condition ⟨feature.text, value.written⟩ inside.length := by
  simp only [Part.lexemes, List.cons_append, List.append_assoc] at spaced
  obtain ⟨lead, rest, joinLead, opened, rfl⟩ := spaced.cons_inv
  obtain ⟨gap, rest, joinOpen, named, rfl⟩ := opened.cons_inv
  obtain rfl := joinOpen.tight rfl
  obtain ⟨left, rest, joinLeft, asked, rfl⟩ := named.cons_inv
  obtain ⟨right, w, rest, joinRight, closing, rfl⟩ := asked.phrase Tidy.between_words
  obtain ⟨gap, u, joinClose, later, rfl⟩ := closing.cons_inv
  obtain rfl := joinClose.tight rfl
  refine ⟨lead, feature.text ++ (left ++ ':' :: (right ++ (value.written ++ [')']))), u,
    joinLead.single, later, ?_, ?_⟩
  · simp [Lexeme.text, Word.anywhere]
  · intro rest
    have reading := read_condition feature value joinLeft.single joinRight.single rest
    simpa using reading

theorem write_condition (space : Text) (feature : Word .header) (value : Phrase .header) :
    Condition.write space ⟨feature.text, value.written⟩ =
      ' ' :: (Part.condition feature value).written space ++ [' '] := by
  simp [Condition.write, Part.written]

/-- The parts of a prelude are written with one space before each; a condition at the end has one
    behind it too. -/
theorem respace_parts (space : Text) : (parts : List Part) →
    (parts.IsChain fun a b => ¬ (a.isCondition = true ∧ b.isCondition = true)) →
    ∀ {w : Word .any} {t : Text}, Spaced Tidy (.word w) (parts.flatMap Part.lexemes) t →
      ∃ tail, (tail = [] ∨ tail = [' ']) ∧
        Condition.respace space t = parts.flatMap (' ' :: ·.written space) ++ tail
  | [], _, _, _, spaced => by
    obtain rfl := spaced.nil_inv
    exact ⟨[], .inl rfl, rfl⟩
  | .word v :: parts, apart, _, _, spaced => by
    obtain ⟨gap, rest, join, later, rfl⟩ := spaced.cons_inv
    obtain rfl := join.between_words
    obtain ⟨tail, single, written⟩ := respace_parts space parts apart.tail later
    refine ⟨tail, single, ?_⟩
    have step := respace_space_word space v rest
    rw [written] at step
    simpa [Lexeme.text, Word.anywhere, Part.written] using step
  | [.condition feature value], _, _, _, spaced => by
    obtain ⟨lead, inside, u, single, last, rfl, reading⟩ := spaced.condition
    obtain rfl := last.nil_inv
    refine ⟨[' '], .inr rfl, ?_⟩
    have step : Condition.respace space (lead ++ '(' :: (inside ++ ([] ++ []))) = _ :=
      respace_read (reading _) single (.inl rfl) (by simp) space
    rw [write_condition] at step
    simpa [Condition.respace] using step
  | .condition feature value :: .word v :: parts, apart, _, _, spaced => by
    -- The condition takes the space before the word along and writes one of its own there.
    rw [List.flatMap_cons] at spaced
    obtain ⟨lead, inside, u, single, behind, rfl, reading⟩ := spaced.condition
    obtain ⟨trail, rest, join, later, rfl⟩ := behind.cons_inv
    obtain ⟨tail, tailSingle, written⟩ := respace_parts space parts apart.tail.tail later
    refine ⟨tail, tailSingle, ?_⟩
    have start : ∀ c ∈ (v.text ++ rest).head?, Text.isBlank c = false := by
      intro c member
      exact isBlank_of_isSolid ((v.starts_solid.append rest).solid_of_head c member)
    have step := respace_read (reading _) single join.single start space
    rw [write_condition, respace_word, written] at step
    simpa [Lexeme.text, Word.anywhere, Part.written] using step
  | .condition _ _ :: .condition _ _ :: _, apart, _, _, _ => by
    exact absurd ⟨rfl, rfl⟩ (List.isChain_cons_cons.mp apart).1

theorem Part.trimmed (part : Part) (space : Text) :
    Text.Trimmed (part.written space) ∧ part.written space ≠ [] := by
  cases part with
  | word w => exact w.trimmed
  | condition feature value =>
    have first : Text.Trimmed ['('] := Text.trimmed_singleton (by decide)
    have last : Text.Trimmed [')'] := Text.trimmed_singleton (by decide)
    have whole := first.append last (by simp) (by simp) (feature.text ++ ':' :: space ++ value.written)
    exact ⟨by simpa [Part.written] using whole, by simp [Part.written]⟩

theorem trimmed_header (space : Text) (name : BlockName) (headed : Prelude) :
    Text.Trimmed (header space name headed) := by
  have joined : header space name headed =
      Text.join [' '] (('@' :: name.text) :: headed.parts.map (·.written space)) := by
    rw [header, Text.join_cons, List.flatMap_map]
    rfl
  rw [joined]
  refine (Text.trimmed_join ?_).1
  intro t member
  rcases List.mem_cons.mp member with rfl | inside
  · exact name.keyword.trimmed
  · obtain ⟨part, _, rfl⟩ := List.mem_map.mp inside
    exact part.trimmed space

/-- The opening of a block is laid out in the canonical way. -/
theorem opening_eq {name : BlockName} {headed : Prelude} {t : Text}
    (spaced : Spaced Tidy (.word name.keyword) (headed.parts.flatMap Part.lexemes) t) (level : Level) :
    Layout.opening level ('@' :: name.text ++ t) =
      header level.space name headed ++ level.space ++ ['{'] := by
  obtain ⟨tail, single, written⟩ := respace_parts level.space headed.parts headed.apart spaced
  have plain : ∀ c ∈ '@' :: name.text, Text.isBlank c = false ∧ c ≠ '(' := by
    intro c member
    rcases List.mem_cons.mp member with rfl | inside
    · decide
    · exact name.header_plain inside
  have respaced : Condition.respace level.space ('@' :: name.text ++ t) =
      header level.space name headed ++ tail := by
    rw [respace_append level.space plain, written, ← List.append_assoc]
    rfl
  have blank : ∀ c ∈ tail, Text.isBlank c = true := by
    rcases single with rfl | rfl
    · simp
    · exact List.forall_mem_singleton.mpr (by decide)
  have trimmed := (trimmed_header level.space name headed).trim_between (a := []) (by simp) blank
  rw [Layout.opening, respaced]
  rw [List.nil_append] at trimmed
  rw [trimmed]

/-! ### Lines -/

/-- The line of a row at a depth, without its indentation. -/
def Row.written (level : Level) (depth : Nat) : Row → Text
  | .statement name words => '@' :: name.text ++ ' ' :: words.written ++ [';']
  | .opening name headed => header level.space name headed ++ level.space ++ ['{']
  | .ruleset selectors declarations => Plain.ruleset level depth selectors declarations
  | .closing => ['}']

/-- The depth of a row's line, at which `depth` blocks are open before it. -/
def Row.depthAt (depth : Nat) (row : Row) : Int := if row.isClosing then depth - 1 else depth

/-- The depth behind a row's line. -/
def Row.depthAfter (depth : Nat) (row : Row) : Int :=
  if row.isClosing then depth - 1 else if row.isOpening then depth + 1 else depth

/-- A row is recognised by its shape and written as in the canonical layout. -/
theorem RowText.classify {level : Level} {row : Row} {t : Text}
    (text : RowText level.keepsLastSemicolon row t) (depth : Nat) :
    ∃ shape, Line.classify (Text.trim t) = shape ∧
      Layout.lineText? level depth shape = some (row.written level depth) ∧
      shape.depthAt depth = row.depthAt depth ∧ shape.depthAfter depth = row.depthAfter depth := by
  rw [text.trimmed.1.trim_eq]
  cases text with
  | @statement name words =>
    refine ⟨.statement _, ?_, rfl, rfl, rfl⟩
    rw [Line.classify, Text.endsWith, List.getLast?_concat]
    rfl
  | @opening name headed t spaced =>
    refine ⟨.opening ('@' :: name.text ++ t), ?_, ?_, rfl, rfl⟩
    · have noBrace : ∀ c ∈ ('@' :: name.text ++ t).getLast?, (c == '{') = false := by
        intro c member
        have inside := List.mem_of_getLast? member
        rw [beq_eq_false_iff_ne]
        rintro rfl
        simp [name.inline.noOpen, spaced.header_inline.noOpen] at inside
      have header : Text.dropEndWhile (· == '{') ('@' :: name.text ++ t ++ ['{']) = '@' :: name.text ++ t :=
        Text.dropEndWhile_append (by simp) noBrace
      rw [Line.classify, Text.endsWith, Text.endsWith, List.getLast?_concat, header]
      rfl
    · rw [Layout.lineText?, opening_eq spaced]
      rfl
  | @ruleset selectors declarations t body chosen declared =>
    refine ⟨_, classify_ruleset chosen declared _, ?_, rfl, rfl⟩
    rw [Layout.lineText?, ruleset_eq chosen declared]
    rfl
  | closing => exact ⟨.leaving ['}'], rfl, rfl, rfl, rfl⟩

theorem written_eq_line (level : Level) (depth : Nat) (t : Text) :
    Layout.written level depth t = line level depth t := rfl

theorem RowText.output {level : Level} {row : Row} {t : Text}
    (text : RowText level.keepsLastSemicolon row t) (depth : Nat) (ts : List Text) :
    (Layout.ofLinesAt level depth (t :: ts)).output =
      Layout.written level (row.depthAt depth) (row.written level depth) ++
        (Layout.ofLinesAt level (row.depthAfter depth) ts).output := by
  obtain ⟨shape, recognised, written, depthAt, depthAfter⟩ := text.classify depth
  simp only [Layout.ofLinesAt, recognised, written, depthAt, depthAfter]

/-- At a depth, rows that leave the depth as they found it write `t`, whatever rows stand behind
    them. -/
def Laid (level : Level) (depth : Nat) (rows : List Row) (t : Text) : Prop :=
  ∀ (more : List Row) (ts : List Text),
    List.Forall₂ (RowText level.keepsLastSemicolon) (rows ++ more) ts →
    ∃ later, List.Forall₂ (RowText level.keepsLastSemicolon) more later ∧
      (Layout.ofLinesAt level depth ts).output = t ++ (Layout.ofLinesAt level depth later).output

section
variable {level : Level} {depth : Nat}

theorem laid_nil : Laid level depth [] [] := fun _ _ texts => ⟨_, texts, rfl⟩

theorem Laid.append {a b : List Row} {t u : Text} (front : Laid level depth a t)
    (back : Laid level depth b u) : Laid level depth (a ++ b) (t ++ u) := by
  intro more ts texts
  rw [List.append_assoc] at texts
  obtain ⟨later, texts, written⟩ := front _ _ texts
  obtain ⟨later, texts, writtenLater⟩ := back _ _ texts
  exact ⟨later, texts, by rw [written, writtenLater, List.append_assoc]⟩

/-- A row that opens and closes no block writes its line. -/
theorem laid_single {row : Row} (opens : row.isOpening = false) (closes : row.isClosing = false) :
    Laid level depth [row] (line level depth (row.written level depth)) := by
  intro more ts texts
  cases texts with
  | @cons _ t _ ts text texts =>
    have written := text.output depth ts
    simp only [Row.depthAt, Row.depthAfter, opens, closes, Bool.false_eq_true, if_false] at written
    exact ⟨ts, texts, written⟩

/-- A block writes its opening, its rules one deeper, and its closing. -/
theorem Laid.block {rows : List Row} {t : Text} (inside : Laid level (depth + 1) rows t)
    (name : BlockName) (headed : Prelude) :
    Laid level depth (.opening name headed :: (rows ++ [.closing]))
      (line level depth (header level.space name headed ++ level.space ++ ['{']) ++ t ++
        line level depth ['}']) := by
  intro more ts texts
  rw [List.cons_append, List.append_assoc] at texts
  cases texts with
  | @cons _ opened _ ts text texts =>
    obtain ⟨later, texts, writtenInside⟩ := inside _ _ texts
    cases texts with
    | @cons _ closed _ later last texts =>
      refine ⟨later, texts, ?_⟩
      have writtenOpening := text.output depth ts
      have writtenClosing := last.output (depth + 1) later
      have deeper : (depth : Int) + 1 = (depth + 1 : Nat) := by omega
      have back : ((depth + 1 : Nat) : Int) - 1 = depth := by omega
      simp only [Row.depthAt, Row.depthAfter, Row.isClosing, Row.isOpening, Bool.false_eq_true, if_false,
        if_true, deeper, back] at writtenOpening writtenClosing
      rw [writtenOpening, writtenInside, writtenClosing]
      simp [Row.written, written_eq_line]

end

mutual

theorem Rule.laid (level : Level) (depth : Nat) :
    (rule : Rule) → Laid level depth rule.rows (rule.written level depth)
  | .ruleset selectors declarations => by
    rw [Rule.rows, Rule.written]
    exact laid_single rfl rfl
  | .block name headed first others => by
    rw [Rule.rows, Rule.written]
    -- The rules inside are laid out one deeper, and the closing row brings the depth back.
    exact ((Rule.laid level (depth + 1) first).append (rules_laid level (depth + 1) others)).block
      name headed

theorem rules_laid (level : Level) (depth : Nat) :
    (rules : List Rule) → Laid level depth (rulesRows rules) (rulesWritten level depth rules)
  | [] => by
    rw [rulesRows, rulesWritten]
    exact laid_nil
  | rule :: others => by
    rw [rulesRows, rulesWritten]
    exact (Rule.laid level depth rule).append (rules_laid level depth others)

end

theorem Item.laid (level : Level) (item : Item) : Laid level 0 item.rows (item.written level) := by
  cases item with
  | statement name words => exact laid_single rfl rfl
  | rule r => exact r.laid level 0

theorem Sheet.laid (level : Level) (sheet : Sheet) : Laid level 0 sheet.rows (sheet.written level) := by
  rw [Sheet.rows, Sheet.written]
  induction sheet.toList with
  | nil => exact laid_nil
  | cons item items ih => exact (item.laid level).append ih

/-- Every spelling of a stylesheet is laid out in the canonical way. -/
theorem layout_spelling {sheet : Sheet} {x : Text} (spells : sheet.Spells x) (level : Level) :
    (layout level x).output = sheet.written level := by
  have texts := lines_spelling spells level
  rw [← List.append_nil sheet.rows] at texts
  obtain ⟨later, none, written⟩ := sheet.laid level _ _ texts
  cases none
  simpa [layout, layoutOf, Layout.ofLines, Layout.ofLinesAt] using written

end Stylepress.Plain
