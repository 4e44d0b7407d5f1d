import Stylepress.Css.Minify
import Stylepress.Proofs.Plain.Cleaning
import Stylepress.Proofs.Segmenting

/-!
The nesting of braces. Two scans read a text from left to right: `nesting` carries the depth and stops
at a closing brace that closes nothing, `leading` carries whether something stands before the next
opening brace since the last mark and stops at an opening brace that has nothing before it. Clean-up,
settling and segmentation keep both (`Balanced.settle`, `Headed.settle`, `braces_segment`): they move
white space and semicolons, and what an empty ruleset takes along is a pair of braces.
-/
namespace Stylepress.Css

/-! ### Scans -/

def isBrace (c : Char) : Bool := c == '{' || c == '}'

/-- The braces of a text, in order. -/
def braces (t : Text) : Text := t.filter isBrace

/-- The depth behind a character that comes at some depth; a closing brace needs an open block. -/
def nest (depth : Nat) (c : Char) : Option Nat :=
  if c = '{' then some (depth + 1)
  else if c = '}' then if depth = 0 then none else some (depth - 1)
  else some depth

/-- The depth behind a text that comes at some depth, if it closes no block that is not open. -/
def nesting (depth : Nat) (t : Text) : Option Nat := t.foldlM nest depth

/-- Every closing brace closes an open block, and at the end no block is open. -/
def Balanced (t : Text) : Prop := nesting 0 t = some 0

instance (t : Text) : Decidable (Balanced t) := inferInstanceAs (Decidable (_ = _))

/-- Whether a character ends a stretch with something in it; `filled` tells this of the characters
    since the last mark. -/
def lead (filled : Bool) (c : Char) : Option Bool :=
  if c = '{' then if filled then some false else none
  else if c = '}' ∨ c = ';' then some false
  else some (filled || !Plain.isSpacing c)

def leading (filled : Bool) (t : Text) : Option Bool := t.foldlM lead filled

/-- Something other than spacing stands before every opening brace, since the last mark before it. -/
def Headed (t : Text) : Prop := (leading false t).isSome = true

instance (t : Text) : Decidable (Headed t) := inferInstanceAs (Decidable (_ = _))

/-- How many more blocks a text opens than it closes. -/
def excess (t : Text) : Int := t.count '{' - t.count '}'

theorem nesting_append (depth : Nat) (t u : Text) :
    nesting depth (t ++ u) = (nesting depth t).bind fun after => nesting after u :=
  List.foldlM_append

theorem nesting_append_eq_some {depth last : Nat} {t u : Text} (read : nesting depth (t ++ u) = some last) :
    ∃ middle, nesting depth t = some middle ∧ nesting middle u = some last := by
  rw [nesting_append] at read
  exact Option.bind_eq_some_iff.mp read

theorem nest_of_not_isBrace {c : Char} (other : isBrace c = false) (depth : Nat) :
    nest depth c = some depth := by
  simp_all [isBrace, nest]

theorem nesting_braces (depth : Nat) (t : Text) : nesting depth (braces t) = nesting depth t := by
  induction t generalizing depth with
  | nil => rfl
  | cons c t ih =>
    cases brace : isBrace c with
    | true =>
      have kept : braces (c :: t) = c :: braces t := List.filter_cons_of_pos brace
      rw [kept, nesting, nesting, List.foldlM_cons, List.foldlM_cons]
      exact congrArg _ (funext ih)
    | false =>
      have gone : braces (c :: t) = braces t := List.filter_cons_of_neg (by simp [brace])
      rw [gone, ih, nesting, nesting, List.foldlM_cons, nest_of_not_isBrace brace]
      rfl

theorem nesting_congr {t u : Text} (same : braces t = braces u) (depth : Nat) :
    nesting depth t = nesting depth u := by
  rw [← nesting_braces, same, nesting_braces]

@[simp] theorem braces_append (t u : Text) : braces (t ++ u) = braces t ++ braces u :=
  List.filter_append ..

@[simp] theorem excess_nil : excess [] = 0 := rfl

@[simp] theorem excess_append (t u : Text) : excess (t ++ u) = excess t + excess u := by
  simp only [excess, List.count_append]
  omega

theorem count_braces {c : Char} (brace : isBrace c = true) (t : Text) : (braces t).count c = t.count c :=
  List.count_filter brace

theorem excess_congr {t u : Text} (same : braces t = braces u) : excess t = excess u := by
  have opened := congrArg (List.count '{') same
  have closed := congrArg (List.count '}') same
  rw [count_braces (by decide), count_braces (by decide)] at opened closed
  rw [excess, excess, opened, closed]

theorem excess_of_nest {depth after : Nat} {c : Char} (step : nest depth c = some after) :
    (after : Int) = depth + excess [c] := by
  unfold nest at step
  split at step
  · next opening =>
    obtain rfl := Option.some.inj step
    subst opening
    simp [excess]
  · next notOpening =>
    split at step
    · next closing =>
      subst closing
      split at step
      · cases step
      · obtain rfl := Option.some.inj step
        have one : excess ['}'] = -1 := rfl
        omega
    · next notClosing =>
      obtain rfl := Option.some.inj step
      simp [excess, notOpening, notClosing]

theorem excess_of_nesting {depth after : Nat} {t : Text} (read : nesting depth t = some after) :
    (after : Int) = depth + excess t := by
  induction t generalizing depth with
  | nil =>
    obtain rfl : depth = after := Option.some.inj read
    simp
  | cons c t ih =>
    obtain ⟨middle, here, later⟩ := nesting_append_eq_some (t := [c]) read
    have step : nest depth c = some middle := by simpa [nesting] using here
    have first := excess_of_nest step
    have rest := ih later
    rw [← List.singleton_append, excess_append]
    omega

theorem Balanced.excess_eq {t : Text} (balanced : Balanced t) : excess t = 0 := by
  have same := excess_of_nesting balanced
  omega

/-- At the end of a balanced text nothing is opened that is not closed there. -/
theorem Balanced.not_mem_of_append {t u : Text} (balanced : Balanced (t ++ u)) (closed : '}' ∉ u) :
    '{' ∉ u := by
  obtain ⟨middle, _, read⟩ := nesting_append_eq_some balanced
  have same := excess_of_nesting read
  rw [excess, List.count_eq_zero.mpr closed] at same
  rw [← List.count_eq_zero]
  omega

/-! ### Solid characters -/

/-- What is left of a text without its spacing. -/
def solid (t : Text) : Text := t.filter fun c => !Plain.isSpacing c

@[simp] theorem solid_append (t u : Text) : solid (t ++ u) = solid t ++ solid u := List.filter_append ..

theorem solid_cons_of_isSpacing {c : Char} (space : Plain.isSpacing c = true) (t : Text) :
    solid (c :: t) = solid t := List.filter_cons_of_neg (by simp [space])

theorem solid_eq_nil {t : Text} (spaces : ∀ c ∈ t, Plain.isSpacing c = true) : solid t = [] := by
  rw [solid, List.filter_eq_nil_iff]
  intro c member
  simp [spaces c member]

theorem isBrace_of_isSpacing {c : Char} (space : Plain.isSpacing c = true) : isBrace c = false := by
  cases brace : isBrace c with
  | false => rfl
  | true =>
    simp only [isBrace, Bool.or_eq_true, beq_iff_eq] at brace
    rcases brace with rfl | rfl <;> exact absurd space (by decide)

theorem braces_solid (t : Text) : braces (solid t) = braces t := by
  rw [braces, solid, List.filter_filter]
  refine List.filter_congr ?_
  intro c _
  cases space : Plain.isSpacing c with
  | false => simp
  | true => simp [isBrace_of_isSpacing space]

theorem lead_of_isSpacing {c : Char} (space : Plain.isSpacing c = true) (filled : Bool) :
    lead filled c = some filled := by
  have other := isBrace_of_isSpacing space
  have noSemicolon : c ≠ ';' := by rintro rfl; exact absurd space (by decide)
  simp_all [lead, isBrace]

theorem leading_solid (filled : Bool) (t : Text) : leading filled (solid t) = leading filled t := by
  induction t generalizing filled with
  | nil => rfl
  | cons c t ih =>
    cases space : Plain.isSpacing c with
    | true =>
      rw [solid_cons_of_isSpacing space, ih, leading, leading, List.foldlM_cons, lead_of_isSpacing space]
      rfl
    | false =>
      have kept : solid (c :: t) = c :: solid t := List.filter_cons_of_pos (by simp [space])
      rw [kept, leading, leading, List.foldlM_cons, List.foldlM_cons]
      exact congrArg _ (funext ih)

theorem balanced_congr {t u : Text} (same : solid t = solid u) : Balanced t ↔ Balanced u := by
  rw [Balanced, Balanced, nesting_congr (u := u)]
  rw [← braces_solid, same, braces_solid]

theorem headed_congr {t u : Text} (same : solid t = solid u) : Headed t ↔ Headed u := by
  rw [Headed, Headed, ← leading_solid, same, leading_solid]

/-! ### Comments -/

theorem isSpacing_of_isBlank {c : Char} (blank : Text.isBlank c = true) : Plain.isSpacing c = true := by
  cases space : Plain.isSpacing c with
  | true => rfl
  | false => simp [Plain.isBlank_of_not_isSpacing space] at blank

theorem closeLength?_append_of_blank (t : Text) {blanks : Text} (blank : ∀ c ∈ blanks, Text.isBlank c = true) :
    Comment.closeLength? (t ++ blanks) = Comment.closeLength? t := by
  have notIn : ∀ c, Text.isBlank c = false → c ∉ blanks := by
    intro c other member
    simp [blank c member] at other
  have noStar := notIn '*' (by decide)
  have noSlash := notIn '/' (by decide)
  fun_induction Comment.closeLength? t with
  | case1 =>
    have none : ∀ u : Text, '*' ∉ u → Comment.closeLength? u = Option.none := by
      intro u absent
      fun_induction Comment.closeLength? u with
      | case1 => rfl
      | case2 => simp at absent
      | case3 c u _ ih => simp [ih fun member => absent (by simp [member])]
    exact none blanks noStar
  | case2 => rfl
  | case3 c t notClose ih =>
    have stillNot : ∀ rest, c = '*' → t ++ blanks = '/' :: rest → False := by
      intro rest star shape
      cases t with
      | nil => exact noSlash (by rw [← List.nil_append blanks, shape]; simp)
      | cons d t =>
        obtain ⟨rfl, _⟩ := List.cons.inj shape
        exact notClose t star rfl
    rw [List.cons_append, Comment.closeLength?.eq_3 _ _ stillNot, ih]

theorem closeLength?_le {t : Text} {n : Nat} (close : Comment.closeLength? t = some n) : n ≤ t.length := by
  fun_induction Comment.closeLength? t generalizing n with
  | case1 => cases close
  | case2 rest =>
    obtain rfl := Option.some.inj close
    simp
  | case3 c rest _ ih =>
    obtain ⟨m, later, rfl⟩ := Option.map_eq_some_iff.mp close
    simpa using ih later

/-- Blanks at the end of a text stay there and hide no comment. -/
theorem strip_append_of_blank (t : Text) {blanks : Text} (blank : ∀ c ∈ blanks, Text.isBlank c = true) :
    Comment.strip (t ++ blanks) = Comment.strip t ++ blanks := by
  have plain : ∀ c ∈ blanks, ∀ rest, Comment.removal? (c :: rest) = none := by
    intro c member rest
    refine Plain.removal?_eq_none (.inl ?_)
    rintro rfl
    exact absurd (blank _ member) (by decide)
  rw [Comment.strip, Comment.strip]
  induction t using Text.pass_induction Comment.removal? with
  | nil => simpa using Text.pass_append_of_forall plain []
  | copy c rest none ih =>
    have noneStill : Comment.removal? (c :: (rest ++ blanks)) = Option.none := by
      refine Plain.removal?_eq_none ?_
      rw [← not_and_or]
      rintro ⟨rfl, star⟩
      cases rest with
      | nil => exact absurd (blank '*' (List.mem_of_mem_head? star)) (by decide)
      | cons d rest =>
        obtain rfl := Option.some.inj star
        simp only [Comment.removal?] at none
        split at none <;> cases none
    rw [List.cons_append, Text.pass_cons, noneStill, ih, List.cons_append]
  | replace c rest edit found ih =>
    unfold Comment.removal? at found
    split at found
    · next body shape =>
      obtain ⟨rfl, rfl⟩ := List.cons.inj shape
      have same := closeLength?_append_of_blank body blank
      rw [List.cons_append, List.cons_append, Text.pass_cons]
      split at found
      · next n close =>
        obtain rfl := Option.some.inj found
        have inside := closeLength?_le close
        simp only [List.drop_succ_cons] at ih
        rw [← List.drop_append_of_le_length inside] at ih
        simpa [Comment.removal?, same, close] using ih
      · next open? =>
        obtain rfl := Option.some.inj found
        simp [Comment.removal?, same, open?]
    · cases found

/-- Blanks around a source stay around what is left of it without comments. -/
theorem exists_strip_trim (source : Text) :
    ∃ a b, Comment.strip source = a ++ (Comment.strip (Text.trim source) ++ b) ∧
      (∀ c ∈ a, Text.isBlank c = true) ∧ ∀ c ∈ b, Text.isBlank c = true := by
  obtain ⟨a, b, shape, blankA, blankB⟩ := Text.exists_blanks source
  have start : ∀ c ∈ a, ∀ rest, Comment.removal? (c :: rest) = none := by
    intro c member rest
    refine Plain.removal?_eq_none (.inl ?_)
    rintro rfl
    exact absurd (blankA _ member) (by decide)
  refine ⟨a, b, ?_, blankA, blankB⟩
  rw [congrArg Comment.strip shape, List.append_assoc, ← strip_append_of_blank _ blankB]
  exact Text.pass_append_of_forall start _

/-- Blanks around a source make no difference to what is left of it without comments. -/
theorem solid_strip_trim (source : Text) :
    solid (Comment.strip (Text.trim source)) = solid (Comment.strip source) := by
  obtain ⟨a, b, whole, blankA, blankB⟩ := exists_strip_trim source
  have none : ∀ blanks : Text, (∀ c ∈ blanks, Text.isBlank c = true) → solid blanks = [] := fun _ blank =>
    solid_eq_nil fun c member => isSpacing_of_isBlank (blank c member)
  rw [whole, solid_append, solid_append, none a blankA, none b blankB, List.nil_append, List.append_nil]

/-! ### Empty rulesets -/

/-- A ruleset with nothing but blanks in it. -/
def IsEmptyRuleset (t : Text) : Prop :=
  ∃ headed blanks, t = headed ++ '{' :: blanks ++ ['}'] ∧
    (∀ c ∈ headed, EmptyRuleset.isPrelude c = true) ∧ ∀ c ∈ blanks, Text.isBlank c = true

/-- An empty ruleset at the head of a text. -/
theorem length?_eq_some_iff {t : Text} {n : Nat} :
    EmptyRuleset.length? t = some n ↔ ∃ headed blanks rest, t = headed ++ '{' :: (blanks ++ '}' :: rest) ∧
      headed ≠ [] ∧ (∀ c ∈ headed, EmptyRuleset.isPrelude c = true) ∧ (∀ c ∈ blanks, Text.isBlank c = true) ∧
      n = headed.length + 1 + blanks.length + 1 := by
  constructor
  · intro found
    unfold EmptyRuleset.length? at found
    split at found
    · next body shape =>
      split at found
      · next rest closed =>
        dsimp only at found
        split at found
        · cases found
        · next filled =>
          obtain rfl := Option.some.inj found
          have before := List.takeWhile_append_dropWhile (p := EmptyRuleset.isPrelude) (l := t)
          have inside := List.takeWhile_append_dropWhile (p := Text.isBlank) (l := body)
          rw [shape, ← inside, closed] at before
          exact ⟨t.takeWhile EmptyRuleset.isPrelude, body.takeWhile Text.isBlank, rest, before.symm,
            by simpa using filled, List.all_eq_true.mp List.all_takeWhile,
            List.all_eq_true.mp List.all_takeWhile, rfl⟩
      · cases found
    · cases found
  · rintro ⟨headed, blanks, rest, rfl, filled, inHead, blank, rfl⟩
    have brace : ¬ EmptyRuleset.isPrelude '{' = true := by decide
    have close : ¬ Text.isBlank '}' = true := by decide
    have none : headed.isEmpty = false := List.isEmpty_eq_false_iff.mpr filled
    simp only [EmptyRuleset.length?, List.takeWhile_append_of_pos inHead, List.dropWhile_append_of_pos inHead,
      List.takeWhile_cons_of_neg brace, List.dropWhile_cons_of_neg brace, List.takeWhile_append_of_pos blank,
      List.dropWhile_append_of_pos blank, List.takeWhile_cons_of_neg close, List.dropWhile_cons_of_neg close,
      List.append_nil, none]
    rfl

theorem exists_of_length? {t : Text} {n : Nat} (found : EmptyRuleset.length? t = some n) :
    ∃ ruleset rest, t = ruleset ++ rest ∧ ruleset.length = n ∧ IsEmptyRuleset ruleset := by
  obtain ⟨headed, blanks, rest, rfl, _, inHead, blank, rfl⟩ := length?_eq_some_iff.mp found
  exact ⟨headed ++ '{' :: blanks ++ ['}'], rest, by simp, by simp; omega, headed, blanks, rfl, inHead, blank⟩

section
variable {σ : Type} {step : σ → Char → Option σ} (atStart : σ → Prop)

/-- A scan that empty rulesets lead back to where they started, wherever a ruleset may start, reads a
    swept text as it was. -/
theorem foldlM_sweep (terminated : ∀ c s r, EmptyRuleset.isTerminator c = true → step s c = some r → atStart r)
    (skips : ∀ ruleset s r, IsEmptyRuleset ruleset → atStart s → ruleset.foldlM step s = some r → r = s)
    {t : Text} {s r : σ} (start : atStart s) (scanned : t.foldlM step s = some r) :
    (EmptyRuleset.sweep t).foldlM step s = some r := by
  have keeps : ∀ t edit s r, EmptyRuleset.removal? t = some edit →
      (t.take (edit.tail + 1)).foldlM step s = some r → edit.image.foldlM step s = some r := by
    intro t edit s r found scanned
    cases t with
    | nil => cases found
    | cons c t =>
      rw [EmptyRuleset.removal?] at found
      split at found
      · next terminator =>
        obtain ⟨n, length, rfl⟩ := Option.map_eq_some_iff.mp found
        obtain ⟨ruleset, rest, rfl, rfl, empty⟩ := exists_of_length? length
        rw [List.take_succ_cons, List.take_left, List.foldlM_cons] at scanned
        obtain ⟨next, here, later⟩ := Option.bind_eq_some_iff.mp scanned
        obtain rfl := skips ruleset next r empty (terminated c s next terminator here) later
        simpa using here
      · cases found
  rw [EmptyRuleset.sweep]
  split
  · next n length =>
    obtain ⟨ruleset, rest, rfl, rfl, empty⟩ := exists_of_length? length
    rw [List.foldlM_append] at scanned
    obtain ⟨next, here, later⟩ := Option.bind_eq_some_iff.mp scanned
    obtain rfl := skips ruleset s next empty start here
    rw [List.drop_left]
    exact Text.foldlM_pass keeps later
  · exact Text.foldlM_pass keeps scanned

theorem foldlM_strip (terminated : ∀ c s r, EmptyRuleset.isTerminator c = true → step s c = some r → atStart r)
    (skips : ∀ ruleset s r, IsEmptyRuleset ruleset → atStart s → ruleset.foldlM step s = some r → r = s)
    {t : Text} {s r : σ} (start : atStart s) (scanned : t.foldlM step s = some r) :
    (EmptyRuleset.strip t).foldlM step s = some r := by
  fun_induction EmptyRuleset.strip t with
  | case1 t swept shorter ih => exact ih (foldlM_sweep atStart terminated skips start scanned)
  | case2 t swept stays => exact scanned

end

theorem isBrace_of_isPrelude {c : Char} (inside : EmptyRuleset.isPrelude c = true) : isBrace c = false := by
  simp_all [EmptyRuleset.isPrelude, isBrace]

theorem IsEmptyRuleset.braces_eq {t : Text} (empty : IsEmptyRuleset t) : braces t = ['{', '}'] := by
  obtain ⟨headed, blanks, rfl, inHead, blank⟩ := empty
  have head : braces headed = [] := by
    rw [braces, List.filter_eq_nil_iff]
    intro c member
    simp [isBrace_of_isPrelude (inHead c member)]
  have middle : braces blanks = [] :=
    Text.filter_eq_nil_of_blank (fun c blank => isBrace_of_isSpacing (isSpacing_of_isBlank blank)) blank
  have brace : ∀ c rest, isBrace c = true → braces (c :: rest) = c :: braces rest := fun c rest brace =>
    List.filter_cons_of_pos brace
  rw [List.append_assoc, braces_append, head, List.nil_append, List.cons_append, brace _ _ rfl,
    braces_append, middle]
  rfl

theorem nesting_pair (depth : Nat) : nesting depth ['{', '}'] = some depth := by
  simp [nesting, nest]

theorem Balanced.strip {t : Text} (balanced : Balanced t) : Balanced (EmptyRuleset.strip t) := by
  refine foldlM_strip (fun _ => True) (fun _ _ _ _ _ => trivial) ?_ trivial balanced
  intro ruleset s r empty _ scanned
  have pair : nesting s ruleset = some s := by
    rw [← nesting_braces, empty.braces_eq, nesting_pair]
  exact (Option.some.inj (pair.symm.trans scanned)).symm

theorem leading_concat_close {t : Text} {filled after : Bool} (read : leading filled (t ++ ['}']) = some after) :
    after = false := by
  rw [leading, List.foldlM_append] at read
  obtain ⟨middle, _, last⟩ := Option.bind_eq_some_iff.mp read
  simpa [lead, eq_comm] using last

theorem Headed.strip {t : Text} (headed : Headed t) : Headed (EmptyRuleset.strip t) := by
  obtain ⟨after, read⟩ := Option.isSome_iff_exists.mp headed
  refine Option.isSome_iff_exists.mpr ⟨after, ?_⟩
  refine foldlM_strip (· = false) ?_ ?_ rfl read
  · intro c s r terminator step
    simp only [EmptyRuleset.isTerminator, Bool.or_eq_true, beq_iff_eq] at terminator
    rcases terminator with rfl | rfl <;> simpa [lead, eq_comm] using step
  · rintro ruleset s r ⟨headed, blanks, rfl, _, _⟩ rfl scanned
    exact leading_concat_close scanned

/-! ### Spacing -/

theorem solid_joinLines (t : Text) : solid (Spacing.joinLines t) = solid t := by
  rw [solid, Spacing.joinLines, List.filter_filter]
  refine List.filter_congr ?_
  intro c _
  cases vertical : Text.isVertical c <;> simp [Plain.isSpacing, vertical]

theorem solid_collapse (t : Text) : solid (Spacing.collapse t) = solid t := by
  fun_induction Spacing.collapse t with
  | case1 => rfl
  | case2 c rest horizontal more ih =>
    rw [ih, solid_cons_of_isSpacing (Plain.isSpacing_of_isHorizontal horizontal)]
  | case3 c rest horizontal last ih =>
    rw [solid_cons_of_isSpacing (by decide), ih,
      solid_cons_of_isSpacing (Plain.isSpacing_of_isHorizontal horizontal)]
  | case4 c rest other ih =>
    rw [← List.singleton_append, solid_append, ih, ← solid_append, List.singleton_append]

theorem solid_tightenFrom (afterMark : Bool) (t : Text) : solid (Spacing.tightenFrom afterMark t) = solid t := by
  fun_induction Spacing.tightenFrom afterMark t with
  | case1 => rfl
  | case2 afterMark c rest gone ih =>
    have space : c = ' ' := by simp_all
    rw [ih, space, solid_cons_of_isSpacing (by decide)]
  | case3 afterMark c rest kept ih =>
    rw [← List.singleton_append, solid_append, ih, ← solid_append, List.singleton_append]

theorem solid_clean (css : Text) : solid (clean css) = solid (EmptyRuleset.strip (Comment.strip css)) := by
  rw [clean, Spacing.tighten, solid_tightenFrom, solid_collapse, solid_joinLines]

theorem Balanced.clean {source : Text} (balanced : Balanced (Comment.strip source)) :
    Balanced (clean (Text.trim source)) := by
  rw [balanced_congr (solid_clean _)]
  exact Balanced.strip ((balanced_congr (solid_strip_trim source)).mpr balanced)

theorem Headed.clean {source : Text} (headed : Headed (Comment.strip source)) :
    Headed (clean (Text.trim source)) := by
  rw [headed_congr (solid_clean _)]
  exact Headed.strip ((headed_congr (solid_strip_trim source)).mpr headed)

/-! ### Semicolons -/

theorem braces_cons (c : Char) (t : Text) : braces (c :: t) = braces [c] ++ braces t :=
  braces_append [c] t

theorem braces_drop (t : Text) : braces (Semicolon.drop t) = braces t := by
  fun_induction Semicolon.drop t with
  | case1 => rfl
  | case2 rest ih =>
    rw [braces_cons, ih, ← braces_cons]
    rfl
  | case3 c rest _ ih => rw [braces_cons, ih, ← braces_cons]

theorem braces_restoreFrom (ended : Bool) (t : Text) : braces (Semicolon.restoreFrom ended t) = braces t := by
  fun_induction Semicolon.restoreFrom ended t with
  | case1 => rfl
  | case2 rest ih => rw [braces_cons, ih, ← braces_cons]
  | case3 ended rest _ ih =>
    have semicolon : braces (';' :: '}' :: Semicolon.restoreFrom true rest) =
        braces ('}' :: Semicolon.restoreFrom true rest) := rfl
    rw [semicolon, braces_cons, ih, ← braces_cons]
  | case4 ended c rest other ih => rw [braces_cons, ih, ← braces_cons]

theorem braces_settle (level : Level) (t : Text) : braces (Semicolon.settle level t) = braces t := by
  rw [Semicolon.settle]
  split
  · exact braces_restoreFrom false t
  · exact braces_drop t

theorem Balanced.settle {t : Text} (balanced : Balanced t) (level : Level) :
    Balanced (Semicolon.settle level t) := by
  rwa [Balanced, nesting_congr (braces_settle level t)]

theorem leading_cons (filled : Bool) (c : Char) (t : Text) :
    leading filled (c :: t) = (lead filled c).bind fun after => leading after t :=
  List.foldlM_cons

theorem leading_close (filled : Bool) (t : Text) : leading filled ('}' :: t) = leading false t := by
  rw [leading_cons]
  rfl

theorem leading_semicolon (filled : Bool) (t : Text) : leading filled (';' :: t) = leading false t := by
  rw [leading_cons]
  rfl

theorem leading_drop (filled : Bool) (t : Text) : leading filled (Semicolon.drop t) = leading filled t := by
  fun_induction Semicolon.drop t generalizing filled with
  | case1 => rfl
  | case2 rest ih => rw [leading_close, ih, leading_semicolon, leading_close]
  | case3 c rest _ ih => simp only [leading_cons, ih]

theorem leading_restoreFrom (filled ended : Bool) (t : Text) :
    leading filled (Semicolon.restoreFrom ended t) = leading filled t := by
  fun_induction Semicolon.restoreFrom ended t generalizing filled with
  | case1 => rfl
  | case2 rest ih => rw [leading_close, ih, leading_close]
  | case3 ended rest _ ih => rw [leading_semicolon, leading_close, ih, leading_close]
  | case4 ended c rest other ih => simp only [leading_cons, ih]

theorem Headed.settle {t : Text} (headed : Headed t) (level : Level) : Headed (Semicolon.settle level t) := by
  rw [Headed, Semicolon.settle]
  split
  · rwa [Semicolon.restore, leading_restoreFrom]
  · rwa [leading_drop]

/-! ### Line ends -/

theorem mem_collapse {t : Text} {c : Char} (member : c ∈ Spacing.collapse t) :
    c = ' ' ∨ c ∈ t ∧ Text.isHorizontal c = false := by
  fun_induction Spacing.collapse t with
  | case1 => cases member
  | case2 d rest _ _ ih => exact (ih member).imp_right fun found => ⟨List.mem_cons_of_mem d found.1, found.2⟩
  | case3 d rest _ _ ih =>
    rcases List.mem_cons.mp member with same | later
    · exact .inl same
    · exact (ih later).imp_right fun found => ⟨List.mem_cons_of_mem d found.1, found.2⟩
  | case4 d rest other ih =>
    rcases List.mem_cons.mp member with rfl | later
    · exact .inr ⟨List.mem_cons_self, by simpa using other⟩
    · exact (ih later).imp_right fun found => ⟨List.mem_cons_of_mem d found.1, found.2⟩

theorem tightenFrom_sublist (afterMark : Bool) (t : Text) : (Spacing.tightenFrom afterMark t).Sublist t := by
  fun_induction Spacing.tightenFrom afterMark t with
  | case1 => exact List.Sublist.refl []
  | case2 _ c rest _ ih => exact ih.cons c
  | case3 _ c rest _ ih => exact ih.cons_cons c

theorem drop_sublist (t : Text) : (Semicolon.drop t).Sublist t := by
  fun_induction Semicolon.drop t with
  | case1 => exact List.Sublist.refl []
  | case2 rest ih => exact (ih.cons_cons '}').cons ';'
  | case3 c rest _ ih => exact ih.cons_cons c

theorem mem_drop {t : Text} {c : Char} (member : c ∈ Semicolon.drop t) : c ∈ t := (drop_sublist t).subset member

theorem mem_restoreFrom {ended : Bool} {t : Text} {c : Char} (member : c ∈ Semicolon.restoreFrom ended t) :
    c = ';' ∨ c ∈ t := by
  fun_induction Semicolon.restoreFrom ended t with
  | case1 => cases member
  | case2 rest ih =>
    rcases List.mem_cons.mp member with same | later
    · exact .inr (by simp [same])
    · exact (ih later).imp_right (List.mem_cons_of_mem '}')
  | case3 _ rest _ ih =>
    rcases List.mem_cons.mp member with same | later
    · exact .inl same
    · rcases List.mem_cons.mp later with same | later
      · exact .inr (by simp [same])
      · exact (ih later).imp_right (List.mem_cons_of_mem '}')
  | case4 _ d rest _ ih =>
    rcases List.mem_cons.mp member with same | later
    · exact .inr (by simp [same])
    · exact (ih later).imp_right (List.mem_cons_of_mem d)

/-- The only spacing that is left in a text is spaces. -/
theorem eq_space_of_mem_tighten {t : Text} {c : Char}
    (member : c ∈ Spacing.tighten (Spacing.collapse (Spacing.joinLines t))) (spacing : Plain.isSpacing c = true) :
    c = ' ' := by
  rcases mem_collapse ((tightenFrom_sublist _ _).subset member) with space | ⟨inside, notHorizontal⟩
  · exact space
  · have notVertical : Text.isVertical c = false := by simpa using (List.mem_filter.mp inside).2
    simp [Plain.isSpacing, notVertical, notHorizontal] at spacing

/-- The only blanks of a clean stylesheet are spaces. -/
theorem eq_space_of_mem_clean {css : Text} {c : Char} (member : c ∈ clean css) (blank : Text.isBlank c = true) :
    c = ' ' :=
  eq_space_of_mem_tighten member (isSpacing_of_isBlank blank)

theorem not_mem_clean (css : Text) : '\n' ∉ clean css := fun member =>
  absurd (eq_space_of_mem_clean member (by decide)) (by decide)

/-- A settled stylesheet stands on one line. -/
theorem not_mem_settle {t : Text} (noBreak : '\n' ∉ t) (level : Level) : '\n' ∉ Semicolon.settle level t := by
  rw [Semicolon.settle]
  split
  · intro member
    rcases mem_restoreFrom member with semicolon | inside
    · exact absurd semicolon (by decide)
    · exact noBreak inside
  · exact fun member => noBreak (mem_drop member)

/-! ### Segmentation -/

theorem braces_afterStatements (t : Text) : braces (Segment.afterStatements t) = braces t :=
  filter_afterStatements rfl t

theorem braces_afterClosings (t : Text) : braces (Segment.afterClosings t) = braces t :=
  filter_afterClosings rfl t

theorem braces_nestLine (t : Text) : braces (Segment.nestLine t) = braces t := filter_nestLine rfl t

/-- Segmenting keeps the braces. -/
theorem braces_segment (t : Text) : braces (Segment.segment t) = braces t := filter_segment rfl t

theorem leading_lineEnd (filled : Bool) (t : Text) : leading filled ('\n' :: t) = leading filled t := by
  rw [leading_cons, lead_of_isSpacing (by decide)]
  rfl

theorem leading_append (filled : Bool) (t u : Text) :
    leading filled (t ++ u) = (leading filled t).bind fun after => leading after u :=
  List.foldlM_append

theorem leading_afterClosings (filled : Bool) (t : Text) :
    leading filled (Segment.afterClosings t) = leading filled t := by
  fun_induction Segment.afterClosings t generalizing filled with
  | case1 => rfl
  | case2 rest ih => rw [leading_close, leading_lineEnd, ih, leading_close]
  | case3 c rest other ih => simp only [leading_cons, ih]

theorem Headed.lineEnds {t : Text} (headed : Headed t) :
    Headed (Segment.afterClosings (Segment.afterStatements t)) := by
  rw [Headed, leading_afterClosings]
  obtain ⟨after, read⟩ := Option.isSome_iff_exists.mp headed
  refine Option.isSome_iff_exists.mpr ⟨after, Text.foldlM_pass ?_ read⟩
  intro t edit s r found scanned
  rcases statement?_image found with same | ⟨front, span, image⟩
  · rwa [same]
  · have before : leading s (front ++ [';']) = some r := by rwa [span] at scanned
    have lineEnd : front ++ [';', '\n'] = front ++ [';'] ++ ['\n'] := by simp
    show leading s edit.image = some r
    rw [image, lineEnd, leading_append, before]
    exact leading_lineEnd r []

/-- Two opening braces never stand side by side. -/
theorem Headed.apart {t : Text} (headed : Headed t) : ¬ ['{', '{'] <:+: t := by
  rintro ⟨a, b, rfl⟩
  rw [Headed, List.append_assoc, leading_append] at headed
  have stuck : ∀ filled, leading filled ('{' :: '{' :: b) = none := by
    intro filled
    cases filled <;> rfl
  cases read : leading false a with
  | none => simp [read] at headed
  | some filled => simp [read, stuck] at headed

end Stylepress.Css
