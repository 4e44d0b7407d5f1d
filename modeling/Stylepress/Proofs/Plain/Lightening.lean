import Stylepress.Proofs.Plain.Pressing

/-!
The layouts of a plain stylesheet, one inside the other. A stricter level writes the same words and marks
in the same order and leaves out some of the spaces, line ends, tabs and semicolons of a milder one. So
its layout is the milder one with characters left out (`Sheet.written_sublist`), at every depth of
nesting, and it never holds more white space (`blanks_lighten`).
-/
namespace Stylepress.Plain
open Css

/-! ### Levels -/

/-- All that the level `strict` writes besides words, the level `mild` writes too. -/
structure Lightens (mild strict : Level) : Prop where
  space : strict.space.Sublist mild.space
  breaks : strict.breaksDeclarations = true → mild.breaksDeclarations = true
  semicolon : strict.keepsLastSemicolon = true → mild.keepsLastSemicolon = true
  layout : strict.keepsLayout = true → mild.keepsLayout = true

theorem lightens_of_index_le {mild strict : Level} (order : mild.index ≤ strict.index) :
    Lightens mild strict where
  space := by revert order; cases mild <;> cases strict <;> decide
  breaks := by revert order; cases mild <;> cases strict <;> decide
  semicolon := by revert order; cases mild <;> cases strict <;> decide
  layout := by revert order; cases mild <;> cases strict <;> decide

theorem sublist_of_imp {a b : Bool} (imp : a = true → b = true) {t u : Text} (sub : t.Sublist u) :
    (if a then t else []).Sublist (if b then u else []) := by
  cases a with
  | false => exact List.nil_sublist _
  | true =>
    rw [imp rfl]
    exact sub

/-! ### Layouts -/

section
variable {mild strict : Level} (lightens : Lightens mild strict)
include lightens

theorem Series.written_sublist (series : Series) :
    (series.written strict.space).Sublist (series.written mild.space) :=
  Text.join_sublist (lightens.space.cons_cons ',') (fun _ => List.Sublist.refl _) series.first series.others

theorem Declaration.written_sublist (declaration : Declaration) :
    (declaration.written strict.space).Sublist (declaration.written mild.space) :=
  ((List.Sublist.refl _).append (lightens.space.cons_cons ':')).append
    (declaration.value.written_sublist lightens)

theorem Part.written_sublist (part : Part) : (part.written strict.space).Sublist (part.written mild.space) := by
  cases part with
  | word w => exact List.Sublist.refl _
  | condition feature value =>
    have colon := (List.Sublist.refl ('(' :: feature.text)).append (lightens.space.cons_cons ':')
    exact (colon.append (List.Sublist.refl value.written)).append (List.Sublist.refl [')'])

theorem header_sublist (name : BlockName) (headed : Prelude) :
    (header strict.space name headed).Sublist (header mild.space name headed) := by
  refine (List.Sublist.refl ('@' :: name.text)).append ?_
  induction headed.parts with
  | nil => exact List.Sublist.refl []
  | cons part parts ih =>
    rw [List.flatMap_cons, List.flatMap_cons]
    exact ((part.written_sublist lightens).cons_cons ' ').append ih

/-- A ruleset loses spaces, the line ends around its declarations and its last semicolon. -/
theorem ruleset_sublist (depth : Nat) (selectors : Series) (declarations : Several Declaration) :
    (ruleset strict depth selectors declarations).Sublist (ruleset mild depth selectors declarations) := by
  have lineBreak : ∀ depth : Nat,
      (if strict.breaksDeclarations then '\n' :: indent depth else []).Sublist
        (if mild.breaksDeclarations then '\n' :: indent depth else []) := fun _ =>
    sublist_of_imp lightens.breaks (List.Sublist.refl _)
  have body := Text.join_sublist ((lineBreak (depth + 1)).cons_cons ';')
    (fun declaration => declaration.written_sublist lightens) declarations.first declarations.others
  have ending := sublist_of_imp lightens.semicolon (List.Sublist.refl [';'])
  have head := (selectors.written_sublist lightens).append lightens.space
  exact ((((head.append ((lineBreak (depth + 1)).cons_cons '{')).append body).append ending).append
    (lineBreak depth)).append (List.Sublist.refl ['}'])

theorem line_sublist (depth : Nat) {t u : Text} (sub : t.Sublist u) :
    (line strict depth t).Sublist (line mild depth u) := by
  rw [line, line]
  split
  · next kept =>
    rw [if_pos (lightens.layout kept)]
    exact ((List.Sublist.refl (indent depth)).append sub).append (List.Sublist.refl ['\n'])
  · split
    · exact sub.trans ((List.sublist_append_right _ u).trans (List.sublist_append_left _ ['\n']))
    · exact sub

end

mutual

/-- A block's own lines and those of its rules, one level deeper. -/
theorem Rule.written_sublist {mild strict : Level} (lightens : Lightens mild strict) (rule : Rule)
    (depth : Nat) : (rule.written strict depth).Sublist (rule.written mild depth) := by
  cases rule with
  | ruleset selectors declarations =>
    rw [Rule.written, Rule.written]
    exact line_sublist lightens depth (ruleset_sublist lightens depth selectors declarations)
  | block name headed first others =>
    rw [Rule.written, Rule.written]
    have head := ((header_sublist lightens name headed).append lightens.space).append (List.Sublist.refl ['{'])
    have rules := (first.written_sublist lightens (depth + 1)).append
      (rulesWritten_sublist lightens others (depth + 1))
    exact ((line_sublist lightens depth head).append rules).append
      (line_sublist lightens depth (List.Sublist.refl ['}']))

theorem rulesWritten_sublist {mild strict : Level} (lightens : Lightens mild strict) (rules : List Rule)
    (depth : Nat) : (rulesWritten strict depth rules).Sublist (rulesWritten mild depth rules) := by
  cases rules with
  | nil => exact List.Sublist.refl _
  | cons rule others =>
    rw [rulesWritten, rulesWritten]
    exact (rule.written_sublist lightens depth).append (rulesWritten_sublist lightens others depth)

end

theorem Item.written_sublist {mild strict : Level} (lightens : Lightens mild strict) (item : Item) :
    (item.written strict).Sublist (item.written mild) := by
  cases item with
  | statement name words => exact line_sublist lightens 0 (List.Sublist.refl _)
  | rule r => exact r.written_sublist lightens 0

/-- The layout of a stricter level is that of a milder one with characters left out. -/
theorem Sheet.written_sublist {mild strict : Level} (lightens : Lightens mild strict) (sheet : Sheet) :
    (sheet.written strict).Sublist (sheet.written mild) := by
  rw [Sheet.written, Sheet.written]
  induction sheet.toList with
  | nil => exact List.Sublist.refl []
  | cons item items ih => exact (item.written_sublist lightens).append ih

/-! ### White space -/

theorem countP_token (level : Level) : (Token.ofLevel level).countP Text.isBlank = 0 := by
  cases level <;> decide

/-- A stricter level writes no more white space for a spelling than a milder one. -/
theorem countP_minify_le {sheet : Sheet} {x : Text} (spells : sheet.Spells x) {mild strict : Level}
    (pressed : mild ≠ .off) (order : mild.index ≤ strict.index) :
    (minify x strict).countP Text.isBlank ≤ (minify x mild).countP Text.isBlank := by
  have alsoPressed : strict ≠ .off := by
    revert pressed order
    cases mild <;> cases strict <;> decide
  have inside := sheet.written_sublist (lightens_of_index_le order)
  rw [minify_of_spells spells pressed, minify_of_spells spells alsoPressed, Token.trim_signed,
    Token.trim_signed, sheet.trimStart_written, sheet.trimStart_written, List.countP_append,
    List.countP_append, countP_token, countP_token]
  exact inside.countP_le

/-- The white space of a pressed plain stylesheet goes down from `low` over `medium` to `high`. -/
theorem blanks_lighten {sheet : Sheet} {x : Text} (spells : sheet.Spells x) :
    (minify x .low).countP Text.isBlank ≥ (minify x .medium).countP Text.isBlank ∧
      (minify x .medium).countP Text.isBlank ≥ (minify x .high).countP Text.isBlank :=
  ⟨countP_minify_le spells (by decide) (by decide), countP_minify_le spells (by decide) (by decide)⟩

theorem blanks_lighten_sample :
    sample.Spells sampleText ∧
      (minify sampleText .low).countP Text.isBlank ≥ (minify sampleText .medium).countP Text.isBlank ∧
      (minify sampleText .medium).countP Text.isBlank ≥ (minify sampleText .high).countP Text.isBlank :=
  ⟨sample_spells, blanks_lighten sample_spells⟩

end Stylepress.Plain
