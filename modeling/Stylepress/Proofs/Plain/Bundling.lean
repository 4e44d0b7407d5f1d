import Stylepress.Bundle.Source
import Stylepress.Disk.Edit
import Stylepress.Proofs.Plain.Repressing

/-!
Pressing several stylesheets as one. The combined sources are their texts between gaps, so they spell the
members of all of them in order (`exists_items`), and nothing in one source reaches into the next: the
pressed bundle is what each source is pressed to, one after the other, with a single token at the end
(`minify_combine`).
-/
namespace Stylepress.Plain
open Css

/-- Readable sources are combined to their trimmed texts, each with a blank line behind it. -/
theorem combine_of_read {disk : Disk} {sources : List Source} {contents : List Text}
    (read : List.Forall₂ (fun source content => disk.readText source.path = .ok content) sources contents) :
    Source.combine disk sources = .ok (contents.flatMap fun content => Text.trim content ++ ['\n', '\n']) := by
  induction read with
  | nil => rfl
  | cons here _ ih =>
    rw [Source.combine, here, ih]
    rfl

/-- The sources that hold something. -/
def filled (contents : List Text) : List Text :=
  contents.filter fun content => content.any fun c => !Text.isBlank c

theorem filled_cons_of_blank {content : Text} (blank : ∀ c ∈ content, Text.isBlank c = true)
    (contents : List Text) : filled (content :: contents) = filled contents := by
  refine List.filter_cons_of_neg ?_
  simpa using blank

theorem filled_cons_of_spells {sheet : Sheet} {content : Text} (spells : sheet.Spells content)
    (contents : List Text) : filled (content :: contents) = content :: filled contents := by
  refine List.filter_cons_of_pos ?_
  by_contra none
  exact spells.trim.2 (Text.trim_eq_nil_iff.mpr (by simpa using none))

/-- Sources that are blank or spell a stylesheet spell the members of all these stylesheets together, and
    each of them alone is pressed to its own members. -/
theorem exists_items {contents : List Text}
    (plain : ∀ content ∈ contents,
      (∀ c ∈ content, Text.isBlank c = true) ∨ ∃ sheet : Sheet, sheet.Spells content)
    {level : Level} (pressed : level ≠ .off) :
    ∃ (items : List Item) (bodies : List Text),
      RowsSpell (items.flatMap Item.rows) (contents.flatMap fun content => Text.trim content ++ ['\n', '\n']) ∧
      List.Forall₂ (fun content body => minify content level = body ++ Token.ofLevel level)
        (filled contents) bodies ∧
      items.flatMap (Item.written level) = bodies.flatten ∧ (items = [] → filled contents = []) := by
  have gap : RowsSpell [] ['\n', '\n'] := rowsSpell_gap (.spacing (by decide) (.spacing (by decide) .empty))
  induction contents with
  | nil => exact ⟨[], [], rowsSpell_gap .empty, .nil, rfl, fun _ => rfl⟩
  | cons content contents ih =>
    obtain ⟨here, later⟩ := List.forall_mem_cons.mp plain
    obtain ⟨items, bodies, spelled, each, written, none⟩ := ih later
    rcases here with blank | ⟨sheet, spells⟩
    · refine ⟨items, bodies, ?_, ?_, written, ?_⟩
      · rw [List.flatMap_cons, Text.trim_eq_nil_iff.mpr blank]
        exact gap.append spelled
      · rwa [filled_cons_of_blank blank]
      · rwa [filled_cons_of_blank blank]
    · have alone : minify content level = sheet.written level ++ Token.ofLevel level := by
        rw [minify_of_spells spells pressed, Token.trim_signed, sheet.trimStart_written]
      have front : RowsSpell (sheet.rows ++ []) (Text.trim content ++ ['\n', '\n']) :=
        RowsSpell.append spells.trim.1 gap
      rw [List.append_nil] at front
      refine ⟨sheet.toList ++ items, sheet.written level :: bodies, ?_, ?_, ?_, ?_⟩
      · rw [List.flatMap_append, List.flatMap_cons]
        exact front.append spelled
      · rw [filled_cons_of_spells spells]
        exact .cons alone each
      · rw [List.flatMap_append, written]
        rfl
      · exact fun nothing => absurd (List.append_eq_nil_iff.mp nothing).1 (List.cons_ne_nil _ _)

/-- Sources of which each is blank or spells a plain stylesheet can be combined, and what the combined
    sources are pressed to is what each source that is not blank is pressed to alone, without its token
    and in order, with one token behind all of them. -/
theorem minify_combine {disk : Disk} {sources : List Source} {contents : List Text}
    (read : List.Forall₂ (fun source content => disk.readText source.path = .ok content) sources contents)
    (plain : ∀ content ∈ contents,
      (∀ c ∈ content, Text.isBlank c = true) ∨ ∃ sheet : Sheet, sheet.Spells content)
    (some : ∃ content ∈ contents, ∃ c ∈ content, Text.isBlank c = false)
    {level : Level} (pressed : level ≠ .off) :
    ∃ raw bodies, Source.combine disk sources = .ok raw ∧
      List.Forall₂ (fun content body => minify content level = body ++ Token.ofLevel level)
        (filled contents) bodies ∧
      minify raw level = bodies.flatten ++ Token.ofLevel level := by
  obtain ⟨items, bodies, spelled, each, written, none⟩ := exists_items plain pressed
  refine ⟨_, bodies, combine_of_read read, each, ?_⟩
  cases items with
  | nil =>
    obtain ⟨content, member, c, inside, solid⟩ := some
    have gone := List.filter_eq_nil_iff.mp (none rfl) content member
    exact absurd (List.any_eq_true.mpr ⟨c, inside, by simp [solid]⟩) gone
  | cons first others =>
    let sheet : Sheet := ⟨first, others⟩
    have spells : sheet.Spells (contents.flatMap fun content => Text.trim content ++ ['\n', '\n']) := spelled
    have same : sheet.written level = bodies.flatten := written
    rw [minify_of_spells spells pressed, Token.trim_signed, sheet.trimStart_written, same]

/-- A disk with the sample, a blank file, and the sample as it is pressed at `medium`. -/
def sheetsDisk : Disk :=
  (((Disk.bare [] 0).putFile 0 [['a']] (Utf8.encode sampleText) 1).putFile 0 [['b']]
    (Utf8.encode [' ', '\n']) 1).putFile 0 [['c']]
      (Utf8.encode (sample.written .medium ++ Token.ofLevel .medium)) 1

def sheetsSources : List Source := [⟨['/', 'a'], ['a'], 1⟩, ⟨['/', 'b'], ['b'], 1⟩, ⟨['/', 'c'], ['c'], 1⟩]

theorem minify_combine_sheets :
    ∃ raw bodies, Source.combine sheetsDisk sheetsSources = .ok raw ∧
      List.Forall₂ (fun content body => minify content .low = body ++ Token.ofLevel .low)
        [sampleText, sample.written .medium ++ Token.ofLevel .medium] bodies ∧
      minify raw .low = bodies.flatten ++ Token.ofLevel .low := by
  have read : List.Forall₂ (fun source content => sheetsDisk.readText source.path = .ok content)
      sheetsSources [sampleText, [' ', '\n'], sample.written .medium ++ Token.ofLevel .medium] :=
    .cons (by decide +kernel) (.cons (by decide +kernel) (.cons (by decide +kernel) .nil))
  refine minify_combine read ?_ ⟨sampleText, by simp, '@', by decide, by decide⟩ (by decide)
  intro content member
  simp only [List.mem_cons, List.not_mem_nil, or_false] at member
  rcases member with rfl | rfl | rfl
  · exact .inr ⟨sample, sample_spells⟩
  · exact .inl (List.all_eq_true.mp (by decide))
  · exact .inr ⟨sample, sample.spells_written .medium (gap_token .medium)⟩

end Stylepress.Plain
