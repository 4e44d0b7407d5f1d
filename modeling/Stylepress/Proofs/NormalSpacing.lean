import Stylepress.Proofs.LineEnds
import Stylepress.Proofs.Spaces

/-!
The normal form of white space. Deleting line ends, collapsing runs and clearing the neighbours of marks
together leave single spaces, none of them beside a mark (`normal_normalise`), and the texts of that form are
those that they leave as they are (`normalise_eq_self_iff`). Which spaces are left can be told at each character
from what stands around it: a run of white space becomes one space if it holds horizontal space and no mark
stands at either end of it (`normalise_eq_inContext`).
-/
namespace Stylepress.Css

namespace Spacing

/-- `css` on one line, with single spaces and none beside a mark. -/
def normalise (css : Text) : Text := tighten (collapse (joinLines css))

/-- The normal form: single spaces are the only white space, and none stands beside a mark. -/
structure Normal (t : Text) : Prop where
  spaces : ∀ c ∈ t, Text.isBlank c = true → c = ' '
  noSeparator : vowelSeparator ∉ t
  single : ¬ [' ', ' '] <:+: t
  beforeMark : ∀ mark, isMark mark = true → ¬ [' ', mark] <:+: t
  behindMark : ∀ mark, isMark mark = true → ¬ [mark, ' '] <:+: t

/-- Line ends are not written. Horizontal space is written as one space where its run ends, and not at all if a
    mark stands on either side of the run. -/
def writing (before : Text) (c : Char) (rest : Text) : Text :=
  if Text.isVertical c then []
  else if Text.isHorizontal c then
    if (joinLines rest).head?.any Text.isHorizontal then []
    else if (solid before).getLast?.any isMark || (joinLines rest).head?.any isMark then []
    else [' ']
  else [c]

/-! ### Neighbours -/

theorem parted_normalise (css : Text) : (normalise css).IsChain Parted :=
  (parted_tightenFrom false (single_collapse _)).1

theorem parted_iff {t : Text} :
    t.IsChain Parted ↔ ¬ [' ', ' '] <:+: t ∧ (∀ mark, isMark mark = true → ¬ [' ', mark] <:+: t) ∧
      ∀ mark, isMark mark = true → ¬ [mark, ' '] <:+: t := by
  simp only [Text.not_pair_iff, List.isChain_iff_forall_rel_of_append_cons_cons]
  constructor
  · intro parted
    refine ⟨?_, ?_, ?_⟩
    · rintro c d a b shape ⟨rfl, rfl⟩
      exact ((parted shape).1 rfl).1 rfl
    · rintro mark isMark c d a b shape ⟨rfl, rfl⟩
      simp [((parted shape).1 rfl).2] at isMark
    · rintro mark isMark c d a b shape ⟨rfl, rfl⟩
      exact (parted shape).2 isMark rfl
  · rintro ⟨single, before, behind⟩ c d a b shape
    refine ⟨?_, ?_⟩
    · rintro rfl
      refine ⟨fun same => single shape ⟨rfl, same⟩, ?_⟩
      by_contra mark
      exact before d (by simpa using mark) shape ⟨rfl, rfl⟩
    · rintro mark rfl
      exact behind c mark shape ⟨rfl, rfl⟩

theorem normal_normalise (css : Text) : Normal (normalise css) := by
  obtain ⟨single, before, behind⟩ := parted_iff.mp (parted_normalise css)
  refine ⟨?_, ?_, single, before, behind⟩
  · exact fun c member blank => eq_space_of_mem_tighten member (isSpacing_of_isBlank blank)
  · intro member
    exact absurd (eq_space_of_mem_tighten member (isSpacing_iff.mpr (.inr rfl))) (by decide)

/-! ### Fixed points -/

theorem collapse_eq_self {t : Text} (spaces : ∀ c ∈ t, Text.isHorizontal c = true → c = ' ')
    (single : t.IsChain fun c d => c = ' ' → d ≠ ' ') : collapse t = t := by
  induction t with
  | nil => rfl
  | cons c rest ih =>
    obtain ⟨next, later⟩ := List.isChain_cons.mp single
    have kept := ih (fun d member => spaces d (List.mem_cons_of_mem c member)) later
    by_cases horizontal : Text.isHorizontal c = true
    · have space := spaces c List.mem_cons_self horizontal
      have last : ¬ rest.head?.any Text.isHorizontal = true := by
        cases rest with
        | nil => simp
        | cons d rest =>
          intro more
          exact next d rfl space (spaces d (by simp) more)
      rw [collapse, if_pos horizontal, if_neg last, kept, space]
    · rw [collapse, if_neg horizontal, kept]

theorem tightenFrom_eq_self {afterMark : Bool} {t : Text} (parted : t.IsChain Parted)
    (start : afterMark = true → t.head? ≠ some ' ') : tightenFrom afterMark t = t := by
  induction t generalizing afterMark with
  | nil => rfl
  | cons c rest ih =>
    obtain ⟨next, later⟩ := List.isChain_cons.mp parted
    have stays : ¬ (c = ' ' && (afterMark || rest.head?.any isMark)) = true := by
      intro gone
      obtain ⟨rfl, behind | before⟩ : c = ' ' ∧ (afterMark = true ∨ rest.head?.any isMark = true) := by
        simpa using gone
      · exact start behind rfl
      · obtain ⟨d, first, mark⟩ := (Option.any_eq_true ..).mp before
        simp [((next d first).1 rfl).2] at mark
    rw [tightenFrom, if_neg stays, ih later fun mark first => (next ' ' first).2 mark rfl]

theorem Normal.normalise_eq {t : Text} (normal : Normal t) : normalise t = t := by
  have spacing : ∀ c ∈ t, Plain.isSpacing c = true → c = ' ' := by
    intro c member spacing
    rcases isSpacing_iff.mp spacing with blank | rfl
    · exact normal.spaces c member blank
    · exact absurd member normal.noSeparator
  have oneLine : joinLines t = t := by
    rw [joinLines, List.filter_eq_self]
    intro c member
    by_contra vertical
    have isVertical : Text.isVertical c = true := by simpa using vertical
    obtain rfl := spacing c member (by simp [Plain.isSpacing, isVertical])
    exact absurd isVertical (by decide)
  have parted : t.IsChain Parted := parted_iff.mpr ⟨normal.single, normal.beforeMark, normal.behindMark⟩
  have collapsed : collapse t = t :=
    collapse_eq_self (fun c member horizontal => spacing c member (Plain.isSpacing_of_isHorizontal horizontal))
      (parted.imp fun _ _ neighbours space => (neighbours.1 space).1)
  rw [normalise, oneLine, collapsed, tighten, tightenFrom_eq_self parted (by simp)]

/-- The texts in normal form are those that normalising leaves as they are. -/
theorem normalise_eq_self_iff {t : Text} : normalise t = t ↔ Normal t := by
  constructor
  · intro same
    rw [← same]
    exact normal_normalise t
  · exact Normal.normalise_eq

/-! ### What is kept -/

theorem solid_normalise (css : Text) : solid (normalise css) = solid css := by
  rw [normalise, tighten, solid_tightenFrom, solid_collapse, solid_joinLines]

/-- Everything but white space is kept. -/
theorem filter_normalise (css : Text) :
    (normalise css).filter (· != ' ') = css.filter fun c => !Text.isBlank c && c != vowelSeparator := by
  have spaces : (normalise css).filter (· != ' ') = solid (normalise css) := by
    refine List.filter_congr fun c member => ?_
    by_cases spacing : Plain.isSpacing c = true
    · rw [eq_space_of_mem_tighten member spacing]
      rfl
    · have other : c ≠ ' ' := by
        rintro rfl
        exact spacing (by decide)
      simp [other, spacing]
  have blanks : solid css = css.filter fun c => !Text.isBlank c && c != vowelSeparator := by
    refine List.filter_congr fun c _ => ?_
    rw [Bool.eq_iff_iff]
    simp [isSpacing_iff, ← Bool.not_eq_true]
  rw [spaces, solid_normalise, blanks]

theorem getLast?_solid_concat (before : Text) (c : Char) :
    (solid (before ++ [c])).getLast? =
      if Plain.isSpacing c then (solid before).getLast? else some c := by
  by_cases spacing : Plain.isSpacing c = true
  · simp [solid, spacing]
  · simp [solid, spacing]

/-- White space, character by character: what stands before it decides by its last solid character. -/
theorem normalise_eq_inContext (css : Text) : normalise css = Text.inContext writing [] css := by
  refine Text.eq_inContext
    (fun before t => tightenFrom ((solid before).getLast?.any isMark) (collapse (joinLines t)))
    (fun _ => rfl) ?_ [] css
  intro before c rest
  rw [getLast?_solid_concat, writing]
  by_cases vertical : Text.isVertical c = true
  · simp [joinLines, vertical, Plain.isSpacing]
  have joined : joinLines (c :: rest) = c :: joinLines rest := by simp [joinLines, vertical]
  rw [joined, if_neg vertical]
  by_cases horizontal : Text.isHorizontal c = true
  · rw [if_pos horizontal, if_pos (Plain.isSpacing_of_isHorizontal horizontal)]
    by_cases more : (joinLines rest).head?.any Text.isHorizontal = true
    · -- The run goes on, and its last character stands for it.
      rw [if_pos more, collapse, if_pos horizontal, if_pos more]
      rfl
    · have asSpace : collapse (c :: joinLines rest) = collapse (' ' :: joinLines rest) := by
        rw [collapse, collapse, if_pos horizontal, if_pos (show Text.isHorizontal ' ' = true by decide)]
      rw [if_neg more, asSpace, tightenFrom_collapse_space (by simpa using more)]
  · have notSpacing : Plain.isSpacing c = false := by simp [Plain.isSpacing, vertical, horizontal]
    have notSpace : c ≠ ' ' := ne_space_of_not_isHorizontal (by simpa using horizontal)
    rw [if_neg horizontal, notSpacing, collapse, if_neg horizontal, tightenFrom]
    simp [notSpace]

end Spacing

/-- White space in normal form: single spaces and nothing else, none beside a mark. All other characters are
    kept, normalising again changes nothing, and nothing but the normal forms is left as it is. Which spaces are
    left follows from what stands around each character of the text. -/
theorem spacing_normalised (css : Text) :
    Spacing.Normal (Spacing.normalise css) ∧
      (Spacing.normalise css).filter (· != ' ') = css.filter (fun c => !Text.isBlank c && c != vowelSeparator) ∧
      Spacing.normalise (Spacing.normalise css) = Spacing.normalise css ∧
      (Spacing.normalise css = css ↔ Spacing.Normal css) ∧
      Spacing.normalise css = Text.inContext Spacing.writing [] css :=
  ⟨Spacing.normal_normalise css, Spacing.filter_normalise css, (Spacing.normal_normalise css).normalise_eq,
    Spacing.normalise_eq_self_iff, Spacing.normalise_eq_inContext css⟩

end Stylepress.Css
