import Stylepress.Proofs.Bundle.Saving

/-!
What a call of `process` leaves that fails. It may have read the output before a source fails it, so
the text at hand may be another one than before. But it reads the output only if that is later than the
sources, and then the next call reads it again before it looks at the text. So no later call can tell
the two bundles apart (`failed_process_invisible`).
-/
namespace Stylepress.Bundle
open Css (Level)

/-- Bundles that are the same, or differ in a text that the next call of `process` reads anew. -/
def Alike (bundle other : Bundle) : Prop :=
  other = bundle ∨
    Staleness.isFresh bundle.target.modified (Source.newest? bundle.sources) = true ∧
      ∃ css level, other = { bundle with css, level }

section
variable {bundle other : Bundle}

/-- Refreshing takes the difference away. -/
theorem Alike.refresh_eq (alike : Alike bundle other) (disk : Disk) :
    refresh disk other = refresh disk bundle := by
  rcases alike with rfl | ⟨isFresh, css, level, rfl⟩
  · rfl
  · simp only [refresh, isFresh, if_true]

/-- A call of `process` does the same to both, or fails on both before it changes them. -/
theorem Alike.process_eq (alike : Alike bundle other) (disk : Disk) (level : Level) (force : Bool) :
    other.process disk level force = bundle.process disk level force ∨
      ∃ error, other.process disk level force = (.error error, other) ∧
        bundle.process disk level force = (.error error, bundle) := by
  have same := alike.refresh_eq disk
  cases refreshed : refresh disk bundle with
  | error error =>
    rw [refreshed] at same
    exact .inr ⟨error, by simp only [process, same], by simp only [process, refreshed]⟩
  | ok fresh =>
    rw [refreshed] at same
    exact .inl (by simp only [process, same, refreshed])

/-- After a call of `process` two such bundles are still alike, and the call has had the same result. -/
theorem Alike.process (alike : Alike bundle other) (disk : Disk) (level : Level) (force : Bool) :
    (other.process disk level force).1 = (bundle.process disk level force).1 ∧
      Alike (bundle.process disk level force).2 (other.process disk level force).2 := by
  rcases alike.process_eq disk level force with same | ⟨error, failedOther, failed⟩
  · rw [same]
    exact ⟨rfl, .inl rfl⟩
  · rw [failed, failedOther]
    exact ⟨rfl, alike⟩

/-- The results of calls of `process` one after the other, each with the disk that it finds. -/
def results : List (Disk × Level × Bool) → Bundle → List (Except BundleError Unit)
  | [], _ => []
  | (disk, level, force) :: later, bundle =>
    (bundle.process disk level force).1 :: results later (bundle.process disk level force).2

theorem Alike.results_eq (alike : Alike bundle other) (calls : List (Disk × Level × Bool)) :
    results calls other = results calls bundle := by
  induction calls generalizing bundle other with
  | nil => rfl
  | cons call calls ih =>
    obtain ⟨disk, level, force⟩ := call
    obtain ⟨same, still⟩ := alike.process disk level force
    rw [results, results, same, ih still]

/-- A call that fails leaves a bundle like the one before it. -/
theorem alike_of_failed {disk : Disk} {level : Level} {force : Bool} {error : BundleError} {after : Bundle}
    (failed : bundle.process disk level force = (.error error, after)) : Alike bundle after := by
  rcases process_cases disk level force bundle with ⟨cause, _, outcome⟩ | ⟨fresh, refreshed, outcome⟩
  · rw [outcome] at failed
    exact .inl (Prod.mk.inj failed).2.symm
  · rcases outcome with ⟨_, outcome⟩ | ⟨_, ⟨cause, _, outcome⟩ | ⟨css, _, outcome⟩⟩
    · rw [outcome] at failed
      cases failed
    · rw [outcome] at failed
      obtain rfl := (Prod.mk.inj failed).2
      rcases refresh_cases refreshed with same | ⟨css, isFresh, _, same⟩
      · exact .inl same
      · exact .inr ⟨isFresh, css, Css.Token.levelOf? css, same⟩
    · rw [outcome] at failed
      cases failed

/-- Nothing but the text at hand and its level can differ. -/
theorem Alike.fields (alike : Alike bundle other) :
    other.sources = bundle.sources ∧ other.combined = bundle.combined ∧ other.updated = bundle.updated ∧
      other.target = bundle.target := by
  rcases alike with rfl | ⟨_, css, level, rfl⟩
  · exact ⟨rfl, rfl, rfl, rfl⟩
  · exact ⟨rfl, rfl, rfl, rfl⟩

end

/-! ### A small disk -/

/-- The disk with someone else's text in the output, once the source is gone. -/
def sourcelessDisk : Disk :=
  editedDisk.set [['p', 'u', 'b', 'l', 'i', 'c'], ['c', 's', 's'], ['a', '.', 'c', 's', 's']] none

/-- The small bundle once a call has read the output and failed on the source. -/
def failedBundle : Bundle := ((smallBundle editedTarget).process sourcelessDisk .low false).2

theorem process_sourceless : (smallBundle editedTarget).process sourcelessDisk .low false =
    (.error (.unreadable smallSource.path .notFound), failedBundle) :=
  Prod.ext (by decide +kernel) rfl

/-! ### Later calls -/

/-- A call of `process` that fails, whatever the state of the bundle, changes nothing on disk and leaves
    the sources, the combined sources, the flag and the output as they were. Whatever disk the next call
    of `process` finds, it succeeds with the same bundle as if the failed call had not been made, or it
    fails with the same error; and all calls after it have the same results too. -/
theorem failed_process_invisible {disk : Disk} {level : Level} {force : Bool} {error : BundleError}
    {bundle after : Bundle} (failed : bundle.process disk level force = (.error error, after)) :
    (Call.process level force).apply (bundle, disk) = (after, disk) ∧
      (after.sources = bundle.sources ∧ after.combined = bundle.combined ∧
        after.updated = bundle.updated ∧ after.target = bundle.target) ∧
      (∀ found asked forced,
        (∃ done, after.process found asked forced = (.ok (), done) ∧
          bundle.process found asked forced = (.ok (), done)) ∨
        ∃ cause, (after.process found asked forced).1 = .error cause ∧
          (bundle.process found asked forced).1 = .error cause) ∧
      ∀ calls, results calls after = results calls bundle := by
  have alike := alike_of_failed failed
  refine ⟨by rw [Call.apply, failed], alike.fields, ?_, alike.results_eq⟩
  intro found asked forced
  rcases alike.process_eq found asked forced with same | ⟨cause, failedAfter, failedBefore⟩
  · rw [same]
    cases outcome : bundle.process found asked forced with
    | mk result done =>
      cases result with
      | ok _ => exact .inl ⟨done, rfl, rfl⟩
      | error cause => exact .inr ⟨cause, rfl, rfl⟩
  · exact .inr ⟨cause, by rw [failedAfter], by rw [failedBefore]⟩

/-- The failed call has read someone else's text; once the source is back, that makes no difference. -/
theorem failed_process_invisible_sourceless :
    (smallBundle editedTarget).css = [] ∧ failedBundle.css ≠ [] ∧
      ∃ done, failedBundle.process editedDisk .low false = (.ok (), done) ∧
        (smallBundle editedTarget).process editedDisk .low false = (.ok (), done) := by
  refine ⟨rfl, by decide +kernel, ?_⟩
  rcases (failed_process_invisible process_sourceless).2.2.1 editedDisk .low false with
    done | ⟨cause, failed, _⟩
  · exact done
  · have succeeds : (failedBundle.process editedDisk .low false).1 = .ok () := by decide +kernel
    rw [succeeds] at failed
    cases failed

end Stylepress.Bundle
