import Stylepress.Bundle.Basic
import Stylepress.Proofs.Disk

/-!
Calls of a bundle. `refresh_cases`, `process_cases` and `save_cases` say all that a call can do; runs
are calls one after the other, and what each call keeps, every run keeps (`run_invariant`). No call
changes what the bundle reads from and writes to, and on disk a run writes under the output's path only
(`resaved_run`).
-/
namespace Stylepress.Bundle
open Css (Level)

/-! ### What a call does -/

/-- A refreshed bundle is as it was, or has the text of a fresh output. -/
theorem refresh_cases {disk : Disk} {bundle after : Bundle} (done : refresh disk bundle = .ok after) :
    after = bundle ∨ ∃ css, Staleness.isFresh bundle.target.modified (Source.newest? bundle.sources) = true ∧
      disk.readText bundle.target.path = .ok css ∧
      after = { bundle with css, level := Css.Token.levelOf? css } := by
  rw [refresh, Target.load] at done
  split at done
  · next fresh =>
    cases read : disk.readText bundle.target.path with
    | error fault => simp [read] at done
    | ok css =>
      simp only [read] at done
      exact .inr ⟨css, fresh, rfl, (Except.ok.inj done).symm⟩
  · exact .inl (Except.ok.inj done).symm

/-- The bundle once its text was made from the combined sources at a level. -/
def made (bundle : Bundle) (css : Text) (level : Level) : Bundle :=
  { bundle with combined := some css, css := Css.minify css level, updated := true, level := some level }

/-- A text is made unless the output cannot be read, the text at hand will do, or the sources cannot
    be read. -/
theorem process_cases (disk : Disk) (level : Level) (force : Bool) (bundle : Bundle) :
    (∃ error, refresh disk bundle = .error error ∧
      bundle.process disk level force = (.error error, bundle)) ∨
    ∃ fresh, refresh disk bundle = .ok fresh ∧
      ((Staleness.decision level force fresh.css fresh.level = .reuse ∧
          bundle.process disk level force = (.ok (), { fresh with level := some level })) ∨
        (∃ reason, Staleness.decision level force fresh.css fresh.level = .rebuild reason) ∧
          ((∃ error, combine disk fresh = .error error ∧
              bundle.process disk level force = (.error error, fresh)) ∨
            ∃ css, combine disk fresh = .ok css ∧
              bundle.process disk level force = (.ok (), fresh.made css level))) := by
  cases refreshed : refresh disk bundle with
  | error error => exact .inl ⟨error, rfl, by simp only [process, refreshed]⟩
  | ok fresh =>
    refine .inr ⟨fresh, rfl, ?_⟩
    cases decided : Staleness.decision level force fresh.css fresh.level with
    | reuse => exact .inl ⟨rfl, by simp only [process, refreshed, decided]⟩
    | rebuild reason =>
      refine .inr ⟨⟨reason, rfl⟩, ?_⟩
      cases combined : combine disk fresh with
      | error error => exact .inl ⟨error, rfl, by simp only [process, refreshed, decided, combined]⟩
      | ok css => exact .inr ⟨css, rfl, by simp only [process, refreshed, decided, combined]; rfl⟩

/-- The bundle once its text was saved at a time. -/
def saved (bundle : Bundle) (modified : Time) : Bundle :=
  { bundle with target := { bundle.target with modified := some modified }, updated := false }

/-- A text is saved if there is one and it was made anew. -/
theorem save_cases (disk : Disk) (now : Time) (bundle : Bundle) :
    (∃ result, (bundle.css = [] ∨ bundle.updated = false) ∧ bundle.save disk now = (result, bundle, disk)) ∨
    (bundle.css ≠ [] ∧ bundle.updated = true) ∧
      ((∃ error, Target.save disk bundle.target.path bundle.css now = .error error ∧
          bundle.save disk now = (.error error, bundle, disk)) ∨
        ∃ changed modified, Target.save disk bundle.target.path bundle.css now = .ok (changed, modified) ∧
          bundle.save disk now =
            (.ok ((bundle.saved modified).markup now), bundle.saved modified, changed)) := by
  cases none : bundle.css.isEmpty with
  | true => exact .inl ⟨.ok "", .inl (List.isEmpty_iff.mp none), by simp [save, none]⟩
  | false =>
    cases made : bundle.updated with
    | false => exact .inl ⟨.ok (bundle.markup now), .inr rfl, by simp [save, none, made]⟩
    | true =>
      refine .inr ⟨⟨List.isEmpty_eq_false_iff.mp none, rfl⟩, ?_⟩
      cases tried : Target.save disk bundle.target.path bundle.css now with
      | error error => exact .inl ⟨error, rfl, by simp [save, none, made, tried]⟩
      | ok done =>
        obtain ⟨changed, modified⟩ := done
        exact .inr ⟨changed, modified, rfl, by simp [save, none, made, tried, saved]⟩

theorem write_of_save {disk changed : Disk} {path css : Text} {now modified : Time}
    (done : Target.save disk path css now = .ok (changed, modified)) :
    disk.write path (Utf8.encode css) now = .ok changed := by
  rw [Target.save] at done
  cases written : disk.write path (Utf8.encode css) now with
  | error fault => simp [written] at done
  | ok after =>
    simp only [written] at done
    split at done
    · cases done
    · obtain ⟨rfl, _⟩ := Prod.mk.inj (Except.ok.inj done)
      rfl

/-- Saving succeeds where a file can be written. -/
theorem save_of_writable {disk : Disk} {path : Text} {location : Location}
    (found : disk.writable path = .ok location) (css : Text) (now : Time) :
    Target.save disk path css now =
      .ok (disk.set location (some (.file (Utf8.encode css) now)), now) := by
  obtain ⟨_, located, accepts⟩ := Disk.writable_eq_ok_iff.mp found
  have written : disk.write path (Utf8.encode css) now = .ok _ :=
    Disk.write_eq_ok_iff.mpr ⟨location, found, rfl⟩
  rw [Target.save, written]
  simp only [Disk.status_set located accepts]
  rfl

/-! ### Runs -/

/-- A call of a bundle. -/
inductive Call where
  | process (level : Level) (force : Bool)
  | save (now : Time)
deriving DecidableEq, Repr

/-- A bundle and the disk after a call. -/
def Call.apply : Call → Bundle × Disk → Bundle × Disk
  | .process level force, (bundle, disk) => ((bundle.process disk level force).2, disk)
  | .save now, (bundle, disk) => (bundle.save disk now).2

def run (calls : List Call) (state : Bundle × Disk) : Bundle × Disk :=
  calls.foldl (fun state call => call.apply state) state

/-- What every call keeps, every run keeps. -/
theorem run_invariant {P : Bundle × Disk → Prop}
    (kept : ∀ (call : Call) (bundle : Bundle) (disk : Disk), P (bundle, disk) → P (call.apply (bundle, disk)))
    {state : Bundle × Disk} (start : P state) (calls : List Call) : P (run calls state) := by
  induction calls generalizing state with
  | nil => exact start
  | cons call calls ih => exact ih (kept call state.1 state.2 start)

/-- Bundles that read from and write to the same places. -/
structure SamePlaces (bundle after : Bundle) : Prop where
  sources : after.sources = bundle.sources
  path : after.target.path = bundle.target.path

theorem samePlaces_refresh {disk : Disk} {bundle after : Bundle} (done : refresh disk bundle = .ok after) :
    SamePlaces bundle after := by
  rcases refresh_cases done with rfl | ⟨css, _, _, rfl⟩
  · exact ⟨rfl, rfl⟩
  · exact ⟨rfl, rfl⟩

theorem samePlaces_process (disk : Disk) (level : Level) (force : Bool) (bundle : Bundle) :
    SamePlaces bundle (bundle.process disk level force).2 := by
  rcases process_cases disk level force bundle with ⟨error, _, outcome⟩ | ⟨fresh, done, outcome⟩
  · rw [outcome]
    exact ⟨rfl, rfl⟩
  · have same := samePlaces_refresh done
    rcases outcome with ⟨_, outcome⟩ | ⟨_, ⟨error, _, outcome⟩ | ⟨css, _, outcome⟩⟩
    · rw [outcome]
      exact ⟨same.sources, same.path⟩
    · rw [outcome]
      exact same
    · rw [outcome]
      exact ⟨same.sources, same.path⟩

theorem samePlaces_save (disk : Disk) (now : Time) (bundle : Bundle) :
    SamePlaces bundle (bundle.save disk now).2.1 := by
  rcases save_cases disk now bundle with ⟨result, _, outcome⟩ |
    ⟨_, ⟨error, _, outcome⟩ | ⟨changed, modified, _, outcome⟩⟩
  all_goals
    rw [outcome]
    exact ⟨rfl, rfl⟩

theorem resaved_save {path : Text} {first disk : Disk} (resaved : first.Resaved path disk) (now : Time)
    {bundle : Bundle} (same : bundle.target.path = path) : first.Resaved path (bundle.save disk now).2.2 := by
  rcases save_cases disk now bundle with ⟨result, _, outcome⟩ |
    ⟨_, ⟨error, _, outcome⟩ | ⟨changed, modified, done, outcome⟩⟩
  · rwa [outcome]
  · rwa [outcome]
  · rw [outcome]
    rw [same] at done
    exact resaved.write (write_of_save done)

/-- A run reads from and writes to the places of its bundle, and changes the disk under the output's
    path only. -/
theorem resaved_run (bundle : Bundle) (disk : Disk) (calls : List Call) :
    SamePlaces bundle (run calls (bundle, disk)).1 ∧
      Disk.Resaved bundle.target.path disk (run calls (bundle, disk)).2 := by
  refine run_invariant (P := fun state => SamePlaces bundle state.1 ∧
    Disk.Resaved bundle.target.path disk state.2) ?_ ⟨⟨rfl, rfl⟩, .inl rfl⟩ calls
  rintro call after changed ⟨same, resaved⟩
  cases call with
  | process level force =>
    have next := samePlaces_process changed level force after
    exact ⟨⟨next.sources.trans same.sources, next.path.trans same.path⟩, resaved⟩
  | save now =>
    have next := samePlaces_save changed now after
    exact ⟨⟨next.sources.trans same.sources, next.path.trans same.path⟩,
      resaved_save resaved now same.path⟩

end Stylepress.Bundle
