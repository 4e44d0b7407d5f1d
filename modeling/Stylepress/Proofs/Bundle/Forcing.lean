import Stylepress.CommandLine.Mention
import Stylepress.Proofs.Bundle.Combining
import Stylepress.Proofs.Bundle.Rebuilding
import Stylepress.Proofs.Bundle.Saving

/-!
Forced calls and the output that is there before them. A forced call makes the text from the sources
whatever the output holds, but it reads an output that is later than the sources first, and fails if
that is no text. So on two disks that differ in the output only, a forced call comes to the same, and to
a text wherever the sources can be combined, exactly if the output is legible on both of them and is
none of the sources (`ignoresOutput_iff`).
-/
namespace Stylepress

/-! ### Places that a path does not lead through -/

namespace Disk

theorem mem_route_of_walk {disk : Disk} {start target : Location} {pieces : List Text}
    (led : disk.walk start pieces = .ok target) : target ∈ route start pieces := by
  induction pieces generalizing start with
  | nil =>
    obtain rfl := Except.ok.inj led
    simp [route]
  | cons piece rest ih =>
    have onward := (walk_cons_eq_ok_iff.mp led).2
    exact List.mem_cons_of_mem _ (ih onward)

theorem walk_set_of_not_mem {disk : Disk} {location start : Location} {pieces : List Text}
    (avoided : location ∉ route start pieces) (content : Option Entry) :
    (disk.set location content).walk start pieces = disk.walk start pieces := by
  induction pieces generalizing start with
  | nil => rfl
  | cons piece rest ih =>
    rw [route, List.mem_cons, not_or] at avoided
    rw [walk, walk, lookUp_set_of_ne disk (Ne.symm avoided.1), ih avoided.2]

/-- The places of an absolute path are those that it leads through from the root. -/
theorem mem_places_of_isAbsolute {disk : Disk} {location : Location} {path : Text}
    (absolute : Path.isAbsolute path = true) (inRoute : location ∈ route [] (Text.pieces '/' path).tail) :
    location ∈ disk.places path := by
  rw [places, if_pos absolute]
  cases path with
  | nil => cases absolute
  | cons c rest =>
    obtain rfl : c = '/' := by simpa [Path.isAbsolute, Text.startsWith] using absolute
    -- The piece before the first slash is empty, and leads nowhere.
    have stays : step [] [] = [] := rfl
    rw [Text.pieces, if_pos rfl, List.tail_cons] at inRoute
    rw [Text.pieces, if_pos rfl, route, stays]
    exact List.mem_cons_of_mem _ inRoute

theorem locate_set_of_not_mem {disk : Disk} {location : Location} {path : Text}
    (avoided : location ∉ disk.places path) (content : Option Entry) :
    (disk.set location content).locate path = disk.locate path := by
  rw [locate, locate]
  cases refusal? path with
  | some fault => rfl
  | none =>
    by_cases absolute : Path.isAbsolute path = true
    · simp only [absolute, if_true]
      exact walk_set_of_not_mem (fun inRoute => avoided (mem_places_of_isAbsolute absolute inRoute)) content
    · simp only [absolute]
      refine walk_set_of_not_mem ?_ content
      rwa [places, if_neg absolute] at avoided

theorem mem_places_of_locate {disk : Disk} {place : Location} {path : Text}
    (located : disk.locate path = .ok place) : place ∈ disk.places path := by
  rw [locate, refusal?_of_locate located] at located
  by_cases absolute : Path.isAbsolute path = true
  · simp only [absolute, if_true] at located
    exact mem_places_of_isAbsolute absolute (mem_route_of_walk located)
  · simp only [absolute] at located
    rw [places, if_neg absolute]
    exact mem_route_of_walk located

/-- What a path names does not hang on a place that it does not lead through. -/
theorem status_set_of_not_mem {disk : Disk} {location : Location} {path : Text}
    (avoided : location ∉ disk.places path) (content : Option Entry) :
    (disk.set location content).status path = disk.status path := by
  rw [status, status, locate_set_of_not_mem avoided]
  cases located : disk.locate path with
  | error fault => rfl
  | ok place =>
    have different : place ≠ location := by
      rintro rfl
      exact avoided (mem_places_of_locate located)
    exact lookUp_set_of_ne disk different content

/-- Two disks differ at most in what is at a place, and a path leads there. -/
def DifferAt (path : Text) (location : Location) (one other : Disk) : Prop :=
  one.locate path = .ok location ∧ ∃ content, other = one.set location content

end Disk

namespace Bundle
open Css (Level minify)

/-! ### What a forced call comes to -/

/-- The bundle after a forced call, or why it fails. -/
def forced (level : Level) (bundle : Bundle) (disk : Disk) : Except BundleError Bundle :=
  match bundle.process disk level true with
  | (.ok (), after) => .ok after
  | (.error error, _) => .error error

/-- The output can be read as a text if it is later than the sources. -/
def Legible (bundle : Bundle) (disk : Disk) : Prop :=
  Staleness.isFresh bundle.target.modified (Source.newest? bundle.sources) = true →
    ∃ css, disk.readText bundle.target.path = .ok css

/-- The output is later than the sources, but cannot be read as a text. -/
def Illegible (bundle : Bundle) (disk : Disk) (fault : Fault) : Prop :=
  Staleness.isFresh bundle.target.modified (Source.newest? bundle.sources) = true ∧
    disk.readText bundle.target.path = .error fault

theorem Illegible.not_legible {bundle : Bundle} {disk : Disk} {fault : Fault}
    (illegible : Illegible bundle disk fault) : ¬ Legible bundle disk := by
  intro legible
  obtain ⟨css, read⟩ := legible illegible.1
  rw [illegible.2] at read
  cases read

/-- A forced call fails on an illegible output, and else comes to what combining the sources comes to. -/
theorem forced_cases (level : Level) (bundle : Bundle) (disk : Disk) :
    (∃ fault, Illegible bundle disk fault ∧
      forced level bundle disk = .error (.unreadable bundle.target.path fault)) ∨
    Legible bundle disk ∧ forced level bundle disk = (combine disk bundle).map (bundle.made · level) := by
  by_cases isFresh : Staleness.isFresh bundle.target.modified (Source.newest? bundle.sources) = true
  · cases read : disk.readText bundle.target.path with
    | error fault =>
      refine .inl ⟨fault, ⟨isFresh, read⟩, ?_⟩
      simp [forced, process, refresh, isFresh, Target.load, read]
    | ok css =>
      refine .inr ⟨fun _ => ⟨css, read⟩, ?_⟩
      have refreshed := refresh_of_fresh isFresh read
      have same : combine disk (bundle.holding css) = combine disk bundle := rfl
      simp only [forced, process, refreshed, Staleness.decision, if_true, same]
      cases combine disk bundle <;> rfl
  · refine .inr ⟨fun later => absurd later isFresh, ?_⟩
    have refreshed : refresh disk bundle = .ok bundle := by
      rw [refresh, if_neg isFresh]
    simp only [forced, process, refreshed, Staleness.decision, if_true]
    cases combine disk bundle <;> rfl

/-- Combining fails with the first source that cannot be read. -/
theorem combine_eq_error {bundle : Bundle} {disk : Disk} {error : BundleError}
    (failed : combine disk bundle = .error error) :
    ∃ source ∈ bundle.sources, ∃ fault, disk.readText source.path = .error fault ∧
      error = .unreadable source.path fault := by
  rw [combine] at failed
  cases cached : bundle.combined with
  | some css => simp [cached] at failed
  | none =>
    simp only [cached] at failed
    obtain ⟨before, source, after, fault, sources, _, unread, cause⟩ := Source.exists_of_combine_eq_error failed
    exact ⟨source, by simp [sources], fault, unread, cause⟩

/-- Combining does not hang on a place that no source's path leads through. -/
theorem combine_of_avoided {bundle : Bundle} {one : Disk} {location : Location}
    (apart : bundle.combined ≠ none ∨ ∀ source ∈ bundle.sources, location ∉ one.places source.path)
    (content : Option Entry) : combine one bundle = combine (one.set location content) bundle := by
  rw [combine, combine]
  cases cached : bundle.combined with
  | some css => rfl
  | none =>
    have avoided := apart.resolve_left (fun kept => kept cached)
    exact (combine_congr fun source member => Disk.status_set_of_not_mem (avoided source member) content).symm

/-! ### The same on both disks -/

/-- A forced call comes to the same on two disks, and makes the text wherever the sources can be
    combined. -/
structure IgnoresOutput (level : Level) (bundle : Bundle) (one other : Disk) : Prop where
  same : forced level bundle one = forced level bundle other
  made : ∀ disk, disk = one ∨ disk = other → ∀ raw, combine disk bundle = .ok raw →
    ∃ after, forced level bundle disk = .ok after ∧ after.css = minify raw level

section
variable {level : Level} {bundle : Bundle} {one other : Disk}

theorem combine_eq_of_map_made {a b : Except BundleError Text}
    (same : a.map (bundle.made · level) = b.map (bundle.made · level)) : a = b := by
  cases a with
  | error error =>
    cases b with
    | error other => simpa [Except.map] using same
    | ok raw => cases same
  | ok raw =>
    cases b with
    | error other => cases same
    | ok other =>
      have text := congrArg Bundle.combined (Except.ok.inj same)
      exact congrArg _ (Option.some.inj text)

/-- No source can be blamed for an output that is legible. -/
theorem map_made_ne_of_legible (legible : Legible bundle one) {fault : Fault}
    (isFresh : Staleness.isFresh bundle.target.modified (Source.newest? bundle.sources) = true) :
    (combine one bundle).map (bundle.made · level) ≠ .error (.unreadable bundle.target.path fault) := by
  intro same
  cases combined : combine one bundle with
  | ok raw =>
    rw [combined] at same
    cases same
  | error error =>
    rw [combined] at same
    obtain rfl := Except.error.inj same
    obtain ⟨source, _, cause, failed, blamed⟩ := combine_eq_error combined
    obtain ⟨path, _⟩ := BundleError.unreadable.inj blamed
    rw [← path] at failed
    exact Illegible.not_legible ⟨isFresh, failed⟩ legible

theorem ignoresOutput_of_legible (legible : Legible bundle one) (legibleToo : Legible bundle other)
    (combined : combine one bundle = combine other bundle) : IgnoresOutput level bundle one other := by
  have outcome : ∀ disk, Legible bundle disk →
      forced level bundle disk = (combine disk bundle).map (bundle.made · level) := by
    intro disk readable
    rcases forced_cases level bundle disk with ⟨fault, illegible, _⟩ | ⟨_, outcome⟩
    · exact absurd readable illegible.not_legible
    · exact outcome
  refine ⟨by rw [outcome one legible, outcome other legibleToo, combined], ?_⟩
  intro disk either raw found
  have readable : Legible bundle disk := by
    rcases either with rfl | rfl
    · exact legible
    · exact legibleToo
  refine ⟨bundle.made raw level, ?_, rfl⟩
  rw [outcome disk readable, found]
  rfl

theorem ignoresOutput_of_illegible {fault : Fault} (illegible : Illegible bundle one fault)
    (illegibleToo : Illegible bundle other fault) (failed : ∀ raw, combine one bundle ≠ .ok raw)
    (failedToo : ∀ raw, combine other bundle ≠ .ok raw) : IgnoresOutput level bundle one other := by
  have outcome : ∀ disk, Illegible bundle disk fault →
      forced level bundle disk = .error (.unreadable bundle.target.path fault) := by
    intro disk unread
    rcases forced_cases level bundle disk with ⟨cause, because, outcome⟩ | ⟨legible, _⟩
    · obtain rfl : cause = fault := Except.error.inj (because.2.symm.trans unread.2)
      exact outcome
    · exact absurd legible unread.not_legible
  refine ⟨by rw [outcome one illegible, outcome other illegibleToo], ?_⟩
  intro disk either raw found
  rcases either with rfl | rfl
  · exact absurd found (failed raw)
  · exact absurd found (failedToo raw)

/-- A forced call that does not fail on an illegible output finds a legible one. -/
theorem IgnoresOutput.cases (ignores : IgnoresOutput level bundle one other) :
    (Legible bundle one ∧ Legible bundle other ∧ combine one bundle = combine other bundle) ∨
      ∃ fault, Illegible bundle one fault ∧ Illegible bundle other fault := by
  rcases forced_cases level bundle one with ⟨fault, illegible, outcome⟩ | ⟨legible, outcome⟩
  · rcases forced_cases level bundle other with ⟨cause, illegibleToo, outcomeToo⟩ | ⟨legibleToo, outcomeToo⟩
    · have same := outcome.symm.trans (ignores.same.trans outcomeToo)
      obtain ⟨_, rfl⟩ := BundleError.unreadable.inj (Except.error.inj same)
      exact .inr ⟨fault, illegible, illegibleToo⟩
    · have same := outcomeToo.symm.trans (ignores.same.symm.trans outcome)
      exact absurd same (map_made_ne_of_legible legibleToo illegible.1)
  · rcases forced_cases level bundle other with ⟨cause, illegibleToo, outcomeToo⟩ | ⟨legibleToo, outcomeToo⟩
    · have same := outcome.symm.trans (ignores.same.trans outcomeToo)
      exact absurd same (map_made_ne_of_legible legible illegibleToo.1)
    · have same := outcome.symm.trans (ignores.same.trans outcomeToo)
      exact .inl ⟨legible, legibleToo, combine_eq_of_map_made same⟩

/-- Nothing can be combined where a forced call fails on the output all the same. -/
theorem IgnoresOutput.not_combined (ignores : IgnoresOutput level bundle one other) {disk : Disk}
    (either : disk = one ∨ disk = other) {fault : Fault} (illegible : Illegible bundle disk fault) (raw : Text) :
    combine disk bundle ≠ .ok raw := by
  intro combined
  obtain ⟨after, done, _⟩ := ignores.made disk either raw combined
  rcases forced_cases level bundle disk with ⟨cause, _, outcome⟩ | ⟨legible, _⟩
  · rw [outcome] at done
    cases done
  · exact illegible.not_legible legible

end

/-! ### A small disk -/

def outputPlace : Location := [['p', 'u', 'b', 'l', 'i', 'c'], ['c', 's', 's'], ['b', '.', 'c', 's', 's']]

/-- The small disk with an output of someone else's that is no text. -/
def brokenDisk : Disk := smallDisk.set outputPlace (some (.file [0xFF] 7))

/-- The small disk with another text of someone else's. -/
def rewrittenDisk : Disk := smallDisk.set outputPlace (some (.file (Utf8.encode ['y']) 8))

theorem openOn_broken :
    openOn brokenDisk (smallRequest otherTarget.web) = .ok (smallBundle editedTarget) := rfl

theorem differAt_edited (content : Option Entry) :
    Disk.DifferAt (smallBundle editedTarget).target.path outputPlace editedDisk
      (smallDisk.set outputPlace content) :=
  ⟨rfl, content, (Disk.set_set smallDisk outputPlace _ content).symm⟩

/-! ### The exact condition -/

/-- Let two disks differ in what is at the output's place only. Then a forced call of a bundle, whatever
    its state, comes to the same on both, and makes the text wherever the sources can be combined, exactly
    if the output is no later than the sources or is a text on both disks, and the sources combine to the
    same; or else if the output fails both calls for the same reason where the sources would fail them too.
    The sources combine to the same once they were read, or if none of their paths leads through the
    output's place. -/
theorem ignoresOutput_iff {bundle : Bundle} {one other : Disk} {location : Location}
    (differ : Disk.DifferAt bundle.target.path location one other) (level : Level) :
    (IgnoresOutput level bundle one other ↔
      (Legible bundle one ∧ Legible bundle other ∧ combine one bundle = combine other bundle) ∨
        (∃ fault, Illegible bundle one fault ∧ Illegible bundle other fault) ∧
          (∀ raw, combine one bundle ≠ .ok raw) ∧ ∀ raw, combine other bundle ≠ .ok raw) ∧
    (bundle.combined ≠ none ∨ (∀ source ∈ bundle.sources, location ∉ one.places source.path) →
      combine one bundle = combine other bundle) := by
  refine ⟨⟨?_, ?_⟩, ?_⟩
  · intro ignores
    rcases ignores.cases with legible | ⟨fault, illegible, illegibleToo⟩
    · exact .inl legible
    · exact .inr ⟨⟨fault, illegible, illegibleToo⟩, ignores.not_combined (.inl rfl) illegible,
        ignores.not_combined (.inr rfl) illegibleToo⟩
  · rintro (⟨legible, legibleToo, combined⟩ | ⟨⟨fault, illegible, illegibleToo⟩, failed, failedToo⟩)
    · exact ignoresOutput_of_legible legible legibleToo combined
    · exact ignoresOutput_of_illegible illegible illegibleToo failed failedToo
  · intro apart
    obtain ⟨_, content, rfl⟩ := differ
    exact combine_of_avoided apart content

/-- A forced call does not care which text the output holds. -/
theorem ignoresOutput_texts :
    Disk.DifferAt (smallBundle editedTarget).target.path outputPlace editedDisk rewrittenDisk ∧
      IgnoresOutput .high (smallBundle editedTarget) editedDisk rewrittenDisk := by
  have differ : Disk.DifferAt (smallBundle editedTarget).target.path outputPlace editedDisk rewrittenDisk :=
    differAt_edited _
  obtain ⟨condition, combined⟩ := ignoresOutput_iff differ .high
  have avoided : ∀ source ∈ (smallBundle editedTarget).sources, outputPlace ∉ editedDisk.places source.path := by
    decide
  exact ⟨differ, condition.mpr (.inl ⟨fun _ => ⟨_, rfl⟩, fun _ => ⟨_, rfl⟩, combined (.inr avoided)⟩)⟩

/-- An output that is later than the sources but no text fails a forced call, where another output
    does not. -/
theorem not_ignoresOutput_broken :
    openOn brokenDisk (smallRequest otherTarget.web) = .ok (smallBundle editedTarget) ∧
      Disk.DifferAt (smallBundle editedTarget).target.path outputPlace editedDisk brokenDisk ∧
      ¬ IgnoresOutput .high (smallBundle editedTarget) editedDisk brokenDisk := by
  refine ⟨openOn_broken, differAt_edited _, fun ignores => ?_⟩
  have combined : combine brokenDisk (smallBundle editedTarget) =
      .ok ['a', ' ', '{', ' ', 'b', ':', ' ', 'c', ' ', '}', '\n', '\n'] := rfl
  have failed : forced .high (smallBundle editedTarget) brokenDisk =
      .error (.unreadable otherTarget.path .notText) := rfl
  obtain ⟨after, done, _⟩ := ignores.made brokenDisk (.inr rfl) _ combined
  rw [failed] at done
  cases done

end Bundle

end Stylepress
