import Stylepress.CommandLine.Run
import Stylepress.Proofs.Bundle.Provenance
import Stylepress.Proofs.Utf8

/-!
Builds one after the other. A build opens its bundle anew, so it knows of earlier builds only what they
left under the output's path. Writing the output changes nothing that opening looks at but the output's
time (`openOn_set`), and the token of the text tells the level of the build that wrote it; so a build
writes exactly if it is the first, is forced or asks for another level than the build before it, and the
output always holds what pressing the sources at the last level gives (`build_history`).
-/
namespace Stylepress.Bundle
open Css (Level minify)

/-! ### Opening again -/

/-- The bundle with its output changed at a time. -/
def retimed (bundle : Bundle) (time : Time) : Bundle :=
  { bundle with target := { bundle.target with modified := some time } }

section
variable {disk : Disk} {request : BundleRequest} {bundle : Bundle} {location : Location}

/-- A directory is one also after a file was written elsewhere. -/
theorem isDirectory_set (accepts : disk.Accepts location) {path : Text}
    (directory : disk.isDirectory path = true) (content : Bytes) (time : Time) :
    (disk.set location (some (.file content time))).isDirectory path = true := by
  rw [Disk.isDirectory, Disk.status] at directory
  cases located : disk.locate path with
  | error fault => simp [located] at directory
  | ok place =>
    simp only [located] at directory
    have different : place ≠ location := by
      rintro rfl
      split at directory
      · next modified found => exact accepts.isFree modified found
      · cases directory
    rw [Disk.isDirectory, Disk.status, (Disk.locate_set accepts.isFree).mpr located]
    simp only [Disk.lookUp_set_of_ne disk different]
    exact directory

theorem documentRoot_set (accepts : disk.Accepts location) {requested root : Text}
    (rooted : documentRoot disk requested = .ok root) (content : Bytes) (time : Time) :
    documentRoot (disk.set location (some (.file content time))) requested = .ok root := by
  rw [documentRoot] at rooted ⊢
  split at rooted
  · cases rooted
  · next filled =>
    split at rooted
    · next directory =>
      rw [if_neg filled, if_pos (isDirectory_set accepts directory content time)]
      exact rooted
    · cases rooted

/-- Examining a source looks at nothing but what its path names. -/
theorem examine_congr {changed : Disk} {root web : Text}
    (same : changed.status (WebPath.resolve root web) = disk.status (WebPath.resolve root web))
    (policy : Policy) :
    Source.examine changed (Media.sniff? changed) policy root web =
      Source.examine disk (Media.sniff? disk) policy root web := by
  rw [Source.examine, Source.examine, Media.sniff?, Media.sniff?, Disk.readBytes, Disk.readBytes, same]

/-- The sources are accepted again if their paths name what they named. -/
theorem all_congr {changed : Disk} {policy : Policy} {root : Text} {requested : List Text}
    {sources : List Source} (checked : Source.all disk (Media.sniff? disk) policy root requested = .ok sources)
    (same : ∀ source ∈ sources, changed.status source.path = disk.status source.path) :
    Source.all changed (Media.sniff? changed) policy root requested = .ok sources := by
  obtain ⟨_, stylesheets, rfl⟩ := Source.all_eq_ok_iff.mp checked
  have examined : ∀ web ∈ Source.webPaths requested,
      Source.examine changed (Media.sniff? changed) policy root web =
        Source.examine disk (Media.sniff? disk) policy root web := by
    intro web member
    obtain ⟨source, found⟩ := Source.exists_examine_iff.mpr (stylesheets web member)
    obtain ⟨_, _, path, _⟩ := Source.examine_eq_ok_iff.mp found
    refine examine_congr ?_ policy
    rw [← path]
    exact same source (Source.mem_accepted_iff.mpr ⟨web, member, found⟩)
  have accepted : Source.accepted changed (Media.sniff? changed) policy root (Source.webPaths requested) =
      Source.accepted disk (Media.sniff? disk) policy root (Source.webPaths requested) :=
    List.filterMap_congr fun web member => by rw [examined web member]
  have rejected : Source.rejected changed (Media.sniff? changed) policy root (Source.webPaths requested) =
      Source.rejected disk (Media.sniff? disk) policy root (Source.webPaths requested) :=
    List.filterMap_congr fun web member => by rw [examined web member]
  rw [Source.all_eq, accepted, rejected, ← Source.all_eq]
  exact checked

theorem check_set (accepts : disk.Accepts location) {policy : Policy} {root requested : Text}
    {sources : List Source} {target : Target}
    (checked : Target.check disk policy root requested sources = .ok target)
    (located : disk.locate target.path = .ok location) (content : Bytes) (time : Time) :
    Target.check (disk.set location (some (.file content time))) policy root requested sources =
      .ok { target with modified := some time } := by
  rw [Target.check] at checked ⊢
  split at checked
  · cases checked
  · next other =>
    split at checked
    · cases checked
    · next directory =>
      split at checked
      · cases checked
      · next named =>
        split at checked
        · cases checked
        · next extended =>
          obtain rfl := Except.ok.inj checked
          have still := isDirectory_set accepts (by simpa using directory) content time
          have status := Disk.status_set located accepts content time
          rw [if_neg other, if_neg (by simpa using still), if_neg named, if_neg extended, Disk.modified?, status]
          rfl

/-- An output that does not exist is none of the sources. -/
theorem status_of_missing (opened : openOn disk request = .ok bundle)
    (missing : ∀ entry, disk.status bundle.target.path ≠ .ok entry)
    (found : disk.writable bundle.target.path = .ok location) (content : Bytes) (time : Time)
    {source : Source} (member : source ∈ bundle.sources) :
    (disk.set location (some (.file content time))).status source.path = disk.status source.path := by
  obtain ⟨bytes, present⟩ := (opened_of_openOn opened).files source member
  have resaved : Disk.Resaved bundle.target.path disk (disk.set location (some (.file content time))) :=
    .inr ⟨location, content, time, found, rfl⟩
  cases located : disk.locate source.path with
  | error fault => simp [Disk.status, located] at present
  | ok place =>
    refine resaved.status_eq located ?_
    intro same
    have named : disk.status bundle.target.path = disk.status source.path := by
      rw [Disk.status, Disk.status, same, located]
    exact missing _ (named.trans present)

/-- Once the output is written, the same request opens the same bundle with a later output. -/
theorem openOn_set (opened : openOn disk request = .ok bundle)
    (missing : ∀ entry, disk.status bundle.target.path ≠ .ok entry)
    (found : disk.writable bundle.target.path = .ok location) (content : Bytes) (time : Time) :
    openOn (disk.set location (some (.file content time))) request = .ok (bundle.retimed time) := by
  have unchanged : ∀ source ∈ bundle.sources, _ := fun _ member =>
    status_of_missing opened missing found content time member
  obtain ⟨_, located, accepts⟩ := Disk.writable_eq_ok_iff.mp found
  obtain ⟨root, sources, target, rooted, checked, placed, rfl⟩ := openOn_eq_ok opened
  rw [openOn, documentRoot_set accepts rooted]
  simp only [all_congr checked unchanged, check_set accepts placed located]
  rfl

theorem combine_congr {changed : Disk} {sources : List Source}
    (same : ∀ source ∈ sources, changed.status source.path = disk.status source.path) :
    Source.combine changed sources = Source.combine disk sources := by
  induction sources with
  | nil => rfl
  | cons source rest ih =>
    have read : changed.readText source.path = disk.readText source.path := by
      rw [Disk.readText, Disk.readText, Disk.readBytes, Disk.readBytes, same source (by simp)]
    rw [Source.combine, Source.combine, read, ih fun other member => same other (by simp [member])]

end

/-! ### One build -/

theorem isFresh_of_later {sources : List Source} {time : Time}
    (later : ∀ source ∈ sources, source.modified < time) :
    Staleness.isFresh (some time) (Source.newest? sources) = true := by
  cases newest : Source.newest? sources with
  | none => rfl
  | some last =>
    have listed : last ∈ sources.map (·.modified) := List.max?_mem newest
    obtain ⟨source, member, rfl⟩ := List.mem_map.mp listed
    simpa [Staleness.isFresh] using later source member

section
variable {disk : Disk} {bundle : Bundle} {css : Text} {level : Level} {force : Bool}

/-- A build that makes the text anew writes it. -/
theorem build_made {fresh : Bundle} {location : Location} (filled : ∃ c ∈ css, Text.isBlank c = false)
    (found : disk.writable fresh.target.path = .ok location)
    (done : bundle.process disk level force = (.ok (), fresh.made css level)) (now : Time) :
    let outcome := CommandLine.build disk now level force bundle
    outcome.exitCode = 0 ∧ outcome.written = some (fresh.target.path, minify css level) ∧
      outcome.disk = disk.set location (some (.file (Utf8.encode (minify css level)) now)) := by
  obtain ⟨c, inText, _⟩ := Css.not_blank_minify filled level
  have text : (fresh.made css level).css ≠ [] := List.ne_nil_of_mem inText
  have writable : disk.writable (fresh.made css level).target.path = .ok location := found
  have written := save_of_writable writable (fresh.made css level).css now
  rcases save_cases disk now (fresh.made css level) with ⟨result, none | old, _⟩ |
    ⟨_, ⟨error, failed, _⟩ | ⟨changed, modified, saved, outcome⟩⟩
  · exact absurd none text
  · cases old
  · simp [written] at failed
  · rw [written] at saved
    obtain ⟨rfl, rfl⟩ := Prod.mk.inj (Except.ok.inj saved)
    simp only [CommandLine.build, done, outcome]
    exact ⟨trivial, rfl, rfl⟩

/-- A build that reuses a text writes nothing. -/
theorem build_reused {after : Bundle} (unchanged : after.updated = false)
    (done : bundle.process disk level force = (.ok (), after)) (now : Time) :
    let outcome := CommandLine.build disk now level force bundle
    outcome.exitCode = 0 ∧ outcome.written = none ∧ outcome.disk = disk := by
  by_cases none : after.css = []
  · simp [CommandLine.build, done, save, none, unchanged]
  · simp [CommandLine.build, done, save, none, unchanged]

/-- Without an output the text is made. -/
theorem process_first (uncombined : bundle.combined = none) (noText : bundle.css = [])
    (missing : bundle.target.modified = none) (combined : Source.combine disk bundle.sources = .ok css)
    (level : Level) (force : Bool) :
    bundle.process disk level force = (.ok (), bundle.made css level) := by
  have refreshed : refresh disk bundle = .ok bundle := by
    rw [refresh, missing]
    rfl
  have rebuilt : ∃ reason, Staleness.decision level force bundle.css bundle.level = .rebuild reason := by
    rw [noText]
    cases force <;> exact ⟨_, rfl⟩
  obtain ⟨reason, decided⟩ := rebuilt
  simp only [process, refreshed, decided, combine, uncombined, combined]
  rfl

/-- The bundle with the text of a level at hand. -/
def loaded (bundle : Bundle) (css : Text) (level : Level) : Bundle :=
  { bundle with css := minify css level, level := some level }

/-- With a fresh output of a known level the text is made if the call is forced or asks for another
    level. -/
theorem process_again {made : Level} {time : Time} (uncombined : bundle.combined = none)
    (modified : bundle.target.modified = some time)
    (later : ∀ source ∈ bundle.sources, source.modified < time)
    (filled : ∃ c ∈ css, Text.isBlank c = false)
    (read : disk.readText bundle.target.path = .ok (minify css made))
    (combined : Source.combine disk bundle.sources = .ok css) (level : Level) (force : Bool) :
    bundle.process disk level force =
      (.ok (), if force = true ∨ made ≠ level then (bundle.loaded css made).made css level
        else bundle.loaded css made) := by
  have token : Css.Token.levelOf? (minify css made) = some made := by
    simpa using Css.levelOf?_minify filled made (List.forall_mem_nil _)
  have refreshed : refresh disk bundle = .ok (bundle.loaded css made) := by
    rw [refresh, modified, isFresh_of_later later, Target.load, read, if_pos rfl]
    simp only [token]
    rfl
  have text : (minify css made).isEmpty = false := by
    obtain ⟨c, member, _⟩ := Css.not_blank_minify filled made
    exact List.isEmpty_eq_false_iff.mpr (List.ne_nil_of_mem member)
  have anew : ∀ reason, Staleness.decision level force (minify css made) (some made) = .rebuild reason →
      bundle.process disk level force = (.ok (), (bundle.loaded css made).made css level) := by
    intro reason decided
    have again : combine disk (bundle.loaded css made) = .ok css := by
      simp only [combine, loaded, uncombined]
      exact combined
    simp only [process, refreshed, show (bundle.loaded css made).css = minify css made from rfl,
      show (bundle.loaded css made).level = some made from rfl, decided, again]
    rfl
  cases force with
  | true =>
    rw [if_pos (.inl rfl)]
    exact anew .forced rfl
  | false =>
    by_cases same : made = level
    · subst same
      have reused : Staleness.decision made false (bundle.loaded css made).css
          (bundle.loaded css made).level = .reuse := by
        simp [Staleness.decision, loaded, text]
      rw [if_neg (by simp)]
      simp only [process, refreshed, reused]
      rfl
    · rw [if_pos (.inr same)]
      refine anew (.levelChanged made level) ?_
      simp [Staleness.decision, text, same]

end

/-! ### Builds one after the other -/

/-- What one call of the program is asked to build, when, and how it logs. -/
structure Build where
  level : Level
  force : Bool
  now : Time
  logger : CommandLine.Logger

/-- What a build comes to. -/
def Build.outcome (request : BundleRequest) (disk : Disk) (build : Build) : CommandLine.Outcome :=
  CommandLine.openAndBuild build.logger disk build.now "invalid bundle" request build.level build.force

/-- The disk after builds of one request. -/
def Build.diskAfter (request : BundleRequest) (disk : Disk) (builds : List Build) : Disk :=
  builds.foldl (fun disk build => (build.outcome request disk).disk) disk

/-- Whether a build has to write: it is the first, is forced, or asks for another level than the build
    before it. -/
def Build.Writes (before : List Build) (build : Build) : Prop :=
  before = [] ∨ build.force = true ∨ before.getLast?.map (·.level) ≠ some build.level

/-- A disk on which a request can be built, and on which it was not built yet. -/
structure Buildable (disk : Disk) (request : BundleRequest) (bundle : Bundle) (css : Text)
    (location : Location) : Prop where
  opened : openOn disk request = .ok bundle
  missing : ∀ entry, disk.status bundle.target.path ≠ .ok entry
  combined : Source.combine disk bundle.sources = .ok css
  filled : ∃ c ∈ css, Text.isBlank c = false
  found : disk.writable bundle.target.path = .ok location

/-- The disk after builds of which the last one was at a level. -/
def pressed (disk : Disk) (location : Location) (css : Text) (level : Level) (time : Time) : Disk :=
  disk.set location (some (.file (Utf8.encode (minify css level)) time))

/-- The output holds what the last build was asked for, and was written after every source. -/
inductive Built (disk : Disk) (bundle : Bundle) (css : Text) (location : Location) :
    List Build → Disk → Prop where
  | none : Built disk bundle css location [] disk
  | some {before : List Build} {last : Build} {time : Time}
      (later : ∀ source ∈ bundle.sources, source.modified < time) :
      Built disk bundle css location (before ++ [last]) (pressed disk location css last.level time)

section
variable {disk : Disk} {request : BundleRequest} {bundle : Bundle} {css : Text} {location : Location}

theorem Buildable.first (ready : Buildable disk request bundle css location) (build : Build) :
    (build.outcome request disk).exitCode = 0 ∧
      (build.outcome request disk).written = some (bundle.target.path, minify css build.level) ∧
      (build.outcome request disk).disk = pressed disk location css build.level build.now := by
  have start := opened_of_openOn ready.opened
  have unwritten : bundle.target.modified = none := by
    rw [start.modified, Disk.modified?]
    cases named : disk.status bundle.target.path with
    | error fault => rfl
    | ok entry => exact absurd named (ready.missing entry)
  have done := process_first start.uncombined start.noText unwritten ready.combined build.level build.force
  simp only [Build.outcome, CommandLine.openAndBuild, ready.opened]
  exact build_made ready.filled ready.found done build.now

theorem Buildable.next (ready : Buildable disk request bundle css location) (made : Level) {time : Time}
    (later : ∀ source ∈ bundle.sources, source.modified < time) (build : Build) :
    let outcome := build.outcome request (pressed disk location css made time)
    outcome.exitCode = 0 ∧
      if build.force = true ∨ made ≠ build.level then
        outcome.written = some (bundle.target.path, minify css build.level) ∧
          outcome.disk = pressed disk location css build.level build.now
      else outcome.written = none ∧ outcome.disk = pressed disk location css made time := by
  have start := opened_of_openOn ready.opened
  obtain ⟨_, located, accepts⟩ := Disk.writable_eq_ok_iff.mp ready.found
  have opened := openOn_set ready.opened ready.missing ready.found (Utf8.encode (minify css made)) time
  have read : (pressed disk location css made time).readText bundle.target.path = .ok (minify css made) := by
    rw [Disk.readText, Disk.readBytes, pressed, Disk.status_set located accepts]
    simp
  have combined : Source.combine (pressed disk location css made time) bundle.sources = .ok css := by
    rw [← ready.combined]
    exact combine_congr fun source => status_of_missing ready.opened ready.missing ready.found _ time
  have uncombined : (bundle.retimed time).combined = none := start.uncombined
  have done := process_again uncombined rfl later ready.filled read combined build.level build.force
  simp only [Build.outcome, CommandLine.openAndBuild, pressed, opened]
  rw [← pressed]
  split at done
  · next anew =>
    rw [if_pos anew]
    have rewritten : (pressed disk location css made time).writable
        ((bundle.retimed time).loaded css made).target.path = .ok location :=
      Disk.writable_set ready.found (Utf8.encode (minify css made)) time
    have outcome := build_made ready.filled rewritten done build.now
    rwa [pressed, Disk.set_set] at outcome
  · next reuse =>
    rw [if_neg reuse]
    have unchanged : ((bundle.retimed time).loaded css made).updated = false :=
      show bundle.updated = false from updated_of_openOn ready.opened
    exact build_reused unchanged done build.now

/-- What a build does after other builds. -/
theorem Buildable.step (ready : Buildable disk request bundle css location) {before : List Build}
    {changed : Disk} (built : Built disk bundle css location before changed) (build : Build)
    (later : ∀ source ∈ bundle.sources, source.modified < build.now) :
    (build.outcome request changed).exitCode = 0 ∧
      Built disk bundle css location (before ++ [build]) (build.outcome request changed).disk ∧
      ((Build.Writes before build ∧
          (build.outcome request changed).written = some (bundle.target.path, minify css build.level) ∧
          (build.outcome request changed).disk = pressed disk location css build.level build.now) ∨
        ¬ Build.Writes before build ∧ (build.outcome request changed).written = none ∧
          (build.outcome request changed).disk = changed) := by
  cases built with
  | none =>
    obtain ⟨code, written, left⟩ := ready.first build
    refine ⟨code, ?_, .inl ⟨.inl rfl, written, left⟩⟩
    rw [left]
    exact .some later
  | @some before last time laterLast =>
    obtain ⟨code, outcome⟩ := ready.next last.level laterLast build
    refine ⟨code, ?_⟩
    have writes : Build.Writes (before ++ [last]) build ↔ build.force = true ∨ last.level ≠ build.level := by
      simp [Build.Writes]
    split at outcome
    · next anew =>
      obtain ⟨written, left⟩ := outcome
      refine ⟨?_, .inl ⟨writes.mpr anew, written, left⟩⟩
      rw [left]
      exact .some later
    · next reuse =>
      obtain ⟨written, left⟩ := outcome
      have same : last.level = build.level := by
        by_contra other
        exact reuse (.inr other)
      refine ⟨?_, .inr ⟨fun must => reuse (writes.mp must), written, left⟩⟩
      rw [left, same]
      exact .some laterLast

theorem Buildable.built (ready : Buildable disk request bundle css location) {builds : List Build}
    (later : ∀ build ∈ builds, ∀ source ∈ bundle.sources, source.modified < build.now) :
    Built disk bundle css location builds (Build.diskAfter request disk builds) := by
  induction builds using List.reverseRecOn with
  | nil => exact .none
  | append_singleton before build ih =>
    have earlier := ih fun other member => later other (by simp [member])
    rw [Build.diskAfter, List.foldl_append]
    exact (ready.step earlier build (later build (by simp))).2.1

/-- What the output holds after builds. -/
theorem Built.readBytes (ready : Buildable disk request bundle css location) {before : List Build}
    {last : Build} {changed : Disk} (built : Built disk bundle css location (before ++ [last]) changed) :
    changed.readBytes bundle.target.path = .ok (Utf8.encode (minify css last.level)) := by
  obtain ⟨_, located, accepts⟩ := Disk.writable_eq_ok_iff.mp ready.found
  generalize shape : before ++ [last] = builds at built
  cases built with
  | none => simp at shape
  | @some earlier final time later =>
    obtain ⟨_, rfl⟩ := List.append_inj' shape rfl |>.imp id List.singleton_inj.mp
    rw [Disk.readBytes, pressed, Disk.status_set located accepts]

end

/-- Let the output of a bundle be missing but writable, let its combined sources be readable and not
    blank, and let every build come later than every source. Then every build succeeds, whatever builds
    came before it, and leaves what pressing the sources at its level gives. It writes the output at its
    time if it is the first, is forced or asks for another level than the build before it, and otherwise
    changes nothing. -/
theorem build_history {disk : Disk} {request : BundleRequest} {bundle : Bundle} {css : Text}
    {location : Location} (opened : openOn disk request = .ok bundle)
    (missing : ∀ entry, disk.status bundle.target.path ≠ .ok entry)
    (found : disk.writable bundle.target.path = .ok location)
    (combined : Source.combine disk bundle.sources = .ok css)
    (filled : ∃ c ∈ css, Text.isBlank c = false) (before : List Build) (build : Build)
    (later : ∀ each ∈ before ++ [build], ∀ source ∈ bundle.sources, source.modified < each.now) :
    let earlier := Build.diskAfter request disk before
    let outcome := build.outcome request earlier
    outcome.exitCode = 0 ∧
      outcome.disk.readBytes bundle.target.path = .ok (Utf8.encode (minify css build.level)) ∧
      (Build.Writes before build →
        outcome.written = some (bundle.target.path, minify css build.level) ∧
          outcome.disk.modified? bundle.target.path = some build.now) ∧
      (¬ Build.Writes before build → outcome.written = none ∧ outcome.disk = earlier) := by
  intro earlier outcome
  have ready : Buildable disk request bundle css location := ⟨opened, missing, combined, filled, found⟩
  have built := ready.built fun each member => later each (List.mem_append_left _ member)
  obtain ⟨code, after, result⟩ := ready.step built build (later build (by simp))
  refine ⟨code, after.readBytes ready, ?_⟩
  rcases result with ⟨writes, written, left⟩ | ⟨idle, written, left⟩
  · refine ⟨fun _ => ⟨written, ?_⟩, fun idle => absurd writes idle⟩
    obtain ⟨_, located, accepts⟩ := Disk.writable_eq_ok_iff.mp found
    rw [left, Disk.modified?, pressed, Disk.status_set located accepts]
    rfl
  · exact ⟨fun writes => absurd writes idle, fun _ => ⟨written, left⟩⟩

/-- Of three builds of the small bundle, at `low` and then twice at `high`, the last one writes nothing. -/
theorem build_history_small :
    openOn smallDisk (smallRequest otherTarget.web) = .ok (smallBundle otherTarget) ∧
      let earlier :=
        Build.diskAfter (smallRequest otherTarget.web) smallDisk
          [⟨.low, false, 5, .silent⟩, ⟨.high, false, 6, .silent⟩]
      let outcome := Build.outcome (smallRequest otherTarget.web) earlier ⟨.high, false, 7, .silent⟩
      outcome.exitCode = 0 ∧
        outcome.disk.readBytes otherTarget.path =
          .ok (Utf8.encode (minify ['a', ' ', '{', ' ', 'b', ':', ' ', 'c', ' ', '}', '\n', '\n'] .high)) ∧
        outcome.written = none := by
  refine ⟨openOn_other, ?_⟩
  have missing : ∀ entry, smallDisk.status (smallBundle otherTarget).target.path ≠ .ok entry := by
    intro entry found
    cases found
  have later : ∀ each ∈ [⟨.low, false, 5, .silent⟩, ⟨.high, false, 6, .silent⟩] ++
      [(⟨.high, false, 7, .silent⟩ : Build)], ∀ source ∈ (smallBundle otherTarget).sources,
      source.modified < each.now := by decide
  have found : smallDisk.writable (smallBundle otherTarget).target.path =
      .ok [['p', 'u', 'b', 'l', 'i', 'c'], ['c', 's', 's'], ['b', '.', 'c', 's', 's']] := rfl
  have combined : Source.combine smallDisk (smallBundle otherTarget).sources =
      .ok ['a', ' ', '{', ' ', 'b', ':', ' ', 'c', ' ', '}', '\n', '\n'] := rfl
  have result := build_history openOn_other missing found combined ⟨'a', by simp, by decide⟩
    [⟨.low, false, 5, .silent⟩, ⟨.high, false, 6, .silent⟩] ⟨.high, false, 7, .silent⟩ later
  exact ⟨result.1, result.2.1, (result.2.2.2 (by simp [Build.Writes])).1⟩

end Stylepress.Bundle
