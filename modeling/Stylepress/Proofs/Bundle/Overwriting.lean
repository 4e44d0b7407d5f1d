import Stylepress.Disk.Edit
import Stylepress.Proofs.Bundle.Calls
import Stylepress.Proofs.Bundle.Surveying
import Stylepress.Proofs.Signing

/-!
When a bundle overwrites one of its sources. Opening a bundle compares web paths as texts, while
saving follows the path on disk, so an output whose web path is spelled differently may still lead to a
source. Every run keeps the bytes of all sources unless the output leads to one of them and the combined
sources are readable and not blank, and then some run does overwrite one (`keepsSources_iff`).
-/
namespace Stylepress.Bundle
open Css (Level)

/-! ### What opening checks -/

theorem openOn_eq_ok {disk : Disk} {request : BundleRequest} {bundle : Bundle}
    (opened : openOn disk request = .ok bundle) :
    ∃ root sources target, documentRoot disk request.root = .ok root ∧
      Source.all disk (Media.sniff? disk) request.policy root request.sources = .ok sources ∧
      Target.check disk request.policy root request.output sources = .ok target ∧
      bundle = { policy := request.policy, root, sources, target } := by
  rw [openOn] at opened
  cases rooted : documentRoot disk request.root with
  | error error => simp [rooted] at opened
  | ok root =>
    simp only [rooted] at opened
    cases checked : Source.all disk (Media.sniff? disk) request.policy root request.sources with
    | error error => simp [checked] at opened
    | ok sources =>
      simp only [checked] at opened
      cases placed : Target.check disk request.policy root request.output sources with
      | error error => simp [placed] at opened
      | ok target =>
        simp only [placed] at opened
        exact ⟨root, sources, target, rfl, checked, placed, (Except.ok.inj opened).symm⟩

/-- An accepted output has a name, so its path does not end with a slash. -/
theorem target_of_check {disk : Disk} {policy : Policy} {root requested : Text} {sources : List Source}
    {target : Target} (checked : Target.check disk policy root requested sources = .ok target) :
    target.path = WebPath.resolve root target.web ∧ target.modified = disk.modified? target.path ∧
      WebPath.extension? target.web = some policy.extension := by
  rw [Target.check] at checked
  split at checked
  · cases checked
  · split at checked
    · cases checked
    · split at checked
      · cases checked
      · split at checked
        · cases checked
        · next named =>
          obtain rfl := Except.ok.inj checked
          exact ⟨rfl, rfl, not_not.mp named⟩

theorem endsWith_of_extension? {web extension : Text} (named : WebPath.extension? web = some extension) :
    ∃ c, web.getLast? = some c ∧ c ≠ '/' := by
  have filled : WebPath.fileName web ≠ [] := by
    intro none
    simp [WebPath.extension?, none, WebPath.splitName?] at named
  rw [WebPath.fileName, ne_eq, List.reverse_eq_nil_iff] at filled
  cases back : web.reverse with
  | nil => simp [back] at filled
  | cons c rest =>
    refine ⟨c, by rw [List.getLast?_eq_head?_reverse, back]; rfl, ?_⟩
    rintro rfl
    simp [back] at filled

theorem endsWith_resolve {root web : Text} {c : Char} (last : web.getLast? = some c) (other : c ≠ '/') :
    (WebPath.resolve root web).endsWith '/' = false := by
  have inside : (web.dropWhile (· == '/')).getLast? = some c := by
    have parts := List.takeWhile_append_dropWhile (p := (· == '/')) (l := web)
    rw [← parts, List.getLast?_append] at last
    cases back : (web.dropWhile (· == '/')).getLast? with
    | some d => simpa [back] using last
    | none =>
      have member : c ∈ web.takeWhile (· == '/') := List.mem_of_getLast? (by simpa [back] using last)
      have slash := List.all_eq_true.mp List.all_takeWhile c member
      exact absurd (by simpa using slash) other
  have whole : (WebPath.resolve root web).getLast? = some c := by
    rw [WebPath.resolve_eq]
    split
    · rw [List.getLast?_append, inside]
      rfl
    · rw [List.getLast?_append, List.getLast?_cons, inside]
      rfl
  simp [Text.endsWith, whole, other]

/-- A bundle as it is opened: its sources are files, its output's path can name one, and nothing was
    read yet. -/
structure Opened (disk : Disk) (bundle : Bundle) : Prop where
  files : ∀ source ∈ bundle.sources, ∃ content, disk.status source.path = .ok (.file content source.modified)
  noSlash : bundle.target.path.endsWith '/' = false
  modified : bundle.target.modified = disk.modified? bundle.target.path
  uncombined : bundle.combined = none
  noText : bundle.css = []

theorem opened_of_openOn {disk : Disk} {request : BundleRequest} {bundle : Bundle}
    (opened : openOn disk request = .ok bundle) : Opened disk bundle := by
  obtain ⟨root, sources, target, _, checked, placed, rfl⟩ := openOn_eq_ok opened
  obtain ⟨path, modified, named⟩ := target_of_check placed
  obtain ⟨c, last, other⟩ := endsWith_of_extension? named
  refine ⟨fun source member => (Source.status_of_mem checked member).2, ?_, modified, rfl, rfl⟩
  dsimp only
  rw [path]
  exact endsWith_resolve last other

theorem updated_of_openOn {disk : Disk} {request : BundleRequest} {bundle : Bundle}
    (opened : openOn disk request = .ok bundle) : bundle.updated = false := by
  obtain ⟨_, _, _, _, _, _, rfl⟩ := openOn_eq_ok opened
  rfl

/-! ### Runs that keep the sources -/

/-- The output's path leads to a source. -/
def Overlaps (disk : Disk) (bundle : Bundle) : Prop :=
  ∃ source ∈ bundle.sources, disk.locate source.path = disk.locate bundle.target.path

/-- There is something to save: the combined sources are readable and not blank. -/
def HasText (disk : Disk) (bundle : Bundle) : Prop :=
  ∃ css, Source.combine disk bundle.sources = .ok css ∧ ∃ c ∈ css, Text.isBlank c = false

/-- Every run leaves the bytes of every source as they were. -/
def KeepsSources (disk : Disk) (bundle : Bundle) : Prop :=
  ∀ calls, ∀ source ∈ bundle.sources,
    (run calls (bundle, disk)).2.readBytes source.path = disk.readBytes source.path

section
variable {disk : Disk} {bundle : Bundle}

/-- A file that the output's path does not lead to is never written. -/
theorem keepsSources_of_not_overlaps (opened : Opened disk bundle) (apart : ¬ Overlaps disk bundle) :
    KeepsSources disk bundle := by
  intro calls source member
  obtain ⟨content, present⟩ := opened.files source member
  have resaved := (resaved_run bundle disk calls).2
  cases located : disk.locate source.path with
  | error fault => simp [Disk.status, located] at present
  | ok location =>
    have elsewhere : disk.locate bundle.target.path ≠ .ok location := by
      intro same
      exact apart ⟨source, member, located.trans same.symm⟩
    rw [Disk.readBytes, Disk.readBytes, resaved.status_eq located elsewhere]

/-- An output that is a source is not later than the sources. -/
theorem not_isFresh_of_overlaps (opened : Opened disk bundle) (overlaps : Overlaps disk bundle) :
    Staleness.isFresh bundle.target.modified (Source.newest? bundle.sources) = false := by
  obtain ⟨source, member, same⟩ := overlaps
  obtain ⟨content, present⟩ := opened.files source member
  have modified : bundle.target.modified = some source.modified := by
    rw [Disk.status, same] at present
    rw [opened.modified, Disk.modified?, Disk.status, present]
    rfl
  have listed : source.modified ∈ bundle.sources.map (·.modified) := List.mem_map_of_mem member
  cases newest : Source.newest? bundle.sources with
  | none =>
    rw [Source.newest?, List.max?_eq_none_iff] at newest
    simp [newest] at listed
  | some time =>
    have later : source.modified ≤ time := (List.max?_le_iff newest).mp (Int.le_refl time) _ listed
    simp [modified, Staleness.isFresh, later]

/-- A bundle that has written nothing and has no text to write. -/
structure Idle (disk : Disk) (bundle : Bundle) (state : Bundle × Disk) : Prop where
  unwritten : state.2 = disk
  sources : state.1.sources = bundle.sources
  target : state.1.target = bundle.target
  noText : state.1.css = []
  blank : ∀ css, state.1.combined = some css → ∀ c ∈ css, Text.isBlank c = true

theorem Idle.combine {after : Bundle} (idle : Idle disk bundle (after, disk)) (nothing : ¬ HasText disk bundle)
    {css : Text} (done : Bundle.combine disk after = .ok css) : ∀ c ∈ css, Text.isBlank c = true := by
  rw [Bundle.combine] at done
  cases combined : after.combined with
  | some kept =>
    simp only [combined] at done
    obtain rfl := Except.ok.inj done
    exact idle.blank kept combined
  | none =>
    simp only [combined] at done
    intro c member
    cases solid : Text.isBlank c with
    | true => rfl
    | false =>
      refine absurd ?_ nothing
      exact ⟨css, by rw [← idle.sources]; exact done, c, member, solid⟩

theorem Idle.apply (stale : Staleness.isFresh bundle.target.modified (Source.newest? bundle.sources) = false)
    (nothing : ¬ HasText disk bundle) (call : Call) {after : Bundle} {changed : Disk}
    (idle : Idle disk bundle (after, changed)) : Idle disk bundle (call.apply (after, changed)) := by
  obtain rfl : changed = disk := idle.unwritten
  cases call with
  | save now =>
    rcases save_cases changed now after with ⟨result, _, outcome⟩ | ⟨⟨filled, _⟩, _⟩
    · rw [Call.apply, outcome]
      exact idle
    · exact absurd idle.noText filled
  | process level force =>
    rw [Call.apply]
    rcases process_cases changed level force after with ⟨error, _, outcome⟩ | ⟨fresh, done, outcome⟩
    · rw [outcome]
      exact idle
    · obtain rfl : fresh = after := by
        rcases refresh_cases done with same | ⟨css, isFresh, _⟩
        · exact same
        · rw [idle.target, idle.sources, stale] at isFresh
          cases isFresh
      rcases outcome with ⟨_, outcome⟩ | ⟨_, ⟨error, _, outcome⟩ | ⟨css, combined, outcome⟩⟩
      · rw [outcome]
        exact ⟨rfl, idle.sources, idle.target, idle.noText, idle.blank⟩
      · rw [outcome]
        exact idle
      · have blank := idle.combine nothing combined
        rw [outcome]
        refine ⟨rfl, idle.sources, idle.target, Css.minify_of_blank blank level, ?_⟩
        intro kept same
        obtain rfl := Option.some.inj same
        exact blank

/-- Without text nothing is written, not even to an output that is a source. -/
theorem keepsSources_of_not_hasText (opened : Opened disk bundle) (overlaps : Overlaps disk bundle)
    (nothing : ¬ HasText disk bundle) : KeepsSources disk bundle := by
  intro calls source _
  have stale := not_isFresh_of_overlaps opened overlaps
  have start : Idle disk bundle (bundle, disk) :=
    ⟨rfl, rfl, rfl, opened.noText, by simp [opened.uncombined]⟩
  have idle : Idle disk bundle (run calls (bundle, disk)) :=
    run_invariant (fun call after changed => Idle.apply stale nothing call) start calls
  rw [idle.unwritten]

/-! ### Runs that overwrite a source -/

theorem encode_append (a b : Text) : Utf8.encode (a ++ b) = Utf8.encode a ++ Utf8.encode b := by
  simp [Utf8.encode]

/-- The tokens of two levels tell their texts apart, also as bytes. -/
theorem encode_minify_ne {css : Text} (filled : ∃ c ∈ css, Text.isBlank c = false) :
    Utf8.encode (Css.minify css .low) ≠ Utf8.encode (Css.minify css .high) := by
  intro same
  obtain ⟨low, lowSigned, _⟩ := Css.exists_minify filled .low
  obtain ⟨high, highSigned, _⟩ := Css.exists_minify filled .high
  rw [lowSigned, highSigned, encode_append, encode_append] at same
  exact absurd (List.append_inj' same (by decide)).2 (by decide)

/-- A forced call makes the text anew if the output is not fresh. -/
theorem process_forced (opened : Opened disk bundle) (overlaps : Overlaps disk bundle) {css : Text}
    (combined : Source.combine disk bundle.sources = .ok css) (level : Level) :
    bundle.process disk level true = (.ok (), bundle.made css level) := by
  have refreshed : refresh disk bundle = .ok bundle := by
    rw [refresh, not_isFresh_of_overlaps opened overlaps]
    rfl
  have read : Bundle.combine disk bundle = .ok css := by
    rw [Bundle.combine, opened.uncombined]
    exact combined
  rw [process, refreshed]
  simp only [Staleness.decision, if_true, read]
  rfl

/-- The output's path can be written if it leads to a source. -/
theorem writable_of_locate (opened : Opened disk bundle) {source : Source} (member : source ∈ bundle.sources)
    (same : disk.locate source.path = disk.locate bundle.target.path) :
    ∃ location, disk.locate source.path = .ok location ∧
      disk.writable bundle.target.path = .ok location := by
  obtain ⟨content, present⟩ := opened.files source member
  cases located : disk.locate source.path with
  | error fault => simp [Disk.status, located] at present
  | ok location =>
    simp only [Disk.status, located] at present
    refine ⟨location, rfl, ?_⟩
    exact Disk.writable_eq_ok_iff.mpr ⟨opened.noSlash, same.symm.trans located, .inr ⟨_, _, present⟩⟩

theorem readBytes_overwritten (opened : Opened disk bundle) {source : Source}
    (member : source ∈ bundle.sources) (same : disk.locate source.path = disk.locate bundle.target.path)
    {css : Text} (combined : Source.combine disk bundle.sources = .ok css)
    (filled : ∃ c ∈ css, Text.isBlank c = false) (level : Level) (now : Time) :
    (run [.process level true, .save now] (bundle, disk)).2.readBytes source.path =
      .ok (Utf8.encode (Css.minify css level)) := by
  have processed := process_forced opened ⟨source, member, same⟩ combined level
  obtain ⟨location, located, found⟩ := writable_of_locate opened member same
  have written : Target.save disk (bundle.made css level).target.path (bundle.made css level).css now = _ :=
    save_of_writable found (Css.minify css level) now
  obtain ⟨c, inText, _⟩ := Css.not_blank_minify filled level
  have text : (bundle.made css level).css ≠ [] := List.ne_nil_of_mem inText
  have after : (run [.process level true, .save now] (bundle, disk)).2 =
      disk.set location (some (.file (Utf8.encode (Css.minify css level)) now)) := by
    show (Bundle.save disk now (bundle.process disk level true).2).2.2 = _
    rw [processed]
    rcases save_cases disk now (bundle.made css level) with ⟨result, none | old, _⟩ |
      ⟨_, ⟨error, failed, _⟩ | ⟨changed, modified, done, outcome⟩⟩
    · exact absurd none text
    · cases old
    · simp [written] at failed
    · rw [written] at done
      obtain ⟨rfl, _⟩ := Prod.mk.inj (Except.ok.inj done)
      rw [outcome]
  obtain ⟨_, _, accepts⟩ := Disk.writable_eq_ok_iff.mp found
  rw [after, Disk.readBytes, Disk.status_set located accepts]

/-- With text at hand, an output that leads to a source overwrites it at one level or another,
    whatever the time. -/
theorem exists_overwriting (opened : Opened disk bundle) (overlaps : Overlaps disk bundle)
    (text : HasText disk bundle) (now : Time) :
    ∃ level, ∃ source ∈ bundle.sources,
      (run [.process level true, .save now] (bundle, disk)).2.readBytes source.path ≠
        disk.readBytes source.path := by
  obtain ⟨source, member, same⟩ := overlaps
  obtain ⟨css, combined, filled⟩ := text
  have after := readBytes_overwritten opened member same combined filled
  -- Two levels leave different bytes, so one of them leaves others than there were.
  by_cases changed : Except.ok (Utf8.encode (Css.minify css .low)) = disk.readBytes source.path
  · refine ⟨.high, source, member, ?_⟩
    rw [after .high now, ← changed]
    intro equal
    exact encode_minify_ne filled (Except.ok.inj equal).symm
  · exact ⟨.low, source, member, by rwa [after .low now]⟩

end

/-! ### A small disk -/

/-- A disk with the stylesheet `public/css/a.css` alone. -/
def smallDisk : Disk :=
  (Disk.bare [] 0).putFile 0 [['p', 'u', 'b', 'l', 'i', 'c'], ['c', 's', 's'], ['a', '.', 'c', 's', 's']]
    (Utf8.encode ['a', ' ', '{', ' ', 'b', ':', ' ', 'c', ' ', '}', '\n']) 1

def smallSource : Source where
  web := ['/', 'c', 's', 's', '/', 'a', '.', 'c', 's', 's']
  path := ['p', 'u', 'b', 'l', 'i', 'c', '/', 'c', 's', 's', '/', 'a', '.', 'c', 's', 's']
  modified := 1

/-- A request to press the stylesheet to an output. -/
def smallRequest (output : Text) : BundleRequest where
  root := ['p', 'u', 'b', 'l', 'i', 'c']
  sources := [smallSource.web]
  output

def smallBundle (target : Target) : Bundle where
  policy := {}
  root := ['p', 'u', 'b', 'l', 'i', 'c']
  sources := [smallSource]
  target

/-- The output `/css/b.css`, which does not exist. -/
def otherTarget : Target where
  web := ['/', 'c', 's', 's', '/', 'b', '.', 'c', 's', 's']
  path := ['p', 'u', 'b', 'l', 'i', 'c', '/', 'c', 's', 's', '/', 'b', '.', 'c', 's', 's']
  modified := none

/-- The output `/css//a.css`, which is the source with a slash twice. -/
def doubledTarget : Target where
  web := ['/', 'c', 's', 's', '/', '/', 'a', '.', 'c', 's', 's']
  path := ['p', 'u', 'b', 'l', 'i', 'c', '/', 'c', 's', 's', '/', '/', 'a', '.', 'c', 's', 's']
  modified := some 1

theorem openOn_other : openOn smallDisk (smallRequest otherTarget.web) = .ok (smallBundle otherTarget) := rfl

theorem openOn_doubled :
    openOn smallDisk (smallRequest doubledTarget.web) = .ok (smallBundle doubledTarget) := rfl

/-! ### The exact condition -/

/-- After a bundle was opened, every run keeps the bytes of all its sources, unless the output's path
    leads to one of them and the combined sources are readable and not blank; then some run overwrites
    a source. -/
theorem keepsSources_iff {disk : Disk} {request : BundleRequest} {bundle : Bundle}
    (opened : openOn disk request = .ok bundle) :
    KeepsSources disk bundle ↔ ¬ (Overlaps disk bundle ∧ HasText disk bundle) := by
  have checked := opened_of_openOn opened
  constructor
  · rintro kept ⟨overlaps, text⟩
    obtain ⟨level, source, member, changed⟩ := exists_overwriting checked overlaps text 0
    exact changed (kept _ source member)
  · intro safe
    by_cases overlaps : Overlaps disk bundle
    · exact keepsSources_of_not_hasText checked overlaps fun text => safe ⟨overlaps, text⟩
    · exact keepsSources_of_not_overlaps checked overlaps

theorem keepsSources_other :
    openOn smallDisk (smallRequest otherTarget.web) = .ok (smallBundle otherTarget) ∧
      KeepsSources smallDisk (smallBundle otherTarget) := by
  refine ⟨openOn_other, (keepsSources_iff openOn_other).mpr ?_⟩
  rintro ⟨⟨source, member, same⟩, _⟩
  obtain rfl : source = smallSource := by simpa [smallBundle] using member
  cases same

/-- A slash twice in the output's path is enough to overwrite a source. -/
theorem not_keepsSources_doubled :
    openOn smallDisk (smallRequest doubledTarget.web) = .ok (smallBundle doubledTarget) ∧
      ¬ KeepsSources smallDisk (smallBundle doubledTarget) := by
  refine ⟨openOn_doubled, fun kept => ?_⟩
  have overlaps : Overlaps smallDisk (smallBundle doubledTarget) := ⟨smallSource, by simp [smallBundle], rfl⟩
  have text : HasText smallDisk (smallBundle doubledTarget) :=
    ⟨['a', ' ', '{', ' ', 'b', ':', ' ', 'c', ' ', '}', '\n', '\n'], rfl, 'a', by simp, by decide⟩
  obtain ⟨level, source, member, changed⟩ :=
    exists_overwriting (opened_of_openOn openOn_doubled) overlaps text 0
  exact changed (kept _ source member)

end Stylepress.Bundle
