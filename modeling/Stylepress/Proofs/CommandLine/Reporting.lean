import Stylepress.Proofs.Bundle.Rebuilding
import Stylepress.Proofs.Bundle.Saving

/-!
What a call of the program reports about a build. The note that standard error ends with, behind the lines
that are logged, says that the output was written if `process` made a text, before `save` has its own look
at it: an empty text is not saved. So the note tells the truth exactly if the sources are not all blank or
the output is up to date (`reportsTruth_iff`).
-/
namespace Stylepress

/-! ### Builds that find an output up to date -/

namespace Bundle
open Css (Level minify)
open Css.Token (levelOf?)

/-- The output will do: nobody insists on a new one, and it is later than the sources and has the token
    of the level. -/
def UpToDate (disk : Disk) (bundle : Bundle) (level : Level) (force : Bool) : Prop :=
  force = false ∧ Staleness.isFresh bundle.target.modified (Source.newest? bundle.sources) = true ∧
    ∃ css, disk.readText bundle.target.path = .ok css ∧ levelOf? css = some level

section
variable {disk : Disk} {bundle : Bundle} {level : Level} {force : Bool}

theorem process_of_upToDate (upToDate : UpToDate disk bundle level force) :
    ∃ css, css ≠ [] ∧ disk.readText bundle.target.path = .ok css ∧ levelOf? css = some level ∧
      bundle.process disk level force = (.ok (), bundle.holding css) := by
  obtain ⟨rfl, isFresh, css, read, token⟩ := upToDate
  have filled : css ≠ [] := by
    rintro rfl
    cases token
  have decided : Staleness.decision level false (bundle.holding css).css (bundle.holding css).level = .reuse :=
    decision_eq_reuse_iff.mpr ⟨rfl, filled, token⟩
  refine ⟨css, filled, read, token, ?_⟩
  simp only [process, refresh_of_fresh isFresh read, decided]
  rw [← token]
  rfl

theorem process_of_not_upToDate (opened : Opened disk bundle) (outdated : ¬ UpToDate disk bundle level force)
    {processed : Bundle} (done : bundle.process disk level force = (.ok (), processed)) :
    ∃ raw, Source.combine disk bundle.sources = .ok raw ∧ processed = bundle.made raw level := by
  rcases process_cases disk level force bundle with ⟨error, _, outcome⟩ | ⟨fresh, refreshed, outcome⟩
  · rw [outcome] at done
    cases done
  · rcases outcome with ⟨decided, _⟩ | ⟨_, ⟨error, _, outcome⟩ | ⟨raw, combined, outcome⟩⟩
    · obtain ⟨unforced, filled, known⟩ := decision_eq_reuse_iff.mp decided
      rcases refresh_cases refreshed with rfl | ⟨css, isFresh, read, rfl⟩
      · exact absurd opened.noText filled
      · exact absurd ⟨unforced, isFresh, css, read, known⟩ outdated
    · rw [outcome] at done
      cases done
    · rw [outcome] at done
      obtain rfl := (Prod.mk.inj done).2
      have uncombined : bundle.combined = none := opened.uncombined
      rcases refresh_cases refreshed with rfl | ⟨css, _, _, rfl⟩
      · rw [combine, uncombined] at combined
        exact ⟨raw, combined, rfl⟩
      · simp only [combine, uncombined] at combined
        exact ⟨raw, combined, rfl⟩

end
end Bundle

namespace CommandLine
open Css (Level minify)
open Css.Token (levelOf?)

/-! ### Orders -/

/-- What a command asks to build. -/
structure Order where
  request : BundleRequest
  level : Level
  force : Bool
deriving DecidableEq, Repr

/-- What a command asks to build, if it asks for a build; a manifest is read from the disk. -/
def Command.order? (disk : Disk) : Command → Option Order
  | .bundle root output sources options =>
    some ⟨Command.request root output sources options, options.level.getD .high, options.force⟩
  | .manifest path options =>
    match Manifest.load disk path with
    | .ok described =>
      some ⟨Command.requestOf described options, options.level.getD described.pressLevel,
        options.force || described.force⟩
    | .error _ => none
  | .version => none
  | .help _ => none
  | .minify _ _ => none
  | .inspect _ => none

/-- The order that the arguments of the command `bundle` give. -/
def orderOf? (disk : Disk) (arguments : List Text) : Option Order :=
  (Command.ofArguments? ("bundle".toList :: arguments)).bind (Command.order? disk)

theorem ofArguments?_bundle (arguments : List Text) :
    Command.ofArguments? ("bundle".toList :: arguments) = Command.bundle? arguments := by
  simp [Command.ofArguments?]

/-- The call `bundle` asks for help, or it asks for a build. -/
theorem bundle?_cases {arguments : List Text} {command : Command}
    (read : Command.bundle? arguments = some command) :
    command = .help Command.bundleForm ∨
      (∃ root output sources options, command = .bundle root output sources options) ∨
      ∃ path options, command = .manifest path options := by
  rw [Command.bundle?] at read
  split at read
  · cases read
  · split at read
    · exact .inl (Option.some.inj read).symm
    · dsimp only at read
      split at read
      · exact .inr (.inr ⟨_, _, (Option.some.inj read).symm⟩)
      · exact .inr (.inl ⟨_, _, _, _, (Option.some.inj read).symm⟩)
      · cases read

example : Command.bundle? ["--force".toList, "-h".toList, "--unheard".toList] =
    some (.help Command.bundleForm) := by decide +kernel

/-- A bundle that is built was opened. -/
theorem openOn_of_openAndBuild {logger : Logger} {disk : Disk} {now : Time} {context : String}
    {request : BundleRequest} {level : Level} {force : Bool}
    (done : (openAndBuild logger disk now context request level force).exitCode = 0) :
    ∃ bundle, Bundle.openOn disk request = .ok bundle ∧
      openAndBuild logger disk now context request level force =
        (build disk now level force bundle).behind (logger.linesOf disk request) := by
  rw [openAndBuild] at done ⊢
  cases opened : Bundle.openOn disk request with
  | error error => simp [opened, Outcome.failed] at done
  | ok bundle => exact ⟨bundle, rfl, rfl⟩

/-- A call of `bundle` that succeeds shows help, or it builds what it orders. -/
theorem exists_order {logger : Logger} {disk : Disk} {input : Bytes} {now : Time} {arguments : List Text}
    (done : (call disk input now ("bundle".toList :: arguments) logger).exitCode = 0) :
    (Command.bundle? arguments = some (.help Command.bundleForm) ∧
      call disk input now ("bundle".toList :: arguments) logger = .printed disk Command.bundleForm.page) ∨
    ∃ order bundle, orderOf? disk arguments = some order ∧ Bundle.openOn disk order.request = .ok bundle ∧
      call disk input now ("bundle".toList :: arguments) logger =
        (build disk now order.level order.force bundle).behind (logger.linesOf disk order.request) := by
  rw [call, ofArguments?_bundle] at done ⊢
  rw [orderOf?, ofArguments?_bundle]
  cases read : Command.bundle? arguments with
  | none => simp [read, Outcome.misused] at done
  | some command =>
    simp only [read, Option.bind_some] at done ⊢
    rcases bundle?_cases read with rfl | ⟨root, output, sources, options, rfl⟩ | ⟨path, options, rfl⟩
    · exact .inl ⟨rfl, rfl⟩
    · right
      rw [run] at done ⊢
      obtain ⟨bundle, opened, built⟩ := openOn_of_openAndBuild done
      exact ⟨_, bundle, rfl, opened, built⟩
    · right
      rw [run] at done ⊢
      cases loaded : Manifest.load disk path with
      | error error => simp [loaded, Outcome.failed] at done
      | ok manifest =>
        simp only [loaded] at done
        obtain ⟨bundle, opened, built⟩ := openOn_of_openAndBuild done
        have asked : Command.order? disk (.manifest path options) = some ⟨Command.requestOf manifest options,
            options.level.getD manifest.pressLevel, options.force || manifest.force⟩ := by
          simp only [Command.order?, loaded]
        exact ⟨_, bundle, asked, opened, built⟩

/-! ### What a build does and says -/

/-- What a call prints on standard error ends with the note that has a mark, an output and a level, on a line
    of its own behind other lines. -/
def Outcome.Announces (outcome : Outcome) (mark : String) (web : Text) (level : Level) : Prop :=
  ∃ lines, outcome.errors = unlines lines ++ buildNote mark web level

/-- A call wrote a text under a path. -/
def Outcome.Wrote (outcome : Outcome) (disk : Disk) (now : Time) (path css : Text) : Prop :=
  outcome.written = some (path, css) ∧ disk.write path (Utf8.encode css) now = .ok outcome.disk

/-- A call wrote nothing. -/
def Outcome.Idle (outcome : Outcome) (disk : Disk) : Prop := outcome.written = none ∧ outcome.disk = disk

theorem Outcome.Idle.not_wrote {outcome : Outcome} {disk : Disk} (idle : outcome.Idle disk) (now : Time)
    (path css : Text) : ¬ outcome.Wrote disk now path css := by
  rintro ⟨written, _⟩
  rw [idle.1] at written
  cases written

/-- The two notes on one build end differently before the output, whatever stands in front of them. -/
theorem not_announces_both {outcome : Outcome} {web : Text} {level : Level}
    (wrote : outcome.Announces wroteMark web level) : ¬ outcome.Announces upToDateMark web level := by
  rintro ⟨others, upToDate⟩
  obtain ⟨lines, wrote⟩ := wrote
  rw [wrote] at upToDate
  have fronts : unlines lines ++ wroteMark = unlines others ++ upToDateMark := by
    simpa only [buildNote, ← String.append_assoc, String.append_left_inj] using upToDate
  have backwards := congrArg (fun printed => printed.toList.reverse) fronts
  simp [wroteMark, upToDateMark] at backwards

/-- A build that succeeds writes the text that `process` left if it is flagged and not empty, and
    announces that it was written if it is flagged. -/
theorem build_cases {lines : List String} {disk : Disk} {now : Time} {level : Level} {force : Bool}
    {bundle : Bundle} {outcome : Outcome} (built : outcome = (build disk now level force bundle).behind lines)
    (done : outcome.exitCode = 0) :
    ∃ processed, bundle.process disk level force = (.ok (), processed) ∧
      outcome.Announces (if processed.updated then wroteMark else upToDateMark) processed.target.web level ∧
      ((processed.css = [] ∨ processed.updated = false) ∧ outcome.Idle disk ∨
        (processed.css ≠ [] ∧ processed.updated = true) ∧
          outcome.Wrote disk now processed.target.path processed.css) := by
  subst built
  rw [build] at done ⊢
  cases ran : bundle.process disk level force with
  | mk result processed =>
    cases result with
    | error error => simp [ran, Outcome.failed] at done
    | ok =>
      refine ⟨processed, rfl, ?_⟩
      simp only [ran] at done ⊢
      rcases Bundle.save_cases disk now processed with ⟨result, reason, saved⟩ |
        ⟨⟨filled, flag⟩, ⟨error, _, saved⟩ | ⟨changed, modified, stored, saved⟩⟩
      · rw [saved] at done ⊢
        cases result with
        | error error => simp [Outcome.failed] at done
        | ok markup => exact ⟨⟨lines, rfl⟩, .inl ⟨reason, by simp, rfl⟩⟩
      · simp [saved, Outcome.failed] at done
      · rw [saved]
        refine ⟨⟨lines, rfl⟩, .inr ⟨⟨filled, flag⟩, ?_, Bundle.write_of_save stored⟩⟩
        simp [flag, Bundle.saved]

/-! ### The truth of a report -/

/-- What a call announces about its build is true: that the output was written if and only if the call
    wrote it, and then the output holds what pressing the combined sources at the level gives; otherwise
    that the output is up to date, and it is a text with the token of the level. -/
structure ReportsTruth (disk : Disk) (now : Time) (bundle : Bundle) (level : Level) (outcome : Outcome) :
    Prop where
  wrote_iff : outcome.Announces wroteMark bundle.target.web level ↔
    ∃ css, outcome.Wrote disk now bundle.target.path css
  wrote : outcome.Announces wroteMark bundle.target.web level →
    ∃ raw, Source.combine disk bundle.sources = .ok raw ∧
      outcome.disk.readBytes bundle.target.path = .ok (Utf8.encode (minify raw level))
  upToDate : ¬ outcome.Announces wroteMark bundle.target.web level →
    outcome.Announces upToDateMark bundle.target.web level ∧ outcome.disk = disk ∧
      ∃ css, css ≠ [] ∧ disk.readText bundle.target.path = .ok css ∧ levelOf? css = some level

section
variable {disk : Disk} {now : Time} {level : Level} {force : Bool} {bundle : Bundle} {lines : List String}
  {outcome : Outcome}

theorem reportsTruth_of_upToDate (unflagged : bundle.updated = false)
    (upToDate : Bundle.UpToDate disk bundle level force)
    (built : outcome = (build disk now level force bundle).behind lines) (done : outcome.exitCode = 0) :
    ReportsTruth disk now bundle level outcome := by
  obtain ⟨css, filled, read, token, ran⟩ := Bundle.process_of_upToDate upToDate
  obtain ⟨processed, ranToo, note, result⟩ := build_cases built done
  obtain rfl : bundle.holding css = processed := (Prod.mk.inj (ran.symm.trans ranToo)).2
  have flag : (bundle.holding css).updated = false := unflagged
  rw [flag] at note result
  have silent : ¬ outcome.Announces wroteMark bundle.target.web level :=
    fun wrote => not_announces_both wrote note
  rcases result with ⟨_, idle⟩ | ⟨⟨_, flagged⟩, _⟩
  · refine ⟨⟨fun wrote => absurd wrote silent, ?_⟩, fun wrote => absurd wrote silent, fun _ => ?_⟩
    · rintro ⟨other, wrote⟩
      exact absurd wrote (idle.not_wrote now _ other)
    · exact ⟨note, idle.2, css, filled, read, token⟩
  · cases flagged

/-- A build of an outdated output announces that it wrote what pressing the sources gives, and writes it
    unless the sources are blank. -/
theorem build_of_outdated (opened : Bundle.Opened disk bundle)
    (outdated : ¬ Bundle.UpToDate disk bundle level force)
    (built : outcome = (build disk now level force bundle).behind lines) (done : outcome.exitCode = 0) :
    outcome.Announces wroteMark bundle.target.web level ∧
      ∃ raw, Source.combine disk bundle.sources = .ok raw ∧
        ((∀ c ∈ raw, Text.isBlank c = true) ∧ outcome.Idle disk ∨
          (∃ c ∈ raw, Text.isBlank c = false) ∧
            outcome.Wrote disk now bundle.target.path (minify raw level)) := by
  obtain ⟨processed, ran, note, result⟩ := build_cases built done
  obtain ⟨raw, combined, rfl⟩ := Bundle.process_of_not_upToDate opened outdated ran
  refine ⟨note, raw, combined, ?_⟩
  by_cases blank : ∀ c ∈ raw, Text.isBlank c = true
  · rcases result with ⟨_, idle⟩ | ⟨⟨filled, _⟩, _⟩
    · exact .inl ⟨blank, idle⟩
    · exact absurd (Css.minify_of_blank blank level) filled
  · have solid : ∃ c ∈ raw, Text.isBlank c = false := by simpa using blank
    obtain ⟨c, member, _⟩ := Css.not_blank_minify solid level
    rcases result with ⟨empty | unflagged, _⟩ | ⟨_, wrote⟩
    · exact absurd empty (List.ne_nil_of_mem member)
    · cases unflagged
    · exact .inr ⟨solid, wrote⟩

theorem reportsTruth_of_wrote {raw : Text} (note : outcome.Announces wroteMark bundle.target.web level)
    (combined : Source.combine disk bundle.sources = .ok raw)
    (wrote : outcome.Wrote disk now bundle.target.path (minify raw level)) :
    ReportsTruth disk now bundle level outcome := by
  refine ⟨⟨fun _ => ⟨_, wrote⟩, fun _ => note⟩, fun _ => ⟨raw, combined, ?_⟩, fun silent => absurd note silent⟩
  rw [Disk.readBytes, Disk.status_of_write wrote.2]

/-- The report on a build is true if and only if there is a text to write or the output is up to date;
    else the build announces a text and writes none. -/
theorem build_reports (opened : Bundle.Opened disk bundle) (unflagged : bundle.updated = false)
    (built : outcome = (build disk now level force bundle).behind lines) (done : outcome.exitCode = 0) :
    (ReportsTruth disk now bundle level outcome ↔
      Bundle.HasText disk bundle ∨ Bundle.UpToDate disk bundle level force) ∧
    (¬ (Bundle.HasText disk bundle ∨ Bundle.UpToDate disk bundle level force) →
      outcome.Announces wroteMark bundle.target.web level ∧ outcome.Idle disk) := by
  by_cases upToDate : Bundle.UpToDate disk bundle level force
  · have truth := reportsTruth_of_upToDate unflagged upToDate built done
    exact ⟨⟨fun _ => .inr upToDate, fun _ => truth⟩, fun neither => absurd (.inr upToDate) neither⟩
  · obtain ⟨note, raw, combined, ⟨blank, idle⟩ | ⟨solid, wrote⟩⟩ :=
      build_of_outdated opened upToDate built done
    · have noText : ¬ Bundle.HasText disk bundle := by
        rintro ⟨other, combinedToo, c, member, notBlank⟩
        obtain rfl : raw = other := Except.ok.inj (combined.symm.trans combinedToo)
        rw [blank c member] at notBlank
        cases notBlank
      refine ⟨⟨?_, ?_⟩, fun _ => ⟨note, idle⟩⟩
      · intro truth
        obtain ⟨css, wrote⟩ := truth.wrote_iff.mp note
        exact absurd wrote (idle.not_wrote now _ css)
      · rintro (text | current)
        · exact absurd text noText
        · exact absurd current upToDate
    · have text : Bundle.HasText disk bundle := ⟨raw, combined, solid⟩
      exact ⟨⟨fun _ => .inl text, fun _ => reportsTruth_of_wrote note combined wrote⟩,
        fun neither => absurd (.inl text) neither⟩

end

/-! ### A small disk -/

/-- The arguments that ask for the small bundle. -/
def smallArguments : List Text :=
  ["--root".toList, "public".toList, "--output".toList, "/css/b.css".toList, "/css/a.css".toList]

/-- The same arguments with the source given twice. -/
def repeatedArguments : List Text := smallArguments ++ ["css/a.css".toList]

/-- The order of the small bundle. -/
def smallOrder : Order where
  request := Bundle.smallRequest Bundle.otherTarget.web
  level := .high
  force := false

def repeatedOrder : Order :=
  { smallOrder with request := { smallOrder.request with sources := ["/css/a.css".toList, "css/a.css".toList] } }

/-- The small disk with a blank source, and an output from before it. -/
def blankDisk : Disk :=
  ((Disk.bare [] 0).putFile 0 [['p', 'u', 'b', 'l', 'i', 'c'], ['c', 's', 's'], ['a', '.', 'c', 's', 's']]
    (Utf8.encode [' ']) 1).putFile 0 [['p', 'u', 'b', 'l', 'i', 'c'], ['c', 's', 's'], ['b', '.', 'c', 's', 's']]
    (Utf8.encode ('x' :: Css.Token.ofLevel .high)) 0

def earlierTarget : Target := { Bundle.otherTarget with modified := some 0 }

theorem orderOf?_of_bundle? {arguments : List Text} {root output : Text} {sources : List Text}
    {options : BuildOptions} (read : Command.bundle? arguments = some (.bundle root output sources options))
    (disk : Disk) :
    orderOf? disk arguments =
      some ⟨Command.request root output sources options, options.level.getD .high, options.force⟩ := by
  rw [orderOf?, ofArguments?_bundle, read]
  rfl

theorem orderOf?_small (disk : Disk) : orderOf? disk smallArguments = some smallOrder :=
  orderOf?_of_bundle? (show Command.bundle? smallArguments = some (.bundle smallOrder.request.root
    smallOrder.request.output smallOrder.request.sources {}) by decide +kernel) disk

theorem bundle?_repeated : Command.bundle? repeatedArguments =
    some (.bundle repeatedOrder.request.root repeatedOrder.request.output repeatedOrder.request.sources {}) := by
  decide +kernel

theorem openOn_blank :
    Bundle.openOn blankDisk smallOrder.request = .ok (Bundle.smallBundle earlierTarget) := rfl

theorem openOn_repeated :
    Bundle.openOn Bundle.smallDisk repeatedOrder.request = .ok (Bundle.smallBundle Bundle.otherTarget) := rfl

/-! ### Reports of calls -/

/-- A call of `bundle` that succeeds shows help and does nothing else, or it opens the bundle that its
    arguments or its manifest order. Then, whatever is logged, what it reports is true if and only if the
    combined sources are not blank or the output is up to date; else it announces that the output was
    written and writes nothing. -/
theorem reportsTruth_iff {logger : Logger} {disk : Disk} {input : Bytes} {now : Time} {arguments : List Text}
    {outcome : Outcome} (called : outcome = call disk input now ("bundle".toList :: arguments) logger)
    (done : outcome.exitCode = 0) :
    (Command.bundle? arguments = some (.help Command.bundleForm) ∧
      outcome = .printed disk Command.bundleForm.page) ∨
    ∃ order bundle, orderOf? disk arguments = some order ∧ Bundle.openOn disk order.request = .ok bundle ∧
      (ReportsTruth disk now bundle order.level outcome ↔
        Bundle.HasText disk bundle ∨ Bundle.UpToDate disk bundle order.level order.force) ∧
      (¬ (Bundle.HasText disk bundle ∨ Bundle.UpToDate disk bundle order.level order.force) →
        outcome.Announces wroteMark bundle.target.web order.level ∧ outcome.Idle disk) := by
  rw [called] at done
  rcases exists_order done with ⟨asked, shown⟩ | ⟨order, bundle, asked, opened, built⟩
  · exact .inl ⟨asked, called.trans shown⟩
  · right
    rw [← called] at built done
    exact ⟨order, bundle, asked, opened,
      build_reports (Bundle.opened_of_openOn opened) (Bundle.updated_of_openOn opened) built done⟩

/-- The report on the small bundle is true, also behind the warning that its source is given twice. -/
theorem reportsTruth_small :
    let outcome := call Bundle.smallDisk [] 5 ("bundle".toList :: repeatedArguments) some
    outcome.exitCode = 0 ∧
      outcome.errors = "[bundle] duplicate source /css/a.css ignored\n" ++ wroteMark ++ "/css/b.css (high)\n" ∧
      ∃ order bundle, orderOf? Bundle.smallDisk repeatedArguments = some order ∧
        Bundle.openOn Bundle.smallDisk order.request = .ok bundle ∧
        ReportsTruth Bundle.smallDisk 5 bundle order.level outcome := by
  intro outcome
  have done : outcome.exitCode = 0 := by decide +kernel
  refine ⟨done, by decide +kernel, ?_⟩
  rcases reportsTruth_iff rfl done with ⟨help, _⟩ | ⟨order, bundle, asked, opened, condition, _⟩
  · rw [bundle?_repeated] at help
    cases help
  · refine ⟨order, bundle, asked, opened, condition.mpr (.inl ?_)⟩
    obtain rfl : order = repeatedOrder :=
      Option.some.inj (asked.symm.trans (orderOf?_of_bundle? bundle?_repeated _))
    obtain rfl := Except.ok.inj (opened.symm.trans openOn_repeated)
    exact ⟨['a', ' ', '{', ' ', 'b', ':', ' ', 'c', ' ', '}', '\n', '\n'], rfl, 'a', by simp, by decide⟩

/-- With a blank source the call announces an output that it does not write. -/
theorem not_reportsTruth_blank :
    (call blankDisk [] 5 ("bundle".toList :: smallArguments)).exitCode = 0 ∧
      orderOf? blankDisk smallArguments = some smallOrder ∧
      Bundle.openOn blankDisk smallOrder.request = .ok (Bundle.smallBundle earlierTarget) ∧
      ¬ ReportsTruth blankDisk 5 (Bundle.smallBundle earlierTarget) smallOrder.level
        (call blankDisk [] 5 ("bundle".toList :: smallArguments)) := by
  have done : (call blankDisk [] 5 ("bundle".toList :: smallArguments)).exitCode = 0 := by decide +kernel
  have note : (call blankDisk [] 5 ("bundle".toList :: smallArguments)).errors =
      unlines [] ++ buildNote wroteMark earlierTarget.web .high := by decide +kernel
  have unwritten : (call blankDisk [] 5 ("bundle".toList :: smallArguments)).written = none := by
    decide +kernel
  refine ⟨done, orderOf?_small _, openOn_blank, fun truth => ?_⟩
  obtain ⟨css, written, _⟩ := truth.wrote_iff.mp ⟨[], note⟩
  rw [unwritten] at written
  cases written

end CommandLine

end Stylepress
