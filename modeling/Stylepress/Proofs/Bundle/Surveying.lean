import Mathlib.Data.List.Induction
import Mathlib.Data.List.Nodup
import Stylepress.Bundle.Source
import Stylepress.Disk.Edit

/-!
What a survey of requested paths comes to. Each step of the survey looks at one path and compares it with
all that were accepted or refused before, so the paths looked at are the web paths without later repeats
(`look_surveyed`, `foldl_look`), and each of them is judged by itself: `IsStylesheet` says what is accepted
and `IsMissing` what is not found (`all_judged`).
-/
namespace Stylepress.Source

/-! ### Judging one path -/

section
variable (disk : Disk) (sniff? : Text → Option Media) (policy : Policy) (root : Text)

/-- A regular file with the policy's extension and an accepted media type. -/
def IsStylesheet (web : Text) : Prop :=
  (∃ content modified, disk.status (WebPath.resolve root web) = .ok (.file content modified)) ∧
    WebPath.extension? web = some policy.extension ∧
    ∃ media, sniff? (WebPath.resolve root web) = some media ∧ policy.accepts media.name = true

/-- The policy's extension on a path that names nothing, or on a regular file that cannot be read. -/
def IsMissing (web : Text) : Prop :=
  WebPath.extension? web = some policy.extension ∧
    ((∃ fault, disk.status (WebPath.resolve root web) = .error fault) ∨
      (∃ content modified, disk.status (WebPath.resolve root web) = .ok (.file content modified)) ∧
        sniff? (WebPath.resolve root web) = none)

/-- Those of the web paths that are accepted, each as a source. -/
def accepted (webs : List Text) : List Source :=
  webs.filterMap fun web => (examine disk sniff? policy root web).toOption

/-- Those of the web paths that are refused, each with the reason. -/
def rejected (webs : List Text) : List RejectedSource :=
  webs.filterMap fun web =>
    match examine disk sniff? policy root web with
    | .ok _ => none
    | .error reason => some ⟨web, reason⟩

/-- The survey that looked at each of the web paths once. -/
def surveyed (webs : List Text) : Survey :=
  ⟨accepted disk sniff? policy root webs, rejected disk sniff? policy root webs⟩

end

section
variable {disk : Disk} {sniff? : Text → Option Media} {policy : Policy} {root web : Text}

theorem examine_eq_ok_iff {source : Source} :
    examine disk sniff? policy root web = .ok source ↔
      IsStylesheet disk sniff? policy root web ∧ source.web = web ∧
        source.path = WebPath.resolve root web ∧
        ∃ content, disk.status (WebPath.resolve root web) = .ok (.file content source.modified) := by
  rw [examine, IsStylesheet]
  cases disk.status (WebPath.resolve root web) with
  | error fault => simp
  | ok entry =>
    cases entry with
    | directory modified => simp
    | file content modified =>
      by_cases named : WebPath.extension? web = some policy.extension
      · cases sniff? (WebPath.resolve root web) with
        | none => simp [named]
        | some media =>
          by_cases fits : policy.accepts media.name = true
          · cases source
            simp only [named, fits, if_true, Except.ok.injEq, mk.injEq, Entry.file.injEq]
            grind
          · simp [named, fits]
      · simp [named]

theorem exists_examine_iff :
    (∃ source, examine disk sniff? policy root web = .ok source) ↔
      IsStylesheet disk sniff? policy root web := by
  constructor
  · rintro ⟨source, found⟩
    exact (examine_eq_ok_iff.mp found).1
  · intro stylesheet
    obtain ⟨content, modified, present⟩ := stylesheet.1
    exact ⟨⟨web, _, modified⟩, examine_eq_ok_iff.mpr ⟨stylesheet, rfl, rfl, content, present⟩⟩

theorem examine_eq_notFound_iff :
    examine disk sniff? policy root web = .error .notFound ↔ IsMissing disk sniff? policy root web := by
  rw [examine, IsMissing]
  cases disk.status (WebPath.resolve root web) with
  | error fault => by_cases named : WebPath.extension? web = some policy.extension <;> simp [named]
  | ok entry =>
    cases entry with
    | directory modified => simp
    | file content modified =>
      by_cases named : WebPath.extension? web = some policy.extension
      · cases sniff? (WebPath.resolve root web) with
        | none => simp [named]
        | some media => by_cases fits : policy.accepts media.name = true <;> simp [named, fits]
      · simp [named]

/-- What is not accepted is refused, as not found exactly if it is missing. -/
theorem exists_examine_of_not (other : ¬ IsStylesheet disk sniff? policy root web) :
    ∃ reason, examine disk sniff? policy root web = .error reason ∧
      (reason = .notFound ↔ IsMissing disk sniff? policy root web) := by
  cases found : examine disk sniff? policy root web with
  | ok source => exact absurd (exists_examine_iff.mp ⟨source, found⟩) other
  | error reason =>
    refine ⟨reason, rfl, ?_⟩
    rw [← examine_eq_notFound_iff, found, Except.error.injEq]

end

instance (disk : Disk) (sniff? : Text → Option Media) (policy : Policy) (root : Text) :
    DecidablePred (IsStylesheet disk sniff? policy root) := fun web =>
  match found : examine disk sniff? policy root web with
  | .ok source => isTrue (exists_examine_iff.mp ⟨source, found⟩)
  | .error _ => isFalse fun stylesheet =>
    (exists_examine_iff.mpr stylesheet).elim fun source accepted => by simp [found] at accepted

instance (disk : Disk) (sniff? : Text → Option Media) (policy : Policy) (root : Text) :
    DecidablePred (IsMissing disk sniff? policy root) := fun web =>
  match found : examine disk sniff? policy root web with
  | .error .notFound => isTrue (examine_eq_notFound_iff.mp found)
  | .error .invalid | .ok _ => isFalse fun missing => by simp [examine_eq_notFound_iff.mpr missing] at found

/-! ### Judging a list of paths -/

section
variable {disk : Disk} {sniff? : Text → Option Media} {policy : Policy} {root web : Text}
  {webs : List Text}

theorem mem_accepted_iff {source : Source} :
    source ∈ accepted disk sniff? policy root webs ↔
      ∃ web ∈ webs, examine disk sniff? policy root web = .ok source := by
  rw [accepted, List.mem_filterMap]
  refine exists_congr fun web => and_congr_right fun _ => ?_
  cases examine disk sniff? policy root web with
  | ok found => simp [Except.toOption]
  | error reason => simp [Except.toOption]

theorem mem_rejected_iff {refused : RejectedSource} :
    refused ∈ rejected disk sniff? policy root webs ↔
      refused.path ∈ webs ∧ examine disk sniff? policy root refused.path = .error refused.reason := by
  rw [rejected, List.mem_filterMap]
  constructor
  · rintro ⟨web, member, found⟩
    cases judged : examine disk sniff? policy root web with
    | ok source => simp [judged] at found
    | error reason =>
      obtain rfl : ⟨web, reason⟩ = refused := by simpa [judged] using found
      exact ⟨member, judged⟩
  · rintro ⟨member, judged⟩
    exact ⟨refused.path, member, by simp [judged]⟩

theorem map_web_accepted :
    (accepted disk sniff? policy root webs).map (·.web) =
      webs.filter fun web => IsStylesheet disk sniff? policy root web := by
  induction webs with
  | nil => rfl
  | cons web webs ih =>
    rw [accepted] at ih ⊢
    by_cases stylesheet : IsStylesheet disk sniff? policy root web
    · obtain ⟨source, found⟩ := exists_examine_iff.mpr stylesheet
      have same := (examine_eq_ok_iff.mp found).2.1
      rw [List.filterMap_cons_some (by rw [found]; rfl), List.map_cons, ih, same,
        List.filter_cons_of_pos (by simpa using stylesheet)]
    · obtain ⟨reason, found, _⟩ := exists_examine_of_not stylesheet
      rw [List.filterMap_cons_none (by rw [found]; rfl), ih,
        List.filter_cons_of_neg (by simpa using stylesheet)]

theorem rejected_eq :
    rejected disk sniff? policy root webs =
      (webs.filter fun web => ¬ IsStylesheet disk sniff? policy root web).map fun web =>
        ⟨web, if IsMissing disk sniff? policy root web then .notFound else .invalid⟩ := by
  induction webs with
  | nil => rfl
  | cons web webs ih =>
    rw [rejected] at ih ⊢
    by_cases stylesheet : IsStylesheet disk sniff? policy root web
    · obtain ⟨source, found⟩ := exists_examine_iff.mpr stylesheet
      rw [List.filterMap_cons_none (by rw [found]), ih,
        List.filter_cons_of_neg (by simpa using stylesheet)]
    · obtain ⟨reason, found, missing⟩ := exists_examine_of_not stylesheet
      have worded : reason = if IsMissing disk sniff? policy root web then .notFound else .invalid := by
        by_cases gone : IsMissing disk sniff? policy root web
        · rw [if_pos gone, missing.mpr gone]
        · rw [if_neg gone]
          cases reason with
          | notFound => exact absurd (missing.mp rfl) gone
          | invalid => rfl
      rw [List.filterMap_cons_some (by rw [found]), ih,
        List.filter_cons_of_pos (by simpa using stylesheet), List.map_cons, worded]

/-! ### The survey -/

/-- A survey knows the paths that it looked at, whatever became of them. -/
theorem knows_surveyed : (surveyed disk sniff? policy root webs).knows web = true ↔ web ∈ webs := by
  rw [Survey.knows, Bool.or_eq_true, List.any_eq_true, List.any_eq_true]
  simp only [beq_iff_eq]
  constructor
  · rintro (⟨source, member, rfl⟩ | ⟨refused, member, rfl⟩)
    · obtain ⟨web, listed, found⟩ := mem_accepted_iff.mp member
      rwa [(examine_eq_ok_iff.mp found).2.1]
    · exact (mem_rejected_iff.mp member).1
  · intro listed
    cases found : examine disk sniff? policy root web with
    | ok source =>
      exact .inl ⟨source, mem_accepted_iff.mpr ⟨web, listed, found⟩, (examine_eq_ok_iff.mp found).2.1⟩
    | error reason => exact .inr ⟨⟨web, reason⟩, mem_rejected_iff.mpr ⟨listed, found⟩, rfl⟩

theorem eraseDups_concat (seen : List Text) (web : Text) :
    (seen ++ [web]).eraseDups = if web ∈ seen then seen.eraseDups else seen.eraseDups ++ [web] := by
  rw [List.eraseDups_append]
  by_cases known : web ∈ seen
  · simp [known, List.removeAll]
  · simp [known, List.removeAll, List.eraseDups_cons]

theorem nodup_eraseDups (webs : List Text) : webs.eraseDups.Nodup := by
  induction webs using List.reverseRecOn with
  | nil => exact List.nodup_nil
  | append_singleton webs web ih =>
    rw [eraseDups_concat]
    by_cases known : web ∈ webs
    · rwa [if_pos known]
    · rw [if_neg known, List.nodup_append_comm, List.singleton_append, List.nodup_cons,
        List.mem_eraseDups]
      exact ⟨known, ih⟩

/-- One step looks at a path unless it was looked at before. -/
theorem look_surveyed (seen : List Text) (web : Text) :
    (surveyed disk sniff? policy root seen.eraseDups).look disk sniff? policy root web =
      surveyed disk sniff? policy root (seen ++ [web]).eraseDups := by
  have knows : (surveyed disk sniff? policy root seen.eraseDups).knows web = true ↔ web ∈ seen := by
    rw [knows_surveyed, List.mem_eraseDups]
  rw [Survey.look, eraseDups_concat]
  by_cases known : web ∈ seen
  · rw [if_pos (knows.mpr known), if_pos known]
  · -- A new path joins one list, at its end, and leaves the other as it is.
    rw [if_neg (mt knows.mp known), if_neg known]
    cases found : examine disk sniff? policy root web with
    | ok source => simp [surveyed, accepted, rejected, found, Except.toOption]
    | error reason => simp [surveyed, accepted, rejected, found, Except.toOption]

theorem foldl_look (seen webs : List Text) :
    webs.foldl (Survey.look disk sniff? policy root) (surveyed disk sniff? policy root seen.eraseDups) =
      surveyed disk sniff? policy root (seen ++ webs).eraseDups := by
  induction webs generalizing seen with
  | nil => rw [List.foldl_nil, List.append_nil]
  | cons web webs ih => rw [List.foldl_cons, look_surveyed, ih, List.append_assoc, List.singleton_append]

/-- A request is judged path by path. -/
theorem all_eq (requested : List Text) :
    all disk sniff? policy root requested =
      if requested.isEmpty then .error .noSources
      else if (rejected disk sniff? policy root (webPaths requested)).isEmpty then
        .ok (accepted disk sniff? policy root (webPaths requested))
      else .error (.rejectedSources (rejected disk sniff? policy root (webPaths requested))) := by
  have run : (requested.map WebPath.ofText).foldl (Survey.look disk sniff? policy root) {} =
      surveyed disk sniff? policy root (webPaths requested) :=
    foldl_look [] (requested.map WebPath.ofText)
  rw [all, run]
  rfl

/-! ### Every request -/

/-- The refusals in the answer to a request. -/
def refusals : Except BundleError (List Source) → List RejectedSource
  | .error (.rejectedSources refused) => refused
  | _ => []

theorem refusals_all (requested : List Text) :
    refusals (all disk sniff? policy root requested) =
      rejected disk sniff? policy root (webPaths requested) := by
  rw [all_eq]
  cases requested with
  | nil => rfl
  | cons raw rest =>
    cases none : (rejected disk sniff? policy root (webPaths (raw :: rest))).isEmpty with
    | true => simpa [refusals] using none
    | false => simp [refusals]

theorem rejected_eq_nil_iff :
    rejected disk sniff? policy root webs = [] ↔ ∀ web ∈ webs, IsStylesheet disk sniff? policy root web := by
  rw [rejected_eq, List.map_eq_nil_iff, List.filter_eq_nil_iff]
  simp

theorem all_eq_ok_iff {requested : List Text} {sources : List Source} :
    all disk sniff? policy root requested = .ok sources ↔
      requested ≠ [] ∧ (∀ web ∈ webPaths requested, IsStylesheet disk sniff? policy root web) ∧
        accepted disk sniff? policy root (webPaths requested) = sources := by
  rw [all_eq, ← rejected_eq_nil_iff]
  split
  · next none => simp [List.isEmpty_iff.mp none]
  · next asked =>
    split
    · next unrefused => simp [List.isEmpty_iff.not.mp asked, List.isEmpty_iff.mp unrefused]
    · next refused => simp [List.isEmpty_iff.not.mp refused]

theorem examine_of_mem {requested : List Text} {sources : List Source}
    (checked : all disk sniff? policy root requested = .ok sources) {source : Source}
    (member : source ∈ sources) : examine disk sniff? policy root source.web = .ok source := by
  obtain ⟨_, _, rfl⟩ := all_eq_ok_iff.mp checked
  obtain ⟨web, _, found⟩ := mem_accepted_iff.mp member
  obtain ⟨_, rfl, _⟩ := examine_eq_ok_iff.mp found
  exact found

/-- An accepted source is a file. -/
theorem status_of_mem {requested : List Text} {sources : List Source}
    (checked : all disk sniff? policy root requested = .ok sources) {source : Source}
    (member : source ∈ sources) :
    source.path = WebPath.resolve root source.web ∧
      ∃ content, disk.status source.path = .ok (.file content source.modified) := by
  obtain ⟨_, _, path, present⟩ := examine_eq_ok_iff.mp (examine_of_mem checked member)
  rw [path]
  exact ⟨rfl, present⟩

end

/-- A request is answered by judging each of its web paths once and by itself. It gives sources exactly if
    every path is a stylesheet, and then these are the paths in order, each with its place and time.
    Otherwise it lists the other paths in order, as not found if they are missing and as invalid if not,
    which directories are. No path is judged otherwise in the company of other paths. -/
theorem all_judged (disk : Disk) (sniff? : Text → Option Media) (policy : Policy) (root : Text)
    {requested : List Text} (asked : requested ≠ []) :
    (webPaths requested).Nodup ∧
      ((∃ sources, all disk sniff? policy root requested = .ok sources) ↔
        ∀ web ∈ webPaths requested, IsStylesheet disk sniff? policy root web) ∧
      (∀ sources, all disk sniff? policy root requested = .ok sources →
        sources.map (·.web) = webPaths requested ∧
          ∀ source ∈ sources, source.path = WebPath.resolve root source.web ∧
            ∃ content, disk.status source.path = .ok (.file content source.modified)) ∧
      ((∃ web ∈ webPaths requested, ¬ IsStylesheet disk sniff? policy root web) →
        all disk sniff? policy root requested = .error (.rejectedSources
          (((webPaths requested).filter fun web => ¬ IsStylesheet disk sniff? policy root web).map fun web =>
            ⟨web, if IsMissing disk sniff? policy root web then .notFound else .invalid⟩))) ∧
      (∀ web ∈ webPaths requested, ∀ modified,
        disk.status (WebPath.resolve root web) = .ok (.directory modified) →
          ⟨web, .invalid⟩ ∈ refusals (all disk sniff? policy root requested)) ∧
      ∀ others, ∀ web ∈ webPaths requested, web ∈ webPaths others → ∀ reason,
        ⟨web, reason⟩ ∈ refusals (all disk sniff? policy root requested) ↔
          ⟨web, reason⟩ ∈ refusals (all disk sniff? policy root others) := by
  refine ⟨nodup_eraseDups _, ?_, ?_, ?_, ?_, ?_⟩
  · constructor
    · rintro ⟨sources, done⟩
      exact (all_eq_ok_iff.mp done).2.1
    · intro stylesheets
      exact ⟨_, all_eq_ok_iff.mpr ⟨asked, stylesheets, rfl⟩⟩
  · intro sources done
    refine ⟨?_, fun source => status_of_mem done⟩
    obtain ⟨_, stylesheets, rfl⟩ := all_eq_ok_iff.mp done
    rw [map_web_accepted, List.filter_eq_self]
    simpa using stylesheets
  · rintro ⟨web, member, other⟩
    have some : rejected disk sniff? policy root (webPaths requested) ≠ [] := fun none =>
      other (rejected_eq_nil_iff.mp none web member)
    rw [all_eq, if_neg (by simpa using asked), if_neg (by simpa using some), rejected_eq]
  · intro web member modified directory
    rw [refusals_all, mem_rejected_iff]
    exact ⟨member, by rw [examine, directory]⟩
  · intro others web inRequest inOthers reason
    rw [refusals_all, refusals_all, mem_rejected_iff, mem_rejected_iff]
    simp only [inRequest, inOthers]

/-- A directory `w` with the files `a.css` and `u.css` and a directory `d.css`. -/
def mixedDisk : Disk :=
  let one := (Disk.bare [] 0).putFile 0 [['w'], ['a', '.', 'c', 's', 's']] (Utf8.encode ['a', '{', '}']) 1
  let two := one.putFile 0 [['w'], ['u', '.', 'c', 's', 's']] [] 2
  two.putDirectories 0 [['w'], ['d', '.', 'c', 's', 's']]

/-- The file `u.css` cannot be opened. -/
def mixedSniff? (path : Text) : Option Media :=
  if path = ['w', '/', 'u', '.', 'c', 's', 's'] then none else Media.sniff? mixedDisk path

/-- Some paths twice, in different spellings, and a file that is not there. -/
def mixedPaths : List Text :=
  [['a', '.', 'c', 's', 's'], ['x', '.', 'c', 's', 's'], ['\\', 'a', '.', 'c', 's', 's'],
    ['d', '.', 'c', 's', 's', '/'], ['/', '/', 'x', '.', 'c', 's', 's'], ['u', '.', 'c', 's', 's']]

theorem all_judged_mixed :
    mixedPaths ≠ [] ∧
      all mixedDisk mixedSniff? {} ['w'] mixedPaths = .error (.rejectedSources
        [⟨['/', 'x', '.', 'c', 's', 's'], .notFound⟩, ⟨['/', 'd', '.', 'c', 's', 's'], .invalid⟩,
          ⟨['/', 'u', '.', 'c', 's', 's'], .notFound⟩]) := by
  have some : mixedPaths ≠ [] := by decide
  have refused := (all_judged mixedDisk mixedSniff? {} ['w'] some).2.2.2.1
    ⟨['/', 'x', '.', 'c', 's', 's'], by decide, by decide⟩
  exact ⟨some, refused.trans (by rfl)⟩

end Stylepress.Source
