import Stylepress.Proofs.Bundle.Provenance

/-!
What the text at hand and the flag of a bundle say about the disk. A text that is not flagged as made
anew is the one that the output holds, as long as nobody else changes the output (`output_holds`). The
flag itself is only set, never taken back when `process` reads the output again; so a flagged text may
also be one that was read, and this happens exactly if the output was later than the sources at first
and held a text of some level that is not theirs (`flag_truthful_iff`).
-/
namespace Stylepress.Bundle
open Css (Level minify)
open Css.Token (levelOf?)

/-! ### What a call leaves -/

/-- The bundle with a text that was read from its output. -/
def holding (bundle : Bundle) (css : Text) : Bundle := { bundle with css, level := levelOf? css }

/-- A fresh output that is a text is read. -/
theorem refresh_of_fresh {disk : Disk} {bundle : Bundle} {css : Text}
    (isFresh : Staleness.isFresh bundle.target.modified (Source.newest? bundle.sources) = true)
    (read : disk.readText bundle.target.path = .ok css) : refresh disk bundle = .ok (bundle.holding css) := by
  simp [refresh, isFresh, Target.load, read, holding]

/-- What a call of `process` leaves of a bundle: the bundle as it was, with a text read from a fresh
    output, or with a text made from the combined sources. A text that was read stays if it has the level
    asked for, or if the sources cannot be read. -/
theorem process_state (disk : Disk) (level : Level) (force : Bool) (bundle : Bundle) :
    (bundle.process disk level force).2 = bundle ∨
    (∃ css, Staleness.isFresh bundle.target.modified (Source.newest? bundle.sources) = true ∧
      disk.readText bundle.target.path = .ok css ∧
      ((∃ error, combine disk bundle = .error error) ∨ levelOf? css = some level) ∧
      (bundle.process disk level force).2 = bundle.holding css) ∨
    ∃ raw, combine disk bundle = .ok raw ∧ (bundle.process disk level force).2 = bundle.made raw level := by
  rcases process_cases disk level force bundle with ⟨error, _, outcome⟩ | ⟨fresh, refreshed, outcome⟩
  · exact .inl (by rw [outcome])
  · rcases outcome with ⟨decided, outcome⟩ | ⟨_, ⟨error, failed, outcome⟩ | ⟨raw, combined, outcome⟩⟩
    · have known : fresh.level = some level := (decision_eq_reuse_iff.mp decided).2.2
      have same : { fresh with level := some level } = fresh := by rw [← known]
      rw [outcome, same]
      rcases refresh_cases refreshed with rfl | ⟨css, isFresh, read, rfl⟩
      · exact .inl rfl
      · exact .inr (.inl ⟨css, isFresh, read, .inr known, rfl⟩)
    · rw [outcome]
      rcases refresh_cases refreshed with rfl | ⟨css, isFresh, read, rfl⟩
      · exact .inl rfl
      · exact .inr (.inl ⟨css, isFresh, read, .inl ⟨error, failed⟩, rfl⟩)
    · rw [outcome]
      rcases refresh_cases refreshed with rfl | ⟨css, _, _, rfl⟩
      · exact .inr (.inr ⟨raw, combined, rfl⟩)
      · exact .inr (.inr ⟨raw, combined, rfl⟩)

/-- A file that was saved holds the text from then on. -/
theorem status_of_save {disk changed : Disk} {path css : Text} {now modified : Time}
    (done : Target.save disk path css now = .ok (changed, modified)) :
    changed.status path = .ok (.file (Utf8.encode css) now) ∧ modified = now := by
  have written := write_of_save done
  obtain ⟨location, found, _⟩ := Disk.write_eq_ok_iff.mp written
  rw [save_of_writable found css now] at done
  exact ⟨Disk.status_of_write written, (Prod.mk.inj (Except.ok.inj done)).2.symm⟩

/-! ### The text on disk -/

/-- A path names the same file on two disks, or a file on neither of them. -/
def SameFile (path : Text) (disk other : Disk) : Prop :=
  ∀ content time, disk.status path = .ok (.file content time) ↔ other.status path = .ok (.file content time)

/-- Nobody but the bundle changes its output: all edits among the events keep the file there. -/
def Undisturbed : List Event → Bundle × Disk → Prop
  | [], _ => True
  | .call made :: rest, state => Undisturbed rest (made.apply state)
  | .edit disk :: rest, state =>
    SameFile state.1.target.path state.2 disk ∧ Undisturbed rest (state.1, disk)

/-- The bundle knows the time of its output, and a text that is not flagged is the one that the output
    holds. -/
structure Agrees (state : Bundle × Disk) : Prop where
  timed : ∀ content time, state.2.status state.1.target.path = .ok (.file content time) →
    state.1.target.modified = some time
  held : state.1.css ≠ [] → state.1.updated = false →
    ∃ time, state.2.status state.1.target.path = .ok (.file (Utf8.encode state.1.css) time)

section
variable {bundle : Bundle} {disk : Disk}

theorem Agrees.process (agrees : Agrees (bundle, disk)) (level : Level) (force : Bool) :
    Agrees ((bundle.process disk level force).2, disk) := by
  rcases process_state disk level force bundle with same | ⟨css, _, read, _, same⟩ | ⟨raw, _, same⟩
  · rwa [same]
  · rw [same]
    exact ⟨agrees.timed, fun _ _ => Disk.readText_eq_ok_iff.mp read⟩
  · rw [same]
    refine ⟨agrees.timed, ?_⟩
    intro _ unflagged
    cases unflagged

theorem Agrees.save (agrees : Agrees (bundle, disk)) (now : Time) : Agrees (bundle.save disk now).2 := by
  rcases save_cases disk now bundle with ⟨result, _, outcome⟩ |
    ⟨_, ⟨error, _, outcome⟩ | ⟨changed, modified, done, outcome⟩⟩
  · rwa [outcome]
  · rwa [outcome]
  · rw [outcome]
    obtain ⟨written, rfl⟩ := status_of_save done
    refine ⟨?_, fun _ _ => ⟨modified, written⟩⟩
    intro content time found
    have same := written.symm.trans found
    simp only [Except.ok.injEq, Entry.file.injEq] at same
    exact congrArg some same.2

theorem Agrees.edit (agrees : Agrees (bundle, disk)) {other : Disk}
    (same : SameFile bundle.target.path disk other) : Agrees (bundle, other) := by
  constructor
  · intro content time found
    exact agrees.timed content time ((same content time).mpr found)
  · intro filled unflagged
    obtain ⟨time, found⟩ := agrees.held filled unflagged
    exact ⟨time, (same _ time).mp found⟩

theorem agrees_play {events : List Event} {state : Bundle × Disk} (agrees : Agrees state)
    (alone : Undisturbed events state) : Agrees (play events state) := by
  induction events generalizing state with
  | nil => exact agrees
  | cons event rest ih =>
    cases event with
    | edit other => exact ih (agrees.edit alone.1) alone.2
    | call call =>
      refine ih ?_ alone
      cases call with
      | process level force => exact agrees.process level force
      | save now => exact agrees.save now

theorem path_play (events : List Event) (state : Bundle × Disk) :
    (play events state).1.target.path = state.1.target.path := by
  induction events generalizing state with
  | nil => rfl
  | cons event rest ih =>
    refine (ih (event.apply state)).trans ?_
    cases event with
    | edit other => rfl
    | call call =>
      cases call with
      | process level force => exact (samePlaces_process state.2 level force state.1).path
      | save now => exact (samePlaces_save state.2 now state.1).path

/-- An opened bundle knows the time of its output and has no text yet. -/
theorem Opened.agrees (opened : Opened disk bundle) : Agrees (bundle, disk) := by
  constructor
  · intro content time found
    rw [opened.modified, Disk.modified?, found]
    rfl
  · intro filled
    exact absurd opened.noText filled

/-- Saving a text leaves it in the output, with the flag taken back and the time known. -/
theorem Agrees.of_save {state : Bundle × Disk} (agrees : Agrees state) {now : Time} {markup : String}
    {after : Bundle} {changed : Disk} (done : state.1.save state.2 now = (.ok markup, after, changed))
    (filled : after.css ≠ []) :
    after.updated = false ∧ ∃ time, after.target.modified = some time ∧
      changed.status state.1.target.path = .ok (.file (Utf8.encode after.css) time) := by
  have path : after.target.path = state.1.target.path := by
    have same := (samePlaces_save state.2 now state.1).path
    rwa [done] at same
  have next : Agrees (after, changed) := by
    have same := agrees.save now
    rwa [done] at same
  have unflagged : after.updated = false := by
    rcases save_cases state.2 now state.1 with ⟨result, reason, outcome⟩ |
      ⟨_, ⟨error, _, outcome⟩ | ⟨saved, modified, _, outcome⟩⟩
    · obtain ⟨_, same⟩ := Prod.mk.inj (outcome.symm.trans done)
      obtain ⟨rfl, _⟩ := Prod.mk.inj same
      exact reason.resolve_left filled
    · simp [outcome] at done
    · obtain ⟨_, same⟩ := Prod.mk.inj (outcome.symm.trans done)
      obtain ⟨rfl, _⟩ := Prod.mk.inj same
      rfl
  obtain ⟨time, found⟩ := next.held filled unflagged
  refine ⟨unflagged, time, next.timed _ time found, ?_⟩
  rwa [path] at found

end

/-! ### The flag -/

/-- A flagged text was made from the combined sources at the level that the bundle remembers. -/
def FlagTruthful (bundle : Bundle) : Prop := bundle.updated = true → bundle.IsMade

/-- The output is later than the sources and has the token of a level, but it is not what pressing the
    sources at that level gives. -/
def HoldsForeign (disk : Disk) (bundle : Bundle) : Prop :=
  Staleness.isFresh bundle.target.modified (Source.newest? bundle.sources) = true ∧
    ∃ css raw level, disk.readText bundle.target.path = .ok css ∧ levelOf? css = some level ∧
      Source.combine disk bundle.sources = .ok raw ∧ css ≠ minify raw level

/-- What calls of a bundle keep, with `disk` and `bundle` as they were at first. -/
structure Kept (disk : Disk) (bundle : Bundle) (state : Bundle × Disk) : Prop where
  sources : state.1.sources = bundle.sources
  /-- Before the sources are read nothing is flagged, and so nothing is written. -/
  uncombined : state.1.combined = none →
    state.2 = disk ∧ state.1.target = bundle.target ∧ state.1.updated = false
  combined : ∀ raw, state.1.combined = some raw → Source.combine disk bundle.sources = .ok raw
  /-- A fresh output holds what it held at first, or a text that was made from the sources. -/
  output : Staleness.isFresh state.1.target.modified (Source.newest? bundle.sources) = true →
    ∀ css, state.2.readText state.1.target.path = .ok css →
      (Staleness.isFresh bundle.target.modified (Source.newest? bundle.sources) = true ∧
        disk.readText bundle.target.path = .ok css) ∨
      ∃ raw level, Source.combine disk bundle.sources = .ok raw ∧ css = minify raw level
  /-- A flagged text that was not made is the one of a fresh output. -/
  flagged : state.1.updated = true → state.1.IsMade ∨
    (Staleness.isFresh state.1.target.modified (Source.newest? bundle.sources) = true ∧
      state.2.readText state.1.target.path = .ok state.1.css ∧
      ∃ level, levelOf? state.1.css = some level ∧ state.1.level = some level)

section
variable {disk : Disk} {bundle : Bundle}

/-- The sources of a flagged text were read. -/
theorem Kept.exists_combined {state : Bundle × Disk} (kept : Kept disk bundle state)
    (flag : state.1.updated = true) : ∃ raw, state.1.combined = some raw := by
  cases cached : state.1.combined with
  | some raw => exact ⟨raw, rfl⟩
  | none =>
    obtain ⟨_, _, unflagged⟩ := kept.uncombined cached
    rw [flag] at unflagged
    cases unflagged

theorem Kept.process {after : Bundle} {changed : Disk} (kept : Kept disk bundle (after, changed))
    (level : Level) (force : Bool) : Kept disk bundle ((after.process changed level force).2, changed) := by
  rcases process_state changed level force after with
    same | ⟨css, isFresh, read, reason, same⟩ | ⟨raw, combined, same⟩
  · rwa [same]
  · rw [same]
    refine ⟨kept.sources, kept.uncombined, kept.combined, kept.output, ?_⟩
    intro flag
    -- The sources are not read again, so they cannot have failed now.
    have known : levelOf? css = some level := by
      refine reason.resolve_left ?_
      rintro ⟨error, failed⟩
      obtain ⟨raw, cached⟩ := kept.exists_combined flag
      simp [combine, show after.combined = some raw from cached] at failed
    refine .inr ⟨?_, read, level, known, known⟩
    rwa [show after.sources = bundle.sources from kept.sources] at isFresh
  · rw [same]
    refine ⟨kept.sources, ?_, ?_, kept.output, fun _ => .inl (isMade_made after raw level)⟩
    · intro none
      cases none
    · intro other cached
      obtain rfl : raw = other := Option.some.inj cached
      rw [combine] at combined
      cases before : after.combined with
      | some earlier =>
        simp only [before] at combined
        obtain rfl := Except.ok.inj combined
        exact kept.combined earlier before
      | none =>
        simp only [before] at combined
        obtain ⟨unwritten, _, _⟩ := kept.uncombined before
        rwa [show changed = disk from unwritten,
          show after.sources = bundle.sources from kept.sources] at combined

theorem Kept.save {after : Bundle} {changed : Disk} (kept : Kept disk bundle (after, changed)) (now : Time) :
    Kept disk bundle (after.save changed now).2 := by
  rcases save_cases changed now after with ⟨result, _, outcome⟩ |
    ⟨⟨_, flag⟩, ⟨error, _, outcome⟩ | ⟨written, modified, done, outcome⟩⟩
  · rwa [outcome]
  · rwa [outcome]
  · rw [outcome]
    have read : written.readText after.target.path = .ok after.css :=
      Disk.readText_eq_ok_iff.mpr ⟨now, (status_of_save done).1⟩
    refine ⟨kept.sources, ?_, kept.combined, ?_, fun unflagged => by cases unflagged⟩
    · intro uncombined
      obtain ⟨raw, cached⟩ := kept.exists_combined flag
      cases uncombined.symm.trans cached
    · intro _ css found
      obtain rfl : after.css = css := Except.ok.inj (read.symm.trans found)
      -- What is written was made just now, or it is what the output held before.
      rcases kept.flagged flag with ⟨raw, level, cached, text, _⟩ | ⟨isFresh, held, _⟩
      · exact .inr ⟨raw, level, kept.combined raw cached, text⟩
      · exact kept.output isFresh _ held

theorem Opened.kept (opened : Opened disk bundle) (unflagged : bundle.updated = false) :
    Kept disk bundle (bundle, disk) := by
  refine ⟨rfl, fun _ => ⟨rfl, rfl, unflagged⟩, ?_, fun isFresh css read => .inl ⟨isFresh, read⟩, ?_⟩
  · intro raw cached
    rw [show bundle.combined = none from opened.uncombined] at cached
    cases cached
  · intro flag
    rw [show bundle.updated = false from unflagged] at flag
    cases flag

theorem kept_run (opened : Opened disk bundle) (unflagged : bundle.updated = false) (calls : List Call) :
    Kept disk bundle (run calls (bundle, disk)) := by
  refine run_invariant ?_ (opened.kept unflagged) calls
  intro call after changed kept
  cases call with
  | process level force => exact kept.process level force
  | save now => exact kept.save now

/-- A text that pressing gives has no token but that of its level. -/
theorem level_of_minify {raw : Text} {made level : Level} (token : levelOf? (minify raw made) = some level) :
    made = level := by
  by_cases blank : ∀ c ∈ raw, Text.isBlank c = true
  · rw [Css.minify_of_blank blank] at token
    cases token
  · have filled : ∃ c ∈ raw, Text.isBlank c = false := by simpa using blank
    have signed := Css.levelOf?_minify filled made (List.forall_mem_nil _)
    rw [List.append_nil, token] at signed
    exact (Option.some.inj signed).symm

/-- The flag tells the truth after calls on an output that is not foreign. -/
theorem Kept.flagTruthful {state : Bundle × Disk} (kept : Kept disk bundle state)
    (own : ¬ HoldsForeign disk bundle) : FlagTruthful state.1 := by
  intro flag
  rcases kept.flagged flag with made | ⟨isFresh, read, level, token, known⟩
  · exact made
  · obtain ⟨raw, cached⟩ := kept.exists_combined flag
    have combined := kept.combined raw cached
    refine ⟨raw, level, cached, ?_, known⟩
    rcases kept.output isFresh _ read with ⟨wasFresh, first⟩ | ⟨other, made, combinedToo, text⟩
    · by_contra differs
      exact own ⟨wasFresh, _, raw, level, first, token, combined, differs⟩
    · obtain rfl : raw = other := Except.ok.inj (combined.symm.trans combinedToo)
      rw [text] at token
      rw [text, level_of_minify token]

/-- Two calls leave a foreign text flagged: one that makes another text, and one that reads the output
    again. -/
theorem exists_untruthful (opened : Opened disk bundle) (foreign : HoldsForeign disk bundle) :
    ∃ calls, ¬ FlagTruthful (run calls (bundle, disk)).1 := by
  obtain ⟨isFresh, css, raw, level, read, token, combined, differs⟩ := foreign
  refine ⟨[.process level true, .process level false], fun truthful => ?_⟩
  have filled : css.isEmpty = false := by
    cases css with
    | nil => cases token
    | cons c rest => rfl
  have first : (bundle.process disk level true).2 = bundle.made raw level := by
    have refreshed := refresh_of_fresh isFresh read
    have uncombined : (bundle.holding css).combined = none := opened.uncombined
    have again : combine disk (bundle.holding css) = .ok raw := by
      rw [combine, uncombined]
      exact combined
    simp only [process, refreshed, Staleness.decision, if_true, again]
    rfl
  have second : ((bundle.made raw level).process disk level false).2 =
      { bundle.made raw level with css } := by
    have refreshed : refresh disk (bundle.made raw level) = .ok ((bundle.made raw level).holding css) :=
      refresh_of_fresh isFresh read
    simp only [process, refreshed, Staleness.decision, holding, token, filled, Bool.false_eq_true, if_false,
      if_true]
    rfl
  have after : (run [.process level true, .process level false] (bundle, disk)).1 =
      { bundle.made raw level with css } := by
    show ((bundle.process disk level true).2.process disk level false).2 = _
    rw [first, second]
  rw [after] at truthful
  obtain ⟨other, made, cached, text, known⟩ := truthful rfl
  obtain rfl : raw = other := Option.some.inj cached
  obtain rfl : level = made := Option.some.inj known
  exact differs text

end

/-! ### A small disk -/

/-- The output of the small bundle with the time of someone else's text. -/
def editedTarget : Target := { otherTarget with modified := some 7 }

theorem openOn_edited :
    openOn editedDisk (smallRequest otherTarget.web) = .ok (smallBundle editedTarget) := rfl

/-- The small bundle and the disk once the output was made and saved. -/
def savedState : Bundle × Disk :=
  play [.call (.process .low false), .call (.save 5)] (smallBundle otherTarget, smallDisk)

/-- The disk after that, with the source changed by someone else. -/
def resourcedDisk : Disk :=
  savedState.2.set [['p', 'u', 'b', 'l', 'i', 'c'], ['c', 's', 's'], ['a', '.', 'c', 's', 's']]
    (some (.file [] 9))

def sharedEvents : List Event := [.call (.process .low false), .call (.save 5), .edit resourcedDisk]

theorem undisturbed_shared : Undisturbed sharedEvents (smallBundle otherTarget, smallDisk) := by
  have path : savedState.1.target.path = otherTarget.path := path_play _ (smallBundle otherTarget, smallDisk)
  have same : resourcedDisk.status otherTarget.path = savedState.2.status otherTarget.path := by
    decide +kernel
  refine ⟨?_, trivial⟩
  change SameFile savedState.1.target.path savedState.2 resourcedDisk
  intro content time
  rw [path, same]

/-! ### Text, flag and disk -/

/-- Let an opened bundle be called in any way while others change whatever they like but its output.
    Then a text at hand that is not flagged is exactly what the output holds. Every call of `save` that
    succeeds with a text at hand leaves that text in the output, takes the flag back, and knows the time
    of the output. -/
theorem output_holds {disk : Disk} {request : BundleRequest} {bundle : Bundle}
    (opened : openOn disk request = .ok bundle) {events : List Event}
    (alone : Undisturbed events (bundle, disk)) :
    ((play events (bundle, disk)).1.css ≠ [] → (play events (bundle, disk)).1.updated = false →
      (play events (bundle, disk)).2.readBytes bundle.target.path =
        .ok (Utf8.encode (play events (bundle, disk)).1.css)) ∧
    ∀ now markup after changed,
      (play events (bundle, disk)).1.save (play events (bundle, disk)).2 now = (.ok markup, after, changed) →
      after.css ≠ [] →
      changed.readBytes bundle.target.path = .ok (Utf8.encode after.css) ∧ after.updated = false ∧
        ∃ time, after.target.modified = some time ∧ changed.modified? bundle.target.path = some time := by
  have agrees := agrees_play (opened_of_openOn opened).agrees alone
  have path : (play events (bundle, disk)).1.target.path = bundle.target.path := path_play events (bundle, disk)
  constructor
  · intro filled unflagged
    obtain ⟨time, found⟩ := agrees.held filled unflagged
    rw [path] at found
    rw [Disk.readBytes, found]
  · intro now markup after changed done filled
    obtain ⟨unflagged, time, known, found⟩ := agrees.of_save done filled
    rw [path] at found
    refine ⟨?_, unflagged, time, known, ?_⟩
    · rw [Disk.readBytes, found]
    · rw [Disk.modified?, found]
      rfl

/-- The small bundle is saved and someone else changes its source: the output still holds its text, and
    saving it again changes nothing. -/
theorem output_holds_shared :
    openOn smallDisk (smallRequest otherTarget.web) = .ok (smallBundle otherTarget) ∧
      Undisturbed sharedEvents (smallBundle otherTarget, smallDisk) ∧
      let state := play sharedEvents (smallBundle otherTarget, smallDisk)
      state.2.readBytes otherTarget.path = .ok (Utf8.encode state.1.css) ∧
        state.1.save state.2 8 = (.ok (state.1.markup 8), state) ∧
        ∃ time, state.1.target.modified = some time ∧ state.2.modified? otherTarget.path = some time := by
  have filled : (play sharedEvents (smallBundle otherTarget, smallDisk)).1.css ≠ [] := by decide +kernel
  have unflagged : (play sharedEvents (smallBundle otherTarget, smallDisk)).1.updated = false := by
    decide +kernel
  have saved : (play sharedEvents (smallBundle otherTarget, smallDisk)).1.save
      (play sharedEvents (smallBundle otherTarget, smallDisk)).2 8 =
        (.ok ((play sharedEvents (smallBundle otherTarget, smallDisk)).1.markup 8),
          play sharedEvents (smallBundle otherTarget, smallDisk)) := by
    simp [save, filled, unflagged]
  obtain ⟨held, afterSaving⟩ := output_holds openOn_other undisturbed_shared
  exact ⟨openOn_other, undisturbed_shared, held filled unflagged, saved,
    (afterSaving 8 _ _ _ saved filled).2.2⟩

/-- After any calls of an opened bundle a flagged text was made from the sources, or is the one that the
    output holds, so that saving it changes no byte. All flagged texts were made unless the output was
    later than the sources at first, with the token of a level but another text than pressing the
    sources at that level gives; then some calls leave that text flagged. -/
theorem flag_truthful_iff {disk : Disk} {request : BundleRequest} {bundle : Bundle}
    (opened : openOn disk request = .ok bundle) :
    (∀ calls, (run calls (bundle, disk)).1.updated = true →
      (run calls (bundle, disk)).1.IsMade ∨
        (run calls (bundle, disk)).2.readBytes bundle.target.path =
          .ok (Utf8.encode (run calls (bundle, disk)).1.css)) ∧
    ((∀ calls, FlagTruthful (run calls (bundle, disk)).1) ↔ ¬ HoldsForeign disk bundle) := by
  have checked := opened_of_openOn opened
  have kept := kept_run checked (updated_of_openOn opened)
  refine ⟨?_, ?_, ?_⟩
  · intro calls flag
    rcases (kept calls).flagged flag with made | ⟨_, read, _⟩
    · exact .inl made
    · obtain ⟨time, found⟩ := Disk.readText_eq_ok_iff.mp read
      rw [(resaved_run bundle disk calls).1.path] at found
      exact .inr (by rw [Disk.readBytes, found])
  · intro truthful foreign
    obtain ⟨calls, untruthful⟩ := exists_untruthful checked foreign
    exact untruthful (truthful calls)
  · intro own calls
    exact (kept calls).flagTruthful own

theorem flag_truthful_other :
    openOn smallDisk (smallRequest otherTarget.web) = .ok (smallBundle otherTarget) ∧
      ∀ calls, FlagTruthful (run calls (smallBundle otherTarget, smallDisk)).1 := by
  refine ⟨openOn_other, (flag_truthful_iff openOn_other).2.mpr ?_⟩
  rintro ⟨isFresh, _⟩
  cases isFresh

/-- A text of someone else's is flagged as made once `process` makes another one and then reads the
    output again. -/
theorem not_flagTruthful_edited :
    openOn editedDisk (smallRequest otherTarget.web) = .ok (smallBundle editedTarget) ∧
      (run [.process .low false, .process .high false] (smallBundle editedTarget, editedDisk)).1.css =
        'x' :: Css.Token.ofLevel .high ∧
      ¬ FlagTruthful
        (run [.process .low false, .process .high false] (smallBundle editedTarget, editedDisk)).1 := by
  have text : (run [.process .low false, .process .high false]
      (smallBundle editedTarget, editedDisk)).1.css = 'x' :: Css.Token.ofLevel .high := by decide +kernel
  have flag : (run [.process .low false, .process .high false]
      (smallBundle editedTarget, editedDisk)).1.updated = true := by decide +kernel
  have cached : (run [.process .low false, .process .high false]
      (smallBundle editedTarget, editedDisk)).1.combined =
        some ['a', ' ', '{', ' ', 'b', ':', ' ', 'c', ' ', '}', '\n', '\n'] := by decide +kernel
  refine ⟨openOn_edited, text, fun truthful => ?_⟩
  obtain ⟨raw, level, combined, made, _⟩ := truthful flag
  obtain rfl := Option.some.inj (combined.symm.trans cached)
  rw [text] at made
  have differs : ∀ level, minify ['a', ' ', '{', ' ', 'b', ':', ' ', 'c', ' ', '}', '\n', '\n'] level ≠
      'x' :: Css.Token.ofLevel .high := by
    intro level
    cases level <;> decide +kernel
  exact differs level made.symm

end Stylepress.Bundle
