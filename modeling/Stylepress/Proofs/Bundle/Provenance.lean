import Stylepress.Proofs.Bundle.Overwriting

/-!
Where the text of a bundle comes from. Between its calls others may change the disk in any way. Still
the text at hand is one that the bundle made from its combined sources, or one that a call of `process`
read from an output later than every source (`Traced`), the level that the bundle remembers is the one
that the text's token tells, and the combined sources stay what they were when they were read
(`text_traced`).
-/
namespace Stylepress.Bundle
open Css (Level minify)
open Css.Token (levelOf?)

/-! ### Events -/

/-- What happens to a bundle and the disk: a call, or any change that others make to the disk. -/
inductive Event where
  | call (made : Call)
  | edit (disk : Disk)

def Event.apply : Event → Bundle × Disk → Bundle × Disk
  | .call made, state => made.apply state
  | .edit disk, (bundle, _) => (bundle, disk)

/-- A bundle and the disk after events one after the other. -/
def play (events : List Event) (state : Bundle × Disk) : Bundle × Disk :=
  events.foldl (fun state event => event.apply state) state

theorem play_append (events more : List Event) (state : Bundle × Disk) :
    play (events ++ more) state = play more (play events state) := by
  simp [play]

theorem play_concat (events : List Event) (event : Event) (state : Bundle × Disk) :
    play (events ++ [event]) state = event.apply (play events state) := by
  simp [play]

/-- A call of `process` reads `css` from the output, which is later than every source. -/
structure Reads (state : Bundle × Disk) (css : Text) : Prop where
  text : state.2.readText state.1.target.path = .ok css
  later : ∃ time, state.1.target.modified = some time ∧
    ∀ source ∈ state.1.sources, source.modified < time

/-- One of the events is a call of `process` that reads `css`. -/
def HasRead (start : Bundle × Disk) (events : List Event) (css : Text) : Prop :=
  ∃ earlier level force, earlier ++ [.call (.process level force)] <+: events ∧
    Reads (play earlier start) css

theorem HasRead.more {start : Bundle × Disk} {events : List Event} {css : Text}
    (read : HasRead start events css) (event : Event) : HasRead start (events ++ [event]) css := by
  obtain ⟨earlier, level, force, before, reads⟩ := read
  exact ⟨earlier, level, force, before.trans (List.prefix_append ..), reads⟩

/-- A fresh output is later than every source. -/
theorem later_of_isFresh {modified : Option Time} {sources : List Source}
    (fresh : Staleness.isFresh modified (Source.newest? sources) = true) :
    ∃ time, modified = some time ∧ ∀ source ∈ sources, source.modified < time := by
  cases modified with
  | none => simp [Staleness.isFresh] at fresh
  | some time =>
    refine ⟨time, rfl, ?_⟩
    intro source member
    have listed : source.modified ∈ sources.map (·.modified) := List.mem_map_of_mem member
    cases newest : Source.newest? sources with
    | none =>
      rw [Source.newest?, List.max?_eq_none_iff] at newest
      simp [newest] at listed
    | some last =>
      have bounded : source.modified ≤ last := (List.max?_le_iff newest).mp (Int.le_refl last) _ listed
      have behind : last < time := by simpa [newest, Staleness.isFresh] using fresh
      exact Int.lt_of_le_of_lt bounded behind

theorem decision_eq_reuse_iff {level : Level} {force : Bool} {previous : Text} {made : Option Level} :
    Staleness.decision level force previous made = .reuse ↔
      force = false ∧ previous ≠ [] ∧ made = some level := by
  cases force with
  | true => simp [Staleness.decision]
  | false =>
    cases previous with
    | nil => simp [Staleness.decision]
    | cons c previous =>
      cases made with
      | none => simp [Staleness.decision]
      | some last =>
        by_cases same : last = level
        · simp [Staleness.decision, same]
        · simp [Staleness.decision, same]

/-! ### What events keep -/

/-- The text at hand was made from the combined sources at the level that the bundle remembers. -/
def IsMade (bundle : Bundle) : Prop :=
  ∃ raw level, bundle.combined = some raw ∧ bundle.css = minify raw level ∧ bundle.level = some level

/-- There is no text at hand, or it was made from the combined sources, or it was read from the output
    and its level from its token. -/
def Traced (start : Bundle × Disk) (events : List Event) (bundle : Bundle) : Prop :=
  bundle.css = [] ∨ bundle.IsMade ∨
    (bundle.level = levelOf? bundle.css ∧ HasRead start events bundle.css)

section
variable {start : Bundle × Disk} {events : List Event} {bundle : Bundle}

theorem isMade_made (bundle : Bundle) (raw : Text) (level : Level) : (bundle.made raw level).IsMade :=
  ⟨raw, level, rfl, rfl, rfl⟩

theorem Traced.more (traced : Traced start events bundle) (event : Event) :
    Traced start (events ++ [event]) bundle := by
  rcases traced with none | made | ⟨known, read⟩
  · exact .inl none
  · exact .inr (.inl made)
  · exact .inr (.inr ⟨known, read.more event⟩)

/-- The remembered level of a text is the one that its token tells. -/
theorem Traced.level_eq (traced : Traced start events bundle) :
    bundle.css = [] ∨ bundle.level = levelOf? bundle.css := by
  rcases traced with none | ⟨raw, level, _, text, known⟩ | ⟨known, _⟩
  · exact .inl none
  · by_cases blank : ∀ c ∈ raw, Text.isBlank c = true
    · exact .inl (by rw [text, Css.minify_of_blank blank])
    · have filled : ∃ c ∈ raw, Text.isBlank c = false := by simpa using blank
      have token := Css.levelOf?_minify filled level (List.forall_mem_nil _)
      rw [List.append_nil, ← text] at token
      exact .inr (by rw [known, token])
  · exact .inr known

/-- Refreshing a bundle leaves its text, or reads another one in the call that refreshes it. -/
theorem Traced.refresh {disk : Disk} (now : play events start = (bundle, disk)) {fresh : Bundle}
    (traced : Traced start events bundle) (done : refresh disk bundle = .ok fresh) (level : Level)
    (force : Bool) :
    Traced start (events ++ [.call (.process level force)]) fresh := by
  rcases refresh_cases done with rfl | ⟨css, isFresh, found, rfl⟩
  · exact traced.more _
  · refine .inr (.inr ⟨rfl, events, level, force, List.prefix_rfl, ?_⟩)
    rw [now]
    exact ⟨found, later_of_isFresh isFresh⟩

theorem Traced.process {disk : Disk} (now : play events start = (bundle, disk))
    (traced : Traced start events bundle) (level : Level) (force : Bool) :
    Traced start (events ++ [.call (.process level force)]) (bundle.process disk level force).2 := by
  rcases process_cases disk level force bundle with ⟨error, _, outcome⟩ | ⟨fresh, done, outcome⟩
  · rw [outcome]
    exact traced.more _
  · have refreshed : Traced start (events ++ [.call (.process level force)]) fresh :=
      traced.refresh now done level force
    rcases outcome with ⟨decided, outcome⟩ | ⟨_, ⟨error, _, outcome⟩ | ⟨css, _, outcome⟩⟩
    · -- A text is reused if it is known to have the level, so remembering the level changes nothing.
      have known : fresh.level = some level := (decision_eq_reuse_iff.mp decided).2.2
      have same : { fresh with level := some level } = fresh := by rw [← known]
      rwa [outcome, same]
    · rwa [outcome]
    · rw [outcome]
      exact .inr (.inl (isMade_made fresh css level))

theorem Traced.save (traced : Traced start events bundle) (disk : Disk) (time : Time) :
    Traced start events (bundle.save disk time).2.1 := by
  rcases save_cases disk time bundle with ⟨result, _, outcome⟩ |
    ⟨_, ⟨error, _, outcome⟩ | ⟨changed, modified, _, outcome⟩⟩
  · rwa [outcome]
  · rwa [outcome]
  · rw [outcome]
    exact traced

/-- The text at hand can be traced after any events. -/
theorem traced_play (noText : start.1.css = []) (events : List Event) :
    Traced start events (play events start).1 := by
  induction events using List.reverseRecOn with
  | nil => exact .inl noText
  | append_singleton events event ih =>
    cases now : play events start with
    | mk bundle disk =>
      rw [now] at ih
      rw [play_concat, now]
      cases event with
      | edit other => exact ih.more _
      | call call =>
        cases call with
        | process level force => exact ih.process now level force
        | save time => exact (ih.save disk time).more _

/-- Combined sources are not read again. -/
theorem combined_apply {raw : Text} (event : Event) {state : Bundle × Disk}
    (kept : state.1.combined = some raw) : (event.apply state).1.combined = some raw := by
  obtain ⟨bundle, disk⟩ := state
  cases event with
  | edit other => exact kept
  | call call =>
    cases call with
    | save time =>
      rw [Event.apply, Call.apply]
      rcases save_cases disk time bundle with ⟨result, _, outcome⟩ |
        ⟨_, ⟨error, _, outcome⟩ | ⟨changed, modified, _, outcome⟩⟩
      all_goals
        rw [outcome]
        exact kept
    | process level force =>
      rw [Event.apply, Call.apply]
      rcases process_cases disk level force bundle with ⟨error, _, outcome⟩ | ⟨fresh, done, outcome⟩
      · rw [outcome]
        exact kept
      · have still : fresh.combined = some raw := by
          rcases refresh_cases done with rfl | ⟨css, _, _, rfl⟩
          · exact kept
          · exact kept
        rcases outcome with ⟨_, outcome⟩ | ⟨_, ⟨error, _, outcome⟩ | ⟨css, combined, outcome⟩⟩
        · rw [outcome]
          exact still
        · rw [outcome]
          exact still
        · rw [outcome]
          simp only [Bundle.combine, still] at combined
          exact congrArg some (Except.ok.inj combined).symm

theorem combined_play {raw : Text} {state : Bundle × Disk} (kept : state.1.combined = some raw)
    (events : List Event) : (play events state).1.combined = some raw := by
  induction events generalizing state with
  | nil => exact kept
  | cons event events ih => exact ih (combined_apply event kept)

/-- A call of `process` that succeeds leaves a text of its level, made from the combined sources or,
    unless it was forced, read from the output. -/
theorem Traced.of_process {disk : Disk} (now : play events start = (bundle, disk))
    (traced : Traced start events bundle) {level : Level} {force : Bool} {after : Bundle}
    (done : bundle.process disk level force = (.ok (), after)) :
    after.level = some level ∧
      ((∃ raw, after.combined = some raw ∧ after.css = minify raw level) ∨
        force = false ∧ after.css ≠ [] ∧ levelOf? after.css = some level ∧
          HasRead start (events ++ [.call (.process level force)]) after.css) := by
  rcases process_cases disk level force bundle with ⟨error, _, outcome⟩ | ⟨fresh, refreshed, outcome⟩
  · rw [outcome] at done
    cases done
  · rcases outcome with ⟨decided, outcome⟩ | ⟨_, ⟨error, _, outcome⟩ | ⟨css, _, outcome⟩⟩
    · rw [outcome] at done
      obtain rfl := (Prod.mk.inj done).2
      obtain ⟨unforced, filled, known⟩ := decision_eq_reuse_iff.mp decided
      refine ⟨rfl, ?_⟩
      rcases traced.refresh now refreshed level force with
        none | ⟨raw, made, combined, text, remembered⟩ | ⟨token, read⟩
      · exact absurd none filled
      · obtain rfl : made = level := Option.some.inj (remembered.symm.trans known)
        exact .inl ⟨raw, combined, text⟩
      · exact .inr ⟨unforced, filled, token.symm.trans known, read⟩
    · rw [outcome] at done
      cases done
    · rw [outcome] at done
      obtain rfl := (Prod.mk.inj done).2
      exact ⟨rfl, .inl ⟨css, rfl, rfl⟩⟩

end

/-! ### A small disk -/

/-- The small disk with a text of someone else's under the output's path. -/
def editedDisk : Disk :=
  smallDisk.set [['p', 'u', 'b', 'l', 'i', 'c'], ['c', 's', 's'], ['b', '.', 'c', 's', 's']]
    (some (.file (Utf8.encode ('x' :: Css.Token.ofLevel .high)) 7))

/-- The output is made and saved, and then someone else writes it. -/
def smallEvents : List Event := [.call (.process .low false), .call (.save 5), .edit editedDisk]

/-- The small bundle after these events, asked for the level of the text that someone else wrote. -/
def smallAfter : Except BundleError Unit × Bundle :=
  let state := play smallEvents (smallBundle otherTarget, smallDisk)
  state.1.process state.2 .high false

theorem smallAfter_ok : smallAfter.1 = .ok () := by decide +kernel

theorem smallAfter_css : smallAfter.2.css = 'x' :: Css.Token.ofLevel .high := by decide +kernel

/-! ### The text of a bundle -/

/-- Whatever happens to an opened bundle and the disk, a text at hand has the level that the bundle
    remembers, and combined sources stay as they are. A call of `process` that succeeds remembers its
    level and leaves what pressing the combined sources at that level gives; only a call that is not
    forced may instead leave a text of that level that the bundle has read from its output at a time when
    the output was later than every source. -/
theorem text_traced {disk : Disk} {request : BundleRequest} {bundle : Bundle}
    (opened : openOn disk request = .ok bundle) (events : List Event) :
    ((play events (bundle, disk)).1.css = [] ∨
      (play events (bundle, disk)).1.level = levelOf? (play events (bundle, disk)).1.css) ∧
    (∀ raw, (play events (bundle, disk)).1.combined = some raw →
      ∀ more, (play (events ++ more) (bundle, disk)).1.combined = some raw) ∧
    ∀ level force after,
      (play events (bundle, disk)).1.process (play events (bundle, disk)).2 level force = (.ok (), after) →
      after.level = some level ∧
        ((∃ raw, after.combined = some raw ∧ after.css = minify raw level) ∨
          force = false ∧ after.css ≠ [] ∧ levelOf? after.css = some level ∧
            HasRead (bundle, disk) (events ++ [.call (.process level force)]) after.css) := by
  have traced := traced_play (show (bundle, disk).1.css = [] from (opened_of_openOn opened).noText)
    events
  refine ⟨traced.level_eq, ?_, ?_⟩
  · intro raw kept more
    rw [play_append]
    exact combined_play kept more
  · intro level force after done
    exact traced.of_process rfl done

theorem text_traced_edited :
    openOn smallDisk (smallRequest otherTarget.web) = .ok (smallBundle otherTarget) ∧
      smallAfter = (.ok (), smallAfter.2) ∧ smallAfter.2.css = 'x' :: Css.Token.ofLevel .high ∧
      smallAfter.2.level = some .high ∧
      ((∃ raw, smallAfter.2.combined = some raw ∧ smallAfter.2.css = minify raw .high) ∨
        false = false ∧ smallAfter.2.css ≠ [] ∧ levelOf? smallAfter.2.css = some .high ∧
          HasRead (smallBundle otherTarget, smallDisk) (smallEvents ++ [.call (.process .high false)])
            smallAfter.2.css) := by
  have done : smallAfter = (.ok (), smallAfter.2) := Prod.ext smallAfter_ok rfl
  exact ⟨openOn_other, done, smallAfter_css,
    (text_traced openOn_other smallEvents).2.2 .high false smallAfter.2 done⟩

end Stylepress.Bundle
