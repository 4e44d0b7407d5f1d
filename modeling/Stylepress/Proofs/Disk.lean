import Stylepress.Disk.Basic
import Stylepress.Proofs.TextLaws
import Stylepress.Proofs.Utf8

/-!
Laws of a disk on which files are written. A file in a place that is no directory changes where no
path leads (`locate_set`), so that after any number of writes under one path all other files are what
they were (`Resaved.status_eq`). A text is read from a file of exactly its bytes (`readText_eq_ok_iff`).
-/
namespace Stylepress.Disk

/-! ### Following paths -/

theorem set_set (disk : Disk) (location : Location) (a b : Option Entry) :
    (disk.set location a).set location b = disk.set location b := by
  simp only [set, mk.injEq, and_true]
  funext other
  split <;> simp_all

theorem lookUp_set_of_ne (disk : Disk) {location other : Location} (different : other ≠ location)
    (content : Option Entry) : (disk.set location content).lookUp other = disk.lookUp other := by
  rw [lookUp, lookUp, entry_set_of_ne disk different]

/-- What a location holds is no directory. -/
def IsFree (disk : Disk) (location : Location) : Prop :=
  ∀ modified, disk.lookUp location ≠ .ok (.directory modified)

section
variable {disk : Disk} {location : Location} {content : Bytes} {modified : Time}

theorem isFree_set : (disk.set location (some (.file content modified))).IsFree location := by
  intro time found
  rw [lookUp, entry_set_self] at found
  split at found <;> cases found

theorem walk_cons_eq_ok_iff {start target : Location} {piece : Text} {rest : List Text} :
    disk.walk start (piece :: rest) = .ok target ↔
      (∃ time, disk.lookUp start = .ok (.directory time)) ∧ disk.walk (step start piece) rest = .ok target := by
  rw [walk]
  cases found : disk.lookUp start with
  | error fault => simp
  | ok entry => cases entry <;> simp

/-- A file in a place that is no directory is in no path's way. -/
theorem walk_set (free : disk.IsFree location) {start target : Location} {pieces : List Text} :
    (disk.set location (some (.file content modified))).walk start pieces = .ok target ↔
      disk.walk start pieces = .ok target := by
  induction pieces generalizing start with
  | nil => exact Iff.rfl
  | cons piece rest ih =>
    rw [walk_cons_eq_ok_iff, walk_cons_eq_ok_iff, ih]
    by_cases same : start = location
    · subst same
      -- No path leads on from here, neither before the file is written nor after.
      have blocked : ¬ ∃ time, disk.lookUp start = .ok (.directory time) := by
        rintro ⟨time, found⟩
        exact free time found
      have blockedAfter : ¬ ∃ time, (disk.set start (some (.file content modified))).lookUp start =
          .ok (.directory time) := by
        rintro ⟨time, found⟩
        exact isFree_set time found
      simp [blocked, blockedAfter]
    · rw [lookUp_set_of_ne disk same]

theorem locate_set (free : disk.IsFree location) {path : Text} {target : Location} :
    (disk.set location (some (.file content modified))).locate path = .ok target ↔
      disk.locate path = .ok target := by
  rw [locate, locate]
  cases refusal? path with
  | some fault => exact Iff.rfl
  | none =>
    dsimp only
    split
    · exact walk_set free
    · exact walk_set free

end

/-! ### Writing files -/

/-- Where a file can be written: a place that is free and not overlong. -/
def Accepts (disk : Disk) (location : Location) : Prop :=
  disk.lookUp location = .error .notFound ∨
    ∃ content modified, disk.lookUp location = .ok (.file content modified)

theorem Accepts.isFree {disk : Disk} {location : Location} (accepts : disk.Accepts location) :
    disk.IsFree location := by
  intro time found
  rcases accepts with missing | ⟨content, modified, present⟩
  · simp [missing] at found
  · simp [present] at found

theorem dropEndWhile_slash {path : Text} (last : path.endsWith '/' = false) :
    Text.dropEndWhile (· == '/') path = path := by
  have other : ∀ c ∈ path.getLast?, (c == '/') = false := by
    intro c atEnd
    rw [beq_eq_false_iff_ne]
    rintro rfl
    simp [Text.endsWith, Option.mem_def.mp atEnd] at last
  exact Text.dropEndWhile_eq_self other

theorem refusal?_of_locate {disk : Disk} {path : Text} {location : Location}
    (located : disk.locate path = .ok location) : refusal? path = none := by
  cases refused : refusal? path with
  | none => rfl
  | some fault => simp [locate, refused] at located

/-- A file can be written under a path that does not end with a slash and leads to a place where
    there is a file or nothing. -/
theorem writable_eq_ok_iff {disk : Disk} {path : Text} {location : Location} :
    disk.writable path = .ok location ↔
      path.endsWith '/' = false ∧ disk.locate path = .ok location ∧ disk.Accepts location := by
  constructor
  · intro found
    rw [writable] at found
    split at found
    · cases found
    · dsimp only at found
      split at found
      · cases found
      · split at found
        · cases found
        · next place located =>
          split at found
          · cases found
          · next noSlash =>
            have noSlash : path.endsWith '/' = false := by simpa using noSlash
            rw [dropEndWhile_slash noSlash] at located
            split at found
            · cases found
            · next content modified present =>
              obtain rfl := Except.ok.inj found
              exact ⟨noSlash, located, .inr ⟨content, modified, present⟩⟩
            · next missing =>
              obtain rfl := Except.ok.inj found
              exact ⟨noSlash, located, .inl missing⟩
            · cases found
  · rintro ⟨noSlash, located, accepts⟩
    have allowed := refusal?_of_locate located
    have filled : path.isEmpty = false := by
      cases path with
      | nil => simp [refusal?] at allowed
      | cons c rest => rfl
    rw [writable, allowed]
    simp only [dropEndWhile_slash noSlash, filled, located, noSlash, Bool.false_eq_true, if_false]
    rcases accepts with missing | ⟨content, modified, present⟩
    · simp [missing]
    · simp [present]

theorem write_eq_ok_iff {disk changed : Disk} {path : Text} {content : Bytes} {now : Time} :
    disk.write path content now = .ok changed ↔
      ∃ location, disk.writable path = .ok location ∧
        changed = disk.set location (some (.file content now)) := by
  rw [write]
  cases disk.writable path with
  | error fault => simp
  | ok location => simp [eq_comm]

/-- `changed` is what is left of `disk` after any number of writes under a path. -/
def Resaved (path : Text) (disk changed : Disk) : Prop :=
  changed = disk ∨ ∃ location content modified, disk.writable path = .ok location ∧
    changed = disk.set location (some (.file content modified))

theorem lookUp_set_self {disk : Disk} {location : Location} (accepts : disk.Accepts location) (content : Bytes)
    (modified : Time) :
    (disk.set location (some (.file content modified))).lookUp location = .ok (.file content modified) := by
  have short : location.any Path.isOverlong = false := by
    cases long : location.any Path.isOverlong with
    | false => rfl
    | true => simp [Accepts, lookUp, long] at accepts
  simp [lookUp, short]

/-- A path that leads to a file just written names it. -/
theorem status_set {disk : Disk} {path : Text} {location : Location} (located : disk.locate path = .ok location)
    (accepts : disk.Accepts location) (content : Bytes) (modified : Time) :
    (disk.set location (some (.file content modified))).status path = .ok (.file content modified) := by
  rw [status, (locate_set accepts.isFree).mpr located]
  exact lookUp_set_self accepts content modified

/-- A file that was written holds what was written. -/
theorem status_of_write {disk changed : Disk} {path : Text} {content : Bytes} {now : Time}
    (written : disk.write path content now = .ok changed) : changed.status path = .ok (.file content now) := by
  obtain ⟨location, found, rfl⟩ := write_eq_ok_iff.mp written
  obtain ⟨_, located, accepts⟩ := writable_eq_ok_iff.mp found
  exact status_set located accepts content now

theorem writable_set {disk : Disk} {path : Text} {location : Location}
    (found : disk.writable path = .ok location) (content : Bytes) (modified : Time) :
    (disk.set location (some (.file content modified))).writable path = .ok location := by
  obtain ⟨noSlash, located, accepts⟩ := writable_eq_ok_iff.mp found
  refine writable_eq_ok_iff.mpr ⟨noSlash, (locate_set accepts.isFree).mpr located, .inr ⟨content, modified, ?_⟩⟩
  exact lookUp_set_self accepts content modified

theorem Resaved.write {path : Text} {disk changed again : Disk} (resaved : Resaved path disk changed)
    {content : Bytes} {now : Time} (written : changed.write path content now = .ok again) :
    Resaved path disk again := by
  obtain ⟨location, found, rfl⟩ := write_eq_ok_iff.mp written
  rcases resaved with rfl | ⟨place, old, modified, foundFirst, rfl⟩
  · exact .inr ⟨location, content, now, found, rfl⟩
  · rw [writable_set foundFirst] at found
    obtain rfl := Except.ok.inj found
    exact .inr ⟨place, content, now, foundFirst, set_set ..⟩

/-- A path that leads elsewhere names what it named. -/
theorem Resaved.status_eq {path other : Text} {disk changed : Disk} (resaved : Resaved path disk changed)
    {location : Location} (located : disk.locate other = .ok location)
    (apart : disk.locate path ≠ .ok location) : changed.status other = disk.status other := by
  rcases resaved with rfl | ⟨place, content, modified, found, rfl⟩
  · rfl
  · obtain ⟨_, locatedPath, accepts⟩ := writable_eq_ok_iff.mp found
    have different : location ≠ place := by
      rintro rfl
      exact apart locatedPath
    rw [status, status, located, (locate_set accepts.isFree).mpr located]
    exact lookUp_set_of_ne disk different _

/-! ### Reading texts -/

theorem readText_eq_ok_iff {disk : Disk} {path css : Text} :
    disk.readText path = .ok css ↔ ∃ time, disk.status path = .ok (.file (Utf8.encode css) time) := by
  rw [readText, readBytes]
  cases disk.status path with
  | error fault => simp
  | ok entry =>
    cases entry with
    | directory time => simp
    | file content time =>
      cases decoded : Utf8.decode? content with
      | none =>
        have other : content ≠ Utf8.encode css := by
          rintro rfl
          simp at decoded
        simp [decoded, other]
      | some text =>
        obtain rfl := Utf8.decode?_eq_some_iff.mp decoded
        have same : Utf8.encode text = Utf8.encode css ↔ text = css := by
          rw [← Utf8.decode?_eq_some_iff, Utf8.decode?_encode, Option.some.injEq, eq_comm]
        simp [same]

end Stylepress.Disk
