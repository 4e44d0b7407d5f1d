import Stylepress.Disk.Path
import Stylepress.Text.Utf8

/-!
A disk: a tree of directories and files, each with its time of modification. A location is the list
of names from the root down, so two paths name the same file exactly when `locate` leads them to the
same location. Paths are followed name by name: every name but the last must be that of a directory,
`..` goes up, and an empty piece or `.` stays, but also needs a directory to stay in. A name that is
too long is found out when it is looked up, a path that is too long at once.
-/
namespace Stylepress

/-- A time, in nanoseconds since the epoch. -/
abbrev Time := Int

/-- The whole seconds from the epoch to a time, none before the epoch. -/
def Time.seconds (time : Time) : Nat := (time / 1000000000).toNat

abbrev Bytes := List UInt8

/-- A place in the tree: the names from the root down to it. -/
abbrev Location := List Text

/-- What a place in the tree holds. -/
inductive Entry where
  | directory (modified : Time)
  | file (content : Bytes) (modified : Time)
deriving DecidableEq, Repr

def Entry.modified : Entry → Time
  | .directory modified => modified
  | .file _ modified => modified

/-- Why a disk does not do what it is asked. -/
inductive Fault where
  | notFound
  | notADirectory
  | isADirectory
  /-- A name with the character NUL, which no file can have. -/
  | invalidName
  /-- A name or a path with more bytes than any can have. -/
  | nameTooLong
  /-- A file that does not hold text. -/
  | notText
deriving DecidableEq, Repr

def Fault.message : Fault → String
  | .notFound => "No such file or directory (os error 2)"
  | .notADirectory => "Not a directory (os error 20)"
  | .isADirectory => "Is a directory (os error 21)"
  | .invalidName => "file name contained an unexpected NUL byte"
  | .nameTooLong => "File name too long (os error 36)"
  | .notText => "stream did not contain valid UTF-8"

/-- A tree of entries and the directory in which relative paths start. -/
structure Disk where
  entry : Location → Option Entry
  here : Location

namespace Disk

/-- Why a path leads nowhere on any disk, if it does not. -/
def refusal? (path : Text) : Option Fault :=
  if path.isEmpty then some .notFound
  else if path.contains '\x00' then some .invalidName
  else if Path.pathLimit < Path.size path then some .nameTooLong
  else none

def lookUp (disk : Disk) (location : Location) : Except Fault Entry :=
  if location.any Path.isOverlong then .error .nameTooLong
  else
    match disk.entry location with
    | none => .error .notFound
    | some entry => .ok entry

/-- Where a piece of a path leads from a directory. -/
def step (location : Location) (piece : Text) : Location :=
  if Path.isIdle piece then location
  else if piece = ['.', '.'] then location.dropLast
  else location ++ [piece]

/-- The location that the pieces lead to. -/
def walk (disk : Disk) (location : Location) : List Text → Except Fault Location
  | [] => .ok location
  | piece :: rest =>
    match disk.lookUp location with
    | .error fault => .error fault
    | .ok (.file ..) => .error .notADirectory
    | .ok (.directory _) => disk.walk (step location piece) rest

/-- The location that a path leads to; whether anything is there is another question. -/
def locate (disk : Disk) (path : Text) : Except Fault Location :=
  match refusal? path with
  | some fault => .error fault
  | none =>
    if Path.isAbsolute path then disk.walk [] (Text.pieces '/' path).tail
    else disk.walk disk.here (Text.pieces '/' path)

/-- The entry that a path names. -/
def status (disk : Disk) (path : Text) : Except Fault Entry :=
  match disk.locate path with
  | .error fault => .error fault
  | .ok location => disk.lookUp location

def isDirectory (disk : Disk) (path : Text) : Bool :=
  match disk.status path with
  | .ok (.directory _) => true
  | _ => false

/-- The time of modification of what a path names, if it names anything. -/
def modified? (disk : Disk) (path : Text) : Option Time :=
  match disk.status path with
  | .ok entry => some entry.modified
  | .error _ => none

def readBytes (disk : Disk) (path : Text) : Except Fault Bytes :=
  match disk.status path with
  | .error fault => .error fault
  | .ok (.directory _) => .error .isADirectory
  | .ok (.file content _) => .ok content

def readText (disk : Disk) (path : Text) : Except Fault Text :=
  match disk.readBytes path with
  | .error fault => .error fault
  | .ok content =>
    match Utf8.decode? content with
    | none => .error .notText
    | some text => .ok text

/-- The disk with `content` as what is at a location. -/
def set (disk : Disk) (location : Location) (content : Option Entry) : Disk :=
  { disk with entry := fun other => if other = location then content else disk.entry other }

/-- Where a file would be written under a path: the place must not be that of a directory, and a path
    that ends with a slash asks for one, before its last name is looked up. -/
def writable (disk : Disk) (path : Text) : Except Fault Location :=
  match refusal? path with
  | some fault => .error fault
  | none =>
    let name := Text.dropEndWhile (· == '/') path
    if name.isEmpty then .error .isADirectory
    else
      match disk.locate name with
      | .error fault => .error fault
      | .ok location =>
        if path.endsWith '/' then .error .isADirectory
        else
          match disk.lookUp location with
          | .ok (.directory _) => .error .isADirectory
          | .ok (.file ..) | .error .notFound => .ok location
          | .error fault => .error fault

/-- The disk with a file of these bytes under a path, changed at `now`. -/
def write (disk : Disk) (path : Text) (content : Bytes) (now : Time) : Except Fault Disk :=
  match disk.writable path with
  | .error fault => .error fault
  | .ok location => .ok (disk.set location (some (.file content now)))

@[simp] theorem entry_set_self (disk : Disk) (location : Location) (content : Option Entry) :
    (disk.set location content).entry location = content := by simp [set]

theorem entry_set_of_ne (disk : Disk) {location other : Location} (h : other ≠ location)
    (content : Option Entry) : (disk.set location content).entry other = disk.entry other := by
  simp [set, h]

end Disk

end Stylepress
