import Stylepress.Text.Pieces
import Stylepress.Text.Utf8

/-!
Paths on a disk, as text. A path is a list of pieces between slashes; empty pieces and the piece `.`
name nothing of their own, except for a `.` at the start. Joining and taking the parent keep the text
as it was given and do not look at a disk. A disk bounds the bytes of a path and of each name in it.
-/
namespace Stylepress.Disk.Path

def size (path : Text) : Nat := (Utf8.encode path).length

def pathLimit : Nat := 4095

def nameLimit : Nat := 255

def isOverlong (name : Text) : Bool := nameLimit < size name

def isAbsolute (path : Text) : Bool := path.startsWith '/'

/-- A path read from `base`: a relative one goes on below it, and an absolute one takes its place. -/
def join (base path : Text) : Text :=
  if isAbsolute path then path
  else if base.isEmpty || base.endsWith '/' then base ++ path
  else base ++ '/' :: path

/-- Whether a piece of a path names nothing of its own. -/
def isIdle (piece : Text) : Bool := piece.isEmpty || piece == ['.']

/-- `pieces` without the idle ones at its end. -/
def dropIdle (pieces : List Text) : List Text := (pieces.reverse.dropWhile isIdle).reverse

/-- `pieces` without the last one that names something, and the idle ones around it; nothing if they
    are all idle. -/
def dropName? (pieces : List Text) : Option (List Text) :=
  if (dropIdle pieces).isEmpty then none else some (dropIdle (dropIdle pieces).dropLast)

/-- The path without its last name. The empty path and the root have no parent. -/
def parent? (path : Text) : Option Text :=
  match Text.pieces '/' path with
  | [] :: second :: others =>
    (dropName? (second :: others)).map fun above => '/' :: Text.join ['/'] above
  | ['.'] :: others =>
    match dropName? others with
    | some above => some (Text.join ['/'] (['.'] :: above))
    | none => some []
  | all => (dropName? all).map (Text.join ['/'])

end Stylepress.Disk.Path
