import Stylepress.Disk.Basic

/-!
Changes that others make to a disk: directories and files are put in place with all the directories
above them, and whole subtrees are taken away.
-/
namespace Stylepress.Disk

/-- The location of a path whose names all exist or are about to: `..` takes the name before it away
    without asking the disk. -/
def place (disk : Disk) (path : Text) : Location :=
  if Path.isAbsolute path then (Text.pieces '/' path).foldl step []
  else (Text.pieces '/' path).foldl step disk.here

/-- The disk with a directory at a location, unless something is there. -/
def putDirectory (disk : Disk) (now : Time) (location : Location) : Disk :=
  if (disk.entry location).isSome then disk else disk.set location (some (.directory now))

/-- The disk with a directory at a location and at every place above it. -/
def putDirectories (disk : Disk) (now : Time) (location : Location) : Disk :=
  (List.range (location.length + 1)).foldl
    (fun changed n => changed.putDirectory now (location.take n)) disk

/-- The disk with a file at a location, in a directory that is made if need be. -/
def putFile (disk : Disk) (now : Time) (location : Location) (content : Bytes) (modified : Time) :
    Disk :=
  (disk.putDirectories now location.dropLast).set location (some (.file content modified))

def remove (disk : Disk) (location : Location) : Disk :=
  { disk with
    entry := fun other => if location.isPrefixOf other then none else disk.entry other }

/-- A disk with nothing but the directory `here` and those above it. -/
def bare (here : Location) (now : Time) : Disk :=
  putDirectories ⟨fun _ => none, here⟩ now here

end Stylepress.Disk
