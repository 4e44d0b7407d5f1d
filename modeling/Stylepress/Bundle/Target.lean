import Stylepress.Bundle.Source

/-!
The output of a bundle: a web path that is none of the sources', in a directory that exists, with a
name and the policy's extension.
-/
namespace Stylepress

/-- Where a bundle is saved. -/
structure Target where
  /-- Its path from the document root. -/
  web : Text
  /-- Its path on disk. -/
  path : Text
  /-- The time of its last change, if it exists. -/
  modified : Option Time
deriving DecidableEq, Repr

namespace Target

/-- The output that a path stands for. -/
def check (disk : Disk) (policy : Policy) (root requested : Text) (sources : List Source) :
    Except BundleError Target :=
  let web := WebPath.ofText requested
  let path := WebPath.resolve root web
  let directory := (Disk.Path.parent? path).getD root
  if sources.any (·.web == web) then .error (.outputIsSource web)
  else if !disk.isDirectory directory then .error (.missingOutputDirectory directory)
  else if (Text.trim (WebPath.stem web)).isEmpty then .error .missingOutputName
  else if WebPath.extension? web ≠ some policy.extension then
    .error (.outputExtension web policy.extension)
  else .ok ⟨web, path, disk.modified? path⟩

def load (disk : Disk) (path : Text) : Except BundleError Text :=
  match disk.readText path with
  | .ok css => .ok css
  | .error fault => .error (.unreadable path fault)

/-- The disk with a text saved at `now`, and the time that the file has then. -/
def save (disk : Disk) (path css : Text) (now : Time) : Except BundleError (Disk × Time) :=
  match disk.write path (Utf8.encode css) now with
  | .error fault => .error (.unwritable path fault)
  | .ok changed =>
    match changed.status path with
    | .error fault => .error (.unwritable path fault)
    | .ok entry => .ok (changed, entry.modified)

end Target

end Stylepress
