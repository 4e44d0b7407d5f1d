import Stylepress.Disk.Basic

/-!
Telling text from other files by their first bytes. A file is text if its first bytes are UTF-8
without NUL; a character that the window cuts off does no harm.
-/
namespace Stylepress

/-- What a file seems to hold. -/
inductive Media where
  | plainText
  | binary
deriving DecidableEq, Repr

namespace Media

def name : Media → String
  | .plainText => "text/plain"
  | .binary => "application/octet-stream"

def window : Nat := 8192

/-- What the bytes of a file seem to be. -/
def ofBytes (content : Bytes) : Media :=
  let front := content.take window
  if (Utf8.read front).2 = .malformed || front.contains 0 then .binary else .plainText

/-- What the file that a path names seems to hold, if it can be read. -/
def sniff? (disk : Disk) (path : Text) : Option Media :=
  match disk.readBytes path with
  | .ok content => some (ofBytes content)
  | .error _ => none

end Media

end Stylepress
