import Stylepress.Bundle.Error
import Stylepress.Disk.Media
import Stylepress.Web.Path

/-!
The document root and the sources of a bundle. Each requested path stands for a web path; later
repeats of one are left out with a warning, and every other path is checked by itself. A survey
collects the accepted and the refused paths, so that all refusals can be mended in one go.
-/
namespace Stylepress

/-- The document root that a path stands for: an existing directory. -/
def documentRoot (disk : Disk) (requested : Text) : Except BundleError Text :=
  let root := WebPath.diskRoot requested
  if root.isEmpty then .error .emptyRoot
  else if disk.isDirectory root then .ok root
  else .error (.missingRoot root)

/-- An accepted source. -/
structure Source where
  /-- Its path from the document root. -/
  web : Text
  /-- Its path on disk. -/
  path : Text
  /-- The time of its last change. -/
  modified : Time
deriving DecidableEq, Repr

namespace Source

/-- The web paths that were seen or stand earlier in the list. -/
def repeatsFrom (seen : List Text) : List Text → List Text
  | [] => []
  | web :: rest =>
    if seen.contains web then web :: repeatsFrom seen rest else repeatsFrom (web :: seen) rest

/-- The web paths of a request in order, without later repeats. -/
def webPaths (requested : List Text) : List Text := (requested.map WebPath.ofText).eraseDups

/-- The warnings about the repeated web paths of a request. -/
def warnings (requested : List Text) : List String :=
  (repeatsFrom [] (requested.map WebPath.ofText)).map fun web =>
    "duplicate source " ++ String.ofList web ++ " ignored"

/-- The source under a web path: a regular file with the policy's extension and an accepted media
    type. `sniff?` tells what the file under a path on disk seems to hold, if it can be read. -/
def examine (disk : Disk) (sniff? : Text → Option Media) (policy : Policy) (root web : Text) :
    Except Rejection Source :=
  let path := WebPath.resolve root web
  let named := WebPath.extension? web = some policy.extension
  match disk.status path with
  | .error _ => .error (if named then .notFound else .invalid)
  | .ok (.directory _) => .error .invalid
  | .ok (.file _ modified) =>
    if named then
      match sniff? path with
      | none => .error .notFound
      | some media =>
        if policy.accepts media.name then .ok ⟨web, path, modified⟩ else .error .invalid
    else .error .invalid

/-- What became of the web paths that were looked at so far. -/
structure Survey where
  accepted : List Source := []
  rejected : List RejectedSource := []
deriving DecidableEq, Repr

namespace Survey

/-- Whether a web path was looked at. -/
def knows (survey : Survey) (web : Text) : Bool :=
  survey.accepted.any (·.web == web) || survey.rejected.any (·.path == web)

/-- The survey with one more web path, unless that was looked at before. -/
def look (disk : Disk) (sniff? : Text → Option Media) (policy : Policy) (root : Text)
    (survey : Survey) (web : Text) : Survey :=
  if survey.knows web then survey
  else
    match examine disk sniff? policy root web with
    | .ok source => { survey with accepted := survey.accepted ++ [source] }
    | .error reason => { survey with rejected := survey.rejected ++ [⟨web, reason⟩] }

end Survey

/-- The sources of a request. -/
def all (disk : Disk) (sniff? : Text → Option Media) (policy : Policy) (root : Text)
    (requested : List Text) : Except BundleError (List Source) :=
  if requested.isEmpty then .error .noSources
  else
    let survey := (requested.map WebPath.ofText).foldl (Survey.look disk sniff? policy root) {}
    if survey.rejected.isEmpty then .ok survey.accepted
    else .error (.rejectedSources survey.rejected)

def newest? (sources : List Source) : Option Time := (sources.map (·.modified)).max?

/-- The texts of the sources in order, each trimmed and followed by a blank line. -/
def combine (disk : Disk) : List Source → Except BundleError Text
  | [] => .ok []
  | source :: rest =>
    match disk.readText source.path with
    | .error fault => .error (.unreadable source.path fault)
    | .ok css =>
      match combine disk rest with
      | .error error => .error error
      | .ok others => .ok (Text.trim css ++ ['\n', '\n'] ++ others)

end Source

end Stylepress
