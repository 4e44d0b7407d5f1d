import Stylepress.Bundle.Staleness
import Stylepress.Bundle.Target
import Stylepress.Bundle.Warning
import Stylepress.Css.Minify
import Stylepress.Web.Link

/-!
Bundles: sources that are combined into one output. A bundle is checked when it is opened; `process`
makes its text at a level, unless the output on disk or the text at hand will do, and `save` writes a
text that was made anew and gives the markup that links it. Combined sources are kept, so they are
read once.
-/
namespace Stylepress

open Css (Level)

/-- What is asked of a bundle. -/
structure BundleRequest where
  root : Text
  sources : List Text
  output : Text
  policy : Policy := {}
deriving DecidableEq, Repr

/-- A checked bundle and its text. -/
structure Bundle where
  policy : Policy
  /-- The document root on disk. -/
  root : Text
  /-- The sources in the order of the cascade. -/
  sources : List Source
  target : Target
  /-- The combined sources, once they were read. -/
  combined : Option Text := none
  /-- The text at hand, empty if there is none. -/
  css : Text := []
  /-- Whether the text at hand was made anew and is not saved. -/
  updated : Bool := false
  /-- The level of the text at hand, if it is known. -/
  level : Option Level := none
deriving DecidableEq, Repr

namespace Bundle

/-- The bundle that a request describes: first the root is checked, then the sources, then the
    output. -/
def openOn (disk : Disk) (request : BundleRequest) : Except BundleError Bundle :=
  match documentRoot disk request.root with
  | .error error => .error error
  | .ok root =>
    match Source.all disk (Media.sniff? disk) request.policy root request.sources with
    | .error error => .error error
    | .ok sources =>
      match Target.check disk request.policy root request.output sources with
      | .error error => .error error
      | .ok target => .ok { policy := request.policy, root, sources, target }

/-- The warnings that opening a bundle gives; without a root its sources are not looked at. -/
def warnings (disk : Disk) (request : BundleRequest) : List String :=
  match documentRoot disk request.root with
  | .error _ => []
  | .ok _ => (Source.warnings request.sources).map (WarningLog.warning "bundle")

/-- The bundle with the text of its output on disk, if that is later than every source. -/
def refresh (disk : Disk) (bundle : Bundle) : Except BundleError Bundle :=
  if Staleness.isFresh bundle.target.modified (Source.newest? bundle.sources) then
    match Target.load disk bundle.target.path with
    | .error error => .error error
    | .ok css => .ok { bundle with css, level := Css.Token.levelOf? css }
  else .ok bundle

/-- The combined sources, read unless they were read before. -/
def combine (disk : Disk) (bundle : Bundle) : Except BundleError Text :=
  match bundle.combined with
  | some css => .ok css
  | none => Source.combine disk bundle.sources

/-- Makes the text of a bundle at a level, unless a text for that level is at hand; `force` makes it
    in any case. After an error the bundle may still have the text of its output. -/
def process (disk : Disk) (level : Level) (force : Bool) (bundle : Bundle) :
    Except BundleError Unit × Bundle :=
  match refresh disk bundle with
  | .error error => (.error error, bundle)
  | .ok bundle =>
    match Staleness.decision level force bundle.css bundle.level with
    | .reuse => (.ok (), { bundle with level := some level })
    | .rebuild _ =>
      match combine disk bundle with
      | .error error => (.error error, bundle)
      | .ok css =>
        (.ok (), { bundle with
          combined := some css
          css := Css.minify css level
          updated := true
          level := some level })

def markup (now : Time) (bundle : Bundle) : String :=
  let stamp := if bundle.policy.stampsLinks then some (Time.seconds now) else none
  Web.links stamp
    (if bundle.policy.linksSources then bundle.sources.map (·.web) else [bundle.target.web])

/-- Saves the text of a bundle if it was made anew, and gives the markup that links it. A bundle
    without text is not saved and not linked. -/
def save (disk : Disk) (now : Time) (bundle : Bundle) : Except BundleError String × Bundle × Disk :=
  if bundle.css.isEmpty then (.ok "", bundle, disk)
  else if bundle.updated then
    match Target.save disk bundle.target.path bundle.css now with
    | .error error => (.error error, bundle, disk)
    | .ok (changed, modified) =>
      let saved := { bundle with
        target := { bundle.target with modified := some modified }
        updated := false }
      (.ok (saved.markup now), saved, changed)
  else (.ok (bundle.markup now), bundle, disk)

end Bundle

def Manifest.request (manifest : Manifest) : BundleRequest :=
  { root := manifest.root, sources := manifest.sources, output := manifest.output,
    policy := manifest.policy }

/-- The manifest in a file; a relative document root starts in the directory of the file. -/
def Manifest.load (disk : Disk) (path : Text) : Except BundleError Manifest :=
  match disk.readText path with
  | .error fault => .error (.unreadable path fault)
  | .ok text =>
    match Manifest.ofText text with
    | .error defect => .error (.invalidManifest path defect)
    | .ok manifest =>
      match Disk.Path.parent? path with
      | some directory =>
        if Disk.Path.isAbsolute manifest.root then .ok manifest
        else .ok { manifest with root := Disk.Path.join directory manifest.root }
      | none => .ok manifest

end Stylepress
