import Stylepress.CommandLine.Run

/-!
The part of a disk that a command asks about. A disk that agrees with the real one at the places below
is as good as the real one for running the command.
-/
namespace Stylepress

/-- The places that the pieces of a path lead through from a location, the last one included. -/
def Disk.route (location : Location) : List Text → List Location
  | [] => [location]
  | piece :: rest => location :: Disk.route (Disk.step location piece) rest

def Disk.places (disk : Disk) (path : Text) : List Location :=
  if Disk.Path.isAbsolute path then Disk.route [] (Text.pieces '/' path)
  else Disk.route disk.here (Text.pieces '/' path)

/-- The paths on disk that opening, building and saving a bundle ask about. -/
def BundleRequest.paths (request : BundleRequest) : List Text :=
  let root := WebPath.diskRoot request.root
  root :: WebPath.resolve root (WebPath.ofText request.output) ::
    (Source.webPaths request.sources).map (WebPath.resolve root)

namespace CommandLine

/-- The paths that a command asks about, as far as the disk tells: the paths of a manifest are known
    once its file is. -/
def Command.paths (disk : Disk) : Command → List Text
  | .version => []
  | .help _ => []
  | .minify file _ => file.toList
  | .inspect file => [file]
  | .bundle root output sources options => (Command.request root output sources options).paths
  | .manifest path options =>
    path ::
      match Manifest.load disk path with
      | .ok described => (Command.requestOf described options).paths
      | .error _ => []

end CommandLine

end Stylepress
