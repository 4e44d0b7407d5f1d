import Stylepress.Disk.Basic
import Stylepress.Manifest.Basic

/-!
Why a bundle cannot be checked, made or saved. Each cause is a constructor; `message` words it, and
`report` adds what lies behind it.
-/
namespace Stylepress

/-- Why a source is refused. -/
inductive Rejection where
  /-- Has the right extension, but cannot be read. -/
  | notFound
  /-- Is no stylesheet that the policy accepts. -/
  | invalid
deriving DecidableEq, Repr

structure RejectedSource where
  path : Text
  reason : Rejection
deriving DecidableEq, Repr

def RejectedSource.message (source : RejectedSource) : String :=
  match source.reason with
  | .notFound => "Not Found: " ++ String.ofList source.path
  | .invalid => "Invalid: " ++ String.ofList source.path

/-- Why a bundle fails. -/
inductive BundleError where
  | emptyRoot
  | missingRoot (root : Text)
  | noSources
  | rejectedSources (sources : List RejectedSource)
  | outputIsSource (path : Text)
  | missingOutputDirectory (directory : Text)
  | missingOutputName
  | outputExtension (path expected : Text)
  | unreadable (path : Text) (fault : Fault)
  | unwritable (path : Text) (fault : Fault)
  | invalidManifest (path : Text) (defect : Manifest.Defect)
deriving DecidableEq, Repr

namespace BundleError

def message : BundleError → String
  | emptyRoot => "the document root must not be empty"
  | missingRoot root =>
    "the document root must be an existing directory: " ++ String.ofList root
  | noSources => "the source file list must not be empty"
  | rejectedSources sources =>
    "one or more source files could not be found/opened or are otherwise invalid:" ++
      String.join (sources.map fun source => "\n- " ++ source.message)
  | outputIsSource path =>
    "the output file path must not match a source file path: " ++ String.ofList path
  | missingOutputDirectory directory =>
    "the output file's directory does not exist, create it first: " ++ String.ofList directory
  | missingOutputName => "the output file name was not provided"
  | outputExtension path expected =>
    "the output file must have a \"" ++ String.ofList expected ++ "\" extension: " ++
      String.ofList path
  | unreadable path _ => "could not read " ++ String.ofList path
  | unwritable path _ => "could not save the output CSS file " ++ String.ofList path
  | invalidManifest path _ => "invalid manifest " ++ String.ofList path

/-- The wording of what lies behind an error, if anything does. -/
def cause? : BundleError → Option String
  | unreadable _ fault | unwritable _ fault => some fault.message
  | invalidManifest _ defect => some defect.message
  | _ => none

/-- The wording of an error and of what lies behind it. -/
def report (error : BundleError) : String :=
  match error.cause? with
  | some cause => error.message ++ ": " ++ cause
  | none => error.message

end BundleError

end Stylepress
