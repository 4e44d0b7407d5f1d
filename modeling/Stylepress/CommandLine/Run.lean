import Stylepress.CommandLine.Help

/-!
Running a command on a disk: what it prints, how it exits, and what it leaves on the disk. Building
from arguments and building from a manifest differ in where the request comes from, and in the wording
of an error. Opening a bundle may give warnings; a logger prints them before anything else that goes to
standard error.
-/
namespace Stylepress.CommandLine

open Css (Level)

/-- Lines of text, each of them ended. -/
def unlines (lines : List String) : String := String.join (lines.map (· ++ "\n"))

/-- How what is logged is printed: the line for a warning, if it is printed. -/
def Logger : Type := String → Option String

namespace Logger

/-- Prints nothing. -/
def silent : Logger := fun _ => none

/-- The lines for the warnings that opening a bundle gives, each of them once. -/
def linesOf (logger : Logger) (disk : Disk) (request : BundleRequest) : List String :=
  (({} : WarningLog).recordAll (Bundle.warnings disk request)).1.filterMap logger

end Logger

/-- What a call of the program comes to. -/
structure Outcome where
  exitCode : Nat
  output : String
  errors : String
  disk : Disk
  /-- The file that the call wrote, by its path, and its text. -/
  written : Option (Text × Text) := none

def versionLine : String := "crunchcss 0.1.0\n"

def usage : String :=
  "usage: crunchcss minify [-l LEVEL] [FILE]\n" ++
  "       crunchcss bundle --root DIR --output PATH [OPTIONS] SOURCES...\n" ++
  "       crunchcss bundle --config FILE [OPTIONS]\n" ++
  "       crunchcss inspect FILE\n"

namespace Outcome

def printed (disk : Disk) (text : String) : Outcome := ⟨0, text, "", disk, none⟩

/-- A call that fails with an error. -/
def failed (disk : Disk) (error : String) : Outcome :=
  ⟨1, "", "\x1b[1m\x1b[31merror\x1b[39m\x1b[0m: " ++ error ++ "\n", disk, none⟩

def misused (disk : Disk) : Outcome := ⟨2, "", usage, disk, none⟩

/-- The outcome with lines on standard error before its own. -/
def behind (lines : List String) (outcome : Outcome) : Outcome :=
  { outcome with errors := unlines lines ++ outcome.errors }

@[simp] theorem behind_exitCode (lines : List String) (outcome : Outcome) :
    (outcome.behind lines).exitCode = outcome.exitCode := rfl

@[simp] theorem behind_written (lines : List String) (outcome : Outcome) :
    (outcome.behind lines).written = outcome.written := rfl

end Outcome

/-- How the note on a build begins if an output was made. -/
def wroteMark : String := "\x1b[1m\x1b[32mwrote\x1b[39m\x1b[0m "

/-- How the note on a build begins if none was made. -/
def upToDateMark : String := "\x1b[2mup to date\x1b[0m "

/-- The note on a build: the output and its level behind a mark. -/
def buildNote (mark : String) (web : Text) (level : Level) : String :=
  mark ++ (String.ofList web ++ " (" ++ String.ofList level.name ++ ")\n")

/-- Processes and saves an open bundle. -/
def build (disk : Disk) (now : Time) (level : Level) (force : Bool) (bundle : Bundle) : Outcome :=
  match bundle.process disk level force with
  | (.error error, _) => .failed disk ("failed to process bundle: " ++ error.report)
  | (.ok (), processed) =>
    match processed.save disk now with
    | (.error error, _, _) => .failed disk ("failed to save bundle: " ++ error.report)
    | (.ok markup, saved, changed) =>
      { exitCode := 0
        output := markup
        errors := buildNote (if processed.updated then wroteMark else upToDateMark) saved.target.web level
        disk := changed
        written :=
          if processed.updated && !saved.updated then some (saved.target.path, saved.css) else none }

/-- Opens the bundle of a request and builds it; `context` words a failure to open it. -/
def openAndBuild (logger : Logger) (disk : Disk) (now : Time) (context : String)
    (request : BundleRequest) (level : Level) (force : Bool) : Outcome :=
  Outcome.behind (logger.linesOf disk request)
    (match Bundle.openOn disk request with
    | .error error => .failed disk (context ++ ": " ++ error.report)
    | .ok bundle => build disk now level force bundle)

def runMinify (disk : Disk) (level : Level) (css : Text) : Outcome :=
  .printed disk (String.ofList (Css.minify css level) ++ "\n")

def runInspect (disk : Disk) (file css : Text) : Outcome :=
  .printed disk (String.ofList file ++ ": " ++
    match Css.Token.levelOf? css with
    | some level => String.ofList level.name ++ " (" ++ toString level.index ++ ")\n"
    | none => "\x1b[33mno level token\x1b[39m\n")

def unreadable (disk : Disk) (what : String) (fault : Fault) : Outcome :=
  .failed disk ("failed to read " ++ what ++ ": " ++ fault.message)

/-- The request of a manifest under the options of a call. -/
def Command.requestOf (manifest : Manifest) (options : BuildOptions) : BundleRequest :=
  { manifest.request with
    policy :=
      { manifest.policy with
        linksSources := manifest.linksSources || options.linksSources
        stampsLinks := manifest.stampsLinks || options.stampsLinks } }

def Command.request (root output : Text) (sources : List Text) (options : BuildOptions) :
    BundleRequest :=
  { root, output, sources
    policy := { linksSources := options.linksSources, stampsLinks := options.stampsLinks } }

/-- Runs a command at a time, with the bytes of standard input. -/
def run (logger : Logger) (disk : Disk) (input : Bytes) (now : Time) : Command → Outcome
  | .version => .printed disk versionLine
  | .help form => .printed disk (helpPage form)
  | .minify (some file) level =>
    match disk.readText file with
    | .ok css => runMinify disk level css
    | .error fault => unreadable disk (String.ofList file) fault
  | .minify none level =>
    match Utf8.decode? input with
    | some css => runMinify disk level css
    | none => unreadable disk "stdin" .notText
  | .inspect file =>
    match disk.readText file with
    | .ok css => runInspect disk file css
    | .error fault => unreadable disk (String.ofList file) fault
  | .bundle root output sources options =>
    openAndBuild logger disk now "invalid bundle" (Command.request root output sources options)
      (options.level.getD .high) options.force
  | .manifest path options =>
    match Manifest.load disk path with
    | .error error =>
      .failed disk ("failed to load " ++ String.ofList path ++ ": " ++ error.report)
    | .ok manifest =>
      openAndBuild logger disk now ("invalid bundle in " ++ String.ofList path)
        (Command.requestOf manifest options) (options.level.getD manifest.pressLevel)
        (options.force || manifest.force)

/-- Runs the program with its arguments; a call without a logger logs nothing. -/
def call (disk : Disk) (input : Bytes) (now : Time) (arguments : List Text)
    (logger : Logger := .silent) : Outcome :=
  match Command.ofArguments? arguments with
  | some command => run logger disk input now command
  | none => .misused disk

end Stylepress.CommandLine
