import Std.Time
import Stylepress.CommandLine.Mention

/-!
The program. It looks at the places of the real disk that its command asks about, runs the command on
what it saw, writes the file that the command wrote, and prints.
-/
namespace Stylepress.Main

/-- The directory that the program is called in. -/
def here : IO Location := do
  let directory ← IO.currentDir
  return (Text.pieces '/' directory.toString.toList).filter (!·.isEmpty)

/-- What is at a place of the real disk; a file that cannot be read counts as missing. -/
def look (location : Location) : IO (Option Entry) := do
  try
    let place ← IO.FS.realPath (String.ofList ('/' :: Text.join ['/'] location))
    let facts ← place.metadata
    let modified : Time := facts.modified.sec * 1000000000 + facts.modified.nsec.toNat
    match facts.type with
    | .dir => return some (.directory modified)
    | .file => return some (.file (← IO.FS.readBinFile place).toList modified)
    | _ => return none
  catch _ => return none

/-- The disk with the real entries at all places that the paths lead through. -/
def survey (disk : Disk) (paths : List Text) : IO Disk :=
  (paths.flatMap disk.places).eraseDups.foldlM
    (fun seen location => do return seen.set location (← look location)) disk

/-- Standard input to its end. -/
partial def readAll (stream : IO.FS.Stream) (front : ByteArray) : IO ByteArray := do
  let chunk ← stream.read 65536
  if chunk.isEmpty then return front else readAll stream (front ++ chunk)

/-- The bytes that a command reads from standard input. -/
def inputOf : CommandLine.Command → IO Bytes
  | .minify none _ => do return (← readAll (← IO.getStdin) ByteArray.empty).toList
  | _ => return []

/-- The line that is logged for a warning, which names a part of the program in brackets. -/
def logLine (time warning : String) : String :=
  let (component, message) := (Text.splitFirst ']' warning.toList).getD ([], [])
  "\x1b[2m" ++ time ++ "\x1b[0m \x1b[33m WARN\x1b[0m \x1b[2mcrunch_common::warning\x1b[0m\x1b[2m:\x1b[0m " ++
    String.ofList (message.drop 1) ++ " \x1b[3mcomponent\x1b[0m\x1b[2m=\x1b[0m\"" ++
    String.ofList (component.drop 1) ++ "\""

/-- Prints warnings, unless the environment asks for less. -/
def logger (now : Std.Time.Timestamp) : IO CommandLine.Logger := do
  let zone := Std.Time.TimeZone.ZoneRules.UTC
  let time := (Std.Time.DateTime.ofTimestamp now zone).format "uuuu-MM-dd'T'HH:mm:ss.SSSSSS'Z'"
  match ← IO.getEnv "CRUNCH_LOG" with
  | some "off" | some "error" => return .silent
  | _ => return fun warning => some (logLine time warning)

/-- Runs the program with its arguments on the real disk. -/
def perform (arguments : List Text) : IO CommandLine.Outcome := do
  let blank : Disk := ⟨fun _ => none, ← here⟩
  match CommandLine.Command.ofArguments? arguments with
  | none => return .misused blank
  | some command =>
    let known ← survey blank (command.paths blank)
    let disk ← survey known (command.paths known)
    let now ← Std.Time.Timestamp.now
    return CommandLine.run (← logger now) disk (← inputOf command) now.toNanosecondsSinceUnixEpoch.val
      command

/-- Writes the file that a call wrote to the real disk, which may still refuse it. -/
def store (outcome : CommandLine.Outcome) : IO CommandLine.Outcome := do
  match outcome.written with
  | none => return outcome
  | some (path, css) =>
    try
      IO.FS.writeBinFile (String.ofList path) ⟨(Utf8.encode css).toArray⟩
      return outcome
    catch refusal =>
      return .failed outcome.disk ("failed to save " ++ String.ofList path ++ ": " ++
        toString refusal)

end Stylepress.Main

open Stylepress in
/-- Runs the program and leaves its exit code. -/
def main (arguments : List String) : IO UInt32 := do
  let outcome ← Main.store (← Main.perform (arguments.map String.toList))
  (← IO.getStderr).putStr outcome.errors
  (← IO.getStdout).putStr outcome.output
  return UInt32.ofNat outcome.exitCode
