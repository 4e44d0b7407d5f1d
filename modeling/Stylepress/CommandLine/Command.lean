import Stylepress.Bundle.Basic
import Stylepress.CommandLine.Argument

/-!
The commands of the program: press one stylesheet, build a bundle from arguments or from a manifest,
tell the level of a file, tell the version, show help.
-/
namespace Stylepress.CommandLine

open Css (Level)

/-- What a build may be told besides what is built. -/
structure BuildOptions where
  level : Option Level := none
  force : Bool := false
  linksSources : Bool := false
  stampsLinks : Bool := false
deriving DecidableEq, Repr

/-- A call of the program. -/
inductive Command where
  | version
  /-- Show what the program takes, or what one of its commands does. -/
  | help (form : Option Form)
  /-- Press a file, or standard input. -/
  | minify (file : Option Text) (level : Level)
  /-- Build the bundle of the arguments. -/
  | bundle (root output : Text) (sources : List Text) (options : BuildOptions)
  /-- Build the bundle of a manifest. -/
  | manifest (path : Text) (options : BuildOptions)
  /-- Tell the level of a file. -/
  | inspect (file : Text)
deriving DecidableEq, Repr

namespace Command

/-! ### What the commands take -/

def levelName : Text := "level".toList

def configName : Text := "config".toList

def rootName : Text := "root".toList

def outputName : Text := "output".toList

def forceName : Text := "force".toList

def linksSourcesName : Text := "dev".toList

def stampsLinksName : Text := "cache-buster".toList

def minifyForm : Form where
  name := "minify".toList
  about := "Minify one stylesheet and print the result"
  operands := { slot := ⟨"FILE", .path⟩, about := "File to minify (reads stdin when omitted)" }
  options :=
    [{ name := levelName, letter := some 'l', slot := some ⟨"LEVEL", .level⟩
       about := "Minification level, as a digit or a name [default: high]" },
     .help]

def bundleForm : Form where
  name := "bundle".toList
  about := "Combine sources into an output file and print the stylesheet markup"
  operands :=
    { slot := ⟨"SOURCES", .text⟩, areSeveral := true
      about := "Source paths from the document root, in cascade order" }
  options :=
    [{ name := configName, letter := some 'c', slot := some ⟨"FILE", .path⟩
       about := "Read the bundle from a TOML manifest" },
     { name := rootName, slot := some ⟨"DIR", .path⟩
       about := "Document root on disk" },
     { name := outputName, letter := some 'o', slot := some ⟨"PATH", .text⟩
       about := "Output path from the document root" },
     { name := levelName, letter := some 'l', slot := some ⟨"LEVEL", .level⟩
       about := "Minification level (defaults to the manifest's, or high)" },
     { name := forceName
       about := "Rebuild even if the output is up to date" },
     { name := linksSourcesName
       about := "Link the individual sources instead of the output" },
     { name := stampsLinksName
       about := "Append `?t=<timestamp>` to every link" },
     .help]

def inspectForm : Form where
  name := "inspect".toList
  about := "Print the level recorded in a file's trailing token"
  operands := { slot := ⟨"FILE", .path⟩, isRequired := true, about := "Previously minified file" }
  options := [.help]

def helpForm : Form where
  name := "help".toList
  about := "Print this message or the help of the given subcommand(s)"
  operands :=
    { slot := ⟨"COMMAND", .text⟩, areSeveral := true, about := "Print help for the subcommand(s)" }
  options := []

def forms : List Form := [minifyForm, bundleForm, inspectForm, helpForm]

/-! ### Reading calls -/

def givenLevel? (arguments : List Argument) : Option Level := (value? arguments levelName).bind level?

def minify? (arguments : List Text) : Option Command :=
  match minifyForm.understand? arguments with
  | none => none
  | some understood =>
    if asksHelp understood then some (.help minifyForm)
    else some (.minify (operands understood).head? ((givenLevel? understood).getD .high))

/-- The call `bundle`: either a manifest, or root, output and sources. -/
def bundle? (arguments : List Text) : Option Command :=
  match bundleForm.understand? arguments with
  | none => none
  | some understood =>
    if asksHelp understood then some (.help bundleForm)
    else
      let options : BuildOptions :=
        { level := givenLevel? understood
          force := hasFlag understood forceName
          linksSources := hasFlag understood linksSourcesName
          stampsLinks := hasFlag understood stampsLinksName }
      match value? understood configName, value? understood rootName,
          value? understood outputName, operands understood with
      | some config, none, none, [] => some (.manifest config options)
      | none, some root, some output, source :: sources =>
        some (.bundle root output (source :: sources) options)
      | _, _, _, _ => none

def inspect? (arguments : List Text) : Option Command :=
  match inspectForm.understand? arguments with
  | none => none
  | some understood =>
    if asksHelp understood then some (.help inspectForm)
    else (operands understood).head?.map .inspect

/-- The call `help`, with the name of a command or without. -/
def help? : List Text → Option Command
  | [] => some (.help none)
  | [name] => (forms.find? (·.name == name)).map fun form => .help form
  | _ => none

/-- The call that the arguments of the program make. -/
def ofArguments? : List Text → Option Command
  | [] => none
  | first :: rest =>
    if first = "--version".toList || ['-', 'V'].isPrefixOf first then some .version
    else if first = "--help".toList || ['-', 'h'].isPrefixOf first then some (.help none)
    else if first = "minify".toList then minify? rest
    else if first = "bundle".toList then bundle? rest
    else if first = "inspect".toList then inspect? rest
    else if first = "help".toList then help? rest
    else none

end Command

end Stylepress.CommandLine
