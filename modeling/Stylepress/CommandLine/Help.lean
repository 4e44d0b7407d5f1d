import Stylepress.CommandLine.Command

/-!
The pages of help: what the program or one of its commands is for, how it is called, and its operands,
options and commands, each of them with what it is about in a second column.
-/
namespace Stylepress.CommandLine

/-- A titled part of a page in two columns, with an empty line before it. -/
def twoColumns (title : String) (entries : List (String × String)) : String :=
  let width := (entries.map (·.1.length)).foldl max 0
  "\n" ++ title ++ ":\n" ++ String.join (entries.map fun entry =>
    "  " ++ entry.1.pushn ' ' (width - entry.1.length) ++ "  " ++ entry.2 ++ "\n")

/-- An option as help shows it. -/
def Known.shown (option : Known) : String :=
  (match option.letter with
    | some letter => "-" ++ String.singleton letter ++ ", "
    | none => "    ") ++
  "--" ++ String.ofList option.name ++
  (match option.slot with
    | some slot => " <" ++ slot.label ++ ">"
    | none => "")

/-- Operands as help shows them. -/
def Operands.shown (operands : Operands) : String :=
  (if operands.isRequired then "<" ++ operands.slot.label ++ ">" else "[" ++ operands.slot.label ++ "]") ++
    if operands.areSeveral then "..." else ""

namespace Form

/-- How a command is called. -/
def usage (form : Form) : String :=
  "crunchcss " ++ String.ofList form.name ++
    (if form.options.any (· != .help) then " [OPTIONS] " else " ") ++ form.operands.shown

def page (form : Form) : String :=
  form.about ++ "\n\nUsage: " ++ form.usage ++ "\n" ++
    twoColumns "Arguments" [(form.operands.shown, form.operands.about)] ++
    if form.options.isEmpty then ""
    else twoColumns "Options" (form.options.map fun option => (option.shown, option.about))

end Form

/-- What the page of the program ends with. -/
def notes : String :=
  "\nLEVELS:\n" ++
  "    0 | none     combine only\n" ++
  "    1 | low      one declaration per line\n" ++
  "    2 | medium   one ruleset per line\n" ++
  "    3 | high     a single line\n\n" ++
  "EXAMPLES:\n" ++
  "    # Minify a file\n" ++
  "    crunchcss minify site.css\n\n" ++
  "    # Minify stdin, keeping one declaration per line\n" ++
  "    cat site.css | crunchcss minify -l low\n\n" ++
  "    # Bundle two sources under a document root\n" ++
  "    crunchcss bundle --root ./public --output /css/all.css /css/reset.css /css/site.css\n\n" ++
  "    # Bundle from a manifest\n" ++
  "    crunchcss bundle --config crunch.toml\n\n" ++
  "    # Which level was this file built at?\n" ++
  "    crunchcss inspect public/css/all.css\n"

/-- The page of a command, or of the program. -/
def helpPage : Option Form → String
  | some form => form.page
  | none =>
    "Command-line front end for minifying and bundling stylesheets\n\n" ++
      "Usage: crunchcss <COMMAND>\n" ++
      twoColumns "Commands" (Command.forms.map fun form => (String.ofList form.name, form.about)) ++
      twoColumns "Options" [("-h, --help", Known.help.about), ("-V, --version", "Print version")] ++
      notes

end Stylepress.CommandLine
