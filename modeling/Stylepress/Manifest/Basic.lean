import Stylepress.Bundle.Policy
import Stylepress.Css.Level
import Stylepress.Manifest.Toml.Document

/-!
Manifests: files that describe a bundle. A manifest gives the document root, the sources and the
output, and may give a level and three switches; every key is known, none is repeated.
-/
namespace Stylepress

/-- A bundle as a manifest describes it. -/
structure Manifest where
  /-- The document root on disk. -/
  root : Text
  /-- The sources, as paths from the document root. -/
  sources : List Text
  /-- The output, as a path from the document root. -/
  output : Text
  /-- The number of the level. -/
  level : Int := 0
  /-- Whether the output is made anew in any case. -/
  force : Bool := false
  linksSources : Bool := false
  stampsLinks : Bool := false
deriving DecidableEq, Repr

namespace Manifest

/-- Why a text is no manifest. -/
inductive Defect where
  | malformed
  | repeatedKey (key : Text)
  | unknownKey (key : Text)
  | missingKey (key : Text)
  | wrongType (key : Text)
deriving DecidableEq, Repr

def Defect.message : Defect → String
  | .malformed => "not a list of keys and values"
  | .repeatedKey key => "repeated key " ++ String.ofList key
  | .unknownKey key => "unknown key " ++ String.ofList key
  | .missingKey key => "missing key " ++ String.ofList key
  | .wrongType key => "wrong type of value for key " ++ String.ofList key

def rootKey : Text := "doc_root".toList

def sourcesKey : Text := "sources".toList

def outputKey : Text := "output".toList

def levelKey : Text := "level".toList

def forceKey : Text := "force".toList

def linksSourcesKey : Text := "dev_mode".toList

def stampsLinksKey : Text := "cache_buster".toList

def keys : List Text :=
  [rootKey, sourcesKey, outputKey, levelKey, forceKey, linksSourcesKey, stampsLinksKey]

/-- A key that stands in two of the pairs. -/
def repeated? : List (Text × Toml.Value) → Option Text
  | [] => none
  | (key, _) :: rest => if (rest.lookup key).isSome then some key else repeated? rest

/-- The text under a key that must be there. -/
def text (pairs : List (Text × Toml.Value)) (key : Text) : Except Defect Text :=
  match pairs.lookup key with
  | some (.text text) => .ok text
  | some _ => .error (.wrongType key)
  | none => .error (.missingKey key)

/-- The texts under a key that must be there. -/
def texts (pairs : List (Text × Toml.Value)) (key : Text) : Except Defect (List Text) :=
  match pairs.lookup key with
  | some (.texts texts) => .ok texts
  | some _ => .error (.wrongType key)
  | none => .error (.missingKey key)

/-- The number under a key, zero if the key is not there. -/
def number (pairs : List (Text × Toml.Value)) (key : Text) : Except Defect Int :=
  match pairs.lookup key with
  | some (.integer number) => .ok number
  | some _ => .error (.wrongType key)
  | none => .ok 0

/-- The switch under a key, off if the key is not there. -/
def switch (pairs : List (Text × Toml.Value)) (key : Text) : Except Defect Bool :=
  match pairs.lookup key with
  | some (.boolean truth) => .ok truth
  | some _ => .error (.wrongType key)
  | none => .ok false

/-- The manifest of a list of pairs. -/
def ofPairs (pairs : List (Text × Toml.Value)) : Except Defect Manifest := do
  if let some key := repeated? pairs then throw (.repeatedKey key)
  if let some pair := pairs.find? fun pair => !keys.contains pair.1 then
    throw (.unknownKey pair.1)
  return {
    root := ← text pairs rootKey
    sources := ← texts pairs sourcesKey
    output := ← text pairs outputKey
    level := ← number pairs levelKey
    force := ← switch pairs forceKey
    linksSources := ← switch pairs linksSourcesKey
    stampsLinks := ← switch pairs stampsLinksKey
  }

def ofText (t : Text) : Except Defect Manifest :=
  match Toml.parse? t with
  | none => .error .malformed
  | some pairs => ofPairs pairs

def pressLevel (manifest : Manifest) : Css.Level := Css.Level.coerce manifest.level

def policy (manifest : Manifest) : Policy :=
  { linksSources := manifest.linksSources, stampsLinks := manifest.stampsLinks }

end Manifest

end Stylepress
