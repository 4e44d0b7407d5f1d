import Stylepress.Disk.Path

/-!
Web paths: paths from the document root, as they stand in a link. A web path starts with exactly one
slash and, unless it is the root itself, does not end with one. Below the root it is resolved on
disk; its last name has an extension if a dot stands behind the name's first character.
-/
namespace Stylepress.WebPath

/-- `path` with slashes for back slashes. -/
def withSlashes (path : Text) : Text := path.map fun c => if c = '\\' then '/' else c

/-- The web path that a path stands for. -/
def ofText (path : Text) : Text :=
  '/' :: Text.dropEndWhile (· == '/') ((withSlashes path).dropWhile (· == '/'))

/-- A directory on disk without slashes at its end. -/
def diskRoot (path : Text) : Text := Text.dropEndWhile (· == '/') (withSlashes path)

/-- The path on disk of a web path below a document root. -/
def resolve (root web : Text) : Text := Disk.Path.join root (web.dropWhile (· == '/'))

/-- Without its leading slashes a path is relative. -/
theorem isAbsolute_dropWhile (web : Text) : Disk.Path.isAbsolute (web.dropWhile (· == '/')) = false := by
  have stops := List.head?_dropWhile_not (· == '/') web
  cases first : (web.dropWhile (· == '/')).head? with
  | none => simp [Disk.Path.isAbsolute, Text.startsWith, first]
  | some c => simpa [Disk.Path.isAbsolute, Text.startsWith, first] using stops

/-- A web path goes on below the root and never takes its place. -/
theorem resolve_eq (root web : Text) :
    resolve root web =
      if root.isEmpty || root.endsWith '/' then root ++ web.dropWhile (· == '/')
      else root ++ '/' :: web.dropWhile (· == '/') := by
  rw [resolve, Disk.Path.join, isAbsolute_dropWhile]
  rfl

def fileName (web : Text) : Text := (web.reverse.takeWhile (· != '/')).reverse

/-- What stands before and behind the last dot of a name, if something stands before it. -/
def splitName? (name : Text) : Option (Text × Text) :=
  match name.reverse.dropWhile (· != '.') with
  | _ :: before =>
    if before.isEmpty then none
    else some (before.reverse, (name.reverse.takeWhile (· != '.')).reverse)
  | [] => none

def extension? (web : Text) : Option Text := (splitName? (fileName web)).map (·.2)

def stem (web : Text) : Text :=
  match splitName? (fileName web) with
  | some parts => parts.1
  | none => fileName web

end Stylepress.WebPath
