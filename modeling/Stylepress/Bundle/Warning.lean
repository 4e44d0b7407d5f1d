/-!
Warnings that are given once. A log remembers the warnings already given, and a warning is fresh
until it is in the log.
-/
namespace Stylepress

/-- The warnings given so far, the latest first. -/
structure WarningLog where
  given : List String := []
deriving DecidableEq, Repr, Inhabited

namespace WarningLog

/-- A warning of some part of the program. -/
def warning (component message : String) : String := "[" ++ component ++ "] " ++ message

def isFresh (log : WarningLog) (warning : String) : Bool := !log.given.contains warning

def record (log : WarningLog) (warning : String) : WarningLog :=
  if log.isFresh warning then ⟨warning :: log.given⟩ else log

/-- Those of the warnings that are given, in order, and the log after them. -/
def recordAll (log : WarningLog) : List String → List String × WarningLog
  | [] => ([], log)
  | warning :: rest =>
    let after := (log.record warning).recordAll rest
    (if log.isFresh warning then warning :: after.1 else after.1, after.2)

end WarningLog

end Stylepress
