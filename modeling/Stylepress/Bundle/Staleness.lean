import Stylepress.Css.Level
import Stylepress.Disk.Basic

/-!
Whether an output has to be made anew. An output on disk is trusted if it is later than every source;
a text at hand is reused if it is not empty and was made at the level asked for.
-/
namespace Stylepress

open Css (Level)

/-- Why an output has to be made anew. -/
inductive RebuildReason where
  | forced
  | noOutput
  | unknownLevel
  | levelChanged (made asked : Level)
deriving DecidableEq, Repr

def RebuildReason.message : RebuildReason → String
  | .forced => "forced"
  | .noOutput => "no previous output"
  | .unknownLevel => "previous output has no level token"
  | .levelChanged made asked =>
    "level changed from " ++ String.ofList made.name ++ " to " ++ String.ofList asked.name

/-- What to do about an output. -/
inductive Decision where
  | reuse
  | rebuild (reason : RebuildReason)
deriving DecidableEq, Repr

namespace Staleness

/-- Whether an output of some time is later than the newest source. -/
def isFresh : Option Time → Option Time → Bool
  | some output, some newest => newest < output
  | some _, none => true
  | none, _ => false

/-- What to do if `level` is asked for and `previous` is at hand, made at the level `made`. -/
def decision (level : Level) (force : Bool) (previous : Text) (made : Option Level) : Decision :=
  if force then .rebuild .forced
  else if previous.isEmpty then .rebuild .noOutput
  else
    match made with
    | none => .rebuild .unknownLevel
    | some made => if made = level then .reuse else .rebuild (.levelChanged made level)

end Staleness

end Stylepress
