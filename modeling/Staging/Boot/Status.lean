/-!
# Status codes of the boot services
-/

namespace Staging.Boot

/-- Why a boot service failed. -/
inductive Status where
  | invalidParameter
  | badBufferSize
  | outOfResources
  | notFound
deriving DecidableEq, Repr

/-- The name of a status. -/
def Status.name : Status → String
  | invalidParameter => "INVALID_PARAMETER"
  | badBufferSize => "BAD_BUFFER_SIZE"
  | outOfResources => "OUT_OF_RESOURCES"
  | notFound => "NOT_FOUND"

end Staging.Boot
