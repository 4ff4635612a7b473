/-!
# Configuration of the analyses

## Main Definitions

* `Config` - four switches, all on unless said otherwise
* `Config.literal` - all switches off: what was recorded, and nothing beyond
-/

namespace Inquest

/-- The switches of the analyses. -/
structure Config where
  /-- The arguments of a call into unrecorded code are causes of the call. -/
  opaqueArguments : Bool := true
  /-- The iterations of a loop share one block. -/
  collapseLoops : Bool := true
  /-- A call site that cannot dispatch on the expected receivers is no caller. -/
  pruneByReceiver : Bool := true
  /-- A call site in an instance method of a class without instances is no caller. -/
  pruneUninstantiated : Bool := true
deriving DecidableEq

/-- All switches off. -/
def Config.literal : Config where
  opaqueArguments := false
  collapseLoops := false
  pruneByReceiver := false
  pruneUninstantiated := false

end Inquest
