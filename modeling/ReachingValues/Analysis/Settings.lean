import ReachingValues.Program.Ty
import ReachingValues.Tree.Walk

/-!
What an analysis can be asked to do.
-/

namespace ReachingValues

structure Settings where
  /-- The classes of values to look for. -/
  tracked : TyClasses
  /-- The order in which the tree is walked. -/
  order : Order
  /-- Whether the tree is checked against the function before it is walked. -/
  checkTree : Bool
  /-- Whether global variables reach the entry. -/
  includeGlobals : Bool
  deriving DecidableEq

namespace Settings

/-- Integers are tracked, in depth-first order, with all checks and all global variables. -/
def standard : Settings := ⟨.integers, .depthFirst, true, true⟩

/-- As `standard`, but any tree is walked as it is. -/
def unchecked : Settings := { standard with checkTree := false }

/-- As `standard` for other classes of values. -/
def tracking (tracked : TyClasses) : Settings := { standard with tracked := tracked }

end Settings

end ReachingValues
