import ReachingValues.Analysis.Settings
import ReachingValues.IndexSet.Basic
import ReachingValues.Program.Basic

/-!
Which tracked values each block of a function defines, and which ones hold at its entry before any
instruction is executed.
-/

namespace ReachingValues

/-- One set for each block of a function, over the handles of one program. -/
structure Definitions where
  sets : Array ValueSet

namespace Definitions

/-- The values that a block defines; nothing for an unknown block. -/
def get? (d : Definitions) (b : Node) : Option ValueSet := d.sets[b]?

def blockCount (d : Definitions) : Nat := d.sets.size

/-- The number of definitions in all blocks together. -/
def total (d : Definitions) : Nat := d.sets.foldl (fun total s => total + s.count) 0

end Definitions

namespace Program

/-- Whether a value is tracked by the type that `tyOf` takes from it. -/
def tracks (p : Program) (tyOf : Value → Ty) (tracked : TyClasses) (v : ValueId) : Bool :=
  (p.value? v).any fun value => (tyOf value).isTracked tracked

/-- The tracked values among the results of some instructions. -/
def definedBy (p : Program) (tracked : TyClasses) (instructions : Array Instruction) :
    Except Fault ValueSet :=
  IndexSet.ofList p.valueCount
    ((instructions.toList.map (·.value)).filter (p.tracks Value.contentTy tracked))

/-- The tracked definitions of every block of a function, reachable or not. -/
def definitions (p : Program) (f : Function) (tracked : TyClasses) : Except Fault Definitions := do
  let sets ← f.flow.labels.toList.mapM fun block => p.definedBy tracked block.instructions
  return ⟨sets.toArray⟩

/-- The tracked values that hold at the entry of a function: global variables, if they are asked
for, by the type of their storage, and parameters by their own type. -/
def seed (p : Program) (f : Function) (settings : Settings) : Except Fault ValueSet :=
  let globals := if settings.includeGlobals then p.globals.toList else []
  IndexSet.ofList p.valueCount
    (globals.filter (p.tracks Value.contentTy settings.tracked) ++
      f.params.filter (p.tracks Value.ty settings.tracked))

end Program

end ReachingValues
