import ReachingValues.Analysis.Propagation
import ReachingValues.Analysis.TreeCheck

/-!
The analysis of a function, along its own dominator tree or along one handed in, and of all
functions of a program.
-/

namespace ReachingValues

namespace Program

/-- The values that reach each block, when they flow down the given tree. -/
def reachAlong (p : Program) (settings : Settings) (f : Function) (tree : TreeView) :
    Except Error ReachTable := do
  if settings.checkTree then f.checkTree tree
  (do
    let definitions ← p.definitions f settings.tracked
    definitions.propagate tree (← p.seed f settings) settings.order).mapError Error.fault

/-- The values that reach each block of a function. -/
def reach (p : Program) (settings : Settings) (f : Function) : Except Error ReachTable := do
  p.reachAlong settings f (← f.dominatorTree.mapError .fault).view

/-- Analyses the function with the given handle. -/
def run (p : Program) (settings : Settings) (f : FunctionId) : Except Error ReachTable := do
  p.reach settings (← p.function f)

/-- Analyses the function with the given handle along the given tree. -/
def runAlong (p : Program) (settings : Settings) (f : FunctionId) (tree : TreeView) :
    Except Error ReachTable := do
  p.reachAlong settings (← p.function f) tree

/-- The answer for a function, together with its handle. -/
def answer (p : Program) (settings : Settings) (f : Function) :
    Except Error (FunctionId × ReachTable) := do
  return (f.id, ← p.reach settings f)

/-- Analyses all functions in the order of their handles. -/
def runAll (p : Program) (settings : Settings) : Except Error (List (FunctionId × ReachTable)) :=
  p.functions.toList.mapM (p.answer settings)

/-- Analyses all functions through a given map, which may treat several of them at once. -/
def runAllThrough
    (mapAll : (Function → Except Error (FunctionId × ReachTable)) → List Function →
      Except Error (List (FunctionId × ReachTable)))
    (p : Program) (settings : Settings) : Except Error (List (FunctionId × ReachTable)) :=
  mapAll (p.answer settings) p.functions.toList

end Program

end ReachingValues
