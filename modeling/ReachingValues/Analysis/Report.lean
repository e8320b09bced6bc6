import ReachingValues.Analysis.ReachTable
import ReachingValues.Program.Listing

/-!
The printed result of an analysis: a heading, then a line for each block that was reached, followed
by a line for each value that reaches it.
-/

namespace ReachingValues

namespace Report

def heading : List String :=
  let banner := String.ofList (List.replicate 49 '=')
  [banner, "rivscope: RIV analysis results", banner, "BB id      Reachable Integer Values",
    String.ofList (List.replicate 49 '-')]

/-- Values stand in the second column. -/
def indent : String := String.ofList (List.replicate 13 ' ')

/-- The lines of one block. -/
def blockLines (p : Program) (f : FunctionId) (block : Node) (values : ValueSet) : List String :=
  ("BB " ++ p.blockReference f block) :: values.toList.map fun v => indent ++ p.valueText v

def lines (p : Program) (f : FunctionId) (result : ReachTable) : List String :=
  heading ++ result.toList.flatMap fun entry => blockLines p f entry.1 entry.2

/-- The report on a result, with the names that blocks and values have in the given function. -/
def text (p : Program) (f : FunctionId) (result : ReachTable) : String :=
  String.join ((lines p f result).map (· ++ "\n"))

end Report

end ReachingValues
