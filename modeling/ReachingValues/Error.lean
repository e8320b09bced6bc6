import ReachingValues.Fault
import ReachingValues.Graph.Basic
import ReachingValues.Program.Instruction
import ReachingValues.Tree.Defect

/-!
Everything that can be wrong with an input, by cause, and the one place where it is put into words.
-/

namespace ReachingValues

/-- A function that is not well formed. -/
inductive Malformation where
  | noSuchParameter (function : String) (count position : Nat)
  /-- An instruction was to be added after the end of a block. -/
  | blockClosed (label : String) (opcode : Opcode)
  /-- The last instruction of a block does not end it. -/
  | blockOpen (label function : String)
  deriving DecidableEq

def Malformation.message : Malformation → String
  | .noSuchParameter function count position =>
    "Function '" ++ function ++ "' has " ++ toString count ++ " parameters, requested #" ++
      toString position
  | .blockClosed label opcode =>
    "Block '" ++ label ++ "' already ends in a terminator, cannot append '" ++
      opcode.mnemonic ++ "'"
  | .blockOpen label function =>
    "Block '" ++ label ++ "' of function '" ++ function ++ "' has no terminator"

inductive Error where
  | malformed (cause : Malformation)
  /-- A function without blocks. -/
  | empty
  | unknownBlock (block : Node)
  | unknownValue (value : ValueId)
  | unknownFunction (function : FunctionId)
  | rootMismatch (expected found : Node)
  | invalidTree (defect : TreeDefect)
  /-- The result of an analysis was asked for a block that it did not reach. -/
  | unreached (block : Node)
  | edge (cause : EdgeError)
  /-- Not an error of the input: an operation was called outside its domain. -/
  | fault (cause : Fault)
  deriving DecidableEq

def Error.message : Error → String
  | .malformed cause => cause.message
  | .empty => "Provided input was empty"
  | .unknownBlock block => "Block " ++ Node.text block ++ " does not exist in the function"
  | .unknownValue value => "Value " ++ ValueId.text value ++ " does not exist in the module"
  | .unknownFunction function =>
    "Function #" ++ toString function ++ " does not exist in the module"
  | .rootMismatch expected found =>
    "Dominator tree is rooted at " ++ Node.text found ++ ", but the function entry is " ++
      Node.text expected
  | .invalidTree defect => "Invalid dominator tree - " ++ defect.message
  | .unreached block => "Block " ++ Node.text block ++ " was not reached by the analysis"
  | .edge cause => cause.message
  | .fault _ => "Precondition violated"

end ReachingValues
