/-!
Handles name the nodes of a graph, the values of a program and its functions. Each kind is dense:
the first one made is 0 and the next ones follow. A handle may also be any other number, which names
nothing; whether a table has room for it is told where the table grows. This module holds their
written forms.
-/

namespace ReachingValues

/-- A node of a graph; the basic blocks of a function are nodes of its control flow graph. -/
abbrev Node := Nat

/-- A value of a program. -/
abbrev ValueId := Nat

/-- A function of a program. -/
abbrev FunctionId := Nat

/-- The short form of a node, used in messages. -/
def Node.text (n : Node) : String := "n" ++ toString n

/-- The long form of a node, which tells its kind. -/
def Node.taggedText (n : Node) : String := "NodeId(" ++ toString n ++ ")"

/-- The short form of a value, used in messages and inside printed sets. -/
def ValueId.text (v : ValueId) : String := "v" ++ toString v

/-- The short form of a function. -/
def FunctionId.text (f : FunctionId) : String := "fn" ++ toString f

/-- The long form of a function, which tells its kind. -/
def FunctionId.taggedText (f : FunctionId) : String := "FunctionId(" ++ toString f ++ ")"

end ReachingValues
