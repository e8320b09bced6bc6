/-!
Types of values, and the classes into which an analysis sorts them. A class set is eight binary
digits. Three of them stand for classes, the others are kept and match no type.
-/

namespace ReachingValues

/-- The type of a value. Integers and floating point numbers have a width in bits. -/
inductive Ty where
  | void
  | int (bits : Nat)
  | float (bits : Nat)
  | pointer
  | label
  deriving DecidableEq

/-- A set of classes of types. -/
structure TyClasses where
  bits : BitVec 8
  deriving DecidableEq

namespace TyClasses

def none : TyClasses := ⟨0⟩

def integers : TyClasses := ⟨1⟩

def floats : TyClasses := ⟨2⟩

def pointers : TyClasses := ⟨4⟩

/-- The three classes that exist. -/
def all : TyClasses := ⟨7⟩

def isEmpty (s : TyClasses) : Bool := s.bits == 0

/-- Whether every digit of `t` is one in `s`. -/
def contains (s t : TyClasses) : Bool := s.bits &&& t.bits == t.bits

def intersects (s t : TyClasses) : Bool := s.bits &&& t.bits != 0

def union (s t : TyClasses) : TyClasses := ⟨s.bits ||| t.bits⟩

/-- The digits that stand for classes. -/
def truncate (s : TyClasses) : TyClasses := ⟨s.bits &&& all.bits⟩

/-- The digits that stand for no class. -/
def excess (s : TyClasses) : BitVec 8 := s.bits &&& ~~~all.bits

/-- The set itself, provided that every digit stands for a class. -/
def known? (s : TyClasses) : Option TyClasses := if s.excess = 0 then some s else Option.none

/-- The names of the classes in the set, and digits that stand for no class in hexadecimal. -/
def parts (s : TyClasses) : List String :=
  let named := [(integers, "INTEGER"), (floats, "FLOAT"), (pointers, "POINTER")]
  (named.filter fun entry => s.contains entry.1).map (·.2) ++
    if s.excess = 0 then [] else ["0x" ++ String.ofList (Nat.toDigits 16 s.excess.toNat)]

def text (s : TyClasses) : String :=
  "TypeClass(" ++ (if s.isEmpty then "0x0" else String.intercalate " | " s.parts) ++ ")"

end TyClasses

namespace Ty

/-- The integers of one bit, which comparisons produce. -/
def truth : Ty := .int 1

/-- The class of a type. Types of no value have none. -/
def classes : Ty → TyClasses
  | .int _ => .integers
  | .float _ => .floats
  | .pointer => .pointers
  | .void | .label => .none

def isInteger : Ty → Bool
  | .int _ => true
  | _ => false

def isVoid : Ty → Bool
  | .void => true
  | _ => false

/-- Whether values of this type belong to a tracked class. A type without a class never does. -/
def isTracked (k : Ty) (tracked : TyClasses) : Bool :=
  !k.classes.isEmpty && tracked.contains k.classes

/-- The two usual widths of floating point numbers have names of their own. -/
def text : Ty → String
  | .void => "void"
  | .int bits => "i" ++ toString bits
  | .float 32 => "float"
  | .float 64 => "double"
  | .float bits => "f" ++ toString bits
  | .pointer => "ptr"
  | .label => "label"

end Ty

end ReachingValues
