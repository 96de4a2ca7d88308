/-
The kinds of value that both machines agree on.

A source primitive has a width and a signedness of its own, but on the
operand stack of the target every primitive is one of four numeric
kinds, and everything else is a reference. The tables below fix, for
each primitive, the kind it takes on the stack, the letter that stands
for it in descriptors, the class that wraps it and the code `newarray`
knows it by. The unsigned kinds share all of these with the signed kind
of the same width; only `isUnsigned` tells them apart.
-/

namespace BytecodeBridge

-- ==== numeric kinds

/-- The numeric kinds of the target's operand stack. -/
inductive NumKind where
  | int
  | long
  | float
  | double
deriving DecidableEq, Repr, Inhabited

/-- How a value is held on the operand stack. -/
inductive StackKind where
  | num (kind : NumKind)
  | reference
deriving DecidableEq, Repr, Inhabited

namespace NumKind

/-- Stack slots taken by a value of the kind. -/
def category : NumKind → Nat
  | long | double => 2
  | int | float => 1

/-- The letter that begins the kind's instruction names. -/
def letter : NumKind → String
  | int => "I"
  | long => "L"
  | float => "F"
  | double => "D"

/-- The letter that ends the name of a conversion into the kind. -/
def lowerLetter : NumKind → String
  | int => "i"
  | long => "l"
  | float => "f"
  | double => "d"

end NumKind

namespace StackKind

/-- Stack slots taken by a value of the kind. -/
def category : StackKind → Nat
  | num k => k.category
  | reference => 1

/-- The letter that begins the kind's instruction names. -/
def letter : StackKind → String
  | num k => k.letter
  | reference => "A"

end StackKind

-- ==== primitive kinds

/-- The primitive kinds of the source language. -/
inductive Prim where
  | bool
  | char
  | int8
  | uint8
  | int16
  | uint16
  | int32
  | uint32
  | int64
  | uint64
  | float32
  | float64
deriving DecidableEq, Repr, Inhabited

/-- The width of a primitive once it is on the operand stack. -/
inductive Width where
  | w32
  | w64
deriving DecidableEq, Repr

namespace Prim

/-- Every primitive kind, each once. -/
def all : List Prim :=
  [bool, char, int8, uint8, int16, uint16, int32, uint32, int64, uint64, float32, float64]

def width : Prim → Width
  | int64 | uint64 | float64 => .w64
  | _ => .w32

/-- The numeric kind that holds the primitive on the operand stack. -/
def numKind : Prim → NumKind
  | bool | char | int8 | uint8 | int16 | uint16 | int32 | uint32 => .int
  | int64 | uint64 => .long
  | float32 => .float
  | float64 => .double

def stackKind (k : Prim) : StackKind :=
  .num k.numKind

/-- Truth values and characters count as unsigned. -/
def isUnsigned : Prim → Bool
  | bool | char | uint8 | uint16 | uint32 | uint64 => true
  | _ => false

/-- The letter of the kind in field and method descriptors. -/
def descriptor : Prim → String
  | bool => "Z"
  | char => "C"
  | int8 | uint8 => "B"
  | int16 | uint16 => "S"
  | int32 | uint32 => "I"
  | int64 | uint64 => "J"
  | float32 => "F"
  | float64 => "D"

/-- The class that boxes the kind. -/
def wrapper : Prim → String
  | bool => "java/lang/Boolean"
  | char => "java/lang/Character"
  | int8 | uint8 => "java/lang/Byte"
  | int16 | uint16 => "java/lang/Short"
  | int32 | uint32 => "java/lang/Integer"
  | int64 | uint64 => "java/lang/Long"
  | float32 => "java/lang/Float"
  | float64 => "java/lang/Double"

/-- The method of the wrapper class that gives the primitive back. -/
def accessor : Prim → String
  | bool => "booleanValue"
  | char => "charValue"
  | int8 | uint8 => "byteValue"
  | int16 | uint16 => "shortValue"
  | int32 | uint32 => "intValue"
  | int64 | uint64 => "longValue"
  | float32 => "floatValue"
  | float64 => "doubleValue"

/-- The operand of `newarray` that makes an array of the kind. -/
def arrayCode : Prim → Nat
  | bool => 4
  | char => 5
  | float32 => 6
  | float64 => 7
  | int8 | uint8 => 8
  | int16 | uint16 => 9
  | int32 | uint32 => 10
  | int64 | uint64 => 11

/-- The kind's name in the source language. -/
def name : Prim → String
  | bool => "bool"
  | char => "char"
  | int8 => "int8"
  | uint8 => "uint8"
  | int16 => "int16"
  | uint16 => "uint16"
  | int32 => "int32"
  | uint32 => "uint32"
  | int64 => "int64"
  | uint64 => "uint64"
  | float32 => "float32"
  | float64 => "float64"

end Prim

/-- The primitive that stands for a numeric kind when nothing narrower is
known: the type of an arithmetic result. -/
def NumKind.prim : NumKind → Prim
  | .int => .int32
  | .long => .int64
  | .float => .float32
  | .double => .float64

/-- The kind a primitive stands for is the kind it has on the stack. -/
@[simp] theorem NumKind.numKind_prim (k : NumKind) : k.prim.numKind = k := by
  cases k <;> rfl

-- ==== comparisons

/-- The six ways two values can be compared. -/
inductive Comparison where
  | eq
  | ne
  | lt
  | ge
  | gt
  | le
deriving DecidableEq, Repr, Inhabited

/-- Whether a comparison asks for an order, and not only for equality. -/
def Comparison.isRelational : Comparison → Bool
  | eq | ne => false
  | lt | ge | gt | le => true

/-- The ending a comparison gives to the name of a conditional branch. -/
def Comparison.suffix : Comparison → String
  | eq => "eq"
  | ne => "ne"
  | lt => "lt"
  | ge => "ge"
  | gt => "gt"
  | le => "le"

end BytecodeBridge
