/-
Which instruction does a job.

Most choices follow from a kind alone. Constants take the shortest form
that holds them: in the opcode, in one or two bytes, or in the constant
pool. Floating-point constants are compared by their bits, so that
negative zero is not taken for zero.
-/
import BytecodeBridge.Pool

namespace BytecodeBridge.Instr

-- ==== locals

def loadSlot (kind : StackKind) (slot : Nat) : Instr :=
  .load kind (.of slot)

def storeSlot (kind : StackKind) (slot : Nat) : Instr :=
  .store kind (.of slot)

-- ==== the stack

/-- Drops a value of a category. -/
def popOf (category : Nat) : Instr :=
  if category = 2 then .pop2 else .pop

/-- Duplicates a value of a category. -/
def dupOf (category : Nat) : Instr :=
  if category = 2 then .dup2 else .dup

-- ==== constants

/-- Loads a pool entry that takes one slot. -/
def ldcOf (index : Nat) : Instr :=
  match shortIndex? index with
  | some i => .ldc i
  | none => .ldcW index

def intConstant (value : Int32) : PoolM Instr :=
  let v := value.toInt
  if -1 ≤ v && v ≤ 5 then return .const .int v
  else if -128 ≤ v && v ≤ 127 then return .bipush v
  else if -32768 ≤ v && v ≤ 32767 then return .sipush v
  else return ldcOf (← Pool.integer value)

def longConstant (value : Int64) : PoolM Instr :=
  if value = 0 || value = 1 then return .const .long value.toInt
  else return .ldc2W (← Pool.long value)

/-- The bits of the 32-bit floats that have an instruction of their own. -/
def shortFloats : List (UInt32 × Int) :=
  [(0x00000000, 0), (0x3f800000, 1), (0x40000000, 2)]

/-- The bits of the 64-bit floats that have an instruction of their own. -/
def shortDoubles : List (UInt64 × Int) :=
  [(0x0000000000000000, 0), (0x3ff0000000000000, 1)]

def floatConstant (bits : UInt32) : PoolM Instr :=
  match shortFloats.lookup bits with
  | some v => return .const .float v
  | none => return ldcOf (← Pool.float bits)

def doubleConstant (bits : UInt64) : PoolM Instr :=
  match shortDoubles.lookup bits with
  | some v => return .const .double v
  | none => return .ldc2W (← Pool.double bits)

-- ==== arrays

/-- The element kind that array instructions use; without a primitive, the
elements are references. -/
def elemOf : Option Prim → Elem
  | some .bool | some .int8 | some .uint8 => .byte
  | some .char | some .uint16 => .char
  | some .int16 => .short
  | some .int32 | some .uint32 => .num .int
  | some .int64 | some .uint64 => .num .long
  | some .float32 => .num .float
  | some .float64 => .num .double
  | none => .reference

end BytecodeBridge.Instr
