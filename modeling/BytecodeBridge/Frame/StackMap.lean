/-
Stack-map entries: frames in the form that class files give them.

The locals of an entry are listed from slot 0 up without their numbers;
a reader finds the slots again by giving `long` and `double` two slots
and everything else one. A gap between set slots is filled with `top`s.
-/
import BytecodeBridge.Frame
import BytecodeBridge.Pool
import BytecodeBridge.TypeTable.Name

namespace BytecodeBridge

/-- A type as the target's verifier knows it. -/
inductive VType where
  | top
  | integer
  | float
  | double
  | long
  | null
  | uninitThis
  /-- a class, by its index in the constant pool -/
  | object (index : Nat)
deriving DecidableEq, Repr, Inhabited

namespace VType

/-- Slots a value of the type takes. -/
def category : VType → Nat
  | double | long => 2
  | _ => 1

def text : VType → String
  | top => "Top"
  | integer => "Integer"
  | float => "Float"
  | double => "Double"
  | long => "Long"
  | null => "Null"
  | uninitThis => "UninitializedThis"
  | object i => s!"Object({i})"

def ofNumKind : NumKind → VType
  | .int => .integer
  | .long => .long
  | .float => .float
  | .double => .double

/-- The verifier's type for a type; a class it needs is added to the pool. -/
def ofTy (T : TypeTable) : Ty → PoolM VType
  | .top => return .top
  | .null => return .null
  | .uninitThis => return .uninitThis
  | .prim k => return ofNumKind k.numKind
  | t => do
    let name ← T.className t
    return .object (← Pool.classRef name)

end VType

/-- One entry of a stack map. -/
structure StackMapEntry where
  offset : Nat
  locals : List VType
  /-- the bottom first -/
  stack : List VType
deriving DecidableEq, Repr, Inhabited

namespace StackMapEntry

/-- The locals from slot `next` up, given the set slots in ascending order. A set
slot below `next` is the upper half of a wide local and is not listed. -/
def layoutFrom (T : TypeTable) (next : Nat) : List (Nat × Ty) → PoolM (List VType)
  | [] => return []
  | (slot, t) :: rest =>
    if slot < next then layoutFrom T next rest
    else do
      let v ← VType.ofTy T t
      let others ← layoutFrom T (slot + t.category) rest
      return List.replicate (slot - next) .top ++ v :: others

/-- The entry of a frame. -/
def ofFrame (T : TypeTable) (offset : Nat) (frame : Frame) : PoolM StackMapEntry := do
  if offset > 65535 then
    throw (.internal .frameOffsetRange)
  let locals ← layoutFrom T 0 frame.locals.entries
  let stack ← frame.stack.reverse.mapM (VType.ofTy T)
  return { offset, locals, stack }

end StackMapEntry

end BytecodeBridge
