/-
Loads, stores, and the coercions that stores make.

A store of a primitive truncates the value to the declared kind, unless
the value is known to have that kind already. A reference keeps the type
it has.
-/
import BytecodeBridge.Lowering.Flow

namespace BytecodeBridge.LowerM

/-- Pushes the value of a slot. A slot that may be unset is given a value first. -/
def load (slot : Nat) : LowerM Unit := do
  let ty ← match (← get).frames.local? slot with
    | some ty => pure ty
    | none => materialize slot
  let kind ← stackKind ty
  emit (.loadSlot kind slot)
  push ty

/-- Stores a value that is popped from the frame already. -/
def store (slot : Nat) (ty : Ty) : LowerM Unit := do
  let kind ← stackKind ty
  emit (.storeSlot kind slot)
  modifyFrames (·.setLocal slot ty)
  modifySlots (·.markWritten slot)
  noteLocalsChanged

/-- Truncates an `int` on the stack to a narrower kind. -/
def narrow : Prim → LowerM Unit
  | .int8 => emit (.narrow .byte)
  | .int16 => emit (.narrow .short)
  | .char | .uint16 => emit (.narrow .char)
  | .uint8 => do
    emit (.sipush 0xff)
    emit (.binary .and .int)
    noteDepth 2
  | _ => return ()

/-- Makes a popped value fit a type, and gives the type to record for it. -/
def coerce (value target : Ty) : LowerM Ty := do
  let valueKind ← stackKind value
  let targetKind ← stackKind target
  unless valueKind = targetKind do
    throw (.malformed (.badStore value target))
  match target with
  | .prim k =>
    unless value = .prim k do
      narrow k
    return target
  | _ => return if value.isReference then value else target

/-- Pops a value into a declared slot. -/
def storeDeclared (slot : Nat) : LowerM Unit := do
  let value ← pop
  let some declared := (← get).slots.declaredType? slot
    | throw (.internal (.slotUndeclared slot))
  store slot (← coerce value declared)

end BytecodeBridge.LowerM
