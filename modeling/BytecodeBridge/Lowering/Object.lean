/-
Calls, objects, fields, arrays and boxes.
-/
import BytecodeBridge.Lowering.Local

namespace BytecodeBridge.LowerM

-- ==== calls

/-- Pops the arguments of a call, the last first, and gives their types in the
order of the parameters. -/
def popArguments (params : List Ty) : LowerM (List Ty) := do
  let values ← params.reverse.mapM fun param => do
    let value ← pop
    unless (← stackKind value) = (← stackKind param) do
      throw (.malformed (.badArgument value param))
    return value
  return values.reverse

def methodDescriptor (params : List Ty) (returns : Option Ty) : LowerM String := do
  (← read).types.methodDescriptor params returns

/-- Calls another constructor. If the receiver is the object under construction,
it counts as initialised from here on. -/
def callConstructor (index : Nat) (receiver : Ty) : LowerM Unit := do
  emit (.invokeSpecial index)
  if receiver = .uninitThis then
    let owner := (← read).body.owner
    modifyFrames (·.replace .uninitThis owner)
    noteLocalsChanged

/-- Calls a method of an interface. -/
def callInterface (method : MethodRef) (index : Nat) : LowerM Unit := do
  let count := slotsOf method.params + 1
  if count > 255 then
    throw (.unsupported (.tooManyArguments method.name))
  emit (.invokeInterface index count)

/-- Whether a call that is not virtual reaches past an override, to a method of a
proper supertype. -/
def isSuperCall (cx : Context) (method : MethodRef) (virtual : Bool) : Bool :=
  !virtual && method.owner != cx.body.owner && cx.types.assignable cx.body.owner method.owner

def call (method : MethodRef) (virtual : Bool) : LowerM Unit := do
  let cx ← read
  let descriptor ← methodDescriptor method.params method.returns
  discard (popArguments method.params)
  let owner ← className method.owner
  let onInterface := cx.types.isInterface method.owner
  let index ← onPool (Pool.methodRef owner method.targetName descriptor onInterface)
  if method.isStatic then
    emit (.invokeStatic index)
  else
    let receiver ← popReference
    if method.isConstructor then
      callConstructor index receiver
    else if onInterface then
      callInterface method index
    else if isSuperCall cx method virtual then
      emit (.invokeSpecial index)
    else
      emit (.invokeVirtual index)
  if let some ty := method.returns then
    push ty

-- ==== objects

/-- Stores a popped value into a temporary slot. -/
def spill (value : Ty) : LowerM Nat := do
  let slot ← onSlots (Slots.borrow value)
  store slot value
  return slot

def releaseTemp (slot : Nat) : LowerM Unit := do
  onSlots (Slots.release slot)
  modifyFrames (·.clearLocal slot)

/-- Makes an object and calls its constructor. The arguments are on the stack
already, so they are spilled to let the new object go beneath them. -/
def newObject (method : MethodRef) : LowerM Unit := do
  let descriptor ← methodDescriptor method.params none
  let values ← popArguments method.params
  let temps ← values.reverse.mapM spill
  emit (.newObject (← classIndex method.owner))
  emit .dup
  temps.reverse.forM load
  noteDepth 2
  temps.forM fun _ => discard pop
  let name ← className method.owner
  let init ← onPool (Pool.methodRef name "<init>" descriptor false)
  emit (.invokeSpecial init)
  temps.reverse.forM releaseTemp
  push method.owner

-- ==== fields

def fieldIndex (field : FieldRef) : LowerM Nat := do
  let owner ← className field.owner
  let descriptor ← descriptor field.ty
  onPool (Pool.fieldRef owner field.name descriptor)

def loadField (field : FieldRef) (isStatic : Bool) : LowerM Unit := do
  let index ← fieldIndex field
  if isStatic then
    emit (.getStatic index)
  else
    discard popReference
    emit (.getField index)
  push field.ty

def storeField (field : FieldRef) (isStatic : Bool) : LowerM Unit := do
  let index ← fieldIndex field
  let value ← pop
  discard (coerce value field.ty)
  if isStatic then
    emit (.putStatic index)
  else
    discard popReference
    emit (.putField index)

-- ==== arrays

def popIndex : LowerM Unit := do
  let (ty, kind) ← popKind
  unless kind = .num .int do
    throw (.malformed (.badIndex ty))

/-- The type of the elements of an array. -/
def elementOf (array : Ty) : LowerM Ty :=
  match array.element? with
  | some element@(.array _ _) => make element
  | some element => return element
  | none => throw (.malformed (.notArray array))

def newArray (element : Ty) : LowerM Unit := do
  popIndex
  match element with
  | .prim k => emit (.newArray k.arrayCode)
  | _ => emit (.newRefArray (← classIndex element))
  pushNew (element.arrayOf 1)

def loadLength : LowerM Unit := do
  let array ← popReference
  discard (elementOf array)
  emit .arrayLength
  pushNew (.prim .int32)

def loadElement : LowerM Unit := do
  popIndex
  let array ← popReference
  let element ← elementOf array
  emit (.arrayLoad (Instr.elemOf element.prim?))
  push element

def storeElement : LowerM Unit := do
  let value ← pop
  popIndex
  let array ← popReference
  let element ← elementOf array
  unless (← stackKind value) = (← stackKind element) do
    throw (.malformed (.badElement value element))
  emit (.arrayStore (Instr.elemOf element.prim?))

-- ==== boxes

/-- Replaces an instance of a value type by a detached copy. -/
def cloneValue (ty : Ty) : LowerM Unit := do
  let cx ← read
  let name ← className ty
  let descriptor := "()" ++ TypeTable.classDescriptor cx.config.objectClass
  let index ← onPool (Pool.methodRef name cx.config.valueClone descriptor false)
  emit (.invokeVirtual index)
  emit (.checkCast (← onPool (Pool.classRef name)))

/-- Boxes the top of the stack. A reference is its own box. -/
def box (ty : Ty) : LowerM Unit := do
  let value ← pop
  match ty with
  | .prim k =>
    let descriptor := "(" ++ k.descriptor ++ ")" ++ TypeTable.classDescriptor k.wrapper
    invokeStatic ⟨k.wrapper, "valueOf", descriptor⟩
    pushNew (.boxed ty false)
  | .value _ =>
    cloneValue ty
    pushNew (.boxed ty false)
  | _ => push value

/-- Casts the popped top of the stack. A cast to a generic parameter is left to
those who use the value. -/
def castTo (ty : Ty) : LowerM Unit :=
  match ty with
  | .generic _ _ => return ()
  | .value _ | .prim _ => throw (.malformed (.badCast ty))
  | _ => do emit (.checkCast (← classIndex ty))

def castClass (ty : Ty) : LowerM Unit := do
  discard popReference
  castTo ty
  push ty

/-- Takes the top of the stack out of its box. -/
def unboxAny (ty : Ty) : LowerM Unit := do
  discard popReference
  match ty with
  | .prim k =>
    emit (.checkCast (← onPool (Pool.classRef k.wrapper)))
    let index ← onPool (Pool.methodRef k.wrapper k.accessor ("()" ++ k.descriptor) false)
    emit (.invokeVirtual index)
  | .value _ =>
    emit (.checkCast (← classIndex ty))
    cloneValue ty
  | _ => castTo ty
  push ty

end BytecodeBridge.LowerM
