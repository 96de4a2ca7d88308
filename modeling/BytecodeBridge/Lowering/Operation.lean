/-
Lowering one operation of the source.

`enter` puts the live frame in place before an operation: it emits the
handler that belongs in front of the operation, and merges the frames of
everything that reaches it. `lowerOp` then emits the operation's code.
-/
import BytecodeBridge.Lowering.Arithmetic
import BytecodeBridge.Lowering.Exception
import BytecodeBridge.Lowering.Object

namespace BytecodeBridge.LowerM

-- ==== entry

/-- Finds the frame that the operation at an offset starts from. Code that
nothing reaches so far goes on from the frame of the code before it, which is put
aside for a branch that may reach it yet. -/
def enterFrame (offset : Nat) : LowerM Unit := do
  let label : Label := .source offset
  let s ← get
  if s.frames.has label then
    if s.reachable then
      save label
    loadFrame label
  else if s.reachable then
    if (← read).targets.contains offset then
      save label
      loadFrame label
  else
    let frame ← widened
    modifyFrames (·.defer label frame)

/-- Prepares the live frame for the operation at an offset. -/
def enter (offset : Nat) : LowerM Unit := do
  let regions := (← read).regions
  if let some r := regions.handlerAt? offset then
    emitDispatch r
  enterFrame offset
  bindHere (.source offset)
  (regions.startingAt offset).forM saveAtHandler

-- ==== operations

/-- Emits an instruction that pushes a value of a type. -/
def emitPush (ty : Ty) (i : Instr) : LowerM Unit := do
  emit i
  push ty

/-- Emits an instruction that pushes a value of a type the lowering makes. -/
def emitNew (ty : Ty) (i : Instr) : LowerM Unit := do
  emit i
  pushNew ty

/-- Returns a value of a type, or none. -/
def returnAs : Option Ty → LowerM Unit
  | some ty => do
    let value ← pop
    discard (coerce value ty)
    emit (.returnValue (← stackKind ty))
    endBlock
  | none => do
    emit .returnVoid
    endBlock

/-- Returns from the method. A constructor has to have called another one. -/
def ret : LowerM Unit := do
  let body := (← read).body
  if body.kind = .constructor then
    if (← get).frames.live.locals.entries.any fun e => e.2 == .uninitThis then
      throw (.malformed .earlyConstructorReturn)
  returnAs body.returns

/-- Emits the code of the operation at an offset. -/
def lowerOp (offset : Nat) : Op → LowerM Unit
  | .nop => return ()
  | .loadArg i => do load (← (← get).slots.argumentSlot i)
  | .loadLocal i => do load (← (← get).slots.variableSlot i)
  | .storeArg i => do storeDeclared (← (← get).slots.argumentSlot i)
  | .storeLocal i => do storeDeclared (← (← get).slots.variableSlot i)
  | .addressOf i => throw (.unsupported (.addressOfLocal i))
  | .loadInt32 v => do emitNew (.prim .int32) (← onPool (Instr.intConstant v))
  | .loadInt64 v => do emitNew (.prim .int64) (← onPool (Instr.longConstant v))
  | .loadFloat32 bits => do emitNew (.prim .float32) (← onPool (Instr.floatConstant bits))
  | .loadFloat64 bits => do emitNew (.prim .float64) (← onPool (Instr.doubleConstant bits))
  | .loadNull => emitNew .null .constNull
  | .loadString text => do
    let index ← onPool (Pool.stringRef text)
    emitNew (.ref (← read).config.stringClass) (.ldcOf index)
  | .dup => do
    let ty ← peek
    emitPush ty (.dupOf ty.category)
  | .pop => dropTop
  | .arithmetic op => arithmetic op
  | .convert target checked => convert target checked
  | .compare way unsigned => compare way unsigned
  | .branch way unsigned target => branchWhen way unsigned target
  | .branchIf truth target => branchIf truth target
  | .jump target => jump (.source target)
  | .switch targets => switch offset targets
  | .ret => ret
  | .throw => throwTop
  | .rethrow => rethrow offset
  | .leave target => leave offset target
  | .endFinally => endFinally offset
  | .endFilter => endFilter offset
  | .call method virtual => call method virtual
  | .newObject method => newObject method
  | .loadField field isStatic => loadField field isStatic
  | .storeField field isStatic => storeField field isStatic
  | .newArray element => newArray element
  | .loadLength => loadLength
  | .loadElement => loadElement
  | .storeElement => storeElement
  | .box ty => box ty
  | .unboxAny ty => unboxAny ty
  | .castClass ty => castClass ty
  | .isInstance ty => isInstance ty

/-- Lowers the operation at an offset, with what goes in front of it. -/
def lowerAt (offset : Nat) (op : Op) : LowerM Unit :=
  withReader (fun cx => { cx with current := offset }) do
    enter offset
    lowerOp offset op

end BytecodeBridge.LowerM
