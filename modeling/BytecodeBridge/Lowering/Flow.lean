/-
Control flow: saving frames at labels, and transferring to them.

Whatever transfers to a label saves the live frame there first, with
every declared slot widened to its declared type. If that changes the
frame of a label whose code is already emitted, the variables among the
changed slots are given a default value before the method starts, and
with it a value on every path.
-/
import BytecodeBridge.Lowering.State

namespace BytecodeBridge.LowerM

-- ==== default values

/-- The instructions that push the default value of a type, and the stack slots
they use. -/
def defaultValue (ty : Ty) (kind : StackKind) : LowerM (List Instr × Nat) := do
  if ty.isValue then
    let name ← className ty
    let index ← onPool (Pool.classRef name)
    let init ← onPool (Pool.methodRef name "<init>" "()V" false)
    return ([.newObject index, .dup, .invokeSpecial init], 2)
  match kind with
  | .num k => return ([.const k 0], k.category)
  | .reference => return ([.constNull], 1)

/-- Stores a default value into a slot before the method starts. -/
def emitDefault (slot : Nat) (ty : Ty) : LowerM Unit := do
  let kind ← stackKind ty
  let (instrs, depth) ← defaultValue ty kind
  modifyCode fun code => (instrs ++ [Instr.storeSlot kind slot]).foldl CodeBuffer.emitPrologue code
  modify fun s => { s with prologueStack := max s.prologueStack depth }
  modifySlots (·.markWritten slot)

/-- Gives a declared slot its declared type wherever it is unset. A variable also
gets a default value before the method starts, once. -/
def materialize (slot : Nat) : LowerM Ty := do
  let some d := (← get).slots.declared? slot
    | throw (.internal (.slotUnwritten slot))
  match d.kind with
  | .argument => pure ()
  | .synthetic => throw (.internal (.syntheticUnwritten slot))
  | .variable =>
    unless (← get).slots.isDefaulted slot do
      modifySlots (·.markDefaulted slot)
      report (.defaulted slot d.ty)
      emitDefault slot d.ty
  modifyFrames (·.materialize slot d.ty)
  return d.ty

-- ==== saving frames

/-- A frame with every declared slot at its declared type. -/
def widen (T : TypeTable) (slots : Slots) (frame : Frame) : Frame :=
  { frame with
    locals := frame.locals.map fun slot ty =>
      match slots.declaredType? slot with
      | some d => if T.assignable ty d then d else ty
      | none => ty }

/-- The live frame with every declared slot at its declared type. -/
def widened : LowerM Frame := do
  let s ← get
  return widen (← read).types s.slots s.frames.live

/-- Deals with what saving a frame did: variables that a change unset get a
default value. -/
def settleSaved (label : Label) : Saved → LowerM Unit
  | .invalidated locals stack => do
    report (.frameChanged label locals stack)
    locals.forM fun slot => do
      if (← get).slots.isVariable slot then
        discard (materialize slot)
  | _ => return ()

/-- Saves a frame at a label. -/
def saveFrame (label : Label) (frame : Frame) : LowerM Unit := do
  let types := (← read).types
  let s ← get
  let (frames, saved) := s.frames.save types label frame true false
  let made := s.frames.saveMakes types label frame
  modify fun s => { s with frames, made := made.reverse ++ s.made }
  settleSaved label (← saved)

/-- Saves the live frame at a label. -/
def save (label : Label) : LowerM Unit := do
  saveFrame label (← widened)

/-- Saves the live locals at the handler of a region, which is entered with
nothing on the stack but what was thrown. -/
def saveAtHandler (region : Nat) : LowerM Unit := do
  saveFrame (.handler region) { ← widened with stack := [(← read).types.throwable] }

/-- Tells the handlers of the enclosing regions that a local has changed. -/
def noteLocalsChanged : LowerM Unit := do
  let cx ← read
  (cx.regions.protecting cx.current).forM saveAtHandler

-- ==== transfers

/-- Branches to a label with an instruction whose offset is filled in later. -/
def branchTo (i : Instr) (label : Label) : LowerM Unit := do
  save label
  modifyCode (·.branch i label)

def jump (label : Label) : LowerM Unit := do
  branchTo (.goto 0) label
  endBlock

/-- Pops an `int` and jumps by it: to one of the targets, counted from `low`, or
else to the default. -/
def switchTo (low : Int) (targets : List Label) (default : Label) : LowerM Unit := do
  let (ty, kind) ← popKind
  unless kind = .num .int do
    throw (.malformed (.switchOn ty))
  (targets ++ [default]).forM save
  modifyCode (·.table low targets default)
  endBlock

/-- Binds a label here, in code that control or a branch reaches. -/
def bindHere (label : Label) : LowerM Unit := do
  modifyFrames (·.markBound label)
  modifyCode (·.bind label)
  modify fun s => { s with reachable := true }

def loadFrame (label : Label) : LowerM Unit := do
  setFrames (← (← get).frames.load label)

/-- Binds a label inside the code of an operation. -/
def bindLabel (label : Label) : LowerM Unit := do
  let s ← get
  if s.frames.has label then
    if s.reachable then
      save label
    loadFrame label
  else if s.reachable then
    save label
  else
    throw (.internal (.noFrameReaches label))
  bindHere label

end BytecodeBridge.LowerM
