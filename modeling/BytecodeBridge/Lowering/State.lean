/-
The state of lowering one method.

A lowering reads a `Context`, which does not change, and carries a
`LowerState`: the frames and slots it tracks, the code it has emitted, and the
constant pool it shares with the other methods of the class. It runs in
`LowerM`, where a failure keeps the state it was met in, so that the
caller can see the pool as it was left and the events up to there.
-/
import BytecodeBridge.Code
import BytecodeBridge.Event
import BytecodeBridge.Frame.Store
import BytecodeBridge.Instr.Select
import BytecodeBridge.Region
import BytecodeBridge.Slots
import BytecodeBridge.TypeTable.Name

namespace BytecodeBridge

/-- What a lowering reads. -/
structure Context where
  config : Config
  types : TypeTable
  body : Body
  regions : RegionTree
  /-- offsets that some operation transfers to -/
  targets : Std.TreeSet Nat
  /-- the offset of the operation being lowered -/
  current : Nat := 0

/-- What a lowering changes. -/
structure LowerState where
  frames : FrameStore := {}
  slots : Slots := {}
  code : CodeBuffer := {}
  pool : Pool := .empty
  /-- the latest first -/
  events : List Event := []
  /-- whether control reaches the end of the code emitted so far -/
  reachable : Bool := true
  /-- the number of the next label inside an operation -/
  nextLabel : Nat := 0
  /-- regions whose resumption code is emitted -/
  resumed : List Nat := []
  /-- stack slots that the prologue uses -/
  prologueStack : Nat := 0
  /-- types the lowering has made itself, the latest first -/
  made : List Ty := []
deriving Inhabited

namespace LowerState

/-- A step on the constant pool alone. -/
def onPool {α : Type} (act : PoolM α) : EStateM Cause LowerState α := fun s =>
  let pool := s.pool
  let s := { s with pool := .empty }
  match act pool with
  | .ok a pool => .ok a { s with pool }
  | .error e pool => .error e { s with pool }

/-- A step on the slots alone. -/
def onSlots {α : Type} (act : SlotM α) : EStateM Cause LowerState α := fun s =>
  let slots := s.slots
  let s := { s with slots := {} }
  match act slots with
  | .ok a slots => .ok a { s with slots }
  | .error e slots => .error e { s with slots }

end LowerState

/-- Steps of lowering a method. -/
abbrev LowerM := ReaderT Context (EStateM Cause LowerState)

namespace LowerM

-- ==== components

/-- A step on the constant pool alone. -/
def onPool {α : Type} (act : PoolM α) : LowerM α :=
  LowerState.onPool act

/-- A step on the slots alone. -/
def onSlots {α : Type} (act : SlotM α) : LowerM α :=
  LowerState.onSlots act

def setFrames (frames : FrameStore) : LowerM Unit :=
  modify fun s => { s with frames }

def modifyFrames (f : FrameStore → FrameStore) : LowerM Unit :=
  modify fun s => { s with frames := f s.frames }

def modifySlots (f : Slots → Slots) : LowerM Unit :=
  modify fun s => { s with slots := f s.slots }

def modifyCode (f : CodeBuffer → CodeBuffer) : LowerM Unit :=
  modify fun s => { s with code := f s.code }

def emit (i : Instr) : LowerM Unit :=
  modifyCode (·.emit i)

def report (e : Event) : LowerM Unit :=
  modify fun s => { s with events := e :: s.events }

/-- A label that no other code uses. -/
def freshLabel : LowerM Label := do
  let n := (← get).nextLabel
  modify fun s => { s with nextLabel := n + 1 }
  return .synthetic n

/-- Marks the code emitted next as reached only by branches. -/
def endBlock : LowerM Unit :=
  modify fun s => { s with reachable := false }

-- ==== the operand stack

def push (ty : Ty) : LowerM Unit := do
  setFrames (← (← get).frames.push ty)

/-- A type that the lowering makes itself. -/
def make (ty : Ty) : LowerM Ty := do
  modify fun s => { s with made := ty :: s.made }
  return ty

/-- Pushes a value of a type that the lowering makes itself. -/
def pushNew (ty : Ty) : LowerM Unit := do
  push (← make ty)

def pop : LowerM Ty := do
  let (ty, frames) ← (← get).frames.pop
  setFrames frames
  return ty

def peek : LowerM Ty := do
  (← get).frames.peek

/-- How a value of the type is held on the stack. -/
def stackKind (ty : Ty) : LowerM StackKind :=
  match ty.stackKind? with
  | some k => return k
  | none => throw (.internal .noStackKind)

def popKind : LowerM (Ty × StackKind) := do
  let ty ← pop
  return (ty, ← stackKind ty)

def popReference : LowerM Ty := do
  let (ty, kind) ← popKind
  unless kind = .reference do
    throw (.malformed (.expectedReference ty))
  return ty

/-- Drops the top of the stack, in the code and in the frame. -/
def dropTop : LowerM Unit := do
  let ty ← pop
  emit (.popOf ty.category)

/-- Accounts for stack slots above the live stack that instructions use without
the frame following them. -/
def noteDepth (extra : Nat) : LowerM Unit :=
  modifyFrames (·.noteDepth extra)

-- ==== pool references

def className (ty : Ty) : LowerM String := do
  (← read).types.className ty

def descriptor (ty : Ty) : LowerM String := do
  (← read).types.descriptor ty

/-- The class constant of a type. -/
def classIndex (ty : Ty) : LowerM Nat := do
  let name ← className ty
  onPool (Pool.classRef name)

/-- Calls a static method. The frame does not follow its operands. -/
def invokeStatic (m : MethodSpec) : LowerM Unit := do
  let index ← onPool (Pool.methodRef m.owner m.name m.descriptor false)
  emit (.invokeStatic index)

end LowerM

end BytecodeBridge
