/-
Lowering a whole method.

The slots of the arguments and variables are laid out first and the
regions are found. Then the operations are lowered one after the other,
and at the end the code is assembled and the frames are resolved to
addresses. A method that fails leaves the constant pool as it was.
-/
import BytecodeBridge.Code.Assembly
import BytecodeBridge.Lowering.Operation
import BytecodeBridge.Method
import BytecodeBridge.Region.Build

namespace BytecodeBridge

namespace Lowering

-- ==== start

/-- The type of the receiver when a method starts. The constructor of a class
starts with an object that is not initialised. -/
def receiverType (body : Body) : Ty :=
  if body.kind = .constructor && !body.owner.isValue then .uninitThis else body.owner

/-- The arguments of a method: name, declared type, and the type at the start. -/
def arguments (body : Body) : List (Option String × Ty × Ty) :=
  let params := body.params.map fun p => (p.name, p.ty, p.ty)
  if body.kind = .static then params
  else (some "this", body.owner, receiverType body) :: params

/-- Lays out the arguments, and gives the type that each slot starts with. -/
def layoutArguments (body : Body) : SlotM (List (Nat × Ty)) :=
  (arguments body).mapM fun (name, ty, initial) => do
    return (← Slots.addArgument ty name, initial)

/-- Lays out the declared variables. -/
def layoutVariables (body : Body) : SlotM Unit :=
  body.locals.forM fun v => discard (Slots.addVariable v.ty v.name)

/-- Lays out all slots that keep their meaning. Gives the locals at the start, and
the regions with the slots they need. -/
def layoutSlots (config : Config) (T : TypeTable) (body : Body) :
    SlotM (SlotMap Ty × RegionTree) := do
  let locals ← layoutArguments body
  layoutVariables body
  let regions ← RegionTree.build body T config
  return (.ofList locals, regions)

/-- The offsets an operation transfers to. What a switch falls through to counts
as a target. -/
def targetsOf (body : Body) (offset : Nat) (op : Op) : Except Cause (List Nat) := do
  if let some t := op.targets.find? fun t => !body.isBoundary t then
    throw (.malformed (.badTarget offset t))
  match op with
  | .switch targets => return targets ++ (body.following offset).toList
  | op => return op.targets

/-- The offsets that operations of the body transfer to. -/
def allTargets (body : Body) : Except Cause (Std.TreeSet Nat) :=
  body.code.foldlM
    (fun targets (offset, op) => return targets.insertMany (← targetsOf body offset op)) {}

/-- Prepares the lowering of a body. -/
def prepare (config : Config) (T : TypeTable) (body : Body) :
    EStateM Cause LowerState Context := do
  let (locals, regions) ← LowerState.onSlots (layoutSlots config T body)
  modify fun s =>
    { s with
      frames := .start { locals }
      events := .foundRegions regions.size regions.leaveCount :: s.events }
  let targets ← allTargets body
  return { config, types := T, body, regions, targets }

-- ==== finish

/-- Every instruction after an unconditional transfer needs a frame. -/
def checkFrames (frames : Std.TreeMap Nat Frame) : List (Nat × Instr) → Except Cause Unit
  | (addr, i) :: (next, j) :: rest =>
    if i.isUnconditional && !frames.contains next then throw (.internal (.missingFrame addr))
    else checkFrames frames ((next, j) :: rest)
  | _ => return ()

/-- The address of a label, as a 16-bit number. -/
def address (labels : LabelMap Nat) (label : Label) : Except Cause Nat :=
  match labels[label]? with
  | some a => if a > 65535 then throw (.internal .addressRange) else return a
  | none => throw (.internal (.labelUnbound label))

/-- The row of a region in the exception table; a region without code has none. -/
def exceptionEntry? (labels : LabelMap Nat) (catchType r : Nat) (region : Region) :
    Except Cause (Option ExceptionEntry) := do
  let startPc ← address labels (.source region.start)
  let stopPc ← address labels
    (if region.stop = region.handlerOffset then .handler r else .source region.stop)
  let handlerPc ← address labels (.handler r)
  return if startPc < stopPc then some { startPc, stopPc, handlerPc, catchType } else none

/-- The addresses of the source labels. -/
def sourceOffsets (labels : LabelMap Nat) : List (Nat × Nat) :=
  labels.toList.filterMap fun
    | (.source o, addr) => some (o, addr)
    | _ => none

/-- Records the frames that are still put aside. -/
def backfill : LowerM Unit := do
  let (frames, count) := (← get).frames.backfill
  LowerM.setFrames frames
  if count > 0 then
    LowerM.report (.backfilled count)

/-- Assembles what was lowered. -/
def finish (name : String) : LowerM Method := do
  let cx ← read
  backfill
  let s ← get
  let asm ← s.code.assemble
  let made := s.frames.resolveMakes cx.types asm.labels
  modify fun s => { s with made := made.reverse ++ s.made }
  let frames ← s.frames.resolve cx.types asm.labels
  checkFrames frames asm.code
  let listed := frames.toList.filter fun e => e.1 < asm.length
  let stackMap ← LowerM.onPool (listed.mapM fun (addr, f) => StackMapEntry.ofFrame cx.types addr f)
  let catchType ← LowerM.onPool (Pool.classRef cx.config.throwableClass)
  let exceptions ← cx.regions.regions.zipIdx.mapM fun (region, r) =>
    exceptionEntry? asm.labels catchType r region
  let locals ← s.slots.named.mapM fun (slot, name, ty) => do
    return { name, slot, descriptor := ← cx.types.descriptor ty : LocalVariable }
  return {
    name
    code := asm.code
    exceptions := exceptions.filterMap id
    stackMap
    maxStack := max s.frames.maxStack s.prologueStack
    maxLocals := s.slots.maxLocals
    locals
    sourceOffsets := sourceOffsets asm.labels }

/-- Lowers the operations of a body, from the first to the last. -/
def lowerAll (code : List (Nat × Op)) : LowerM Unit := do
  code.forM fun (offset, op) => LowerM.lowerAt offset op
  if (← get).reachable then
    throw (.malformed .fallsOffEnd)

/-- Lowers a body from start to end. -/
def run (config : Config) (T : TypeTable) (body : Body) : EStateM Cause LowerState Method := do
  let cx ← prepare config T body
  (do lowerAll body.code; finish body.targetName : LowerM Method).run cx

end Lowering

-- ==== methods

/-- What lowering a method comes to: its result, the pool and the known types
afterwards, and what was reported, the latest first. -/
structure Lowered where
  result : Except Error Method
  pool : Pool
  types : TypeTable
  events : List Event
  /-- the most stack slots that were counted, also if the method was rejected -/
  depth : Nat

/-- The state that the lowering of a body starts in. The object that a constructor
starts with has a type of its own. -/
def Lowering.initial (pool : Pool) (body : Body) : LowerState :=
  { pool
    events := [.started body.qualifiedName body.code.length body.handlers.length]
    made := if receiverType body = .uninitThis then [.uninitThis] else [] }

/-- Lowers a method. If that fails, nothing it added to the pool is left, and the
error names the method. The types it made stay known either way. -/
def lowerMethod (config : Config) (T : TypeTable) (pool : Pool) (body : Body) : Lowered :=
  let name := body.qualifiedName
  let mark := pool.checkpoint
  match Lowering.run config T body (Lowering.initial pool body) with
  | .ok m s =>
    let done :=
      Event.finished name m.code.length m.stackMap.length m.exceptions.length
    { result := .ok m
      pool := s.pool
      types := T.addAll s.made
      events := done :: s.events
      depth := s.frames.maxStack }
  | .error cause s =>
    { result := .error ({ cause : Error }.inMethod name)
      pool := s.pool.rollback mark
      types := T.addAll s.made
      events := s.events
      depth := s.frames.maxStack }

/-- Lowers each body in turn, with the pool and the known types that the one before
it left; a failure concerns its own method only. -/
def lowerMethods (config : Config) (T : TypeTable) (pool : Pool) : List Body → List Lowered
  | [] => []
  | body :: rest =>
    let first := lowerMethod config T pool body
    first :: lowerMethods config first.types first.pool rest

end BytecodeBridge
