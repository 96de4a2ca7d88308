/-
Exception handling on the target machine.

Each region becomes one handler that catches everything. It maps the
exception, unless its first clause is a finally or fault clause, and then
tries the clauses in order; each test that fails goes on to the next
clause, and what no clause takes is thrown again.

A leave that crosses a finally clause enters the clause like an
exception does, but with a sentinel that carries the index of its
destination. The end of the clause throws genuine exceptions on and
resumes the leave of a sentinel. The code that resumes leaves is emitted
once for each clause and shared by all its ends.
-/
import BytecodeBridge.Lowering.Comparison
import BytecodeBridge.Lowering.Local

namespace BytecodeBridge.LowerM

-- ==== dispatch

/-- Copies the exception on top of the stack into a slot. -/
def stash (slot : Nat) : LowerM Unit := do
  let ty ← peek
  emit .dup
  noteDepth 1
  store slot ty

/-- Copies the exception on top of the stack into a slot, if there is one. -/
def stashIn? : Option Nat → LowerM Unit
  | some slot => stash slot
  | none => return ()

/-- Throws the reference on top of the stack. -/
def throwTop : LowerM Unit := do
  discard popReference
  emit .athrow
  endBlock

/-- Whether a clause that catches the type takes every exception. A resolved
generic parameter stands for the exception root. -/
def isUniversal (ty : Ty) : LowerM Bool :=
  match ty with
  | .generic _ .resolved => return true
  | .generic _ .unresolved => return false
  | ty => do return (← read).config.isUniversalException (← className ty)

/-- Goes to a clause that takes the exception on the stack, with a copy in a slot if
there is one. -/
def enterClause (slot? : Option Nat) (start : Nat) : LowerM Unit := do
  stashIn? slot?
  jump (.source start)

/-- Tries a clause that catches a generic parameter, which the helper decides. -/
def tryGeneric (clause : Clause) (name : String) (next : Label) : LowerM Unit := do
  emit .dup
  testGeneric name
  branchTo (.ifNull true 0) next
  enterClause clause.rethrowSlot clause.start

/-- Tries a clause that catches the instances of a class. -/
def tryClass (clause : Clause) (ty : Ty) (next : Label) : LowerM Unit := do
  let index ← classIndex ty
  emit .dup
  emit (.instanceOf index)
  noteDepth 1
  branchTo (.ifZero .eq 0) next
  emit (.checkCast index)
  discard pop
  push ty
  enterClause clause.rethrowSlot clause.start

/-- Tries a clause that catches a type, with the exception on the stack. -/
def tryTyped (clause : Clause) (ty : Ty) (next : Label) : LowerM Unit := do
  if ← isUniversal ty then enterClause clause.rethrowSlot clause.start
  else match ty with
    | .generic name .unresolved => tryGeneric clause name next
    | _ => tryClass clause ty next

/-- Goes to a final clause, with the exception in its slot if it has one. -/
def enterFinal (slot? : Option Nat) (start : Nat) : LowerM Unit := do
  if let some slot := slot? then
    let ty ← pop
    store slot ty
  jump (.source start)

/-- Tries clause `k` of region `r`, with the exception on the stack. -/
def tryClause (r : Nat) (region : Region) (k : Nat) (clause : Clause) : LowerM Unit := do
  bindLabel (.dispatch r k)
  match clause.kind with
  | .typed ty => tryTyped clause ty (.dispatch r (k + 1))
  | .filtered _ =>
    let some slot := region.filterSlot
      | throw (.internal (.noFilterSlot r))
    enterClause (some slot) clause.start
  | .cleanup | .fault => enterFinal region.finallySlot clause.start

/-- Maps the exception on top of the stack. -/
def mapException : LowerM Unit := do
  let cx ← read
  discard popReference
  invokeStatic cx.config.exceptionMapper
  push cx.types.throwable

/-- The last place that a test of the region branches to. -/
def lastTest (region : Region) : Nat :=
  if region.finalClause?.isSome then region.clauses.length - 1 else region.clauses.length

/-- Emits the tests of region `r`, and a throw behind the last one unless a final clause
takes what is left. -/
def emitTests (r : Nat) (region : Region) : LowerM Unit := do
  -- every test but the first is entered only by branches
  (List.range' 1 (lastTest region)).forM fun k => save (.dispatch r k)
  region.clauses.zipIdx.forM fun (clause, k) => tryClause r region k clause
  if lastTest region = region.clauses.length then
    bindLabel (.dispatch r region.clauses.length)
    throwTop

/-- Emits the handler of region `r`. -/
def emitDispatch (r : Nat) : LowerM Unit := do
  let cx ← read
  if (← get).reachable then
    throw (.malformed (.fallsIntoHandler cx.current))
  let region ← cx.regions.get r
  bindLabel (.handler r)
  unless region.clauses.head?.any Clause.isFinal do
    mapException
  emitTests r region

-- ==== leaves

/-- Drops the stack down to `keep` entries. -/
def dropDownTo (keep : Nat) : LowerM Unit := do
  let extra := (← get).frames.live.stack.length - keep
  (List.range extra).forM fun _ => dropTop

/-- Empties the stack and transfers to a source offset, through the finally
clauses in between. -/
def leave (source target : Nat) : LowerM Unit := do
  let cx ← read
  dropDownTo 0
  match ← cx.regions.planLeave source target with
  | .direct => jump (.source target)
  | .relay r index =>
    let region ← cx.regions.get r
    let some (k, _) := region.finalClause?
      | throw (.internal (.noFinallyClause r))
    if index > 2147483647 then
      throw (.unsupported .tooManyLeaves)
    emit (← onPool (Instr.intConstant (Int32.ofNat index)))
    noteDepth 1
    invokeStatic cx.config.sentinelFactory
    pushNew (.ref cx.config.leaveSentinel.owner)
    jump (.dispatch r k)

-- ==== the end of a clause

/-- Pops the sentinel on top of the stack and jumps by the index it carries. -/
def switchOnSentinel (r count sentinel : Nat) : LowerM Unit := do
  let spec := (← read).config.leaveSentinel
  emit (.checkCast sentinel)
  let accessor ← onPool (Pool.methodRef spec.owner spec.accessor "()I" false)
  emit (.invokeVirtual accessor)
  discard pop
  pushNew (.prim .int32)
  switchTo 0 ((List.range count).map (.resume r)) (.resume r (count - 1))

/-- Emits the code that resumes each leave relayed through region `r`. -/
def emitResumptions (r : Nat) (region : Region) (clause : Clause) : LowerM Unit :=
  region.resumptions.forM fun
    -- what is no sentinel was thrown on before
    | .rethrow => return
    | .leave index target => do
      bindLabel (.resume r index)
      leave clause.start target

/-- Each relayed leave is resumed behind a label of its own. -/
theorem emitResumptions_eq (r : Nat) (region : Region) (clause : Clause) :
    emitResumptions r region clause = region.leaveTargets.zipIdx.forM fun e =>
      bindLabel (.resume r e.2) >>= fun _ => leave clause.start e.1 := by
  unfold emitResumptions Region.resumptions
  rw [List.forM_eq_forM, List.forM_eq_forM, List.forM_cons, pure_bind, List.forM_map]

/-- Throws what is on the stack on, unless it is a sentinel; with a sentinel,
resumes the leave it carries. -/
def resumeLeaves (r : Nat) (region : Region) (clause : Clause) : LowerM Unit := do
  let count := region.leaveTargets.length
  let sentinel ← onPool (Pool.classRef (← read).config.leaveSentinel.owner)
  let selected ← freshLabel
  emit .dup
  emit (.instanceOf sentinel)
  noteDepth 1
  branchTo (.ifZero .ne 0) selected
  let first := !(← get).resumed.contains r
  modify fun s => { s with resumed := r :: s.resumed }
  throwTop
  bindLabel selected
  if count = 1 then
    dropTop
    if first then
      emitResumptions r region clause
    else
      jump (.resume r 0)
  else
    switchOnSentinel r count sentinel
    if first then
      emitResumptions r region clause

/-- The end of a finally or fault clause. -/
def endFinally (offset : Nat) : LowerM Unit := do
  let site ← (← read).regions.finalClauseAt offset
  let region := site.region
  -- what the clause was entered with is at the bottom of the stack, or in a slot
  match region.finallySlot with
  | some slot =>
    dropDownTo 0
    load slot
  | none => dropDownTo 1
  if site.clause.kind = .fault || region.leaveTargets.isEmpty then
    throwTop
  else
    resumeLeaves site.regionIndex region site.clause

-- ==== filters, rethrows

/-- The end of a filter's condition. -/
def endFilter (offset : Nat) : LowerM Unit := do
  let site ← (← read).regions.filterAt offset
  let r := site.regionIndex
  let k := site.clauseIndex
  let some slot := site.region.filterSlot
    | throw (.internal (.noFilterSlot r))
  let (ty, kind) ← popKind
  unless kind = .num .int do
    throw (.malformed (.filterYields ty))
  branchTo (.ifZero .eq 0) (.filterReject r k)
  load slot
  jump (.source site.clause.handlerStart)
  bindLabel (.filterReject r k)
  load slot
  jump (.dispatch r (k + 1))

/-- Throws the exception being handled again. -/
def rethrow (offset : Nat) : LowerM Unit := do
  load (← (← read).regions.rethrowSlot offset)
  throwTop

end BytecodeBridge.LowerM
