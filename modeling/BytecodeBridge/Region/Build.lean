/-
From the handlers of a method header to its regions.

Every handler is checked on its own first: its offsets have to be
operation boundaries and its ranges must not be empty. Handlers with one
protected range then form a region, whose clauses have to follow each
other without a gap, behind the range. Two regions have to be disjoint or
nested, where nested means that all of one lies within one part of the
other.

Regions also need slots: for what a final clause was entered with, if
another region lies inside the clause; for the exception a filter
decides on; and for the exception a clause rethrows.
-/
import BytecodeBridge.Region
import BytecodeBridge.Slots
import BytecodeBridge.TypeTable.Name

namespace BytecodeBridge

namespace Handler

-- ==== handlers

/-- An operation has to start at the offset. -/
def checkStart (body : Body) (bound : HandlerBound) (offset : Nat) : Except Cause Unit :=
  if body.isBoundary offset then return ()
  else throw (.malformed (.notBoundary bound offset))

/-- A range has to end where an operation starts, or where the body ends. -/
def checkStop (body : Body) (bound : HandlerBound) (offset : Nat) : Except Cause Nat :=
  let stop := body.clampStop offset
  if stop = body.stop || body.isBoundary stop then return stop
  else throw (.malformed (.notBoundary bound offset))

/-- What a catch clause may name: a generic parameter, or a reference type that
the target machine raises under its own name. -/
def checkCatchType (T : TypeTable) (config : Config) (ty : Ty) : Except Cause Unit :=
  match ty with
  | .generic _ _ => return ()
  | ty =>
    if ty.valueKind = .reference then do
      let name ← T.className ty
      if config.isHostAlias name then
        throw (.unsupported (.catchOfAlias name))
    else throw (.malformed (.catchOfNonReference ty))

/-- What a handler does, and where its clause starts. -/
def clauseKind (body : Body) (T : TypeTable) (config : Config) (h : Handler) :
    Except Cause (ClauseKind × Nat) :=
  match h.kind with
  | .typed => do
    let some ty := h.catchType | throw (.malformed (.catchWithoutType h.handlerStart))
    checkCatchType T config ty
    return (.typed ty, h.handlerStart)
  | .filtered => do
    let some condition := h.filterStart
      | throw (.malformed (.filterWithoutCondition h.handlerStart))
    checkStart body .filterStart condition
    if condition ≥ h.handlerStart then
      throw (.malformed (.filterAfterHandler condition))
    return (.filtered condition, condition)
  | .cleanup => return (.cleanup, h.handlerStart)
  | .fault => return (.fault, h.handlerStart)

/-- The protected range of a handler, and its clause. -/
def clause (body : Body) (T : TypeTable) (config : Config) (h : Handler) :
    Except Cause ((Nat × Nat) × Clause) := do
  checkStart body .tryStart h.tryStart
  checkStart body .handlerStart h.handlerStart
  let tryStop ← checkStop body .tryStop h.tryStop
  let stop ← checkStop body .handlerStop h.handlerStop
  if h.tryStart ≥ tryStop || h.handlerStart ≥ stop then
    throw (.malformed (.emptyRange h.handlerStart))
  let (kind, start) ← h.clauseKind body T config
  return ((h.tryStart, tryStop), { kind, start, stop, handlerStart := h.handlerStart })

end Handler

namespace Region

-- ==== grouping

/-- Ranges in the order of their starts, then of their ends. -/
def rangeLE (a b : Nat × Nat) : Bool :=
  a.1 < b.1 || (a.1 == b.1 && a.2 ≤ b.2)

/-- Clauses by protected range, the ranges in order. -/
def group (clauses : List ((Nat × Nat) × Clause)) : List ((Nat × Nat) × List Clause) :=
  let ranges := (clauses.map Prod.fst).eraseDups.mergeSort rangeLE
  ranges.map fun range => (range, (clauses.filter fun c => c.1 == range).map Prod.snd)

/-- The first two neighbours that do not touch. -/
def gap? : List Clause → Option (Clause × Clause)
  | a :: b :: rest => if a.stop = b.start then gap? (b :: rest) else some (a, b)
  | _ => none

/-- The region of a protected range and its clauses. -/
def ofClauses (range : Nat × Nat) (clauses : List Clause) : Except Cause Region := do
  let clauses := clauses.mergeSort fun a b => a.start ≤ b.start
  if let some first := clauses.head? then
    if first.start < range.2 then
      throw (.malformed (.handlerInsideRange first.start))
  if let some (a, b) := gap? clauses then
    throw (.malformed (.clausesApart a.start b.start))
  if clauses.dropLast.any Clause.isFinal then
    throw (.malformed (.earlyFinalClause range.1))
  return { start := range.1, stop := range.2, clauses }

-- ==== nesting

def disjoint (a b : Region) : Bool :=
  a.spanStop ≤ b.start || b.spanStop ≤ a.start

/-- Whether all of one region lies within one part of the other. -/
def nested (a b : Region) : Bool :=
  b.parts.any (within a.span) || a.parts.any (within b.span)

/-- The first two regions that are neither disjoint nor nested. -/
def overlap? : List Region → Option (Region × Region)
  | [] => none
  | a :: rest =>
    match rest.find? fun b => !disjoint a b && !nested a b with
    | some b => some (a, b)
    | none => overlap? rest

/-- Smaller regions first, of one size the earlier first. -/
def innermostLE (a b : Region) : Bool :=
  rangeLE (a.spanLength, a.start) (b.spanLength, b.start)

-- ==== slots

/-- A new slot for something thrown. -/
def throwableSlot (T : TypeTable) : SlotM Nat :=
  Slots.addSynthetic T.throwable

/-- Whether another region lies inside the final clause of this one. -/
def enclosesInFinal (all : List Region) (r : Region) : Bool :=
  match r.finalClause? with
  | some (_, c) => all.any fun o => within o.span (c.start, c.stop)
  | none => false

/-- The region with the slots its clauses share. -/
def withSlots (T : TypeTable) (all : List Region) (r : Region) : SlotM Region := do
  let finallySlot ← if enclosesInFinal all r then some <$> throwableSlot T else pure none
  let filterSlot ← if r.hasFilter then some <$> throwableSlot T else pure none
  return { r with finallySlot, filterSlot }

end Region

namespace RegionTree

open Region (throwableSlot)

/-- The tree with another slot for rethrows in a clause. -/
def setRethrowSlot (t : RegionTree) (region clause slot : Nat) : RegionTree :=
  { regions := t.regions.modify region fun r =>
      { r with clauses := r.clauses.modify clause fun c => { c with rethrowSlot := some slot } } }

/-- Sees to it that a rethrow finds its exception in a slot. -/
def withRethrow (T : TypeTable) (t : RegionTree) : Nat × Op → SlotM RegionTree
  | (offset, .rethrow) => do
    let some site := t.handlingClause? offset
      | throw (.malformed (.rethrowOutside offset))
    if site.clause.isFilter || site.clause.rethrowSlot.isSome then return t
    else return t.setRethrowSlot site.regionIndex site.clauseIndex (← throwableSlot T)
  | _ => return t

-- ==== leaves

/-- The tree in which a region knows one more destination of a leave. -/
def addLeaveTarget (target : Nat) (t : RegionTree) (region : Nat) : RegionTree :=
  { regions := t.regions.modify region fun r =>
      if r.leaveTargets.contains target then r
      else { r with leaveTargets := r.leaveTargets ++ [target] } }

/-- The tree with the destination of a leave known to all regions that relay it. -/
def withLeave (t : RegionTree) : Nat × Op → RegionTree
  | (offset, .leave target) => (relays t.regions offset target).foldl (addLeaveTarget target) t
  | _ => t

-- ==== build

/-- The regions of a body, innermost first, before they have slots. -/
def regionsOf (body : Body) (T : TypeTable) (config : Config) : Except Cause (List Region) := do
  let clauses ← body.handlers.mapM (Handler.clause body T config)
  let regions ← (Region.group clauses).mapM fun (range, cs) => Region.ofClauses range cs
  if let some (a, b) := Region.overlap? regions then
    throw (.malformed (.regionsOverlap a.start b.start))
  return regions.mergeSort Region.innermostLE

/-- The regions of a body, with the slots they need. -/
def build (body : Body) (T : TypeTable) (config : Config) : SlotM RegionTree := do
  let regions ← regionsOf body T config
  let regions ← regions.mapM (Region.withSlots T regions)
  let tree ← body.code.foldlM (withRethrow T) { regions }
  return body.code.foldl withLeave tree

/-- Destinations of leaves that are relayed, over all regions. -/
def leaveCount (t : RegionTree) : Nat :=
  t.regions.foldl (fun n r => n + r.leaveTargets.length) 0

end RegionTree

end BytecodeBridge
