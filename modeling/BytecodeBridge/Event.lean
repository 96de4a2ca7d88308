/-
What a lowering reports while it runs.

Events are notes for whoever watches; none of them changes a result. The
one warning says that the frame of code already emitted has changed.
-/
import BytecodeBridge.Label
import BytecodeBridge.Ty
import BytecodeBridge.Instr

namespace BytecodeBridge

/-- A note on the progress of a lowering. -/
inductive Event where
  | started (method : String) (operations handlers : Nat)
  | foundRegions (regions leaveTargets : Nat)
  | defaulted (slot : Nat) (ty : Ty)
  /-- the frame of a label changed after its code was emitted -/
  | frameChanged (label : Label) (locals : List Nat) (stack : Bool)
  | backfilled (frames : Nat)
  | finished (method : String) (instructions frames exceptions : Nat)
deriving DecidableEq, Repr

namespace Event

def text : Event → String
  | started m n h => s!"translating {m} ({n} instructions, {h} handlers)"
  | foundRegions n m => s!"{n} exception regions, {m} relayed leave targets"
  | defaulted s t => s!"default-initializing slot {s} as {t.describe}"
  | frameChanged l locals stack =>
    let slots := Instr.listText (locals.map toString)
    s!"frame at {l.text} changed after its code was translated (locals {slots}, stack {stack})"
  | backfilled n => s!"backfilled {n} frames after unconditional transfers"
  | finished m n f e =>
    s!"translated {m}: {n} instructions, {f} frames, {e} exception entries"

end Event

end BytecodeBridge
