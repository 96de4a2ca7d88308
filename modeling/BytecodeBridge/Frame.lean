/-
Frames: what is known about the operand stack and the local slots at a
point of the code.

`Frame.merge` combines what two paths to one point know. The stacks have
to agree in length and in the width of each entry; a local survives only
if both paths set it to types that have a usable join.
-/
import BytecodeBridge.SlotMap
import BytecodeBridge.TypeTable.Hierarchy

namespace BytecodeBridge

/-- What is known at a point of the code. -/
structure Frame where
  /-- types on the operand stack, the top first -/
  stack : List Ty := []
  /-- types of the local slots; an absent slot is unset -/
  locals : SlotMap Ty := .empty
deriving DecidableEq, Inhabited

/-- The slots that a list of values takes. -/
def slotsOf (types : List Ty) : Nat :=
  types.foldl (fun n t => n + t.category) 0

-- ==== locals

/-- Whether the slot is the upper half of a wide local. -/
def SlotMap.shadowed (locals : SlotMap Ty) (slot : Nat) : Bool :=
  0 < slot &&
    match locals.get? (slot - 1) with
    | some t => t.category == 2
    | none => false

/-- The locals after a store: a wide local whose upper half is overwritten is
lost, and so is a local overwritten by the upper half of a wide one. -/
def SlotMap.store (locals : SlotMap Ty) (slot : Nat) (ty : Ty) : SlotMap Ty :=
  let below := if locals.shadowed slot then locals.erase (slot - 1) else locals
  let above := if ty.category = 2 then below.erase (slot + 1) else below
  above.insert slot ty

/-- The locals with a type at a slot that is unset and not the upper half of a
wide local. -/
def SlotMap.fill (locals : SlotMap Ty) (slot : Nat) (ty : Ty) : SlotMap Ty :=
  if locals.shadowed slot || locals.contains slot then locals else locals.store slot ty

namespace Frame

/-- Slots that the operand stack takes. -/
def depth (f : Frame) : Nat :=
  slotsOf f.stack

def storeLocal (f : Frame) (slot : Nat) (ty : Ty) : Frame :=
  { f with locals := f.locals.store slot ty }

def fillLocal (f : Frame) (slot : Nat) (ty : Ty) : Frame :=
  { f with locals := f.locals.fill slot ty }

/-- The frame with one type put for another throughout. -/
def replace (f : Frame) (old new : Ty) : Frame :=
  let swap := fun t => if t = old then new else t
  { stack := f.stack.map swap, locals := f.locals.map fun _ t => swap t }

-- ==== merge

/-- Merges two operand stacks of one length. The deepest entries that do not fit
are reported. -/
def mergeStack (T : TypeTable) : List Ty → List Ty → Except MergeConflict (List Ty)
  | x :: xs, y :: ys => do
    let rest ← mergeStack T xs ys
    if x.category = y.category then return T.join x y :: rest
    else throw (.width x y)
  | _, _ => return []

/-- Merges the locals: a slot that is unset on one side, or has no usable join,
is unset. -/
def mergeLocals (T : TypeTable) (a b : SlotMap Ty) : SlotMap Ty :=
  a.filterMap fun slot x =>
    match b.get? slot with
    | some y => if (T.join x y).isTop then none else some (T.join x y)
    | none => none

/-- Merges two frames that reach the same point. -/
def merge (T : TypeTable) (a b : Frame) : Except MergeConflict Frame :=
  if a.stack.length = b.stack.length then do
    return { stack := ← mergeStack T a.stack b.stack, locals := mergeLocals T a.locals b.locals }
  else throw (.depth a.stack.length b.stack.length)

/-- The types that merging two frames makes, in order: joins on the stack from
the bottom up to the first entries that do not fit, and then joins of locals. -/
def mergeMakes (T : TypeTable) (a b : Frame) : List Ty :=
  if a.stack.length = b.stack.length then
    let fitting := (a.stack.zip b.stack).reverse.takeWhile fun p => p.1.category = p.2.category
    let stack := fitting.flatMap fun p => T.joinMakes p.1 p.2
    if fitting.length = a.stack.length then
      stack ++ a.locals.entries.flatMap fun (slot, x) =>
        match b.locals.get? slot with
        | some y => T.joinMakes x y
        | none => []
    else stack
  else []

end Frame

end BytecodeBridge
