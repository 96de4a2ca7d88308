/-
Assembly: from labelled code to addresses.

A layout gives every item the address right after the item before it. A
`goto` reaches 32 KiB either way; one whose label lies further away is
replaced by the wide form, which is two bytes longer and may push other
labels out of reach. `CodeBuffer.layout` repeats this until no `goto`
has to grow. Each round but the last turns at least one `goto` wide, so
the number of narrow ones bounds the rounds.

With the final addresses every branch and jump table is patched.
Conditional branches have no wide form: one that does not reach its
label makes the assembly fail.
-/
import BytecodeBridge.Code
import BytecodeBridge.Error

namespace BytecodeBridge

-- ==== reach

/-- Whether an offset fits a signed 16-bit operand. -/
def fits16 (offset : Int) : Bool :=
  -32768 ≤ offset && offset ≤ 32767

/-- The distance from one address to another. -/
def relative (source target : Nat) : Int :=
  (target : Int) - (source : Int)

/-- A branch with a 16-bit operand. -/
def Instr.shortBranch (offset : Int) (make : Int → Instr) : Except Cause Instr :=
  if fits16 offset then return make offset
  else throw (.unsupported (.branchTooFar offset))

/-- The branch with another offset. -/
def Instr.withOffset (i : Instr) (offset : Int) : Except Cause Instr :=
  match i with
  | .gotoW _ => return .gotoW offset
  | .goto _ => shortBranch offset .goto
  | .ifZero way _ => shortBranch offset (.ifZero way)
  | .ifInt way _ => shortBranch offset (.ifInt way)
  | .ifSame same _ => shortBranch offset (.ifSame same)
  | .ifNull null _ => shortBranch offset (.ifNull null)
  | other => throw (.internal (.notBranch other))

-- ==== layout

/-- Bytes the item takes at an address. -/
def Item.size (addr : Nat) : Item → Nat
  | .instr i => i.size addr
  | .bind _ => 0
  | .branch i _ => i.size addr
  | .table _ targets _ => Instr.tableSize addr targets.length

/-- Items with their addresses, and where the labels lie. -/
structure Layout where
  /-- in order -/
  placed : List (Nat × Item)
  labels : LabelMap Nat
  length : Nat

namespace Layout

/-- Items with the addresses they have from `addr` on, put in front of `done` in
reverse order, and the address after the last. -/
def placeFrom (addr : Nat) (done : List (Nat × Item)) : List Item → List (Nat × Item) × Nat
  | [] => (done.reverse, addr)
  | item :: rest => placeFrom (addr + item.size addr) ((addr, item) :: done) rest

/-- Notes the address of a label; a label has only one. -/
def addLabel (labels : LabelMap Nat) (entry : Nat × Item) : Except Cause (LabelMap Nat) :=
  match entry with
  | (addr, .bind l) =>
    if labels.contains l then throw (.internal (.boundTwice l)) else return labels.insert l addr
  | _ => return labels

/-- Lays out the items as they are. -/
def ofItems (items : List Item) : Except Cause Layout := do
  let (placed, length) := placeFrom 0 [] items
  let labels ← placed.foldlM addLabel {}
  return { placed, labels, length }

/-- The item at an address, as a wide branch if it is a `goto` that does not
reach its label. -/
def widen (labels : LabelMap Nat) (addr : Nat) (item : Item) : Item :=
  match item with
  | .branch (.goto _) target =>
    if fits16 (relative addr (labels.getD target 0)) then item else .branch (.gotoW 0) target
  | _ => item

/-- The items of a layout, with every `goto` out of reach made wide. -/
def widened (l : Layout) : List Item :=
  l.placed.map fun entry => widen l.labels entry.1 entry.2

end Layout

/-- Whether the item is a `goto` in its narrow form. -/
def Item.isGoto : Item → Bool
  | .branch (.goto _) _ => true
  | _ => false

/-- Lays out the items with as many wide branches as they need. -/
def settle (items : List Item) : Except Cause Layout :=
  match Layout.ofItems items with
  | .error e => .error e
  | .ok l =>
    if l.widened.countP Item.isGoto < items.countP Item.isGoto then settle l.widened
    else .ok l
termination_by items.countP Item.isGoto

-- ==== assembly

/-- Code with its addresses. -/
structure Assembly where
  code : List (Nat × Instr)
  labels : LabelMap Nat
  length : Nat

namespace Layout

/-- The address of a label that a branch names. -/
def find (l : Layout) (label : Label) : Except Cause Nat :=
  match l.labels[label]? with
  | some addr => return addr
  | none => throw (.internal (.branchUnbound label))

/-- The instruction an item stands for, patched; a bound label stands for none. -/
def patch (l : Layout) (addr : Nat) : Item → Except Cause (Option Instr)
  | .bind _ => return none
  | .instr i => return some i
  | .branch i target => do
    let dest ← l.find target
    return some (← i.withOffset (relative addr dest))
  | .table low targets default => do
    let offsets ← targets.mapM fun t => return relative addr (← l.find t)
    let fallback ← l.find default
    let high := low + offsets.length - 1
    return some (.tableSwitch (relative addr fallback) low high offsets)

/-- The patched instructions with their addresses. -/
def patchAll (l : Layout) : Except Cause (List (Nat × Instr)) := do
  let patched ← l.placed.mapM fun (addr, item) =>
    return (← l.patch addr item).map fun i => (addr, i)
  return patched.filterMap id

end Layout

/-- The number of bytes a method's code can have. -/
def maxCodeLength : Nat := 65535

/-- Lays out the code and patches every branch. -/
def CodeBuffer.assemble (b : CodeBuffer) : Except Cause Assembly := do
  let l ← settle b.items
  if l.length > maxCodeLength then
    throw (.unsupported (.codeTooLong l.length))
  let code ← l.patchAll
  return { code, labels := l.labels, length := l.length }

end BytecodeBridge
