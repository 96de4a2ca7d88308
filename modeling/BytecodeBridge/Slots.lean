/-
Local slots: which of the target's local variables holds what.

Slots are handed out in ascending order, each taking as many as the
category of its type. Arguments come first, then declared variables,
then the synthetic variables that exception handling needs; everything
above is temporary space. A temporary that is given back makes room for
the next one: if it is the topmost slot the mark `next` goes back,
otherwise the slot is parked and reused by the next temporary of its
category.

The operations run in `SlotM`. One that fails leaves the slots as they
were.
-/
import Std.Data.TreeSet
import BytecodeBridge.Error

namespace BytecodeBridge

/-- What a declared slot is for. -/
inductive SlotKind where
  | argument
  | variable
  | synthetic
deriving DecidableEq, Repr, Inhabited

/-- A slot that keeps its meaning throughout the method. -/
structure Declared where
  kind : SlotKind
  name : Option String
  ty : Ty
deriving DecidableEq, Repr, Inhabited

/-- A temporary slot and its category. -/
structure Temp where
  slot : Nat
  category : Nat
deriving DecidableEq, Repr, Inhabited

/-- The local slots of a method. -/
structure Slots where
  /-- the first slot above everything handed out -/
  next : Nat := 0
  /-- the largest `next` so far -/
  high : Nat := 0
  /-- the slots of the arguments, in order -/
  argSlots : Array Nat := #[]
  /-- the slots of the declared variables, in order -/
  varSlots : Array Nat := #[]
  declared : Std.TreeMap Nat Declared := {}
  /-- temporaries in use -/
  temps : List Temp := []
  /-- temporaries given back out of order, the latest first -/
  parked : List Temp := []
  /-- variables given a default value before the method starts -/
  defaulted : Std.TreeSet Nat := {}
  /-- slots that hold a value at some time -/
  written : Std.TreeSet Nat := {}
deriving Inhabited

/-- Computations that hand out slots. The slots survive a failure. -/
abbrev SlotM := EStateM Cause Slots

namespace Slots

/-- The number of local slots a method can have. -/
def limit : Nat := 65535

-- ==== allocation

/-- Hands out the next `category` slots. -/
def extend (category : Nat) : SlotM Nat := fun s =>
  let next := s.next + category
  if next > limit then .error (.unsupported .tooManySlots) s
  else .ok s.next { s with next, high := max s.high next }

/-- Hands out a slot that keeps its meaning. Once there are temporaries it is
too late for that. -/
def declare (d : Declared) : SlotM Nat := do
  let s ← get
  unless s.temps.isEmpty && s.parked.isEmpty do
    throw (.internal .lateDeclaration)
  let slot ← extend d.ty.category
  modify fun s => { s with declared := s.declared.insert slot d }
  return slot

/-- The slot of the next argument. An argument has a value from the start. -/
def addArgument (ty : Ty) (name : Option String) : SlotM Nat := do
  let slot ← declare ⟨.argument, name, ty⟩
  modify fun s =>
    { s with argSlots := s.argSlots.push slot, written := s.written.insert slot }
  return slot

/-- The slot of the next declared variable. -/
def addVariable (ty : Ty) (name : Option String) : SlotM Nat := do
  let slot ← declare ⟨.variable, name, ty⟩
  modify fun s => { s with varSlots := s.varSlots.push slot }
  return slot

/-- A slot the lowering keeps for itself. -/
def addSynthetic (ty : Ty) : SlotM Nat :=
  declare ⟨.synthetic, none, ty⟩

-- ==== temporaries

/-- Borrows a slot for a value of a type: the slot of its category that was
parked last, or a new one. -/
def borrow (ty : Ty) : SlotM Nat := do
  let category := ty.category
  match (← get).parked.find? fun t => t.category == category with
  | some t =>
    modify fun s => { s with parked := s.parked.erase t, temps := t :: s.temps }
    return t.slot
  | none =>
    let slot ← extend category
    modify fun s => { s with temps := ⟨slot, category⟩ :: s.temps }
    return slot

/-- The slots after a temporary in use is given back. -/
def park (s : Slots) (t : Temp) : Slots :=
  let s := { s with temps := s.temps.erase t }
  if t.slot + t.category = s.next && !s.parked.any (fun p => p.category == t.category) then
    { s with next := t.slot }
  else
    { s with parked := t :: s.parked }

/-- Gives a borrowed slot back. -/
def release (slot : Nat) : SlotM Unit := do
  match (← get).temps.find? fun t => t.slot == slot with
  | none => throw (.internal (.notTemporary slot))
  | some t => modify (·.park t)

-- ==== queries

def argumentSlot (s : Slots) (index : Nat) : Except Cause Nat :=
  match s.argSlots[index]? with
  | some slot => return slot
  | none => throw (.malformed (.noArgument index))

def variableSlot (s : Slots) (index : Nat) : Except Cause Nat :=
  match s.varSlots[index]? with
  | some slot => return slot
  | none => throw (.malformed (.noVariable index))

def declared? (s : Slots) (slot : Nat) : Option Declared :=
  s.declared[slot]?

def declaredType? (s : Slots) (slot : Nat) : Option Ty :=
  (s.declared? slot).map (·.ty)

def isVariable (s : Slots) (slot : Nat) : Bool :=
  match s.declared? slot with
  | some d => d.kind == .variable
  | none => false

/-- The slots a frame of the method needs. -/
def maxLocals (s : Slots) : Nat :=
  s.high

/-- The named arguments and variables that ever hold a value, in slot order. -/
def named (s : Slots) : List (Nat × String × Ty) :=
  s.declared.toList.filterMap fun (slot, d) =>
    if s.written.contains slot then d.name.map fun name => (slot, name, d.ty) else none

-- ==== marks

/-- Notes that a slot holds a value at some time. -/
def markWritten (s : Slots) (slot : Nat) : Slots :=
  { s with written := s.written.insert slot }

/-- Whether the slot has a default value from the start. -/
def isDefaulted (s : Slots) (slot : Nat) : Bool :=
  s.defaulted.contains slot

/-- Notes that the slot has a default value from the start. -/
def markDefaulted (s : Slots) (slot : Nat) : Slots :=
  { s with defaulted := s.defaulted.insert slot, written := s.written.insert slot }

end Slots

end BytecodeBridge
