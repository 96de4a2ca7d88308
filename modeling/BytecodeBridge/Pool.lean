/-
The constant pool of a class file under construction.

Entries are interned: asking twice for one constant gives one index. An
entry of a wide constant takes two indices, the second of which names
nothing. The pool only grows at its end, so a pool length is enough to
come back to: `Pool.rollback` forgets what was added since.

The operations run in `PoolM`, which keeps the pool when it fails. A
compound reference that overflows half way has therefore added its
first parts; it is the caller of a whole method who rolls back.
-/
import Std.Data.ExtHashMap
import BytecodeBridge.Error

namespace BytecodeBridge

-- ==== constants

/-- An entry of the constant pool. Floating-point constants are their bits, so
that every payload is a constant of its own. -/
inductive Constant where
  | utf8 (text : String)
  | integer (value : Int32)
  | float (bits : UInt32)
  | long (value : Int64)
  | double (bits : UInt64)
  | classRef (name : Nat)
  | stringRef (text : Nat)
  | fieldRef (owner nameAndType : Nat)
  | methodRef (owner nameAndType : Nat)
  | interfaceMethodRef (owner nameAndType : Nat)
  | nameAndType (name descriptor : Nat)
deriving DecidableEq, Hashable, Repr, Inhabited

/-- Indices the entry occupies. -/
def Constant.size : Constant → Nat
  | long _ | double _ => 2
  | _ => 1

-- ==== pool

/-- A constant pool: its entries with their indices, the latest first, and the
index of each constant in it. -/
structure Pool where
  entries : List (Nat × Constant) := []
  index : Std.ExtHashMap Constant Nat := {}
deriving Inhabited

/-- Computations on a pool. The pool survives a failure. -/
abbrev PoolM := EStateM Cause Pool

namespace Pool

/-- The pool of a class that names nothing yet. -/
def empty : Pool := {}

/-- The largest number an index and the size of its entry may add up to. -/
def maxIndex : Nat := 65535

/-- The index the next entry receives, which is also the count a class file
gives for the pool. -/
def count (p : Pool) : Nat :=
  match p.entries with
  | [] => 1
  | (i, c) :: _ => i + c.size

/-- The constant at an index. -/
def get? (p : Pool) (i : Nat) : Option Constant :=
  (p.entries.find? fun e => e.1 == i).map Prod.snd

/-- The entries in the order of their indices. -/
def toList (p : Pool) : List (Nat × Constant) :=
  p.entries.reverse

/-- The pool with a constant it does not hold yet at its end. -/
def push (p : Pool) (c : Constant) : Pool :=
  { entries := (p.count, c) :: p.entries
    index := p.index.insert c p.count }

/-- The index of a constant, added at the end if the pool lacks it. -/
def intern (c : Constant) : PoolM Nat := fun p =>
  match p.index[c]? with
  | some i => .ok i p
  | none =>
    if p.count + c.size > maxIndex then .error (.internal .poolOverflow) p
    else .ok p.count (p.push c)

-- ==== references

def utf8 (text : String) : PoolM Nat :=
  intern (.utf8 text)

def integer (value : Int32) : PoolM Nat :=
  intern (.integer value)

def float (bits : UInt32) : PoolM Nat :=
  intern (.float bits)

def long (value : Int64) : PoolM Nat :=
  intern (.long value)

def double (bits : UInt64) : PoolM Nat :=
  intern (.double bits)

/-- The class of an internal name. -/
def classRef (name : String) : PoolM Nat := do
  let n ← utf8 name
  intern (.classRef n)

def stringRef (text : String) : PoolM Nat := do
  let n ← utf8 text
  intern (.stringRef n)

def nameAndType (name descriptor : String) : PoolM Nat := do
  let n ← utf8 name
  let d ← utf8 descriptor
  intern (.nameAndType n d)

def fieldRef (owner name descriptor : String) : PoolM Nat := do
  let c ← classRef owner
  let nt ← nameAndType name descriptor
  intern (.fieldRef c nt)

/-- A method of a class or, with `onInterface`, of an interface. -/
def methodRef (owner name descriptor : String) (onInterface : Bool) : PoolM Nat := do
  let c ← classRef owner
  let nt ← nameAndType name descriptor
  intern (if onInterface then .interfaceMethodRef c nt else .methodRef c nt)

-- ==== rollback

/-- The length to come back to. -/
def checkpoint (p : Pool) : Nat :=
  p.entries.length

/-- Forgets every entry added since the pool had `mark` entries. -/
def rollback (p : Pool) (mark : Nat) : Pool :=
  let added := p.entries.length - mark
  { entries := p.entries.drop added
    index := (p.entries.take added).foldl (fun index e => index.erase e.2) p.index }

end Pool

/-- The index as the operand of a one-byte form, if it fits. -/
def shortIndex? (index : Nat) : Option Nat :=
  if index < 256 then some index else none

end BytecodeBridge
