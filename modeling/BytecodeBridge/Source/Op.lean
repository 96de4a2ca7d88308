/-
The operations of a source method body.

Operations work on an operand stack whose entries carry their own types,
so one `arithmetic` serves every numeric kind. Transfers name their
destinations by source offset.
-/
import BytecodeBridge.Ty

namespace BytecodeBridge

-- ==== arithmetic

/-- The arithmetic of the source language. -/
inductive Arith where
  | add
  | sub
  | mul
  | div
  | divUn
  | rem
  | remUn
  | and
  | or
  | xor
  | shl
  | shr
  | shrUn
  | neg
  | not
deriving DecidableEq, Repr, Inhabited

namespace Arith

/-- Every arithmetic operation, each once. -/
def all : List Arith :=
  [add, sub, mul, div, divUn, rem, remUn, and, or, xor, shl, shr, shrUn, neg, not]

/-- The operations that take one operand. -/
def isUnary : Arith → Bool
  | neg | not => true
  | _ => false

/-- The operations whose second operand is a distance. -/
def isShift : Arith → Bool
  | shl | shr | shrUn => true
  | _ => false

/-- The operation's name in messages. -/
def name : Arith → String
  | add => "Add"
  | sub => "Sub"
  | mul => "Mul"
  | div => "Div"
  | divUn => "DivUn"
  | rem => "Rem"
  | remUn => "RemUn"
  | and => "And"
  | or => "Or"
  | xor => "Xor"
  | shl => "Shl"
  | shr => "Shr"
  | shrUn => "ShrUn"
  | neg => "Neg"
  | not => "Not"

end Arith

-- ==== members

/-- A method as a call names it. -/
structure MethodRef where
  owner : Ty
  name : String
  params : List Ty
  returns : Option Ty
  isStatic : Bool
deriving DecidableEq, Repr, Inhabited

/-- A field as an access names it. -/
structure FieldRef where
  owner : Ty
  name : String
  ty : Ty
deriving DecidableEq, Repr, Inhabited

/-- The name a method has on the target machine: constructors and type
initialisers are spelled differently there. -/
def targetName (name : String) : String :=
  if name = ".ctor" then "<init>"
  else if name = ".cctor" then "<clinit>"
  else name

namespace MethodRef

def isConstructor (m : MethodRef) : Bool :=
  m.name == ".ctor"

/-- The method's name in the constant pool. -/
def targetName (m : MethodRef) : String :=
  BytecodeBridge.targetName m.name

end MethodRef

-- ==== operations

/-- One operation of a source method body. Floating-point constants are kept as
their bits, so that every payload and the sign of zero survive. -/
inductive Op where
  | nop
  | loadArg (index : Nat)
  | storeArg (index : Nat)
  | loadLocal (index : Nat)
  | storeLocal (index : Nat)
  | addressOf (index : Nat)
  | loadInt32 (value : Int32)
  | loadInt64 (value : Int64)
  | loadFloat32 (bits : UInt32)
  | loadFloat64 (bits : UInt64)
  | loadNull
  | loadString (text : String)
  | dup
  | pop
  | arithmetic (op : Arith)
  | convert (target : Prim) (checked : Bool)
  | compare (way : Comparison) (unsigned : Bool)
  | branch (way : Comparison) (unsigned : Bool) (target : Nat)
  | branchIf (truth : Bool) (target : Nat)
  | jump (target : Nat)
  | switch (targets : List Nat)
  | ret
  | throw
  | rethrow
  | leave (target : Nat)
  /-- the end of a finally or fault clause -/
  | endFinally
  | endFilter
  | call (method : MethodRef) (virtual : Bool)
  | newObject (method : MethodRef)
  | loadField (field : FieldRef) (isStatic : Bool)
  | storeField (field : FieldRef) (isStatic : Bool)
  | newArray (element : Ty)
  | loadLength
  | loadElement
  | storeElement
  | box (ty : Ty)
  | unboxAny (ty : Ty)
  | castClass (ty : Ty)
  | isInstance (ty : Ty)
deriving Inhabited

namespace Op

/-- The destinations an operation may transfer to, other than the following
operation. -/
def targets : Op → List Nat
  | branch _ _ target | branchIf _ target | jump target | leave target => [target]
  | switch targets => targets
  | _ => []

end Op

end BytecodeBridge
