/-
Arithmetic and conversions.

The operands decide the kind an operation works in, and its result has
the widest primitive of that kind. Unsigned division is a call into the
class library. A conversion first changes the stack kind and then cuts
the value down to its target, except that an `int` taken as an unsigned
64-bit number is extended with zeros.
-/
import BytecodeBridge.Lowering.Local

namespace BytecodeBridge.LowerM

-- ==== one operand

/-- The operation that takes one operand. -/
def unary (op : Arith) : LowerM Unit := do
  let (ty, kind) ← popKind
  match op, kind with
  | .neg, .num k =>
    emit (.neg k)
    pushNew (.prim k.prim)
  | .not, .num .int =>
    emit (.const .int (-1))
    emit (.binary .xor .int)
    noteDepth 2
    pushNew (.prim .int32)
  | .not, .num .long =>
    emit (← onPool (Instr.longConstant (-1)))
    emit (.binary .xor .long)
    noteDepth 4
    pushNew (.prim .int64)
  | op, _ => throw (.malformed (.badOperand op ty))

-- ==== shifts

/-- The instruction of a shift. -/
def shiftOp? : Arith → Option BinOp
  | .shl => some .shl
  | .shr => some .shr
  | .shrUn => some .ushr
  | _ => none

/-- A shift of an integer by an `int`. -/
def shift (op : Arith) (a b : Ty) (aKind bKind : StackKind) : LowerM Unit :=
  match shiftOp? op, aKind, bKind with
  | some i, .num .int, .num .int => do
    emit (.binary i .int)
    pushNew (.prim .int32)
  | some i, .num .long, .num .int => do
    emit (.binary i .long)
    pushNew (.prim .int64)
  | _, _, _ => throw (.malformed (.badShift op a b))

-- ==== two operands

/-- How an operation on two operands of one kind is carried out. -/
inductive BinaryForm where
  | instr (op : BinOp)
  | call (method : MethodSpec)

/-- The library method for an unsigned operation. -/
def unsignedCall (name : String) : NumKind → Option BinaryForm
  | .int => some (.call ⟨"java/lang/Integer", name, "(II)I"⟩)
  | .long => some (.call ⟨"java/lang/Long", name, "(JJ)J"⟩)
  | .float | .double => none

/-- A bitwise operation, which exists for integers only. -/
def bitwise (op : BinOp) : NumKind → Option BinaryForm
  | .int | .long => some (.instr op)
  | .float | .double => none

/-- How an operation is carried out on a kind, if the kind has it. -/
def binaryForm? (op : Arith) (kind : NumKind) : Option BinaryForm :=
  match op with
  | .add => some (.instr .add)
  | .sub => some (.instr .sub)
  | .mul => some (.instr .mul)
  | .div => some (.instr .div)
  | .rem => some (.instr .rem)
  | .and => bitwise .and kind
  | .or => bitwise .or kind
  | .xor => bitwise .xor kind
  | .divUn => unsignedCall "divideUnsigned" kind
  | .remUn => unsignedCall "remainderUnsigned" kind
  | .shl | .shr | .shrUn | .neg | .not => none

/-- An operation on two operands of one kind. -/
def binary (op : Arith) (a b : Ty) (aKind bKind : StackKind) : LowerM Unit := do
  unless aKind = bKind do
    throw (.malformed (.badOperands op a b))
  let .num k := aKind | throw (.malformed (.badOperand op a))
  match binaryForm? op k with
  | some (.instr i) => emit (.binary i k)
  | some (.call m) => invokeStatic m
  | none => throw (.malformed (.badOperand op a))
  pushNew (.prim k.prim)

def arithmetic (op : Arith) : LowerM Unit := do
  if op.isUnary then
    unary op
  else
    let (b, bKind) ← popKind
    let (a, aKind) ← popKind
    if op.isShift then
      shift op a b aKind bKind
    else
      binary op a b aKind bKind

-- ==== conversions

/-- Ends a conversion, once the number is of the machine kind of the target. -/
def cutDown (target : Prim) (source : NumKind) : LowerM Unit := do
  if target.numKind = .int then
    narrow target
  else if source = .int && target = .uint64 then
    emit (← onPool (Instr.longConstant 0xffffffff))
    emit (.binary .and .long)
    noteDepth 4
  pushNew (.prim target)

/-- Converts the top of the stack to a primitive kind. -/
def convert (target : Prim) (checked : Bool) : LowerM Unit := do
  if checked then
    discard (make (.prim target))
    throw (.unsupported (.checkedConversion target))
  let (ty, kind) ← popKind
  let .num source := kind | throw (.malformed (.badConversion ty))
  unless source = target.numKind do
    emit (.convert source target.numKind)
  cutDown target source

end BytecodeBridge.LowerM
