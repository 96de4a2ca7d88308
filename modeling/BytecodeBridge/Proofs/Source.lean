/-
What integer code of the source means.

A number on the evaluation stack has 32 or 64 bits, and arithmetic is
modulo its width. Arguments and variables have kinds: a store cuts the
number down to the kind of where it goes, a return to the kind that the
method returns, and a number of a kind is one that cutting it down does
not change. Variables start at zero. A shift looks at its distance modulo
the width, and a 32-bit number becomes an unsigned 64-bit one by filling
up with zeros, while to any other 64-bit kind it keeps its sign.

The rules are given for the operations that only work with integers and
go on to the next operation. Others have no meaning here, and neither has
an operation that finds too little on the stack or numbers of the wrong
width.
-/
import BytecodeBridge.Source.Body

namespace BytecodeBridge

-- ==== fragment

/-- The integer kinds, apart from truth values. -/
def Prim.isIntegral : Prim → Bool
  | bool | float32 | float64 => false
  | _ => true

/-- The operations that cannot fail on integers. -/
def Arith.isTotal : Arith → Bool
  | div | divUn | rem | remUn => false
  | _ => true

/-- Operations on integers that go on to the next operation. -/
def Op.isIntegral : Op → Bool
  | nop | loadArg _ | storeArg _ | loadLocal _ | storeLocal _ => true
  | loadInt32 _ | loadInt64 _ | dup | pop | compare _ _ => true
  | arithmetic op => op.isTotal
  | convert target checked => !checked && target.isIntegral
  | _ => false

/-- A type of an integer kind. -/
def Ty.isIntegral : Ty → Bool
  | prim k => k.isIntegral
  | _ => false

/-- A static method that goes through operations on integers and returns one. -/
structure Body.Straight (body : Body) : Prop where
  static : body.kind = .static
  handlers : body.handlers = []
  params : ∀ v ∈ body.params, v.ty.isIntegral = true
  locals : ∀ v ∈ body.locals, v.ty.isIntegral = true
  returns : ∃ ty, body.returns = some ty ∧ ty.isIntegral = true
  code : ∃ ops o, body.code = ops ++ [(o, .ret)] ∧ ∀ e ∈ ops, e.2.isIntegral = true

namespace Source

-- ==== bits

section Bits

variable {w : Nat}

/-- The operations on one operand. -/
def unaryBits? (op : Arith) (x : BitVec w) : Option (BitVec w) :=
  match op with
  | .neg => some (-x)
  | .not => some (~~~x)
  | _ => none

/-- The operations on two operands of one width. -/
def binaryBits? (op : Arith) (x y : BitVec w) : Option (BitVec w) :=
  match op with
  | .add => some (x + y)
  | .sub => some (x - y)
  | .mul => some (x * y)
  | .and => some (x &&& y)
  | .or => some (x ||| y)
  | .xor => some (x ^^^ y)
  | _ => none

/-- The shifts. -/
def shiftBits? (op : Arith) (x : BitVec w) (distance : Nat) : Option (BitVec w) :=
  match op with
  | .shl => some (x <<< (distance % w))
  | .shr => some (x.sshiftRight (distance % w))
  | .shrUn => some (x >>> (distance % w))
  | _ => none

def less (unsigned : Bool) (x y : BitVec w) : Bool :=
  if unsigned then x.ult y else x.slt y

/-- Whether a comparison holds. -/
def compareBits (way : Comparison) (unsigned : Bool) (x y : BitVec w) : Bool :=
  match way with
  | .eq => x == y
  | .ne => x != y
  | .lt => less unsigned x y
  | .ge => !less unsigned x y
  | .gt => less unsigned y x
  | .le => !less unsigned y x

end Bits

-- ==== numbers

/-- A number on the evaluation stack. -/
inductive Number where
  | int (x : BitVec 32)
  | long (x : BitVec 64)
deriving DecidableEq, Repr

namespace Number

/-- A number cut down to a kind of its width. -/
def cut? (k : Prim) : Number → Option Number
  | int x =>
    match k with
    | .int8 => some (int ((x.setWidth 8).signExtend 32))
    | .uint8 => some (int ((x.setWidth 8).setWidth 32))
    | .int16 => some (int ((x.setWidth 16).signExtend 32))
    | .uint16 | .char => some (int ((x.setWidth 16).setWidth 32))
    | .int32 | .uint32 => some (int x)
    | _ => none
  | long x =>
    match k with
    | .int64 | .uint64 => some (long x)
    | _ => none

/-- A number converted to a kind. -/
def convert? (k : Prim) : Number → Option Number
  | int x =>
    match k with
    | .int64 => some (long (x.signExtend 64))
    | .uint64 => some (long (x.setWidth 64))
    | k => cut? k (int x)
  | long x =>
    match k with
    | .int64 | .uint64 => some (long x)
    | k => cut? k (int (x.setWidth 32))

/-- A number cut down to a type. -/
def store? : Ty → Number → Option Number
  | .prim k, x => x.cut? k
  | _, _ => none

/-- A number of a type. -/
def IsOf (x : Number) (ty : Ty) : Prop :=
  x.store? ty = some x

instance (x : Number) (ty : Ty) : Decidable (x.IsOf ty) :=
  inferInstanceAs (Decidable (_ = _))

/-- The zero of a type. -/
def zero? : Ty → Option Number
  | .prim k =>
    match k.numKind with
    | .int => some (int 0)
    | .long => some (long 0)
    | _ => none
  | _ => none

def unary? (op : Arith) : Number → Option Number
  | int x => (unaryBits? op x).map int
  | long x => (unaryBits? op x).map long

/-- An operation on two operands; the distance of a shift has 32 bits. -/
def binary? (op : Arith) : Number → Number → Option Number
  | int x, int y => ((binaryBits? op x y).or (shiftBits? op x y.toNat)).map int
  | long x, long y => (binaryBits? op x y).map long
  | long x, int y => (shiftBits? op x y.toNat).map long
  | int _, long _ => none

def compare? (way : Comparison) (unsigned : Bool) : Number → Number → Option Number
  | int x, int y => some (int (if compareBits way unsigned x y then 1 else 0))
  | long x, long y => some (int (if compareBits way unsigned x y then 1 else 0))
  | _, _ => none

end Number

-- ==== operations

/-- One invocation of a method. -/
structure State where
  /-- the top first -/
  stack : List Number := []
  args : List Number
  vars : List Number

/-- What an operation makes of the stack, if it is all that the operation looks at. -/
def effect? (op : Op) (stack : List Number) : Option (List Number) :=
  match op, stack with
  | .nop, stack => some stack
  | .loadInt32 n, stack => some (.int n.toBitVec :: stack)
  | .loadInt64 n, stack => some (.long n.toBitVec :: stack)
  | .dup, x :: rest => some (x :: x :: rest)
  | .pop, _ :: rest => some rest
  | .arithmetic op, x :: rest =>
    if op.isUnary then (x.unary? op).map (· :: rest)
    else
      match rest with
      | y :: rest => (y.binary? op x).map (· :: rest)
      | [] => none
  | .convert k false, x :: rest => (x.convert? k).map (· :: rest)
  | .compare way unsigned, y :: x :: rest => (x.compare? way unsigned y).map (· :: rest)
  | _, _ => none

/-- Executes one operation. -/
def exec (body : Body) (op : Op) (s : State) : Option State :=
  match op with
  | .loadArg i => s.args[i]?.map fun x => { s with stack := x :: s.stack }
  | .loadLocal i => s.vars[i]?.map fun x => { s with stack := x :: s.stack }
  | .storeArg i =>
    match s.stack with
    | x :: rest => do
      let x ← x.store? (← body.params[i]?).ty
      some { s with stack := rest, args := s.args.set i x }
    | [] => none
  | .storeLocal i =>
    match s.stack with
    | x :: rest => do
      let x ← x.store? (← body.locals[i]?).ty
      some { s with stack := rest, vars := s.vars.set i x }
    | [] => none
  | op => (effect? op s.stack).map fun stack => { s with stack }

/-- What comes of the operations from a state on, up to the first return. -/
def run? (body : Body) : List (Nat × Op) → State → Option Number
  | [], _ => none
  | (_, .ret) :: _, s =>
    match s.stack, body.returns with
    | x :: _, some ty => x.store? ty
    | _, _ => none
  | (_, op) :: rest, s => (exec body op s).bind (run? body rest)

/-- What a method returns for some arguments. -/
def value? (body : Body) (args : List Number) : Option Number := do
  let vars ← body.locals.mapM fun v => Number.zero? v.ty
  run? body body.code { args, vars }

end Source

end BytecodeBridge
