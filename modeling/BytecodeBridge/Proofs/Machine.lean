/-
The machine that runs lowered code.

One invocation of a method is an operand stack and its local slots; an
execution goes from instruction to instruction. The machine is exact on
integers: they have 32 or 64 bits and wrap around, a shift looks at the
low bits of its distance only, and a comparison or a switch decides by the
value. Of floating-point numbers and of references it knows no more than
that they are there. What an execution would take from them is left open,
as a `Chance`: the integer that a float is cut down to, the order of two
floats, whether two references are one. Every execution of a real machine
is an execution of this one with some chances.

An instruction that finds a value of another kind than it works on has no
outcome, and neither has one that throws. The instructions are those that
code without objects, arrays and calls is made of, with the calls it makes
for unsigned arithmetic.
-/
import BytecodeBridge.Proofs.Pool

namespace BytecodeBridge

-- ==== integers

/-- A comparison of two integers. -/
def Comparison.holds (way : Comparison) (a b : Int) : Bool :=
  match way with
  | eq => a == b
  | ne => a != b
  | lt => a < b
  | ge => b ≤ a
  | gt => b < a
  | le => a ≤ b

/-- Whether the second operand is a distance. -/
def BinOp.isShift : BinOp → Bool
  | shl | shr | ushr => true
  | _ => false

/-- Whether the operation exists for floating-point numbers. -/
def BinOp.isNumeric : BinOp → Bool
  | add | sub | mul | div | rem => true
  | _ => false

/-- The arithmetic of `int`; there is no division by zero. -/
def BinOp.onInt (op : BinOp) (a b : Int32) : Option Int32 :=
  match op with
  | add => some (a + b)
  | sub => some (a - b)
  | mul => some (a * b)
  | div => if b = 0 then none else some (a / b)
  | rem => if b = 0 then none else some (a % b)
  | and => some (a &&& b)
  | or => some (a ||| b)
  | xor => some (a ^^^ b)
  | shl => some (a <<< (b &&& 31))
  | shr => some (a >>> (b &&& 31))
  | ushr => some (a.toUInt32 >>> (b &&& 31).toUInt32).toInt32

/-- The arithmetic of `long`; there is no division by zero. -/
def BinOp.onLong (op : BinOp) (a b : Int64) : Option Int64 :=
  match op with
  | add => some (a + b)
  | sub => some (a - b)
  | mul => some (a * b)
  | div => if b = 0 then none else some (a / b)
  | rem => if b = 0 then none else some (a % b)
  | and => some (a &&& b)
  | or => some (a ||| b)
  | xor => some (a ^^^ b)
  | shl => some (a <<< (b &&& 63))
  | shr => some (a >>> (b &&& 63))
  | ushr => some (a.toUInt64 >>> (b &&& 63).toUInt64).toInt64

/-- An `int` cut down to a narrower width, and extended again. -/
def Narrow.cut (target : Narrow) (n : Int32) : Int32 :=
  match target with
  | byte => n.toInt8.toInt32
  | short => n.toInt16.toInt32
  | char => n &&& 0xffff

/-- The locals after a store: a wide value unsets the slot above its own, and is lost
if its upper slot is stored to. -/
def putLocal {α : Type} (width : α → Nat) (locals : Nat → Option α) (slot : Nat) (v : α) :
    Nat → Option α := fun k =>
  if k = slot then some v
  else if k = slot + 1 && width v == 2 then none
  else if k + 1 = slot && (locals k).any (width · == 2) then none
  else locals k

namespace Machine

/-- An order as the `int` that a comparison gives. -/
def sign : Ordering → Int32
  | .lt => -1
  | .eq => 0
  | .gt => 1

-- ==== values

/-- A value on the operand stack or in a slot. -/
inductive Value where
  | int (n : Int32)
  | long (n : Int64)
  | float
  | double
  | reference
deriving DecidableEq, Repr

namespace Value

def kind : Value → StackKind
  | int _ => .num .int
  | long _ => .num .long
  | float => .num .float
  | double => .num .double
  | reference => .reference

/-- Slots that the value takes. -/
def category (v : Value) : Nat :=
  v.kind.category

/-- A number of a kind. -/
def ofInt (kind : NumKind) (n : Int) : Value :=
  match kind with
  | .int => int (.ofInt n)
  | .long => long (.ofInt n)
  | .float => float
  | .double => double

/-- The value of a constant that can be loaded. -/
def ofConstant? : Constant → Option Value
  | .integer n => some (int n)
  | .long n => some (long n)
  | .float _ => some float
  | .double _ => some double
  | .stringRef _ | .classRef _ => some reference
  | _ => none

end Value

/-- What is left open about one step. -/
structure Chance where
  /-- the integer that a floating-point number is converted to -/
  number : Int64
  /-- the order of two floating-point numbers -/
  order : Ordering
  /-- whether two references are one, or a reference is null -/
  same : Bool

/-- A value converted from one numeric kind to another. -/
def Value.convert? (c : Chance) (source target : NumKind) (v : Value) : Option Value :=
  match source, target, v with
  | .int, .long, .int n => some (.long n.toInt64)
  | .long, .int, .long n => some (.int n.toInt32)
  | .float, .int, .float | .double, .int, .double => some (.int c.number.toInt32)
  | .float, .long, .float | .double, .long, .double => some (.long c.number)
  | .int, .float, .int _ | .long, .float, .long _ | .double, .float, .double => some .float
  | .int, .double, .int _ | .long, .double, .long _ | .float, .double, .float => some .double
  | _, _, _ => none

-- ==== the operand stack

/-- The values in the two topmost slots, and the rest. -/
def topTwo? : List Value → Option (List Value × List Value)
  | v :: rest =>
    if v.category = 2 then some ([v], rest)
    else
      match rest with
      | w :: rest => if w.category = 1 then some ([v, w], rest) else none
      | [] => none
  | [] => none

def binary? (op : BinOp) : NumKind → List Value → Option (List Value)
  | .int, .int b :: .int a :: rest => (op.onInt a b).map (.int · :: rest)
  | .long, .int b :: .long a :: rest =>
    if op.isShift then (op.onLong a b.toInt64).map (.long · :: rest) else none
  | .long, .long b :: .long a :: rest =>
    if op.isShift then none else (op.onLong a b).map (.long · :: rest)
  | .float, .float :: .float :: rest => if op.isNumeric then some (.float :: rest) else none
  | .double, .double :: .double :: rest => if op.isNumeric then some (.double :: rest) else none
  | _, _ => none

def negate? : NumKind → List Value → Option (List Value)
  | .int, .int n :: rest => some (.int (-n) :: rest)
  | .long, .long n :: rest => some (.long (-n) :: rest)
  | .float, .float :: rest => some (.float :: rest)
  | .double, .double :: rest => some (.double :: rest)
  | _, _ => none

/-- The order of two numbers, as an `int`. -/
def order? (c : Chance) : NumKind → List Value → Option (List Value)
  | .long, .long b :: .long a :: rest => some (.int (sign (compare a b)) :: rest)
  | .float, .float :: .float :: rest => some (.int (sign c.order) :: rest)
  | .double, .double :: .double :: rest => some (.int (sign c.order) :: rest)
  | _, _ => none

-- ==== calls

/-- The unsigned arithmetic of the class library on `int`. -/
def unsignedInt? (owner name : String) (a b : Int32) : Option Int32 :=
  if owner ≠ "java/lang/Integer" then none
  else if name = "divideUnsigned" then
    if b = 0 then none else some (a.toUInt32 / b.toUInt32).toInt32
  else if name = "remainderUnsigned" then
    if b = 0 then none else some (a.toUInt32 % b.toUInt32).toInt32
  else if name = "compareUnsigned" then some (sign (compare a.toUInt32 b.toUInt32))
  else none

/-- The unsigned arithmetic of the class library on `long`. -/
def unsignedLong? (owner name : String) (a b : Int64) : Option Int64 :=
  if owner ≠ "java/lang/Long" then none
  else if name = "divideUnsigned" then
    if b = 0 then none else some (a.toUInt64 / b.toUInt64).toInt64
  else if name = "remainderUnsigned" then
    if b = 0 then none else some (a.toUInt64 % b.toUInt64).toInt64
  else none

/-- The unsigned order of the class library on `long`. -/
def unsignedOrder? (owner name : String) (a b : Int64) : Option Int32 :=
  if owner = "java/lang/Long" ∧ name = "compareUnsigned" then
    some (sign (compare a.toUInt64 b.toUInt64))
  else none

/-- A call of a static method of the class library. -/
def call? (m : MethodSpec) (stack : List Value) : Option (List Value) :=
  if m.descriptor = "(II)I" then
    match stack with
    | .int b :: .int a :: rest => (unsignedInt? m.owner m.name a b).map (.int · :: rest)
    | _ => none
  else if m.descriptor = "(JJ)J" then
    match stack with
    | .long b :: .long a :: rest => (unsignedLong? m.owner m.name a b).map (.long · :: rest)
    | _ => none
  else if m.descriptor = "(JJ)I" then
    match stack with
    | .long b :: .long a :: rest => (unsignedOrder? m.owner m.name a b).map (.int · :: rest)
    | _ => none
  else none

/-- A call of a constructor without parameters. -/
def construct? (m : MethodSpec) (stack : List Value) : Option (List Value) :=
  match stack with
  | .reference :: rest => if m.descriptor = "()V" then some rest else none
  | _ => none

-- ==== instructions

/-- What an instruction that goes on and names no slot does to the stack. -/
def effect? (p : Pool) (c : Chance) (i : Instr) (stack : List Value) : Option (List Value) :=
  match i, stack with
  | .nop, stack => some stack
  | .constNull, stack => some (.reference :: stack)
  | .const k n, stack => some (.ofInt k n :: stack)
  | .bipush n, stack | .sipush n, stack => some (.ofInt .int n :: stack)
  | .ldc i, stack | .ldcW i, stack => do
    let v ← (p.get? i).bind Value.ofConstant?
    if v.category = 1 then some (v :: stack) else none
  | .ldc2W i, stack => do
    let v ← (p.get? i).bind Value.ofConstant?
    if v.category = 2 then some (v :: stack) else none
  | .pop, v :: rest => if v.category = 1 then some rest else none
  | .pop2, stack => (topTwo? stack).map (·.2)
  | .dup, v :: rest => if v.category = 1 then some (v :: v :: rest) else none
  | .dup2, stack => (topTwo? stack).map fun (top, rest) => top ++ top ++ rest
  | .binary op k, stack => binary? op k stack
  | .neg k, stack => negate? k stack
  | .convert source target, v :: rest => (v.convert? c source target).map (· :: rest)
  | .narrow target, .int n :: rest => some (.int (target.cut n) :: rest)
  | .lcmp, stack => order? c .long stack
  | .fcmp _, stack => order? c .float stack
  | .dcmp _, stack => order? c .double stack
  | .invokeStatic i, stack => (p.method? i).bind (call? · stack)
  | .invokeSpecial i, stack => (p.method? i).bind (construct? · stack)
  | .newObject _, stack => some (.reference :: stack)
  | _, _ => none

/-- Whether a branch is taken, and the stack behind it. -/
def test? (c : Chance) (i : Instr) (stack : List Value) : Option (Bool × List Value) :=
  match i, stack with
  | .ifZero way _, .int n :: rest => some (way.holds n.toInt 0, rest)
  | .ifInt way _, .int b :: .int a :: rest => some (way.holds a.toInt b.toInt, rest)
  | .ifSame same _, .reference :: .reference :: rest => some (c.same == same, rest)
  | .ifNull null _, .reference :: rest => some (c.same == null, rest)
  | .goto _, stack | .gotoW _, stack => some (true, stack)
  | _, _ => none

/-- The offset that a jump table has for a number. -/
def tableOffset (default low : Int) (offsets : List Int) (n : Int) : Int :=
  if n < low then default else offsets.getD (n - low).toNat default

-- ==== execution

/-- One invocation of a method. -/
structure State where
  /-- the top first -/
  stack : List Value := []
  /-- an absent slot is unset -/
  locals : Nat → Option Value := fun _ => none

/-- What comes of executing an instruction. -/
inductive Outcome where
  | next (s : State)
  | jump (offset : Int) (s : State)
  | leave

/-- Executes one instruction. -/
def exec (p : Pool) (c : Chance) (i : Instr) (s : State) : Option Outcome :=
  match i with
  | .load kind form => do
    let v ← s.locals form.slot
    if v.kind = kind then some (.next { s with stack := v :: s.stack }) else none
  | .store kind form =>
    match s.stack with
    | v :: rest =>
      if v.kind = kind then
        some (.next { stack := rest, locals := putLocal Value.category s.locals form.slot v })
      else none
    | [] => none
  | .ifZero _ o | .ifInt _ o | .ifSame _ o | .ifNull _ o | .goto o | .gotoW o => do
    let (taken, stack) ← test? c i s.stack
    return if taken then .jump o { s with stack } else .next { s with stack }
  | .tableSwitch default low _ offsets =>
    match s.stack with
    | .int n :: stack => some (.jump (tableOffset default low offsets n.toInt) { s with stack })
    | _ => none
  | .returnVoid | .returnValue _ | .athrow => some .leave
  | i => (effect? p c i s.stack).map fun stack => .next { s with stack }

/-- What is reached by executing code from its start: an address and the invocation
there, with the addresses that were jumped to. -/
inductive Run (code : List (Nat × Instr)) (p : Pool) (start : State) :
    List Nat → Nat → State → Prop where
  | start : Run code p start [] 0 start
  | next {jumps : List Nat} {a : Nat} {i : Instr} {c : Chance} {s s' : State}
      (h : Run code p start jumps a s) (hi : (a, i) ∈ code)
      (hexec : exec p c i s = some (.next s')) : Run code p start jumps (a + i.size a) s'
  | jump {jumps : List Nat} {a dest : Nat} {i : Instr} {c : Chance} {o : Int} {s s' : State}
      (h : Run code p start jumps a s) (hi : (a, i) ∈ code)
      (hexec : exec p c i s = some (.jump o s')) (hdest : (a : Int) + o = dest) :
      Run code p start (dest :: jumps) dest s'

/-- Executes a number of instructions, with one chance for all of them. -/
def advance? (code : List (Nat × Instr)) (p : Pool) (c : Chance) :
    Nat → List Nat × Nat × State → Option (List Nat × Nat × State)
  | 0, here => some here
  | n + 1, (jumps, a, s) =>
    match code.lookup a with
    | none => none
    | some i =>
      match exec p c i s with
      | some (.next s') => advance? code p c n (jumps, a + i.size a, s')
      | some (.jump o s') =>
        match (a : Int) + o with
        | .ofNat dest => advance? code p c n (dest :: jumps, dest, s')
        | .negSucc _ => none
      | _ => none

theorem Run.advance {code : List (Nat × Instr)} {p : Pool} {c : Chance} {start : State}
    {n : Nat} {here there : List Nat × Nat × State}
    (h : Run code p start here.1 here.2.1 here.2.2) (hn : advance? code p c n here = some there) :
    Run code p start there.1 there.2.1 there.2.2 := by
  induction n generalizing here with
  | zero =>
    cases hn
    exact h
  | succ n ih =>
    obtain ⟨jumps, a, s⟩ := here
    unfold advance? at hn
    split at hn
    · cases hn
    · next i hi =>
      obtain ⟨pre, post, rfl, -⟩ := List.lookup_eq_some_iff.mp hi
      have hmem : (a, i) ∈ pre ++ (a, i) :: post := by simp
      split at hn
      · next hexec => exact ih (.next h hmem hexec) hn
      · next hexec =>
        split at hn
        · next dest hdest => exact ih (.jump h hmem hexec hdest) hn
        · cases hn
      · cases hn

theorem exists_run_of_advance? {code : List (Nat × Instr)} {p : Pool} {c : Chance}
    {start : State} {n slot a : Nat} {jumps : List Nat} {v : Value}
    (h : (advance? code p c n ([], 0, start)).map (fun r => (r.1, r.2.1, r.2.2.locals slot))
      = some (jumps, a, some v)) :
    ∃ now, Run code p start jumps a now ∧ now.locals slot = some v := by
  obtain ⟨⟨jumps', a', now⟩, hnow, heq⟩ := Option.map_eq_some_iff.mp h
  simp only [Prod.mk.injEq] at heq
  obtain ⟨rfl, rfl, hv⟩ := heq
  exact ⟨now, Run.start.advance hnow, hv⟩

end Machine

end BytecodeBridge
