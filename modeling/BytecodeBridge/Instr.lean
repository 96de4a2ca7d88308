/-
The instructions of the target machine.

Instructions that differ only in the kind they work on, or in the
comparison they make, are one constructor with a parameter. A local slot
is named in one of three encodings, and the choice is part of the
instruction because it decides its length: the four shortest forms have
the slot in the opcode, the next have it in one byte, the widest in two.

`Instr.size` gives the encoded length, which for switches depends on the
address because their operands are aligned. `Instr.text` spells an
instruction out with its operands.
-/
import BytecodeBridge.Kind

namespace BytecodeBridge

-- ==== operands

/-- How an instruction names a local slot. -/
inductive SlotForm where
  /-- in the opcode; slots 0 to 3 -/
  | short (slot : Nat)
  /-- in one byte -/
  | byte (slot : Nat)
  /-- in two bytes -/
  | wide (slot : Nat)
deriving DecidableEq, Repr, Inhabited

namespace SlotForm

/-- The slot that is named. -/
def slot : SlotForm → Nat
  | short s | byte s | wide s => s

/-- The shortest form for a slot. -/
def of (slot : Nat) : SlotForm :=
  if slot < 4 then .short slot
  else if slot < 256 then .byte slot
  else .wide slot

@[simp] theorem slot_of (s : Nat) : (of s).slot = s := by
  unfold of
  split
  · rfl
  · split <;> rfl

/-- Encoded length of an instruction that names a slot in this form. -/
def size : SlotForm → Nat
  | short _ => 1
  | byte _ => 2
  | wide _ => 4

theorem size_pos (form : SlotForm) : 0 < form.size := by
  cases form <;> simp [size]

/-- An instruction name followed by the slot. -/
def text (name : String) : SlotForm → String
  | short s => s!"{name}{s}"
  | byte s => s!"{name}({s})"
  | wide s => s!"{name}Wide({s})"

end SlotForm

/-- The arithmetic that takes two operands of one kind. The bitwise operations
and the shifts exist for `int` and `long` only; a shift takes its distance as
an `int`. -/
inductive BinOp where
  | add
  | sub
  | mul
  | div
  | rem
  | and
  | or
  | xor
  | shl
  | shr
  | ushr
deriving DecidableEq, Repr, Inhabited

/-- The operation's part of the instruction name. -/
def BinOp.name : BinOp → String
  | add => "add"
  | sub => "sub"
  | mul => "mul"
  | div => "div"
  | rem => "rem"
  | and => "and"
  | or => "or"
  | xor => "xor"
  | shl => "shl"
  | shr => "shr"
  | ushr => "ushr"

/-- The integer widths below `int` that a value can be cut down to. -/
inductive Narrow where
  | byte
  | char
  | short
deriving DecidableEq, Repr, Inhabited

def Narrow.letter : Narrow → String
  | byte => "b"
  | char => "c"
  | short => "s"

/-- The element kinds that array instructions tell apart. -/
inductive Elem where
  | byte
  | char
  | short
  | num (kind : NumKind)
  | reference
deriving DecidableEq, Repr, Inhabited

def Elem.letter : Elem → String
  | byte => "B"
  | char => "C"
  | short => "S"
  | num k => k.letter
  | reference => "A"

-- ==== instructions

/-- One instruction of the target machine. Branch operands are relative to the
address of the branch; the other numbers are indices into the constant pool,
local slots or immediate values. -/
inductive Instr where
  | nop
  -- constants
  | constNull
  | const (kind : NumKind) (value : Int)
  | bipush (value : Int)
  | sipush (value : Int)
  | ldc (index : Nat)
  | ldcW (index : Nat)
  | ldc2W (index : Nat)
  -- locals
  | load (kind : StackKind) (slot : SlotForm)
  | store (kind : StackKind) (slot : SlotForm)
  | iinc (slot : Nat) (value : Int)
  | iincWide (slot : Nat) (value : Int)
  | ret (slot : Nat)
  | retWide (slot : Nat)
  -- arrays
  | arrayLoad (elem : Elem)
  | arrayStore (elem : Elem)
  | arrayLength
  | newArray (code : Nat)
  | newRefArray (index : Nat)
  | multiNewArray (index : Nat) (dimensions : Nat)
  -- the operand stack
  | pop
  | pop2
  | dup
  | dupX1
  | dupX2
  | dup2
  | dup2X1
  | dup2X2
  | swap
  -- arithmetic
  | binary (op : BinOp) (kind : NumKind)
  | neg (kind : NumKind)
  | convert (source target : NumKind)
  | narrow (target : Narrow)
  | lcmp
  -- with `nanHigh`, an unordered comparison gives 1 and not -1
  | fcmp (nanHigh : Bool)
  | dcmp (nanHigh : Bool)
  -- branches
  | ifZero (way : Comparison) (offset : Int)
  | ifInt (way : Comparison) (offset : Int)
  | ifSame (same : Bool) (offset : Int)
  | ifNull (null : Bool) (offset : Int)
  | goto (offset : Int)
  | gotoW (offset : Int)
  | jsr (offset : Int)
  | jsrW (offset : Int)
  | tableSwitch (default low high : Int) (offsets : List Int)
  | lookupSwitch (default : Int) (pairs : List (Int × Int))
  -- ends of a method
  | returnVoid
  | returnValue (kind : StackKind)
  | athrow
  -- fields, methods and objects, by pool index
  | getStatic (index : Nat)
  | putStatic (index : Nat)
  | getField (index : Nat)
  | putField (index : Nat)
  | invokeVirtual (index : Nat)
  | invokeSpecial (index : Nat)
  | invokeStatic (index : Nat)
  | invokeInterface (index : Nat) (count : Nat)
  | invokeDynamic (index : Nat)
  | newObject (index : Nat)
  | checkCast (index : Nat)
  | instanceOf (index : Nat)
  | monitorEnter
  | monitorExit
deriving DecidableEq, Repr, Inhabited

namespace Instr

-- ==== size

/-- Bytes between the opcode of a switch at `addr` and its aligned operands. -/
def switchPadding (addr : Nat) : Nat :=
  (4 - (addr + 1) % 4) % 4

/-- Encoded length of a jump table with `count` arms at `addr`. -/
def tableSize (addr count : Nat) : Nat :=
  1 + switchPadding addr + 12 + 4 * count

/-- Encoded length in bytes of the instruction placed at `addr`. -/
def size (addr : Nat) : Instr → Nat
  | load _ form | store _ form => form.size
  | bipush _ | ldc _ | newArray _ | ret _ => 2
  | sipush _ | ldcW _ | ldc2W _ | iinc _ _ => 3
  | ifZero _ _ | ifInt _ _ | ifSame _ _ | ifNull _ _ | goto _ | jsr _ => 3
  | getStatic _ | putStatic _ | getField _ | putField _ => 3
  | invokeVirtual _ | invokeSpecial _ | invokeStatic _ => 3
  | newObject _ | newRefArray _ | checkCast _ | instanceOf _ => 3
  | retWide _ | multiNewArray _ _ => 4
  | invokeInterface _ _ | invokeDynamic _ | gotoW _ | jsrW _ => 5
  | iincWide _ _ => 6
  | tableSwitch _ _ _ offsets => tableSize addr offsets.length
  | lookupSwitch _ pairs => 1 + switchPadding addr + 8 + 8 * pairs.length
  | _ => 1

/-- Whether execution never continues at the following instruction. -/
def isUnconditional : Instr → Bool
  | goto _ | gotoW _ | athrow | ret _ | retWide _ | returnVoid | returnValue _
  | tableSwitch _ _ _ _ | lookupSwitch _ _ => true
  | _ => false

/-- No instruction is empty. -/
theorem size_pos (addr : Nat) (i : Instr) : 0 < i.size addr := by
  cases i with
  | load _ form => exact form.size_pos
  | store _ form => exact form.size_pos
  | tableSwitch _ _ _ offsets => simp only [size, tableSize]; omega
  | lookupSwitch _ pairs => simp only [size]; omega
  | _ => simp only [size]; decide

-- ==== text

/-- Items between brackets, separated by commas. -/
def listText (items : List String) : String :=
  "[" ++ ", ".intercalate items ++ "]"

/-- The instruction as it is spelled in listings. -/
def text : Instr → String
  | nop => "Nop"
  | constNull => "Aconstnull"
  | const k v => k.letter ++ "const" ++ (if v = -1 then "m1" else toString v)
  | bipush v => s!"Bipush({v})"
  | sipush v => s!"Sipush({v})"
  | ldc i => s!"Ldc({i})"
  | ldcW i => s!"LdcW({i})"
  | ldc2W i => s!"Ldc2W({i})"
  | load k form => form.text (k.letter ++ "load")
  | store k form => form.text (k.letter ++ "store")
  | iinc s v => s!"Iinc \x7b index: {s}, value: {v} \x7d"
  | iincWide s v => s!"IincWide \x7b index: {s}, value: {v} \x7d"
  | ret s => s!"Ret({s})"
  | retWide s => s!"RetWide({s})"
  | arrayLoad e => e.letter ++ "aload"
  | arrayStore e => e.letter ++ "astore"
  | arrayLength => "Arraylength"
  | newArray c => s!"Newarray({c})"
  | newRefArray i => s!"Anewarray({i})"
  | multiNewArray i d => s!"Multianewarray \x7b index: {i}, dimensions: {d} \x7d"
  | pop => "Pop"
  | pop2 => "Pop2"
  | dup => "Dup"
  | dupX1 => "Dupx1"
  | dupX2 => "Dupx2"
  | dup2 => "Dup2"
  | dup2X1 => "Dup2x1"
  | dup2X2 => "Dup2x2"
  | swap => "Swap"
  | binary op k => k.letter ++ op.name
  | neg k => k.letter ++ "neg"
  | convert a b => a.letter ++ "2" ++ b.lowerLetter
  | narrow n => "I2" ++ n.letter
  | lcmp => "Lcmp"
  | fcmp high => if high then "Fcmpg" else "Fcmpl"
  | dcmp high => if high then "Dcmpg" else "Dcmpl"
  | ifZero w o => s!"If{w.suffix}({o})"
  | ifInt w o => s!"IfIcmp{w.suffix}({o})"
  | ifSame same o => if same then s!"IfAcmpeq({o})" else s!"IfAcmpne({o})"
  | ifNull null o => if null then s!"Ifnull({o})" else s!"Ifnonnull({o})"
  | goto o => s!"Goto({o})"
  | gotoW o => s!"GotoW({o})"
  | jsr o => s!"Jsr({o})"
  | jsrW o => s!"JsrW({o})"
  | tableSwitch d low high offsets =>
    let arms := listText (offsets.map toString)
    s!"Tableswitch \x7b default: {d}, low: {low}, high: {high}, offsets: {arms} \x7d"
  | lookupSwitch d pairs =>
    let arms := listText (pairs.map fun p => s!"({p.1}, {p.2})")
    s!"Lookupswitch \x7b default: {d}, pairs: {arms} \x7d"
  | returnVoid => "Return"
  | returnValue k => k.letter ++ "return"
  | athrow => "Athrow"
  | getStatic i => s!"Getstatic({i})"
  | putStatic i => s!"Putstatic({i})"
  | getField i => s!"Getfield({i})"
  | putField i => s!"Putfield({i})"
  | invokeVirtual i => s!"Invokevirtual({i})"
  | invokeSpecial i => s!"Invokespecial({i})"
  | invokeStatic i => s!"Invokestatic({i})"
  | invokeInterface i n => s!"Invokeinterface \x7b index: {i}, count: {n} \x7d"
  | invokeDynamic i => s!"Invokedynamic({i})"
  | newObject i => s!"New({i})"
  | checkCast i => s!"Checkcast({i})"
  | instanceOf i => s!"Instanceof({i})"
  | monitorEnter => "Monitorenter"
  | monitorExit => "Monitorexit"

end Instr

end BytecodeBridge
