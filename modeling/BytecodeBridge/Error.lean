/-
Why a method cannot be lowered.

A failure has one of three causes: the input breaks a structural rule
(`Malformed`), the input is sound but has no counterpart on the target
machine (`Unsupported`), or an invariant of the lowering itself does not
hold (`Internal`). Each cause is a constructor that carries what it is
about; the wording stands in the three `text` functions and nowhere
else. An `Error` adds the methods the failure was met in, outermost
first.
-/
import BytecodeBridge.Label
import BytecodeBridge.Instr
import BytecodeBridge.Source.Op

namespace BytecodeBridge

-- ==== conflicts

/-- Why two frames that meet at one point cannot be merged. -/
inductive MergeConflict where
  /-- the operand stacks have different numbers of entries -/
  | depth (left right : Nat)
  /-- two entries at one position take different numbers of slots -/
  | width (left right : Ty)
deriving DecidableEq, Repr

def MergeConflict.text : MergeConflict → String
  | depth a b => s!"stack depth {a} does not match depth {b}"
  | width a b =>
    "stack holds " ++ a.describe ++ " on one path and " ++ b.describe ++ " on another"

/-- The offsets of a handler that have to be operation boundaries. -/
inductive HandlerBound where
  | tryStart
  | handlerStart
  | tryStop
  | handlerStop
  | filterStart
deriving DecidableEq, Repr

def HandlerBound.text : HandlerBound → String
  | tryStart => "protected range"
  | handlerStart => "handler"
  | tryStop => "end of protected range"
  | handlerStop => "end of handler"
  | filterStart => "filter"

-- ==== malformed

/-- The structural rules an input can break. -/
inductive Malformed where
  | notArray (ty : Ty)
  /-- frames that do not merge, at a label if one is known -/
  | conflict (conflict : MergeConflict) (label : Option Label)
  | stackUnderflow
  | noArgument (index : Nat)
  | noVariable (index : Nat)
  -- handlers and regions
  | notBoundary (bound : HandlerBound) (offset : Nat)
  | emptyRange (handler : Nat)
  | catchWithoutType (handler : Nat)
  | filterWithoutCondition (handler : Nat)
  | filterAfterHandler (condition : Nat)
  | handlerInsideRange (handler : Nat)
  | clausesApart (first second : Nat)
  | earlyFinalClause (region : Nat)
  | regionsOverlap (first second : Nat)
  | rethrowOutside (offset : Nat)
  | endFinallyOutside (offset : Nat)
  | endFilterOutside (offset : Nat)
  | catchOfNonReference (ty : Ty)
  | fallsIntoHandler (offset : Nat)
  | filterYields (ty : Ty)
  -- control flow
  | badTarget (offset target : Nat)
  | fallsOffEnd
  | switchAtEnd (offset : Nat)
  | switchOn (ty : Ty)
  | branchOn (ty : Ty)
  | earlyConstructorReturn
  -- operands
  | expectedReference (found : Ty)
  | badStore (value target : Ty)
  | badElement (value element : Ty)
  | badIndex (ty : Ty)
  | badOperand (op : Arith) (ty : Ty)
  | badShift (op : Arith) (value distance : Ty)
  | badOperands (op : Arith) (left right : Ty)
  | badConversion (ty : Ty)
  | badArgument (value param : Ty)
  | badCast (ty : Ty)
  | compared (left right : Ty)
  | orderCompared (left right : Ty)
deriving DecidableEq, Repr

def Malformed.text : Malformed → String
  | notArray t => t.describe ++ " is not an array"
  | conflict c none => c.text
  | conflict c (some l) => c.text ++ " at " ++ l.text
  | stackUnderflow => "stack underflow"
  | noArgument i => s!"no argument {i}"
  | noVariable i => s!"no local variable {i}"
  | notBoundary b o => s!"{b.text} at {o} is not an instruction"
  | emptyRange o => s!"empty range in handler at {o}"
  | catchWithoutType o => s!"catch at {o} has no type"
  | filterWithoutCondition o => s!"filter at {o} has no condition"
  | filterAfterHandler o => s!"filter at {o} follows its handler"
  | handlerInsideRange o => s!"handler at {o} lies inside its protected range"
  | clausesApart a b => s!"clauses at {a} and {b} are not contiguous"
  | earlyFinalClause o => s!"region at {o} has a finally or fault clause that is not its last"
  | regionsOverlap a b => s!"regions at {a} and {b} overlap"
  | rethrowOutside o => s!"rethrow at {o} is outside a catch clause"
  | endFinallyOutside o => s!"endfinally at {o} is outside a finally or fault clause"
  | endFilterOutside o => s!"endfilter at {o} is outside a filter"
  | catchOfNonReference t => "catch of non-reference type " ++ t.describe
  | fallsIntoHandler o => s!"control falls into the handler at {o}"
  | filterYields t => "filter yields " ++ t.describe
  | badTarget o t =>
    "branch at " ++ (Label.source o).text ++ s!" targets {t}, which is not an instruction"
  | fallsOffEnd => "control falls off the end of the method"
  | switchAtEnd o => s!"switch at {o} is the last instruction"
  | switchOn t => "switch on " ++ t.describe
  | branchOn t => "branch on " ++ t.describe
  | earlyConstructorReturn => "constructor returns before calling a base constructor"
  | expectedReference t => "expected a reference, found " ++ t.describe
  | badStore v t => v.describe ++ " cannot be stored as " ++ t.describe
  | badElement v e => v.describe ++ " stored into an array of " ++ e.describe
  | badIndex t => "array index of type " ++ t.describe
  | badOperand op t => op.name ++ " of " ++ t.describe
  | badShift op a b => op.name ++ " of " ++ a.describe ++ " by " ++ b.describe
  | badOperands op a b => op.name ++ " of " ++ a.describe ++ " and " ++ b.describe
  | badConversion t => "conversion of " ++ t.describe
  | badArgument v p => v.describe ++ " passed for a parameter of type " ++ p.describe
  | badCast t => "cast to " ++ t.describe
  | compared a b => "comparison of " ++ a.describe ++ " with " ++ b.describe
  | orderCompared a b => "ordered comparison of " ++ a.describe ++ " with " ++ b.describe

-- ==== unsupported

/-- What the target machine, or its class files, cannot express. -/
inductive Unsupported where
  | tooManySlots
  | codeTooLong (bytes : Nat)
  | branchTooFar (offset : Int)
  /-- catching a class that the target machine raises under another name -/
  | catchOfAlias (name : String)
  | tooManyLeaves
  | addressOfLocal (index : Nat)
  | checkedConversion (target : Prim)
  | tooManyArguments (method : String)
deriving DecidableEq, Repr

def Unsupported.text : Unsupported → String
  | tooManySlots => "too many local slots"
  | codeTooLong n => s!"method code is {n} bytes long"
  | branchTooFar o => s!"branch offset {o} does not fit in 16 bits"
  | catchOfAlias name => s!"catching {name}, which the JVM raises under another name"
  | tooManyLeaves => "too many leave destinations"
  | addressOfLocal i => s!"taking the address of local {i}"
  | checkedConversion k => "checked conversion to " ++ k.name
  | tooManyArguments name => s!"{name} takes too many arguments"

-- ==== internal

/-- The invariants of the lowering whose breach is reported. -/
inductive Internal where
  -- types
  | noStackKind
  | noDescriptor (ty : Ty)
  | notClass (ty : Ty)
  -- frames
  | unsetPushed
  | noFrame (label : Label)
  | frameUnbound (label : Label)
  | frameOffsetRange
  | noFrameReaches (label : Label)
  | missingFrame (address : Nat)
  -- slots
  | lateDeclaration
  | notTemporary (slot : Nat)
  | slotUndeclared (slot : Nat)
  | slotUnwritten (slot : Nat)
  | syntheticUnwritten (slot : Nat)
  -- the constant pool
  | poolOverflow
  -- code
  | boundTwice (label : Label)
  | branchUnbound (label : Label)
  | notBranch (instr : Instr)
  | labelUnbound (label : Label)
  | addressRange
  -- regions
  | leaveUnplanned (target region : Nat)
  | noRegion (region : Nat)
  | noRethrowSlot (offset : Nat)
  | noFilterSlot (region : Nat)
  | noFinallyClause (region : Nat)
deriving DecidableEq, Repr

def Internal.text : Internal → String
  | noStackKind => "an unset slot has no stack kind"
  | noDescriptor t => t.describe ++ " has no descriptor"
  | notClass t => t.describe ++ " is not a class"
  | unsetPushed => "pushing an unset value"
  | noFrame l => "no frame recorded for " ++ l.text
  | frameUnbound l => "frame recorded for unbound label " ++ l.text
  | frameOffsetRange => "frame offset out of range"
  | noFrameReaches l => "no frame reaches " ++ l.text
  | missingFrame a => s!"missing frame after unconditional transfer at byte {a}"
  | lateDeclaration => "declared slot requested after temporaries"
  | notTemporary s => s!"slot {s} is not a live temporary"
  | slotUndeclared s => s!"slot {s} is not declared"
  | slotUnwritten s => s!"slot {s} is read before it is written"
  | syntheticUnwritten s => s!"synthetic slot {s} is read before it is written"
  | poolOverflow => "constant pool overflow"
  | boundTwice l => "label " ++ l.text ++ " bound twice"
  | branchUnbound l => "branch to unbound label " ++ l.text
  | notBranch i => i.text ++ " is not a branch"
  | labelUnbound l => "unbound label " ++ l.text
  | addressRange => "address out of range"
  | leaveUnplanned t r => s!"leave to {t} was not planned through region {r}"
  | noRegion r => s!"no region {r}"
  | noRethrowSlot o => s!"no slot holds the exception rethrown at {o}"
  | noFilterSlot r => s!"filter in region {r} has no slot"
  | noFinallyClause r => s!"region {r} has no finally clause"

-- ==== errors

/-- Why something failed. -/
inductive Cause where
  | malformed (cause : Malformed)
  | unsupported (cause : Unsupported)
  | internal (cause : Internal)
deriving DecidableEq, Repr

/-- The three classes of failure. -/
inductive ErrorKind where
  | malformed
  | unsupported
  | internal
deriving DecidableEq, Repr

/-- How the message of a failure starts. -/
def ErrorKind.heading : ErrorKind → String
  | malformed => "malformed input: "
  | unsupported => "unsupported construct: "
  | internal => "internal error: "

namespace Cause

def kind : Cause → ErrorKind
  | malformed _ => .malformed
  | unsupported _ => .unsupported
  | internal _ => .internal

def text : Cause → String
  | malformed c => c.text
  | unsupported c => c.text
  | internal c => c.text

def message (c : Cause) : String :=
  c.kind.heading ++ c.text

end Cause

/-- A computation without state runs in any computation that keeps its state
when it fails. -/
instance {σ : Type} : MonadLift (Except Cause) (EStateM Cause σ) where
  monadLift
    | .ok a => pure a
    | .error c => throw c

/-- A failure, with the methods it was met in, outermost first. -/
structure Error where
  cause : Cause
  methods : List String := []
deriving DecidableEq, Repr

namespace Error

/-- The error as met in a method. -/
def inMethod (e : Error) (method : String) : Error :=
  { e with methods := method :: e.methods }

def kind (e : Error) : ErrorKind :=
  e.cause.kind

/-- A message with the methods it comes from in front, outermost first. -/
def located (methods : List String) (message : String) : String :=
  String.join (methods.map fun m => "in method " ++ m ++ ": ") ++ message

def message (e : Error) : String :=
  located e.methods e.cause.message

/-- The method an error is met in does not change its kind. -/
@[simp] theorem kind_inMethod (e : Error) (m : String) : (e.inMethod m).kind = e.kind :=
  rfl

end Error

end BytecodeBridge
