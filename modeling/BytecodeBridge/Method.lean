/-
Lowered methods, ready for a class-file writer, and their listing.
-/
import BytecodeBridge.Frame.StackMap

namespace BytecodeBridge

/-- One row of an exception table: the range it guards, from `startPc` up to but
not including `stopPc`, and the handler. -/
structure ExceptionEntry where
  startPc : Nat
  stopPc : Nat
  handlerPc : Nat
  /-- the class constant of what is caught -/
  catchType : Nat
deriving DecidableEq, Repr, Inhabited

/-- A named slot, for debuggers. -/
structure LocalVariable where
  name : String
  slot : Nat
  descriptor : String
deriving DecidableEq, Repr, Inhabited

/-- A lowered method. -/
structure Method where
  name : String
  /-- instructions with their addresses -/
  code : List (Nat × Instr)
  /-- the innermost regions first -/
  exceptions : List ExceptionEntry
  /-- in the order of their offsets -/
  stackMap : List StackMapEntry
  maxStack : Nat
  maxLocals : Nat
  locals : List LocalVariable
  /-- the address of the code of each source offset -/
  sourceOffsets : List (Nat × Nat)
deriving DecidableEq, Repr, Inhabited

namespace Method

-- ==== listing

/-- A number, padded with blanks on the left to six places. -/
def padded (n : Nat) : String :=
  let digits := toString n
  String.ofList (List.replicate (6 - digits.length) ' ') ++ digits

def vtypesText (types : List VType) : String :=
  Instr.listText (types.map VType.text)

/-- The lines of one instruction, after the frame it starts from if it has one. -/
def instrLines (stackMap : List StackMapEntry) : Nat × Instr → List String
  | (addr, i) =>
    let line := padded addr ++ ": " ++ i.text
    match stackMap.find? fun e => e.offset == addr with
    | some e => ["      frame " ++ vtypesText e.locals ++ " / " ++ vtypesText e.stack, line]
    | none => [line]

def exceptionLine (e : ExceptionEntry) : String :=
  s!"  [{e.startPc}, {e.stopPc}) -> {e.handlerPc} catching #{e.catchType}"

/-- The lines of the method's listing. -/
def lines (m : Method) : List String :=
  s!"{m.name} (stack {m.maxStack}, locals {m.maxLocals}):"
    :: m.code.flatMap (instrLines m.stackMap) ++ m.exceptions.map exceptionLine

/-- The method's listing. -/
def text (m : Method) : String :=
  String.join (m.lines.map fun line => line ++ "\n")

end Method

end BytecodeBridge
