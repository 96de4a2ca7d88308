/-
Code under construction: instructions and the labels between them.

A method's code has two parts. The body grows at its end as operations
are lowered; the prologue, which runs before it, grows as variables turn
out to need a default value. Both are kept with the latest item first.
-/
import BytecodeBridge.Label
import BytecodeBridge.Instr

namespace BytecodeBridge

/-- One item of code whose addresses are not known yet. -/
inductive Item where
  | instr (instr : Instr)
  | bind (label : Label)
  /-- a branch whose offset is filled in at assembly -/
  | branch (instr : Instr) (target : Label)
  /-- a jump table over the values from `low` upwards -/
  | table (low : Int) (targets : List Label) (default : Label)
deriving DecidableEq, Repr, Inhabited

/-- Code under construction. -/
structure CodeBuffer where
  /-- what runs before the body, the latest first -/
  prologue : List Instr := []
  /-- the latest item first -/
  body : List Item := []
deriving DecidableEq, Repr, Inhabited

namespace CodeBuffer

/-- Adds an item at the end of the body. -/
def push (b : CodeBuffer) (item : Item) : CodeBuffer :=
  { b with body := item :: b.body }

def emit (b : CodeBuffer) (i : Instr) : CodeBuffer :=
  b.push (.instr i)

/-- Adds an instruction that runs before the body. -/
def emitPrologue (b : CodeBuffer) (i : Instr) : CodeBuffer :=
  { b with prologue := i :: b.prologue }

def branch (b : CodeBuffer) (i : Instr) (target : Label) : CodeBuffer :=
  b.push (.branch i target)

def table (b : CodeBuffer) (low : Int) (targets : List Label) (default : Label) : CodeBuffer :=
  b.push (.table low targets default)

def bind (b : CodeBuffer) (label : Label) : CodeBuffer :=
  b.push (.bind label)

/-- All items in order, the prologue first. -/
def items (b : CodeBuffer) : List Item :=
  b.prologue.reverse.map .instr ++ b.body.reverse

def length (b : CodeBuffer) : Nat :=
  b.prologue.length + b.body.length

/-- Items, latest first, without the latest instruction; `none` unless that is
exactly `i` and only passable labels follow it. The labels are kept. -/
def retractFrom (i : Instr) (passable : Label → Bool) : List Item → Option (List Item)
  | .bind l :: rest => if passable l then (retractFrom i passable rest).map (.bind l :: ·) else none
  | .instr last :: rest => if last = i then some rest else none
  | _ => none

/-- Takes back the last instruction, if it is exactly `i` and only passable
labels follow it. -/
def retract? (b : CodeBuffer) (i : Instr) (passable : Label → Bool) : Option CodeBuffer :=
  (retractFrom i passable b.body).map fun body => { b with body }

end CodeBuffer

end BytecodeBridge
