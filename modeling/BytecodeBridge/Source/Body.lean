/-
Source method bodies.

A body is a list of operations at ascending offsets, with the handlers
listed in the method's header. The last operation ends one past its
offset, and an exclusive end that points further is clamped to there.
-/
import BytecodeBridge.Source.Op

namespace BytecodeBridge

/-- What a handler in a method header does. -/
inductive HandlerKind where
  /-- handles exceptions of a type -/
  | typed
  /-- handles exceptions that a condition accepts -/
  | filtered
  /-- the finally clause, run on every way out -/
  | cleanup
  /-- run when an exception passes -/
  | fault
deriving DecidableEq, Repr, Inhabited

/-- One handler of a method header. Both ends are exclusive. -/
structure Handler where
  kind : HandlerKind
  tryStart : Nat
  tryStop : Nat
  handlerStart : Nat
  handlerStop : Nat
  /-- where a filter's condition starts -/
  filterStart : Option Nat
  /-- what a typed handler catches -/
  catchType : Option Ty
deriving DecidableEq, Repr, Inhabited

/-- How a method is called. -/
inductive MethodKind where
  | static
  | instance_
  | constructor
deriving DecidableEq, Repr, Inhabited

/-- A parameter or a local variable. -/
structure Variable where
  name : Option String
  ty : Ty
deriving DecidableEq, Repr, Inhabited

/-- A source method body with its header. -/
structure Body where
  owner : Ty
  name : String
  kind : MethodKind
  params : List Variable
  locals : List Variable
  returns : Option Ty
  /-- operations at ascending offsets -/
  code : List (Nat × Op)
  handlers : List Handler
deriving Inhabited

namespace Body

/-- The offset just past the last operation. -/
def stop (b : Body) : Nat :=
  match b.code.getLast? with
  | some (o, _) => o + 1
  | none => 0

/-- Clamps an exclusive end that points past the last operation. -/
def clampStop (b : Body) (offset : Nat) : Nat :=
  min offset b.stop

/-- Whether an operation starts at the offset. -/
def isBoundary (b : Body) (offset : Nat) : Bool :=
  b.code.any fun entry => entry.1 == offset

/-- The offset of the operation after the one at `offset`, in a list of
operations. -/
def followingIn (offset : Nat) : List (Nat × Op) → Option Nat
  | [] => none
  | (o, _) :: rest => if o = offset then rest.head?.map Prod.fst else followingIn offset rest

/-- The offset of the operation after the one at `offset`. -/
def following (b : Body) (offset : Nat) : Option Nat :=
  followingIn offset b.code

/-- The method's name on the target machine. -/
def targetName (b : Body) : String :=
  BytecodeBridge.targetName b.name

/-- The owner and the name, as messages give them. -/
def qualifiedName (b : Body) : String :=
  b.owner.describe ++ "::" ++ b.name

end Body

end BytecodeBridge
