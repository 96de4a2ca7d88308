/-
Comparisons, conditional branches and type tests.

A comparison comes down to one conditional branch. Two `int`s are
compared by the branch itself; other numbers are reduced to the sign of
a comparison result first. Floats have two such reductions, which differ
in what they give for NaN, and the one is taken that makes an ordered
comparison fail and an unordered one succeed. References compare for
identity only, and one that was compared with a null just pushed is
tested for null instead.
-/
import BytecodeBridge.Lowering.Flow

namespace BytecodeBridge.LowerM

-- ==== comparisons

/-- Whether NaN has to compare as greater. -/
def nanHigh (way : Comparison) (unordered : Bool) : Bool :=
  match way with
  | .lt | .le => !unordered
  | .gt | .ge => unordered
  | .eq | .ne => false

/-- Takes back the null that was pushed last, unless another path joins after it. -/
def retractNull : LowerM Bool := do
  let cx ← read
  let s ← get
  let passable : Label → Bool
    | .source o => !cx.targets.contains o && !s.frames.has (.source o)
    | _ => false
  match s.code.retract? .constNull passable with
  | some code =>
    modifyCode fun _ => code
    return true
  | none => return false

/-- The identity test that a comparison of references stands for. A comparison
for greater, if unsigned, is how a test for not null is written. -/
def identityTest? (way : Comparison) (unsigned : Bool) : Option Bool :=
  match way with
  | .eq => some true
  | .ne => some false
  | .gt => if unsigned then some false else none
  | _ => none

/-- Pops two operands, emits what reduces them to a single test, and gives the
branch that makes the test. -/
def comparison (way : Comparison) (unsigned : Bool) : LowerM Instr := do
  let (b, bKind) ← popKind
  let (a, aKind) ← popKind
  unless aKind = bKind do
    throw (.malformed (.compared a b))
  let byCall := unsigned && way.isRelational
  match aKind with
  | .num .int =>
    if byCall then
      invokeStatic ⟨"java/lang/Integer", "compareUnsigned", "(II)I"⟩
      return .ifZero way 0
    else return .ifInt way 0
  | .num .long =>
    if byCall then
      invokeStatic ⟨"java/lang/Long", "compareUnsigned", "(JJ)I"⟩
    else
      emit .lcmp
    return .ifZero way 0
  | .num .float =>
    emit (.fcmp (nanHigh way unsigned))
    return .ifZero way 0
  | .num .double =>
    emit (.dcmp (nanHigh way unsigned))
    return .ifZero way 0
  | .reference =>
    let some same := identityTest? way unsigned
      | throw (.malformed (.orderCompared a b))
    if b = .null then
      if ← retractNull then
        return .ifNull same 0
    return .ifSame same 0

-- ==== branches

/-- Branches to a source offset if a comparison holds. -/
def branchWhen (way : Comparison) (unsigned : Bool) (target : Nat) : LowerM Unit := do
  branchTo (← comparison way unsigned) (.source target)

/-- The comparison with zero that a truth test makes. -/
def truthTest (truth : Bool) : Comparison :=
  if truth then .ne else .eq

/-- Branches to a source offset if the top of the stack is true, or false. -/
def branchIf (truth : Bool) (target : Nat) : LowerM Unit := do
  let (ty, kind) ← popKind
  let test ← match kind with
    | .num .int => pure (Instr.ifZero (truthTest truth) 0)
    | .num .long => do
      emit (.const .long 0)
      emit .lcmp
      noteDepth 4
      pure (.ifZero (truthTest truth) 0)
    | .reference => pure (.ifNull (!truth) 0)
    | _ => throw (.malformed (.branchOn ty))
  branchTo test (.source target)

/-- Pushes 1 if a comparison holds and 0 otherwise. -/
def compare (way : Comparison) (unsigned : Bool) : LowerM Unit := do
  let test ← comparison way unsigned
  let yes ← freshLabel
  let done ← freshLabel
  let int ← make (.prim .int32)
  branchTo test yes
  emit (.const .int 0)
  push int
  jump done
  bindLabel yes
  emit (.const .int 1)
  push int
  bindLabel done

/-- Jumps by a number counted from zero; beyond the targets, control goes on to
the next operation. -/
def switch (offset : Nat) (targets : List Nat) : LowerM Unit := do
  let some next := (← read).body.following offset
    | throw (.malformed (.switchAtEnd offset))
  if targets.isEmpty then
    dropTop
  else
    switchTo 0 (targets.map .source) (.source next)

-- ==== type tests

/-- Asks at run time whether a thrown or tested object matches a generic
parameter; the answer is null if it does not. -/
def testGeneric (name : String) : LowerM Unit := do
  let index ← onPool (Pool.stringRef name)
  emit (.ldcOf index)
  noteDepth 2
  invokeStatic (← read).config.genericCatch

/-- The type of an object that has passed a test for a type: an instance of a value
type comes in a box. -/
def testedType (ty : Ty) : LowerM Ty :=
  if ty.isValue then make (.boxed ty false) else return ty

/-- Replaces an object by null unless it has the type. -/
def isInstance (ty : Ty) : LowerM Unit := do
  let value ← popReference
  match ty with
  | .generic name .unresolved =>
    testGeneric name
    push ty
  | _ =>
    let index ← classIndex ty
    let keep ← freshLabel
    let result ← testedType ty
    push value
    emit .dup
    emit (.instanceOf index)
    noteDepth 1
    branchTo (.ifZero .ne 0) keep
    discard pop
    emit .pop
    emit .constNull
    pushNew .null
    bindLabel keep
    discard pop
    emit (.checkCast index)
    push result

end BytecodeBridge.LowerM
