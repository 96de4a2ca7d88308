/-
Types as the lowering sees them.

A type is a finite tree, so two types are the same type exactly when
they are equal as values; no table of identities is needed to compare
them. Array types are kept flat: `Ty.arrayOf` folds the rank of an array
of arrays into one number, and the element below a rank is never itself
an array.
-/
import BytecodeBridge.Kind

namespace BytecodeBridge

/-- Whether a generic parameter is bound to a type argument by the time its
method is lowered. -/
inductive GenericRole where
  /-- bound to a concrete type argument -/
  | resolved
  /-- known only at run time -/
  | unresolved
deriving DecidableEq, Repr, Inhabited

/-- The type of a value. -/
inductive Ty where
  | prim (kind : Prim)
  /-- a class or interface, by its internal name -/
  | ref (name : String)
  | array (element : Ty) (rank : Nat)
  /-- a value type, by its internal name -/
  | value (name : String)
  | generic (name : String) (role : GenericRole)
  /-- a boxed value, or with `byRef` a reference cell that holds one -/
  | boxed (content : Ty) (byRef : Bool)
  | null
  /-- the receiver of a constructor that has not called another constructor -/
  | uninitThis
  /-- no usable value -/
  | top
deriving DecidableEq, Repr, Inhabited

/-- The three ways a type is stored: as a primitive, as an instance of a value
type, or as a reference. -/
inductive ValueKind where
  | primitive
  | value
  | reference
deriving DecidableEq, Repr

namespace Ty

-- ==== constructors

/-- The largest rank of an array type. -/
def maxRank : Nat := 255

/-- An array of `rank` dimensions over `element`. Over an array the ranks add
up, and no rank goes beyond `maxRank`. -/
def arrayOf (element : Ty) (rank : Nat) : Ty :=
  match element with
  | .array inner r => .array inner (min maxRank (r + rank))
  | t => .array t rank

/-- The type of one element of an array type. -/
def element? : Ty → Option Ty
  | .array element 1 => some element
  | .array element rank => some (arrayOf element (rank - 1))
  | _ => none

-- ==== classification

/-- Stack slots, and local slots, that a value of the type takes. -/
def category : Ty → Nat
  | .prim k => k.numKind.category
  | _ => 1

def isReference : Ty → Bool
  | .ref _ | .array _ _ | .boxed _ _ | .null | .generic _ _ | .uninitThis => true
  | .prim _ | .value _ | .top => false

def isValue : Ty → Bool
  | .value _ => true
  | _ => false

def isTop : Ty → Bool
  | .top => true
  | _ => false

def valueKind : Ty → ValueKind
  | .prim _ => .primitive
  | .value _ => .value
  | _ => .reference

def prim? : Ty → Option Prim
  | .prim k => some k
  | _ => none

/-- How a value of the type is held on the operand stack; `top` is no value. -/
def stackKind? : Ty → Option StackKind
  | .prim k => some k.stackKind
  | .top => none
  | _ => some .reference

-- ==== text

/-- The type as it is spelled in messages. -/
def describe : Ty → String
  | .prim k => k.name
  | .ref name => name
  | .value name => "valuetype " ++ name
  | .array element rank => element.describe ++ String.join (List.replicate rank "[]")
  | .generic name _ => "!" ++ name
  | .boxed content false => "boxed " ++ content.describe
  | .boxed content true => content.describe ++ "&"
  | .null => "null"
  | .uninitThis => "uninitializedThis"
  | .top => "top"

-- ==== facts

/-- A value takes as many local slots as its stack kind takes stack slots. -/
theorem category_of_stackKind? {t : Ty} {k : StackKind} (h : t.stackKind? = some k) :
    t.category = k.category := by
  cases t <;> simp only [stackKind?, Option.some.injEq, reduceCtorEq] at h <;>
    subst h <;> rfl

theorem category_congr {t u : Ty} (h : t.stackKind? = u.stackKind?) : t.category = u.category := by
  cases hu : u.stackKind? with
  | some k =>
    rw [category_of_stackKind? (h.trans hu), category_of_stackKind? hu]
  | none =>
    rw [hu] at h
    cases t <;> cases u <;> simp_all [stackKind?]

theorem category_pos (t : Ty) : 0 < t.category := by
  cases t with
  | prim k => cases k <;> decide
  | _ => exact Nat.one_pos

theorem category_le_two (t : Ty) : t.category ≤ 2 := by
  cases t with
  | prim k => cases k <;> decide
  | _ => exact Nat.le_succ 1

end Ty

end BytecodeBridge
