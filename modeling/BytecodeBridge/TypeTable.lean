/-
The types a program knows, and the classes it declares.

`TypeTable.known` lists every type that has been mentioned, in the order
of first mention; a type's place in the list is its identity, and it
never changes because the list only grows at its end. A mention of an
array or a box is a mention of what it holds first, so a type comes after
its parts. Two decisions rest on the table: a boxed primitive answers to
its wrapper class only if that class has been mentioned, and between
supertypes that nothing else tells apart the one mentioned first wins.

Declarations give a class its supertypes. They may form cycles; the
walks in `TypeTable.Hierarchy` see to that themselves.
-/
import BytecodeBridge.Config
import BytecodeBridge.Error

namespace BytecodeBridge

/-- What a declared name is. -/
inductive ClassKind where
  | class_
  | interface
deriving DecidableEq, Repr, Inhabited

/-- A declared class, interface or value type. -/
structure Declaration where
  kind : ClassKind
  supertypes : List Ty
deriving DecidableEq, Repr, Inhabited

/-- The types a program knows. -/
structure TypeTable where
  /-- in the order of first mention, each once -/
  known : List Ty
  /-- declarations, the latest first; an older one of the same type is void -/
  classes : List (Ty × Declaration)
  /-- the name of the universal object class -/
  objectClass : String
  /-- the class of everything that can be thrown -/
  throwable : Ty
  /-- walks over supertypes stop here -/
  root : Option Ty
  /-- the class of by-reference boxes -/
  cellClass : String
deriving DecidableEq, Repr, Inhabited

namespace TypeTable

-- ==== known types

/-- The table with one type added at its end, unless it is known. -/
def add (T : TypeTable) (t : Ty) : TypeTable :=
  if t ∈ T.known then T else { T with known := T.known ++ [t] }

/-- The table after a mention of a type: its parts are known, and then the type
itself. -/
def intern (T : TypeTable) : Ty → TypeTable
  | .array element rank => (T.intern element).add (.array element rank)
  | .boxed content byRef => (T.intern content).add (.boxed content byRef)
  | t => T.add t

/-- The table with types added, the last of the list first. -/
def addAll (T : TypeTable) (types : List Ty) : TypeTable :=
  types.foldr (fun t T => T.add t) T

def knows (T : TypeTable) (t : Ty) : Bool :=
  T.known.contains t

/-- The identity of a type: its place in the order of first mention. -/
def idOf (T : TypeTable) (t : Ty) : Nat :=
  T.known.idxOf t

def size (T : TypeTable) : Nat :=
  T.known.length

/-- The universal object type. -/
def object (T : TypeTable) : Ty :=
  .ref T.objectClass

-- ==== declarations

def declaration? (T : TypeTable) (t : Ty) : Option Declaration :=
  T.classes.lookup t

/-- The declared supertypes of a type; a type without a declaration has none. -/
def supertypes (T : TypeTable) (t : Ty) : List Ty :=
  match T.declaration? t with
  | some d => d.supertypes
  | none => []

def isInterface (T : TypeTable) (t : Ty) : Bool :=
  match T.declaration? t with
  | some d => d.kind == .interface
  | none => false

/-- Declares a type, which becomes known. -/
def declare (T : TypeTable) (t : Ty) (d : Declaration) : TypeTable :=
  let T := T.intern t
  { T with classes := (t, d) :: T.classes }

/-- Declares a class. Its base is the universal object type unless another is
given. -/
def declareClass (T : TypeTable) (name : String) (base : Option Ty) (interfaces : List Ty) :
    TypeTable :=
  T.declare (.ref name) ⟨.class_, base.getD T.object :: interfaces⟩

def declareInterface (T : TypeTable) (name : String) (bases : List Ty) : TypeTable :=
  T.declare (.ref name) ⟨.interface, bases⟩

def declareValue (T : TypeTable) (name : String) (interfaces : List Ty) : TypeTable :=
  T.declare (.value name) ⟨.class_, interfaces⟩

/-- The table a program starts from: the classes the configuration names, with
the exception root below the throwable class. -/
def ofConfig (c : Config) : TypeTable :=
  let object : Ty := .ref c.objectClass
  let throwable : Ty := .ref c.throwableClass
  let T : TypeTable :=
    { known := [object]
      classes := [(object, ⟨.class_, []⟩)]
      objectClass := c.objectClass
      throwable
      root := none
      cellClass := c.referenceCellClass }
  let T := T.declareClass c.throwableClass none []
  let T :=
    match c.exceptionRoot with
    | some root =>
      if root = c.throwableClass then T
      else { T.declareClass root (some throwable) [] with root := some (.ref root) }
    | none => T
  let T := T.declareClass c.stringClass none []
  T.declareClass c.leaveSentinel.owner (some throwable) []

-- ==== facts

/-- The known types only grow, and at their end. -/
theorem known_prefix_add (T : TypeTable) (t : Ty) : T.known <+: (T.add t).known := by
  unfold add
  split
  · exact List.prefix_rfl
  · exact List.prefix_append _ _

theorem known_prefix_intern (T : TypeTable) (t : Ty) : T.known <+: (T.intern t).known := by
  induction t with
  | array e r ih => exact ih.trans (known_prefix_add _ _)
  | boxed c b ih => exact ih.trans (known_prefix_add _ _)
  | _ => exact known_prefix_add T _

theorem mem_known_add (T : TypeTable) (t : Ty) : t ∈ (T.add t).known := by
  unfold add
  split
  · assumption
  · simp

@[simp] theorem mem_known_intern (T : TypeTable) (t : Ty) : t ∈ (T.intern t).known := by
  cases t <;> exact mem_known_add _ _

/-- A type known before is known after, with the same identity. -/
theorem idOf_intern_of_mem {T : TypeTable} {t u : Ty} (h : u ∈ T.known) :
    (T.intern t).idOf u = T.idOf u := by
  obtain ⟨rest, hrest⟩ := known_prefix_intern T t
  simp [idOf, ← hrest, List.idxOf_append, h]

end TypeTable

end BytecodeBridge
