/-
Arrays of integers and truth values.

Three tables decide what becomes of an array: the code that it is made
with, and the instructions that store and load its elements. They have to
agree with each other and with the kind that a loaded element is tracked
with. An array of the machine keeps of each stored value what its component
type can hold, and its elements are only reached by the instructions for
that component type; the source keeps the number cut down to the kind of
the elements. Either way a load gives what was last stored at its index
(`Access.loads`), so arrays are compared by what they keep of one value.

For most kinds that is the same. The machine has no unsigned bytes, and an
element of kind `uint8` is loaded with the sign that its low byte has as a
signed one. An array of kind `uint16` is made of signed elements of two
bytes, but its elements are stored and loaded by the instructions for
unsigned ones, and these do not apply.
-/
import BytecodeBridge.Lowering.Operation
import BytecodeBridge.Proofs.Machine.Number

namespace BytecodeBridge

open Source (Number)

-- ==== accesses

/-- A use of an element: a value is stored at an index, or loaded from there. -/
inductive Access (α : Type) where
  | store (index : Int32) (x : α)
  | load (index : Int32)

namespace Access

variable {α β : Type}

def index : Access α → Int32
  | store i _ | load i => i

def map (f : α → β) : Access α → Access β
  | store i x => store i (f x)
  | load i => load i

/-- The value that was last stored at an index, if the latest access comes first. -/
def latest (zero : α) (i : Int32) : List (Access α) → α
  | [] => zero
  | store j x :: earlier => if j = i then x else latest zero i earlier
  | load _ :: earlier => latest zero i earlier

/-- What the loads among some accesses give after others: of the value that was last
stored, as much as is kept. -/
def loads (keep : α → α) (zero : α) : List (Access α) → List (Access α) → List α
  | _, [] => []
  | before, store i x :: rest => loads keep zero (store i x :: before) rest
  | before, load i :: rest =>
    keep (latest zero i before) :: loads keep zero (load i :: before) rest

/-- The accesses of a program: in the bounds, and with values of one kind. -/
def Valid (length : Int32) (P : α → Prop) (a : Access α) : Prop :=
  0 ≤ a.index.toInt ∧ a.index.toInt < length.toInt ∧ ∀ i x, a = store i x → P x

variable {f : α → β} {keep : α → α} {keep' : β → β} {zero : α} {P : α → Prop} {length : Int32}

theorem Valid.map {Q : β → Prop} {a : Access α} (h : a.Valid length P)
    (hQ : ∀ x, P x → Q (f x)) : (a.map f).Valid length Q := by
  obtain ⟨hi, hlt, hP⟩ := h
  cases a with
  | load j => exact ⟨hi, hlt, nofun⟩
  | store j y =>
    refine ⟨hi, hlt, fun i x heq => ?_⟩
    cases heq
    exact hQ y (hP j y rfl)

theorem latest_map (i : Int32) (before : List (Access α)) :
    latest (f zero) i (before.map (map f)) = f (latest zero i before) := by
  induction before with
  | nil => rfl
  | cons a before ih =>
    cases a with
    | load j => exact ih
    | store j x =>
      show (if j = i then f x else _) = f (if j = i then x else _)
      rw [apply_ite f, ih]

theorem latest_of_valid (hzero : P zero) (i : Int32) {before : List (Access α)}
    (h : ∀ a ∈ before, a.Valid length P) : P (latest zero i before) := by
  induction before with
  | nil => exact hzero
  | cons a before ih =>
    obtain ⟨ha, hbefore⟩ := List.forall_mem_cons.mp h
    cases a with
    | load j => exact ih hbefore
    | store j x =>
      unfold latest
      split
      · exact ha.2.2 j x rfl
      · exact ih hbefore

/-- Arrays that keep the same of each value give the same. -/
theorem loads_map (hkeep : ∀ x, P x → keep' (f x) = f (keep x)) (hzero : P zero)
    {before accesses : List (Access α)} (hbefore : ∀ a ∈ before, a.Valid length P)
    (h : ∀ a ∈ accesses, a.Valid length P) :
    loads keep' (f zero) (before.map (map f)) (accesses.map (map f))
      = (loads keep zero before accesses).map f := by
  induction accesses generalizing before with
  | nil => rfl
  | cons a accesses ih =>
    obtain ⟨ha, hrest⟩ := List.forall_mem_cons.mp h
    have hih := ih (List.forall_mem_cons.mpr ⟨ha, hbefore⟩) hrest
    cases a with
    | store i x => exact hih
    | load i =>
      show keep' (latest (f zero) i (before.map (map f))) :: _ = f _ :: _
      rw [latest_map, hkeep _ (latest_of_valid hzero i hbefore)]
      exact congrArg _ hih

end Access

-- ==== arrays of the machine

namespace Machine

/-- The types that elements of an array can have, apart from floats and references. -/
inductive Component where
  | boolean
  | char
  | byte
  | short
  | int
  | long
deriving DecidableEq, Repr

namespace Component

def ofCode? : Nat → Option Component
  | 4 => some boolean
  | 5 => some char
  | 8 => some byte
  | 9 => some short
  | 10 => some int
  | 11 => some long
  | _ => none

/-- The instructions that work on the elements. Truth values share those of bytes. -/
def elem : Component → Elem
  | boolean | byte => .byte
  | char => .char
  | short => .short
  | int => .num .int
  | long => .num .long

/-- The kind of the values that are stored and loaded. -/
def kind : Component → NumKind
  | long => .long
  | _ => .int

/-- What is loaded of a value that was stored: its low bits, extended with zeros to an
`int` if they are a truth value or a character, and with their sign otherwise. -/
def keep : Component → Value → Value
  | boolean, .int n => .int (n &&& 1)
  | char, .int n => .int (Narrow.char.cut n)
  | byte, .int n => .int (Narrow.byte.cut n)
  | short, .int n => .int (Narrow.short.cut n)
  | _, v => v

end Component

/-- An array; its elements in the form in which they are loaded. -/
structure Array where
  component : Component
  elements : List Value

namespace Array

/-- What an instruction that makes an array leaves behind, for a length. -/
def create? (i : Instr) (length : Int32) : Option Array :=
  match i with
  | .newArray code =>
    if 0 ≤ length.toInt then
      (Component.ofCode? code).map fun c => ⟨c, .replicate length.toInt.toNat (.ofInt c.kind 0)⟩
    else none
  | _ => none

/-- What an instruction does to an array whose reference lies below its operands, and what
it pushes. -/
def exec? (a : Array) (i : Instr) (operands : List Value) : Option (Array × List Value) :=
  match i, operands with
  | .arrayStore elem, [v, .int i] =>
    if elem = a.component.elem ∧ v.kind = .num a.component.kind ∧ 0 ≤ i.toInt ∧
        i.toInt < a.elements.length then
      some ({ a with elements := a.elements.set i.toInt.toNat (a.component.keep v) }, [])
    else none
  | .arrayLoad elem, [.int i] =>
    if elem = a.component.elem ∧ 0 ≤ i.toInt then
      a.elements[i.toInt.toNat]?.map fun v => (a, [v])
    else none
  | _, _ => none

/-- What a sequence of accesses loads, by an instruction that stores and one that loads. -/
def run? (store load : Instr) : Array → List (Access Value) → Option (List Value)
  | _, [] => some []
  | a, .store i v :: rest => do
    let (a, pushed) ← a.exec? store [v, .int i]
    return pushed ++ (← run? store load a rest)
  | a, .load i :: rest => do
    let (a, pushed) ← a.exec? load [.int i]
    return pushed ++ (← run? store load a rest)

/-- The elements of an array are what its component keeps of the values stored last. -/
structure Holds (a : Array) (length : Int32) (before : List (Access Value)) : Prop where
  size : (a.elements.length : Int) = length.toInt
  element : ∀ i : Int32, 0 ≤ i.toInt → i.toInt < length.toInt → a.elements[i.toInt.toNat]?
    = some (a.component.keep (Access.latest (.ofInt a.component.kind 0) i before))

theorem exists_create {c : Component} {code : Nat} {length : Int32} (hlength : 0 ≤ length.toInt)
    (hc : Component.ofCode? code = some c) :
    ∃ a, create? (.newArray code) length = some a ∧ a.component = c ∧ a.Holds length [] := by
  refine ⟨_, (if_pos hlength).trans (by rw [hc]; rfl), rfl, ?_, fun i hi hlt => ?_⟩
  · rw [List.length_replicate]
    exact Int.toNat_of_nonneg hlength
  · have hzero : c.keep (.ofInt c.kind 0) = .ofInt c.kind 0 := by cases c <;> rfl
    show (List.replicate _ _)[i.toInt.toNat]? = some (c.keep (.ofInt c.kind 0))
    rw [List.getElem?_replicate, if_pos (by omega), hzero]

variable {a : Array} {length i : Int32} {before accesses : List (Access Value)} {v : Value}

theorem Holds.store (h : a.Holds length before) (hi : 0 ≤ i.toInt) (hlt : i.toInt < length.toInt) :
    ({ a with elements := a.elements.set i.toInt.toNat (a.component.keep v) } : Array).Holds length
      (.store i v :: before) := by
  have hsize := h.size
  refine ⟨by rw [List.length_set]; exact hsize, fun j hj hjlt => ?_⟩
  show (a.elements.set i.toInt.toNat _)[j.toInt.toNat]?
    = some (a.component.keep (if i = j then v else _))
  by_cases hij : i = j
  · subst hij
    rw [if_pos rfl, List.getElem?_set_self (by omega)]
  · have hne : i.toInt.toNat ≠ j.toInt.toNat := fun heq => hij (Int32.toInt_inj.mp (by omega))
    rw [if_neg hij, List.getElem?_set_ne hne]
    exact h.element j hj hjlt

/-- Accesses in the bounds load what was stored last, by the instructions for the
component. -/
theorem Holds.run (h : a.Holds length before)
    (hvalid : ∀ x ∈ accesses, x.Valid length (·.kind = .num a.component.kind)) :
    a.run? (.arrayStore a.component.elem) (.arrayLoad a.component.elem) accesses
      = some (Access.loads a.component.keep (.ofInt a.component.kind 0) before accesses) := by
  induction accesses generalizing a before with
  | nil => rfl
  | cons x accesses ih =>
    obtain ⟨⟨hi, hlt, hkind⟩, hrest⟩ := List.forall_mem_cons.mp hvalid
    have hsize := h.size
    cases x with
    | store i v =>
      have hexec : a.exec? (.arrayStore a.component.elem) [v, .int i] = some
          ({ a with elements := a.elements.set i.toInt.toNat (a.component.keep v) }, []) :=
        if_pos ⟨rfl, hkind i v rfl, hi, hsize ▸ hlt⟩
      have hrun := ih (h.store (v := v) hi hlt) hrest
      rw [run?, hexec, Option.bind_eq_bind, Option.bind_some]
      exact congrArg (Option.bind · _) hrun
    | load i =>
      have hexec : a.exec? (.arrayLoad a.component.elem) [.int i]
          = a.elements[i.toInt.toNat]?.map fun v => (a, [v]) := if_pos ⟨rfl, hi⟩
      have helement : a.elements[i.toInt.toNat]? = _ := h.element i hi hlt
      rw [run?, hexec, helement, Option.map_some, Option.bind_eq_bind, Option.bind_some]
      dsimp only
      have hload : a.Holds length (.load i :: before) := ⟨h.size, h.element⟩
      rw [ih hload hrest]
      rfl

/-- The instructions for another component do not work at all. -/
theorem run?_of_ne {elem : Elem} (hne : elem ≠ a.component.elem) (hsome : accesses ≠ []) :
    a.run? (.arrayStore elem) (.arrayLoad elem) accesses = none := by
  cases accesses with
  | nil => exact absurd rfl hsome
  | cons x accesses =>
    cases x with
    | store i v =>
      have hexec : a.exec? (.arrayStore elem) [v, .int i] = none := if_neg fun h => hne h.1
      rw [run?, hexec]
      rfl
    | load i =>
      have hexec : a.exec? (.arrayLoad elem) [.int i] = none := if_neg fun h => hne h.1
      rw [run?, hexec]
      rfl

end Array

end Machine

-- ==== arrays of the source

namespace Source.Number

/-- A number cut down to an element of a kind; a truth value has one bit. -/
def keep (k : Prim) : Number → Number
  | int x => if k = .bool then int ((x.setWidth 1).setWidth 32) else ((int x).cut? k).getD (int x)
  | long x => long x

end Source.Number

/-- The kind that the elements of an array have on the machine, which has no unsigned
bytes. -/
def Prim.kept : Prim → Prim
  | uint8 => int8
  | k => k

namespace Machine

/-- An array of a kind other than `uint16` keeps what the source keeps, up to the signs of
bytes, and is reached by the instructions for the kind. -/
private theorem exists_component {k : Prim} (hk : k.isIntegral = true ∨ k = .bool)
    (hne : k ≠ .uint16) :
    ∃ c, Component.ofCode? k.arrayCode = some c ∧ Instr.elemOf (some k) = c.elem ∧
      c.kind = k.numKind ∧
      ∀ x : Number, x.kind = k.numKind → c.keep x.toValue = (x.keep k.kept).toValue := by
  have hint : ∀ c : Component, (∀ x : BitVec 32,
      c.keep (.int (.ofBitVec x)) = ((Number.int x).keep k.kept).toValue) →
      ∀ x : Number, x.kind = .int → c.keep x.toValue = (x.keep k.kept).toValue := by
    intro c h x hx
    cases x with
    | int x => exact h x
    | long x => cases hx
  have hlong : ∀ x : Number, x.kind = .long → x.toValue = (x.keep k.kept).toValue := by
    intro x hx
    cases x with
    | int x => cases hx
    | long x => rfl
  -- a component of fewer bits keeps them by a mask, or by going down to their width and up
  have hmask : ∀ (n : Nat) (x : BitVec 32), 2 ^ n - 1 < 2 ^ 32 →
      Value.int (.ofBitVec (x &&& BitVec.ofNat 32 (2 ^ n - 1)))
        = .int (.ofBitVec ((x.setWidth n).setWidth 32)) := by
    intro n x hn
    rw [and_mask n x hn]
  have hsign : ∀ (n : Nat) (x : BitVec 32), n ≤ 32 →
      Value.int (.ofBitVec ((x.signExtend n).signExtend 32))
        = .int (.ofBitVec ((x.setWidth n).signExtend 32)) := by
    intro n x hn
    rw [BitVec.signExtend_eq_setWidth_of_le x hn]
  cases k with
  | uint16 => exact absurd rfl hne
  | float32 | float64 => exact absurd hk (by decide)
  | bool => exact ⟨.boolean, rfl, rfl, rfl, hint _ fun x => hmask 1 x (by decide)⟩
  | char => exact ⟨.char, rfl, rfl, rfl, hint _ fun x => hmask 16 x (by decide)⟩
  | int8 | uint8 => exact ⟨.byte, rfl, rfl, rfl, hint _ fun x => hsign 8 x (by decide)⟩
  | int16 => exact ⟨.short, rfl, rfl, rfl, hint _ fun x => hsign 16 x (by decide)⟩
  | int32 | uint32 => exact ⟨.int, rfl, rfl, rfl, hint _ fun _ => rfl⟩
  | int64 | uint64 => exact ⟨.long, rfl, rfl, rfl, hlong⟩

end Machine

-- ==== lowering

namespace Lowering

open LowerM

/-- The state with another live stack. -/
def withStack (s : LowerState) (stack : List Ty) : LowerState :=
  { s with frames := { s.frames with live := { s.frames.live with stack } } }

variable {cx : Context} {s : LowerState} {ty : Ty} {kind : StackKind} {rest : List Ty}

private theorem popKind_withStack (h : ty.stackKind? = some kind) :
    popKind cx (withStack s (ty :: rest)) = .ok (ty, kind) (withStack s rest) := by
  have hkind : stackKind ty cx (withStack s rest) = .ok kind (withStack s rest) := by
    unfold stackKind
    rw [h]
    rfl
  exact state_ok_bind (x := stackKind ty cx) hkind

private theorem popIndex_withStack (h : ty.stackKind? = some (.num .int)) :
    popIndex cx (withStack s (ty :: rest)) = .ok () (withStack s rest) :=
  state_ok_bind (x := popKind cx) (popKind_withStack h)

/-- The instructions that arrays of a kind are made, stored to and loaded from with, and
that a loaded element is tracked with the kind. -/
structure ArraysBy (k : Prim) (create store load : Instr) : Prop where
  create : ∀ cx s o rest index, Ty.stackKind? index = some (.num .int) →
    ∃ t, lowerOp o (.newArray (.prim k)) cx (withStack s (index :: rest)) = .ok () t ∧
      t.code.body = .instr create :: s.code.body ∧
      t.frames.live.stack = .array (.prim k) 1 :: rest
  store : ∀ cx s o rest index value, Ty.stackKind? index = some (.num .int) →
    Ty.stackKind? value = some (.num k.numKind) →
    ∃ t, lowerOp o .storeElement cx
        (withStack s (value :: index :: .array (.prim k) 1 :: rest)) = .ok () t ∧
      t.code.body = .instr store :: s.code.body ∧ t.frames.live.stack = rest
  load : ∀ cx s o rest index, Ty.stackKind? index = some (.num .int) →
    ∃ t, lowerOp o .loadElement cx
        (withStack s (index :: .array (.prim k) 1 :: rest)) = .ok () t ∧
      t.code.body = .instr load :: s.code.body ∧ t.frames.live.stack = .prim k :: rest

private theorem arraysBy (k : Prim) : ArraysBy k (.newArray k.arrayCode)
    (.arrayStore (Instr.elemOf (some k))) (.arrayLoad (Instr.elemOf (some k))) where
  create cx s o rest index h :=
    ⟨_, state_ok_bind (x := popIndex cx) (popIndex_withStack h), rfl, rfl⟩
  store cx s o rest index value hindex hvalue := by
    have hkind : ∀ {t : LowerState}, stackKind value cx t = .ok (.num k.numKind) t := by
      unfold stackKind
      rw [hvalue]
      exact fun {t} => rfl
    refine ⟨{ withStack s rest with code := s.code.emit (.arrayStore (Instr.elemOf (some k))) },
      ?_, rfl, rfl⟩
    refine (state_ok_bind (x := popIndex cx) (popIndex_withStack hindex)).trans ?_
    refine (state_ok_bind (x := stackKind value cx) hkind).trans ?_
    cases k <;> rfl
  load cx s o rest index h :=
    ⟨_, state_ok_bind (x := popIndex cx) (popIndex_withStack h), rfl, rfl⟩

open Machine (values)

/-- What arrays of integers and truth values do. The instructions that the lowering chooses
for a kind make an array, and run over it, for every sequence of accesses in its bounds:
for a kind other than `uint8` and `uint16` they load what was last stored, cut down to the
kind; for `uint8` they load it cut down to a signed byte; and for `uint16` the first access
has no outcome. -/
theorem array_accesses {k : Prim} (hk : k.isIntegral = true ∨ k = .bool) {length : Int32}
    (hlength : 0 ≤ length.toInt) {accesses : List (Access Number)}
    (hvalid : ∀ a ∈ accesses, a.Valid length (·.kind = k.numKind)) :
    ∃ create store load array zero, ArraysBy k create store load ∧
      Machine.Array.create? create length = some array ∧ Number.zero? (.prim k) = some zero ∧
      (k ≠ .uint8 → k ≠ .uint16 → array.run? store load (accesses.map (.map Number.toValue))
        = some (values (Access.loads (Number.keep k) zero [] accesses))) ∧
      (k = .uint8 → array.run? store load (accesses.map (.map Number.toValue))
        = some (values (Access.loads (Number.keep .int8) zero [] accesses))) ∧
      (k = .uint16 → accesses ≠ [] →
        array.run? store load (accesses.map (.map Number.toValue)) = none) := by
  by_cases hne : k = .uint16
  · subst hne
    obtain ⟨array, hcreate, hcomponent, -⟩ := Machine.Array.exists_create hlength
      (show Machine.Component.ofCode? (Prim.arrayCode .uint16) = some .short from rfl)
    refine ⟨_, _, _, array, _, arraysBy .uint16, hcreate, rfl, fun _ h => absurd rfl h, nofun,
      fun _ hsome => ?_⟩
    refine Machine.Array.run?_of_ne ?_ (by simpa using hsome)
    rw [hcomponent]
    decide
  obtain ⟨c, hc, helem, hkind, hkeep⟩ := Machine.exists_component hk hne
  obtain ⟨array, hcreate, hcomponent, hholds⟩ := Machine.Array.exists_create hlength hc
  obtain ⟨zero, hzero, hzeroKind, hzeroValue⟩ : ∃ zero, Number.zero? (.prim k) = some zero ∧
      zero.kind = k.numKind ∧ zero.toValue = .ofInt c.kind 0 := by
    rw [hkind]
    cases k <;> first | exact absurd hk (by decide) | exact ⟨_, rfl, rfl, rfl⟩
  subst hcomponent
  have hvalues : ∀ x ∈ accesses.map (Access.map Number.toValue),
      x.Valid length (·.kind = .num array.component.kind) := by
    refine List.forall_mem_map.mpr fun a ha => (hvalid a ha).map fun x hx => ?_
    rw [Number.kind_toValue, hx, hkind]
  have hloads := Access.loads_map hkeep hzeroKind (List.forall_mem_nil _) hvalid
  have hrun : array.run? (.arrayStore (Instr.elemOf (some k))) (.arrayLoad (Instr.elemOf (some k)))
      (accesses.map (.map Number.toValue))
      = some (values (Access.loads (Number.keep k.kept) zero [] accesses)) := by
    rw [helem, hholds.run hvalues, ← hzeroValue]
    exact congrArg some hloads
  refine ⟨_, _, _, array, zero, arraysBy k, hcreate, hzero, fun hbyte _ => ?_, fun hbyte => ?_,
    fun heq => absurd heq hne⟩
  · have hkept : k.kept = k := by
      unfold Prim.kept
      split
      · exact absurd rfl hbyte
      · rfl
    rw [hrun, hkept]
  · subst hbyte
    exact hrun

/-- Two accesses: a number is stored, and loaded again. -/
def storesLoads (x : Number) : List (Access Number) :=
  [.store 0 x, .load 0]

/-- An unsigned byte over 127 comes back as another number, and an unsigned number of two
bytes not at all. -/
theorem array_accesses_storesLoads :
    (∃ create store load array, ArraysBy .uint8 create store load ∧
      Machine.Array.create? create 1 = some array ∧
      array.run? store load ((storesLoads (.int 200)).map (.map Number.toValue))
        = some [.int (-56)]) ∧
    ∃ create store load array, ArraysBy .uint16 create store load ∧
      Machine.Array.create? create 1 = some array ∧
      array.run? store load ((storesLoads (.int 200)).map (.map Number.toValue)) = none := by
  have hlength : 0 ≤ (1 : Int32).toInt := by decide
  have hvalid : ∀ a ∈ storesLoads (.int 200), a.Valid 1 (·.kind = .int) := by
    refine List.forall_mem_cons.mpr ⟨⟨by decide, by decide, fun i x h => ?_⟩,
      List.forall_mem_cons.mpr ⟨⟨by decide, by decide, nofun⟩, List.forall_mem_nil _⟩⟩
    cases h
    rfl
  obtain ⟨create, store, load, array, zero, hby, hcreate, -, -, hbyte, -⟩ :=
    array_accesses (k := .uint8) (.inl rfl) hlength hvalid
  obtain ⟨create', store', load', array', zero', hby', hcreate', -, -, -, hnone⟩ :=
    array_accesses (k := .uint16) (.inl rfl) hlength hvalid
  refine ⟨⟨create, store, load, array, hby, hcreate, (hbyte rfl).trans ?_⟩,
    create', store', load', array', hby', hcreate', hnone rfl (List.cons_ne_nil _ _)⟩
  cbv

end Lowering

end BytecodeBridge
