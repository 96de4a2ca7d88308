/-
What an instruction does to control, and which local slot it names.

The lowering emits three sorts of instructions. *Plain* ones go on to the
next instruction and name no slot; loads and stores go on as well; what is
left transfers control, either to the ends of a method or by offsets that
assembly fills in. `Instr.offsets` lists those offsets for every
instruction of the target machine, so that a statement about all jumps of
a method is a statement about offsets.
-/
import BytecodeBridge.Code.Assembly
import BytecodeBridge.Instr.Select

namespace BytecodeBridge.Instr

-- ==== control

/-- The relative offsets an instruction may jump by. -/
def offsets : Instr → List Int
  | ifZero _ o | ifInt _ o | ifSame _ o | ifNull _ o => [o]
  | goto o | gotoW o | jsr o | jsrW o => [o]
  | tableSwitch default _ _ offsets => default :: offsets
  | lookupSwitch default pairs => default :: pairs.map Prod.snd
  | _ => []

/-- Whether the instruction branches or goes on to the next one. -/
def isConditional : Instr → Bool
  | ifZero _ _ | ifInt _ _ | ifSame _ _ | ifNull _ _ => true
  | _ => false

/-- The local slot an instruction names. -/
def slot? : Instr → Option Nat
  | load _ form | store _ form => some form.slot
  | iinc slot _ | iincWide slot _ | ret slot | retWide slot => some slot
  | _ => none

/-- An instruction that goes on to the next one and names no slot. -/
structure Plain (i : Instr) : Prop where
  offsets : i.offsets = []
  continues : i.isUnconditional = false
  slot : i.slot? = none

/-- An instruction that ends a run of the method. -/
structure Exit (i : Instr) : Prop where
  offsets : i.offsets = []
  leaves : i.isUnconditional = true
  slot : i.slot? = none

-- ==== plain instructions

theorem ldcOf_eq (index : Nat) : ldcOf index = .ldc index ∨ ldcOf index = .ldcW index := by
  unfold ldcOf shortIndex?
  split
  · next hshort =>
    split at hshort <;> cases hshort
    exact .inl rfl
  · exact .inr rfl

theorem plain_ldcOf (index : Nat) : (ldcOf index).Plain := by
  rcases ldcOf_eq index with h | h <;> exact h ▸ ⟨rfl, rfl, rfl⟩

-- ==== assembly

/-- A branch that assembly patches has the one offset it was given. -/
theorem offsets_of_withOffset {i j : Instr} {offset : Int} (h : i.withOffset offset = .ok j) :
    j.offsets = [offset] := by
  have hshort : ∀ {make : Int → Instr}, (∀ o, (make o).offsets = [o]) →
      shortBranch offset make = .ok j → j.offsets = [offset] := by
    intro make hmake h
    unfold shortBranch at h
    split at h
    · cases h
      exact hmake offset
    · cases h
  cases i with
  | gotoW o =>
    cases h
    rfl
  | goto o | ifZero way o | ifInt way o | ifSame same o | ifNull null o =>
    exact hshort (fun _ => rfl) h
  | _ => cases h

end BytecodeBridge.Instr
