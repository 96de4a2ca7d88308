/-
Numbers of the source on the machine.

The machine holds a number of the source as an `int` or a `long` with the
same bits. This file says that the instructions chosen for integers do to
those values what the source does to the numbers (`Turns`, and `Replaces`
where anything may lie below them): one lemma for each form of arithmetic,
conversion, truncation and constant, and for the two ways a comparison is
decided.

Shifts and unsigned comparisons need an argument. The machine masks a
distance where the source takes it modulo the width, and it compares
unsigned numbers by the sign of a library call's result.
-/
import Mathlib.Algebra.Group.Nat.Defs
import Mathlib.Data.Int.Order.Basic
import BytecodeBridge.Lowering.Comparison
import BytecodeBridge.Lowering.Arithmetic
import BytecodeBridge.Proofs.Machine.Typing
import BytecodeBridge.Proofs.Source

namespace BytecodeBridge

open Source

-- ==== values

theorem setWidth_signExtend {v w : Nat} (x : BitVec v) (h : v ≤ w) :
    (x.signExtend w).setWidth v = x := by
  rw [← BitVec.signExtend_eq_setWidth_of_le _ h]
  refine BitVec.eq_of_toInt_eq ?_
  rw [BitVec.toInt_signExtend, BitVec.toInt_signExtend_of_le h, Nat.min_eq_left h,
    BitVec.toInt_bmod_cancel]

namespace Source.Number

/-- The value that holds a number. -/
def toValue : Number → Machine.Value
  | int x => .int (.ofBitVec x)
  | long x => .long (.ofBitVec x)

def kind : Number → NumKind
  | int _ => .int
  | long _ => .long

@[simp] theorem kind_toValue (x : Number) : x.toValue.kind = .num x.kind := by
  cases x <;> rfl

theorem IsOf.kind_eq {ty : Ty} {x : Number} {k : StackKind} (h : x.IsOf ty)
    (hk : ty.stackKind? = some k) : k = .num x.kind := by
  cases ty with
  | prim p => cases x <;> cases p <;> first | exact (Option.some.inj hk).symm | cases h
  | _ => cases h

theorem isOf_of_store? {ty : Ty} {x y : Number} (h : x.store? ty = some y) : y.IsOf ty := by
  cases ty with
  | prim k =>
    show y.cut? k = some y
    -- the low bits are what they were
    cases x <;> cases k <;> cases h
    all_goals simp [cut?, setWidth_signExtend]
  | _ => cases h

theorem exists_zero? {ty : Ty} (hty : ty.isIntegral = true) :
    ∃ x, zero? ty = some x ∧ x.IsOf ty := by
  cases ty with
  | prim k => cases k <;> cases hty <;> exact ⟨_, rfl, rfl⟩
  | _ => cases hty

theorem isOf_prim (x : Number) : x.IsOf (.prim x.kind.prim) := by
  cases x <;> rfl

end Source.Number

namespace Machine

-- ==== instructions

/-- The values that hold some numbers. -/
def values (xs : List Number) : List Value :=
  xs.map Number.toValue

/-- On a stack of some numbers an instruction goes on with a stack of others, whatever is
added to the pool. -/
def Turns (p : Pool) (i : Instr) (xs ys : List Number) : Prop :=
  ∀ q c locals, p.PartOf q →
    exec q c i ⟨values xs, locals⟩ = some (.next ⟨values ys, locals⟩)

section Turns

variable {p : Pool} {i : Instr} {x y z : Number} {xs ys rest : List Number} {index w : Nat}
  {op : Arith} {b : BinOp}

theorem turns_of_effect
    (hexec : ∀ q c s, exec q c i s =
      (effect? q c i s.stack).map fun stack => .next { s with stack })
    (h : ∀ q c, p.PartOf q → effect? q c i (values xs) = some (values ys)) : Turns p i xs ys := by
  intro q c locals hpart
  rw [hexec, h q c hpart]
  rfl

/-- Where some numbers are on top of the stack, an instruction goes on with others in their
place, whatever is added to the pool. -/
def Replaces (p : Pool) (i : Instr) (xs ys : List Number) : Prop :=
  ∀ q c below locals, p.PartOf q →
    exec q c i ⟨values xs ++ below, locals⟩ = some (.next ⟨values ys ++ below, locals⟩)

theorem Replaces.turns (h : Replaces p i xs ys) (rest : List Number) :
    Turns p i (xs ++ rest) (ys ++ rest) := by
  intro q c locals hpart
  unfold values
  rw [List.map_append, List.map_append]
  exact h q c (values rest) locals hpart

theorem replaces_popOf (x : Number) : Replaces p (.popOf x.kind.category) [x] [] := by
  intro q c below locals _
  cases x <;> rfl

theorem turns_dupOf : Turns p (.dupOf x.kind.category) (x :: rest) (x :: x :: rest) := by
  cases x with
  | int x | long x => exact turns_of_effect (fun _ _ _ => rfl) fun _ _ _ => rfl

-- ==== constants

theorem turns_const (n : Int) (xs : List Number) :
    Turns p (.const .int n) xs (.int (.ofInt 32 n) :: xs) :=
  turns_of_effect (fun _ _ _ => rfl) fun _ _ _ => rfl

theorem turns_sipush (n : Int) (xs : List Number) :
    Turns p (.sipush n) xs (.int (.ofInt 32 n) :: xs) :=
  turns_of_effect (fun _ _ _ => rfl) fun _ _ _ => rfl

theorem turns_ldcOf {n : Int32} (h : ∀ q : Pool, p.PartOf q → q.get? index = some (.integer n))
    (xs : List Number) :
    Turns p (.ldcOf index) xs (.int n.toBitVec :: xs) := by
  rcases Instr.ldcOf_eq index with hi | hi <;> rw [hi]
  all_goals
    refine turns_of_effect (fun _ _ _ => rfl) fun q c hpart => ?_
    show ((q.get? index).bind Value.ofConstant?).bind _ = _
    rw [h q hpart]
    rfl

/-- Loading an `int` constant pushes it. -/
theorem turns_intConstant {n : Int32} {p' : Pool} (hp : p.Indexed)
    (h : Instr.intConstant n p = .ok i p') (xs : List Number) :
    Turns p' i xs (.int n.toBitVec :: xs) := by
  have hof : BitVec.ofInt 32 n.toInt = n.toBitVec := BitVec.ofInt_toInt
  unfold Instr.intConstant at h
  split at h
  · cases h
    exact hof ▸ turns_const n.toInt xs
  · split at h
    · cases h
      exact hof ▸ turns_of_effect (fun _ _ _ => rfl) fun _ _ _ => rfl
    · split at h
      · cases h
        exact hof ▸ turns_sipush n.toInt xs
      · obtain ⟨index, p₁, hintern, h⟩ := state_bind_ok h
        cases h
        exact turns_ldcOf (fun q hpart => Pool.get?_of_intern hp hintern hpart) xs

/-- Loading a `long` constant pushes it. -/
theorem turns_longConstant {n : Int64} {p' : Pool} (hp : p.Indexed)
    (h : Instr.longConstant n p = .ok i p') (xs : List Number) :
    Turns p' i xs (.long n.toBitVec :: xs) := by
  have hof : BitVec.ofInt 64 n.toInt = n.toBitVec := BitVec.ofInt_toInt
  unfold Instr.longConstant at h
  split at h
  · cases h
    exact hof ▸ turns_of_effect (fun _ _ _ => rfl) fun _ _ _ => rfl
  · obtain ⟨index, p₁, hintern, h⟩ := state_bind_ok h
    cases h
    refine turns_of_effect (fun _ _ _ => rfl) fun q c hpart => ?_
    show ((q.get? index).bind Value.ofConstant?).bind _ = _
    rw [Pool.get?_of_intern hp hintern hpart]
    rfl

-- ==== shifts

theorem smod_of_lt {e m : BitVec w} (he : e.toNat < m.toNat) (hm : m.msb = false) :
    e.smod m = e := by
  have hm' := BitVec.msb_eq_false_iff_two_mul_lt.mp hm
  have he' : e.msb = false := BitVec.msb_eq_false_iff_two_mul_lt.mpr (by omega)
  unfold BitVec.smod
  rw [he', hm]
  exact BitVec.umod_eq_of_lt he

theorem toNat_and_mask (n : Nat) (d : BitVec w) (hn : 2 ^ n - 1 < 2 ^ w) :
    (d &&& BitVec.ofNat w (2 ^ n - 1)).toNat = d.toNat % 2 ^ n := by
  rw [BitVec.toNat_and, BitVec.toNat_ofNat, Nat.mod_eq_of_lt hn, Nat.and_two_pow_sub_one_eq_mod]

theorem and_mask (n : Nat) (d : BitVec w) (hn : 2 ^ n - 1 < 2 ^ w) :
    d &&& BitVec.ofNat w (2 ^ n - 1) = (d.setWidth n).setWidth w := by
  refine BitVec.eq_of_toNat_eq ?_
  rw [toNat_and_mask n d hn, BitVec.toNat_setWidth, BitVec.toNat_setWidth]
  refine (Nat.mod_eq_of_lt ?_).symm
  exact Nat.lt_of_le_of_lt (Nat.mod_le _ _) d.isLt

private theorem toNat_signExtend_mod (d : BitVec 32) :
    (d.signExtend 64).toNat % 64 = d.toNat % 64 := by
  have hlt := d.isLt
  rw [BitVec.toNat_signExtend, BitVec.toNat_setWidth]
  split <;> omega

/-- A shift on the machine is the shift of the source. -/
private theorem onInt_shift (h : LowerM.shiftOp? op = some b) (x d : BitVec 32) :
    ∃ z, shiftBits? op x d.toNat = some z ∧
      b.onInt (.ofBitVec x) (.ofBitVec d) = some (.ofBitVec z) := by
  have hmask : (d &&& 31#32).toNat = d.toNat % 32 := toNat_and_mask 5 d (by decide)
  have hlt : (d &&& 31#32).toNat < (32#32).toNat := by
    rw [hmask]
    exact Nat.mod_lt _ (by decide)
  have hsmod : (d &&& 31#32).smod 32 = d &&& 31#32 := smod_of_lt hlt (by decide)
  cases op <;> cases h
  · refine ⟨_, rfl, congrArg some (Int32.toBitVec_inj.mp ?_)⟩
    rw [Int32.toBitVec_shiftLeft]
    show x <<< (d &&& 31#32).smod 32 = x <<< (d.toNat % 32)
    rw [hsmod, ← hmask]
    rfl
  · refine ⟨_, rfl, congrArg some (Int32.toBitVec_inj.mp ?_)⟩
    rw [Int32.toBitVec_shiftRight]
    show x.sshiftRight' ((d &&& 31#32).smod 32) = x.sshiftRight (d.toNat % 32)
    rw [hsmod, ← hmask]
    rfl
  · refine ⟨_, rfl, congrArg some (Int32.toBitVec_inj.mp ?_)⟩
    show x >>> ((d &&& 31#32) % 32#32) = x >>> (d.toNat % 32)
    rw [BitVec.umod_eq_of_lt (BitVec.lt_def.mpr hlt), ← hmask]
    rfl

/-- A shift of a `long` by an `int`. -/
private theorem onLong_shift (h : LowerM.shiftOp? op = some b) (x : BitVec 64) (d : BitVec 32) :
    ∃ z, shiftBits? op x d.toNat = some z ∧
      b.onLong (.ofBitVec x) (Int32.ofBitVec d).toInt64 = some (.ofBitVec z) := by
  have hmask : (d.signExtend 64 &&& 63#64).toNat = d.toNat % 64 := by
    rw [← toNat_signExtend_mod]
    exact toNat_and_mask 6 _ (by decide)
  have hlt : (d.signExtend 64 &&& 63#64).toNat < (64#64).toNat := by
    rw [hmask]
    exact Nat.mod_lt _ (by decide)
  have hsmod : (d.signExtend 64 &&& 63#64).smod 64 = d.signExtend 64 &&& 63#64 :=
    smod_of_lt hlt (by decide)
  cases op <;> cases h
  · refine ⟨_, rfl, congrArg some (Int64.toBitVec_inj.mp ?_)⟩
    rw [Int64.toBitVec_shiftLeft]
    show x <<< (d.signExtend 64 &&& 63#64).smod 64 = x <<< (d.toNat % 64)
    rw [hsmod, ← hmask]
    rfl
  · refine ⟨_, rfl, congrArg some (Int64.toBitVec_inj.mp ?_)⟩
    rw [Int64.toBitVec_shiftRight]
    show x.sshiftRight' ((d.signExtend 64 &&& 63#64).smod 64) = x.sshiftRight (d.toNat % 64)
    rw [hsmod, ← hmask]
    rfl
  · refine ⟨_, rfl, congrArg some (Int64.toBitVec_inj.mp ?_)⟩
    show x >>> ((d.signExtend 64 &&& 63#64) % 64#64) = x >>> (d.toNat % 64)
    rw [BitVec.umod_eq_of_lt (BitVec.lt_def.mpr hlt), ← hmask]
    rfl

-- ==== arithmetic

theorem turns_binary (htotal : op.isTotal = true)
    (hform : LowerM.binaryForm? op x.kind = some (.instr b)) (hkind : y.kind = x.kind) :
    ∃ z, x.binary? op y = some z ∧ z.kind = x.kind ∧
      ∀ p rest, Turns p (.binary b x.kind) (y :: x :: rest) (z :: rest) := by
  cases x <;> cases y <;> cases hkind <;> cases op <;> cases htotal <;> cases hform
  all_goals exact ⟨_, rfl, rfl, fun p rest => turns_of_effect (fun _ _ _ => rfl) fun _ _ _ => rfl⟩

theorem turns_shift (h : LowerM.shiftOp? op = some b) (hkind : y.kind = .int) :
    ∃ z, x.binary? op y = some z ∧ z.kind = x.kind ∧
      ∀ p rest, Turns p (.binary b x.kind) (y :: x :: rest) (z :: rest) := by
  have hnone : ∀ {w : Nat} (a c : BitVec w), binaryBits? op a c = none := by
    cases op <;> cases h <;> exact fun _ _ => rfl
  have hshift : b.isShift = true := by
    cases op <;> cases h <;> rfl
  cases y with
  | long d => cases hkind
  | int d =>
    cases x with
    | int a =>
      obtain ⟨z, hz, hrun⟩ := onInt_shift h a d
      refine ⟨.int z, ?_, rfl, fun p rest => turns_of_effect (fun _ _ _ => rfl) fun _ _ _ => ?_⟩
      · rw [Number.binary?, hnone, hz]
        rfl
      · show (b.onInt _ _).map _ = _
        rw [hrun]
        rfl
    | long a =>
      obtain ⟨z, hz, hrun⟩ := onLong_shift h a d
      refine ⟨.long z, ?_, rfl, fun p rest =>
        turns_of_effect (fun _ _ _ => rfl) fun _ _ _ => ?_⟩
      · rw [Number.binary?, hz]
        rfl
      · show (if b.isShift = true then (b.onLong _ _).map _ else none) = _
        rw [if_pos hshift, hrun]
        rfl

theorem turns_neg (x : Number) : ∃ z, x.unary? .neg = some z ∧ z.kind = x.kind ∧
    ∀ p rest, Turns p (.neg x.kind) (x :: rest) (z :: rest) := by
  cases x
  all_goals exact ⟨_, rfl, rfl, fun p rest => turns_of_effect (fun _ _ _ => rfl) fun _ _ _ => rfl⟩

theorem turns_xor_ones_int (x : BitVec 32) :
    Turns p (.binary .xor .int) (.int (.ofInt 32 (-1)) :: .int x :: rest)
      (.int (~~~x) :: rest) := by
  refine turns_of_effect (fun _ _ _ => rfl) fun _ _ _ => ?_
  rw [← BitVec.xor_allOnes]
  rfl

theorem turns_xor_ones_long (x : BitVec 64) :
    Turns p (.binary .xor .long) (.long (-1 : Int64).toBitVec :: .long x :: rest)
      (.long (~~~x) :: rest) := by
  refine turns_of_effect (fun _ _ _ => rfl) fun _ _ _ => ?_
  rw [← BitVec.xor_allOnes]
  rfl

-- ==== conversions

theorem turns_extend (x : BitVec 32) :
    Turns p (.convert .int .long) (.int x :: rest) (.long (x.signExtend 64) :: rest) :=
  turns_of_effect (fun _ _ _ => rfl) fun _ _ _ => rfl

theorem turns_truncate (x : BitVec 64) :
    Turns p (.convert .long .int) (.long x :: rest) (.int (x.setWidth 32) :: rest) := by
  refine turns_of_effect (fun _ _ _ => rfl) fun _ _ _ => ?_
  rw [← BitVec.signExtend_eq_setWidth_of_le x (by decide)]
  rfl

theorem turns_unsign (x : BitVec 32) :
    Turns p (.binary .and .long)
      (.long (0xffffffff : Int64).toBitVec :: .long (x.signExtend 64) :: rest)
      (.long (x.setWidth 64) :: rest) := by
  have hmask : x.signExtend 64 &&& 0xffffffff#64 = x.setWidth 64 := by
    rw [show 0xffffffff#64 = BitVec.ofNat 64 (2 ^ 32 - 1) from rfl, and_mask 32 _ (by decide),
      setWidth_signExtend x (by decide)]
  refine turns_of_effect (fun _ _ _ => rfl) fun _ _ _ => ?_
  rw [← hmask]
  rfl

theorem turns_byte (x : BitVec 32) :
    Turns p (.narrow .byte) (.int x :: rest) (.int ((x.setWidth 8).signExtend 32) :: rest) := by
  refine turns_of_effect (fun _ _ _ => rfl) fun _ _ _ => ?_
  rw [← BitVec.signExtend_eq_setWidth_of_le x (by decide)]
  rfl

theorem turns_short (x : BitVec 32) :
    Turns p (.narrow .short) (.int x :: rest) (.int ((x.setWidth 16).signExtend 32) :: rest) := by
  refine turns_of_effect (fun _ _ _ => rfl) fun _ _ _ => ?_
  rw [← BitVec.signExtend_eq_setWidth_of_le x (by decide)]
  rfl

theorem turns_char (x : BitVec 32) :
    Turns p (.narrow .char) (.int x :: rest) (.int ((x.setWidth 16).setWidth 32) :: rest) := by
  refine turns_of_effect (fun _ _ _ => rfl) fun _ _ _ => ?_
  rw [← and_mask 16 x (by decide)]
  rfl

theorem turns_mask (x : BitVec 32) :
    Turns p (.binary .and .int) (.int (.ofInt 32 0xff) :: .int x :: rest)
      (.int ((x.setWidth 8).setWidth 32) :: rest) := by
  refine turns_of_effect (fun _ _ _ => rfl) fun _ _ _ => ?_
  rw [← and_mask 8 x (by decide)]
  rfl

-- ==== comparisons

/-- On a stack of some numbers a branch is taken or not, and leaves others. -/
def Decides (i : Instr) (xs : List Number) (taken : Bool) (ys : List Number) : Prop :=
  ∀ c, test? c i (values xs) = some (taken, values ys)

theorem decides_ifInt (way : Comparison) (o : Int) (x y : BitVec 32) :
    Decides (.ifInt way o) (.int y :: .int x :: rest) (compareBits way false x y) rest := by
  have hholds : way.holds x.toInt y.toInt = compareBits way false x y := by
    have heq : (x.toInt == y.toInt) = (x == y) := by
      rw [Bool.eq_iff_iff, beq_iff_eq, beq_iff_eq, BitVec.toInt_inj]
    cases way
    case eq => exact heq
    case ne => exact congrArg not heq
    case lt => rfl
    case gt => rfl
    all_goals exact Bool.eq_iff_iff.mpr (by simp [Comparison.holds, compareBits, less, BitVec.slt])
  intro c
  rw [← hholds]
  rfl

/-- The sign of an order is compared as the numbers are. -/
private theorem holds_sign (way : Comparison) {unsigned : Bool} {x y : BitVec w} {o : Ordering}
    (hlt : o = .lt ↔ less unsigned x y = true) (heq : o = .eq ↔ x = y)
    (hgt : o = .gt ↔ less unsigned y x = true) :
    way.holds (sign o).toInt 0 = compareBits way unsigned x y := by
  have hlt' : less unsigned x y = decide (o = .lt) :=
    Bool.eq_iff_iff.mpr (hlt.symm.trans decide_eq_true_iff.symm)
  have hgt' : less unsigned y x = decide (o = .gt) :=
    Bool.eq_iff_iff.mpr (hgt.symm.trans decide_eq_true_iff.symm)
  have heq' : (x == y) = decide (o = .eq) :=
    Bool.eq_iff_iff.mpr (beq_iff_eq.trans (heq.symm.trans decide_eq_true_iff.symm))
  unfold compareBits bne
  rw [hlt', hgt', heq']
  cases o <;> cases way <;> rfl

/-- Numbers that are ordered as their bits are compared as they are. -/
theorem holds_sign_compare {ι : Type} [Ord ι] [LT ι] [LE ι] [Std.LawfulOrderOrd ι]
    [Std.LawfulOrderLT ι] [Std.LawfulEqOrd ι] (of : BitVec w → ι) {u : Bool}
    (hof : Function.Injective of) (hless : ∀ a b, of a < of b ↔ less u a b = true)
    (way : Comparison) (x y : BitVec w) :
    way.holds (sign (compare (of x) (of y))).toInt 0 = compareBits way u x y := by
  refine holds_sign way (Std.compare_eq_lt.trans (hless x y)) ?_
    (Std.compare_eq_gt.trans (hless y x))
  rw [Std.compare_eq_iff_eq]
  exact hof.eq_iff

theorem decides_sign {way : Comparison} {unsigned : Bool} {x y : BitVec w} {o : Ordering} (k : Int)
    (h : way.holds (sign o).toInt 0 = compareBits way unsigned x y) :
    Decides (.ifZero way k) (.int (sign o).toBitVec :: rest) (compareBits way unsigned x y)
      rest := by
  intro c
  rw [← h]
  rfl

theorem compareBits_of_isRelational {way : Comparison} (h : way.isRelational = false) (a b : Bool)
    (x y : BitVec w) :
    compareBits way a x y = compareBits way b x y := by
  cases way <;> first | rfl | cases h

theorem replaces_lcmp (x y : BitVec 64) :
    Replaces p .lcmp [.long y, .long x]
      [.int (sign (compare (Int64.ofBitVec x) (.ofBitVec y))).toBitVec] :=
  fun _ _ _ _ _ => rfl

theorem holds_sign_long (way : Comparison) (x y : BitVec 64) :
    way.holds (sign (compare (Int64.ofBitVec x) (.ofBitVec y))).toInt 0
      = compareBits way false x y :=
  holds_sign_compare (u := false) Int64.ofBitVec (fun _ _ h => congrArg Int64.toBitVec h)
    (fun _ _ => Int64.lt_iff_toInt_lt.trans BitVec.slt_iff_toInt_lt.symm) way x y

theorem replaces_compareUnsigned_int (x y : BitVec 32) (h : ∀ q : Pool, p.PartOf q →
      q.method? index = some ⟨"java/lang/Integer", "compareUnsigned", "(II)I"⟩) :
    Replaces p (.invokeStatic index) [.int y, .int x]
      [.int (sign (compare (UInt32.ofBitVec x) (.ofBitVec y))).toBitVec] := by
  intro q c below locals hpart
  show ((q.method? index).bind _).map _ = _
  rw [h q hpart]
  rfl

theorem holds_sign_unsigned_int (way : Comparison) (x y : BitVec 32) :
    way.holds (sign (compare (UInt32.ofBitVec x) (.ofBitVec y))).toInt 0
      = compareBits way true x y :=
  holds_sign_compare UInt32.ofBitVec (fun _ _ h => congrArg UInt32.toBitVec h)
    (fun _ _ => UInt32.lt_iff_toBitVec_lt.trans BitVec.ult_iff_lt.symm) way x y

theorem replaces_compareUnsigned_long (x y : BitVec 64) (h : ∀ q : Pool, p.PartOf q →
      q.method? index = some ⟨"java/lang/Long", "compareUnsigned", "(JJ)I"⟩) :
    Replaces p (.invokeStatic index) [.long y, .long x]
      [.int (sign (compare (UInt64.ofBitVec x) (.ofBitVec y))).toBitVec] := by
  intro q c below locals hpart
  show ((q.method? index).bind _).map _ = _
  rw [h q hpart]
  rfl

theorem holds_sign_unsigned_long (way : Comparison) (x y : BitVec 64) :
    way.holds (sign (compare (UInt64.ofBitVec x) (.ofBitVec y))).toInt 0
      = compareBits way true x y :=
  holds_sign_compare UInt64.ofBitVec (fun _ _ h => congrArg UInt64.toBitVec h)
    (fun _ _ => UInt64.lt_iff_toBitVec_lt.trans BitVec.ult_iff_lt.symm) way x y

end Turns

end Machine

end BytecodeBridge
