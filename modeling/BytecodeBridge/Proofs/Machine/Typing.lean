/-
What the types of a frame say about the values of an execution.

A slot that is declared with a type holds nothing but values of that type:
of its kind, and in its range if it is narrower than an `int` (`Within`).
About the stack the types of a frame say less. Where frames were merged a
type may be `top`, which says nothing, and where a primitive is declared as
a supertype a reference may go by the name of a number. What still holds is
`Fits`: a number goes by a primitive type of its own kind, and is in its
range. It is all that stores need, and joins keep it, as long as no join
makes two slots out of one.

`Sound` lifts this to instructions: on a stack that fits some types an
instruction that goes on leaves a stack that fits some others, and what it
stores is of the type of the slot.
-/
import BytecodeBridge.Proofs.Frame.Locals
import BytecodeBridge.Proofs.Instr.Control
import BytecodeBridge.Proofs.Machine
import BytecodeBridge.Proofs.TypeTable.Join

namespace BytecodeBridge

-- ==== ranges

/-- The least and the greatest value of a kind that is narrower than an `int` and that
values are cut down to. -/
def Prim.range? : Prim → Option (Int × Int)
  | int8 => some (-128, 127)
  | uint8 => some (0, 255)
  | int16 => some (-32768, 32767)
  | char | uint16 => some (0, 65535)
  | _ => none

/-- A number in the range of the kind. -/
def Prim.Holds (k : Prim) (n : Int) : Prop :=
  ∀ low high, k.range? = some (low, high) → low ≤ n ∧ n ≤ high

theorem Prim.holds_of_range? {k : Prim} (h : k.range? = none) (n : Int) : k.Holds n := by
  intro low high hrange
  rw [h] at hrange
  cases hrange

theorem NumKind.range?_prim (k : NumKind) : k.prim.range? = none := by
  cases k <;> rfl

/-- A mask that is not negative bounds what it masks. -/
theorem toInt_and_le (n mask : Int32) (h : 0 ≤ mask.toInt) :
    0 ≤ (n &&& mask).toInt ∧ (n &&& mask).toInt ≤ mask.toInt := by
  have hmask : mask.toBitVec.msb = false := by
    rw [BitVec.msb_eq_false_iff_two_mul_lt]
    have := BitVec.toInt_eq_toNat_cond mask.toBitVec
    have hlt := mask.toBitVec.isLt
    have hint : mask.toInt = mask.toBitVec.toInt := rfl
    split at this
    · assumption
    · omega
  have hand : (n &&& mask).toBitVec.msb = false := by
    show (n.toBitVec &&& mask.toBitVec).msb = false
    rw [BitVec.msb_and, hmask, Bool.and_false]
  have hle : (n.toBitVec &&& mask.toBitVec).toNat ≤ mask.toBitVec.toNat := by
    rw [BitVec.toNat_and]
    exact Nat.and_le_right
  have hleft : (n &&& mask).toInt = (n.toBitVec &&& mask.toBitVec).toNat :=
    BitVec.toInt_eq_toNat_of_msb hand
  have hright : mask.toInt = mask.toBitVec.toNat := BitVec.toInt_eq_toNat_of_msb hmask
  rw [hleft, hright]
  omega

/-- Cutting a number down brings it into the range of the kind. -/
theorem Narrow.holds_cut (n : Int32) :
    Prim.int8.Holds (byte.cut n).toInt ∧ Prim.int16.Holds (short.cut n).toInt ∧
      Prim.char.Holds (char.cut n).toInt ∧ Prim.uint16.Holds (char.cut n).toInt := by
  have hchar : 0 ≤ (char.cut n).toInt ∧ (char.cut n).toInt ≤ 65535 :=
    toInt_and_le n 0xffff (by decide)
  refine ⟨?_, ?_, ?_, ?_⟩
  · rintro low high ⟨⟩
    show _ ≤ n.toInt8.toInt32.toInt ∧ n.toInt8.toInt32.toInt ≤ _
    rw [Int8.toInt_toInt32]
    have hlow := n.toInt8.le_toInt
    have hhigh := n.toInt8.toInt_lt
    omega
  · rintro low high ⟨⟩
    show _ ≤ n.toInt16.toInt32.toInt ∧ n.toInt16.toInt32.toInt ≤ _
    rw [Int16.toInt_toInt32]
    have hlow := n.toInt16.le_toInt
    have hhigh := n.toInt16.toInt_lt
    omega
  · rintro low high ⟨⟩
    exact hchar
  · rintro low high ⟨⟩
    exact hchar

-- ==== methods by index

/-- A method that was referred to is found in any later pool. -/
theorem Pool.method?_of_methodRef {p p' q : Pool} {i : Nat} {owner name descriptor : String}
    (hp : p.Indexed) (h : methodRef owner name descriptor false p = .ok i p')
    (hq : p'.PartOf q) : q.method? i = some ⟨owner, name, descriptor⟩ := by
  obtain ⟨c, p₂, hclass, h⟩ := state_bind_ok h
  obtain ⟨nt, p₅, hpair, h⟩ := state_bind_ok h
  obtain ⟨o, p₁, ho, hc⟩ := state_bind_ok hclass
  obtain ⟨n, p₃, hn, hpair⟩ := state_bind_ok hpair
  obtain ⟨d, p₄, hd, hnt⟩ := state_bind_ok hpair
  -- each entry stays where it is in the pools that follow
  obtain ⟨h₁, -⟩ := (grows_of_ok (growing_intern _) ho).indexed hp
  obtain ⟨h₂, q₂⟩ := (grows_of_ok (growing_intern _) hc).indexed h₁
  obtain ⟨h₃, q₃⟩ := (grows_of_ok (growing_intern _) hn).indexed h₂
  obtain ⟨h₄, q₄⟩ := (grows_of_ok (growing_intern _) hd).indexed h₃
  obtain ⟨h₅, q₅⟩ := (grows_of_ok (growing_intern _) hnt).indexed h₄
  obtain ⟨-, q₆⟩ := (grows_of_ok (growing_intern _) h).indexed h₅
  have to₅ := q₆.trans hq
  have to₄ := q₅.trans to₅
  have to₃ := q₄.trans to₄
  have to₂ := q₃.trans to₃
  have to₁ := q₂.trans to₂
  have hmethod : q.get? i = some (.methodRef c nt) := get?_of_intern h₅ h hq
  unfold Pool.method? Pool.text?
  rw [hmethod]
  dsimp only
  rw [get?_of_intern h₁ hc to₂, get?_of_intern h₄ hnt to₅]
  dsimp only
  rw [get?_of_intern hp ho to₁, get?_of_intern h₂ hn to₃, get?_of_intern h₃ hd to₄]
  rfl

namespace Machine

-- ==== values

/-- A value of a type: it has the kind of the type and is in its range. -/
structure Value.Within (v : Value) (t : Ty) : Prop where
  kind : t.stackKind? = some v.kind
  range : ∀ n k, v = .int n → t = .prim k → k.Holds n.toInt

/-- A value that may go by a type on the stack. -/
inductive Value.Fits (v : Value) : Ty → Prop where
  | within {t : Ty} (h : v.Within t) : Fits v t
  | reference {t : Ty} (hv : v = .reference) (ht : t.category = 1) : Fits v t
  | top : Fits v .top

theorem Value.eq_reference {v : Value} (h : v.kind = .reference) : v = .reference := by
  cases v <;> first | rfl | cases h

theorem Value.within_of_kind {v : Value} {k : Prim} (hrange : k.range? = none)
    (h : v.kind = k.stackKind) : v.Within (.prim k) := by
  refine ⟨by rw [h]; rfl, fun n k' _ hk => ?_⟩
  cases hk
  exact k.holds_of_range? hrange n.toInt

theorem Value.within_reference {t : Ty} (h : t.stackKind? = some .reference) :
    Value.reference.Within t :=
  ⟨h, fun _ _ hv => by cases hv⟩

section Fits

variable {v : Value} {T : TypeTable} {x y t : Ty}

theorem Value.Fits.category (h : v.Fits t) (ht : t.category = 2) : v.category = 2 := by
  cases h with
  | within h => exact (Ty.category_of_stackKind? h.kind).symm.trans ht
  | reference _ hone => cases hone.symm.trans ht
  | top => cases ht

theorem Value.Fits.within_of_kind (h : v.Fits t) (ht : t.stackKind? = some v.kind) :
    v.Within t := by
  cases h with
  | within h => exact h
  | reference hv =>
    subst hv
    exact within_reference ht
  | top => cases ht

/-- A value may go by any type of the kind that has no range. -/
theorem Value.Fits.of_kind {k : Prim} (h : v.Fits x) (hx : x.stackKind? = some k.stackKind)
    (hrange : k.range? = none) : v.Fits (.prim k) := by
  cases h with
  | within h =>
    exact .within (Value.within_of_kind hrange (Option.some_inj.mp (h.kind.symm.trans hx)))
  | reference hv hone =>
    refine .reference hv ?_
    rw [← hone, Ty.category_of_stackKind? hx]
    rfl
  | top => cases hx

theorem Value.Fits.of_isReference (h : v.Fits x) (hx : x.isReference = true)
    (ht : t.category = 1) : v.Fits t := by
  cases h with
  | within h =>
    have hkind := TypeTable.stackKind?_of_isReference hx
    exact .reference (eq_reference (Option.some_inj.mp (h.kind.symm.trans hkind))) ht
  | reference hv => exact .reference hv ht
  | top => cases hx

private theorem stackKind?_prim (k : NumKind) (a : Prim) (h : a.numKind = k) :
    (Ty.prim a).stackKind? = some k.prim.stackKind := by
  subst h
  show some (StackKind.num a.numKind) = some (StackKind.num a.numKind.prim.numKind)
  rw [NumKind.numKind_prim]

/-- What may go by either of two types may go by their join. -/
theorem Value.Fits.join (hT : T.Slim) (h : v.Fits x ∨ v.Fits y) : v.Fits (T.join x y) := by
  rcases TypeTable.join_cases T x y with ⟨rfl, heq⟩ | heq | ⟨a, b, rfl, rfl, hab, heq⟩ |
    ⟨hx, hy, heq⟩
  · rw [heq]
    exact h.elim id id
  · rw [heq]
    exact .top
  · rw [heq]
    rcases h with h | h
    · exact h.of_kind (stackKind?_prim _ a rfl) (NumKind.range?_prim _)
    · exact h.of_kind (stackKind?_prim _ b hab.symm) (NumKind.range?_prim _)
  · rw [heq]
    have hone := hT.category_commonSupertype hx hy
    rcases h with h | h
    · exact h.of_isReference hx hone
    · exact h.of_isReference hy hone

end Fits

-- ==== stacks

/-- The values on a stack may go by these types. -/
abbrev Fit (stack : List Value) (types : List Ty) : Prop :=
  List.Forall₂ Value.Fits stack types

/-- Whatever may go by the first types may go by the second. -/
def Subsumes (types types' : List Ty) : Prop :=
  ∀ stack, Fit stack types → Fit stack types'

theorem Subsumes.refl (types : List Ty) : Subsumes types types :=
  fun _ h => h

theorem Subsumes.cons {t t' : Ty} (h : ∀ v : Value, v.Fits t → v.Fits t') (types : List Ty) :
    Subsumes (t :: types) (t' :: types) := by
  intro stack hfit
  cases hfit with
  | cons hv hrest => exact .cons (h _ hv) hrest

theorem subsumes_of_stackMerge {T : TypeTable} (hT : T.Slim) {x y r : List Ty}
    (h : Frame.StackMerge T x y r) : Subsumes x r ∧ Subsumes y r := by
  induction h with
  | nil => exact ⟨.refl [], .refl []⟩
  | cons _ _ ih =>
    constructor
    · rintro _ (_ | ⟨hv, hvs⟩)
      exact .cons (.join hT (.inl hv)) (ih.1 _ hvs)
    · rintro _ (_ | ⟨hv, hvs⟩)
      exact .cons (.join hT (.inr hv)) (ih.2 _ hvs)

-- ==== instructions

/-- Slots that are set are declared, and hold values of their types. -/
def Kept (declared : Nat → Option Ty) (locals : Nat → Option Value) : Prop :=
  ∀ slot v, locals slot = some v → ∃ t, declared slot = some t ∧ v.Within t

/-- With a pool that has all that `p` has, on a stack of the first types and with slots
of their types, the instruction goes on, with a stack of the second types and slots of
their types, if it has an outcome at all. -/
def Sound (p : Pool) (declared : Nat → Option Ty) (i : Instr) (types types' : List Ty) : Prop :=
  ∀ q c s out, p.PartOf q → Fit s.stack types → Kept declared s.locals →
    exec q c i s = some out →
    ∃ s', out = .next s' ∧ Fit s'.stack types' ∧ Kept declared s'.locals

section Sound

variable {p : Pool} {declared : Nat → Option Ty} {i : Instr} {types : List Ty} {t x y : Ty}

variable {k : NumKind} {index slot : Nat} {constant : Constant} {v : Value}

theorem sound_of_effect {types' : List Ty}
    (hexec : ∀ q c s, exec q c i s
      = (effect? q c i s.stack).map fun stack => .next { s with stack })
    (h : ∀ q c stack stack', p.PartOf q → Fit stack types → effect? q c i stack = some stack' →
      Fit stack' types') : Sound p declared i types types' := by
  intro q c s out hpart hfit hkept hout
  rw [hexec, Option.map_eq_some_iff] at hout
  obtain ⟨stack', heffect, rfl⟩ := hout
  exact ⟨_, rfl, h q c _ stack' hpart hfit heffect, hkept⟩

/-- The instruction replaces some values by a number of a kind. -/
def Produces (p : Pool) (i : Instr) (count : Nat) (k : NumKind) : Prop :=
  ∀ q c stack stack', p.PartOf q → effect? q c i stack = some stack' →
    ∃ v, stack' = v :: stack.drop count ∧ v.kind = .num k

theorem Produces.sound {count : Nat} (h : Produces p i count k)
    (hexec : ∀ q c s, exec q c i s
      = (effect? q c i s.stack).map fun stack => .next { s with stack })
    (types : List Ty) : Sound p declared i types (.prim k.prim :: types.drop count) := by
  refine sound_of_effect hexec fun q c stack stack' hpart hfit heffect => ?_
  obtain ⟨v, rfl, hkind⟩ := h q c stack stack' hpart heffect
  refine .cons (.within (Value.within_of_kind (NumKind.range?_prim k) ?_))
    (List.forall₂_drop count hfit)
  rw [hkind]
  show StackKind.num k = .num k.prim.numKind
  rw [NumKind.numKind_prim]

-- ==== constants

theorem Value.kind_ofInt (k : NumKind) (n : Int) : (Value.ofInt k n).kind = .num k := by
  cases k <;> rfl

theorem sound_push (hv : v.kind = .num k)
    (hexec : ∀ q c s, exec q c i s
      = (effect? q c i s.stack).map fun stack => .next { s with stack })
    (h : ∀ q c stack, effect? q c i stack = some (v :: stack)) (types : List Ty) :
    Sound p declared i types (.prim k.prim :: types) := by
  have hproduces : Produces p i 0 k := by
    intro q c stack stack' _ heffect
    cases (h q c stack).symm.trans heffect
    exact ⟨v, rfl, hv⟩
  exact hproduces.sound hexec types

theorem sound_const (k : NumKind) (n : Int) (types : List Ty) :
    Sound p declared (.const k n) types (.prim k.prim :: types) :=
  sound_push (Value.kind_ofInt k n) (fun _ _ _ => rfl) (fun _ _ _ => rfl) types

theorem sound_zero (k : Prim) (types : List Ty) :
    Sound p declared (.const k.numKind 0) types (.prim k :: types) := by
  refine sound_of_effect (fun _ _ _ => rfl) fun q c stack stack' _ hfit heffect => ?_
  cases heffect
  refine .cons (.within ⟨?_, ?_⟩) hfit
  · rw [Value.kind_ofInt]
    rfl
  · rintro n k' hn ⟨⟩ low high hrange
    cases k <;> cases hn <;> cases hrange <;> decide

/-- The constant that a pool index names is the same in any later pool. -/
theorem produces_load (size : Nat) (hindex : p.get? index = some constant)
    (hv : Value.ofConstant? constant = some v) (hkind : v.kind = .num k)
    (hi : ∀ q c stack, effect? q c i stack = (do
      let v ← (q.get? index).bind Value.ofConstant?
      if v.category = size then some (v :: stack) else none)) : Produces p i 0 k := by
  intro q c stack stack' hpart heffect
  rw [hi, hpart index constant hindex, Option.bind_some, hv] at heffect
  change (if v.category = size then some (v :: stack) else none) = _ at heffect
  split at heffect <;> cases heffect
  exact ⟨v, rfl, hkind⟩

theorem sound_ldcOf (hindex : p.get? index = some constant)
    (hv : Value.ofConstant? constant = some v) (hkind : v.kind = .num k) (types : List Ty) :
    Sound p declared (.ldcOf index) types (.prim k.prim :: types) := by
  rcases Instr.ldcOf_eq index with hi | hi <;> rw [hi]
  all_goals exact (produces_load 1 hindex hv hkind fun _ _ _ => rfl).sound (fun _ _ _ => rfl) types

theorem sound_ldc2W (hindex : p.get? index = some constant)
    (hv : Value.ofConstant? constant = some v) (hkind : v.kind = .num k) (types : List Ty) :
    Sound p declared (.ldc2W index) types (.prim k.prim :: types) :=
  (produces_load 2 hindex hv hkind fun _ _ _ => rfl).sound (fun _ _ _ => rfl) types

private theorem ldcOf_ne_constNull (index : Nat) : Instr.ldcOf index ≠ .constNull := by
  rcases Instr.ldcOf_eq index with h | h <;> exact h ▸ nofun

/-- The code for a constant of a kind pushes a number of the kind. -/
theorem sound_of_chooses {act : PoolM Instr} (h : Instr.Chooses k act) {p' : Pool}
    (hp : p.Indexed) (hrun : act p = .ok i p') :
    i ≠ .constNull ∧ ∀ declared types, Sound p' declared i types (.prim k.prim :: types) := by
  -- a constant that is put in the pool is loaded from there
  have hload : ∀ {c : Constant} {make : Nat → Instr},
      (Pool.intern c >>= fun index => pure (make index) : PoolM Instr) p = .ok i p' →
      ∃ index, make index = i ∧ p'.get? index = some c := by
    intro c make hrun
    obtain ⟨index, p₁, hintern, hrun⟩ := state_bind_ok hrun
    obtain ⟨rfl, rfl⟩ := state_pure_ok hrun
    exact ⟨index, rfl, Pool.get?_of_intern hp hintern (.refl _)⟩
  cases h with
  | const k n =>
    cases hrun
    exact ⟨nofun, fun _ => sound_const k n⟩
  | bipush | sipush =>
    cases hrun
    exact ⟨nofun, fun _ => sound_push rfl (fun _ _ _ => rfl) fun _ _ _ => rfl⟩
  | integer n =>
    obtain ⟨index, rfl, hindex⟩ := hload hrun
    exact ⟨ldcOf_ne_constNull _, fun _ => sound_ldcOf (v := .int n) hindex rfl rfl⟩
  | float =>
    obtain ⟨index, rfl, hindex⟩ := hload hrun
    exact ⟨ldcOf_ne_constNull _, fun _ => sound_ldcOf (v := .float) hindex rfl rfl⟩
  | long n =>
    obtain ⟨index, rfl, hindex⟩ := hload hrun
    exact ⟨nofun, fun _ => sound_ldc2W (v := .long n) hindex rfl rfl⟩
  | double =>
    obtain ⟨index, rfl, hindex⟩ := hload hrun
    exact ⟨nofun, fun _ => sound_ldc2W (v := .double) hindex rfl rfl⟩

-- ==== arithmetic

theorem sound_binary (op : BinOp) (k : NumKind) (x y : Ty) (types : List Ty) :
    Sound p declared (.binary op k) (y :: x :: types) (.prim k.prim :: types) := by
  have hproduces : Produces p (.binary op k) 2 k := by
    intro q c stack stack' _ heffect
    change binary? op k stack = some stack' at heffect
    unfold binary? at heffect
    split at heffect
    · obtain ⟨n, -, rfl⟩ := Option.map_eq_some_iff.mp heffect
      exact ⟨_, rfl, rfl⟩
    · split at heffect
      · obtain ⟨n, -, rfl⟩ := Option.map_eq_some_iff.mp heffect
        exact ⟨_, rfl, rfl⟩
      · cases heffect
    · split at heffect
      · cases heffect
      · obtain ⟨n, -, rfl⟩ := Option.map_eq_some_iff.mp heffect
        exact ⟨_, rfl, rfl⟩
    · split at heffect
      · cases heffect
        exact ⟨_, rfl, rfl⟩
      · cases heffect
    · split at heffect
      · cases heffect
        exact ⟨_, rfl, rfl⟩
      · cases heffect
    · cases heffect
  exact hproduces.sound (fun _ _ _ => rfl) (y :: x :: types)

theorem sound_neg (k : NumKind) (x : Ty) (types : List Ty) :
    Sound p declared (.neg k) (x :: types) (.prim k.prim :: types) := by
  have hproduces : Produces p (.neg k) 1 k := by
    intro q c stack stack' _ heffect
    change negate? k stack = some stack' at heffect
    unfold negate? at heffect
    split at heffect
    all_goals first
      | cases heffect
        exact ⟨_, rfl, rfl⟩
      | cases heffect
  exact hproduces.sound (fun _ _ _ => rfl) (x :: types)

theorem Value.kind_convert? {c : Chance} {source target : NumKind} {w : Value}
    (h : v.convert? c source target = some w) : w.kind = .num target := by
  cases source <;> cases target <;> cases v
  all_goals first
    | cases h
      rfl
    | cases h

theorem sound_convert (source target : NumKind) (x : Ty) (types : List Ty) :
    Sound p declared (.convert source target) (x :: types) (.prim target.prim :: types) := by
  have hproduces : Produces p (.convert source target) 1 target := by
    intro q c stack stack' _ heffect
    cases stack with
    | nil => cases heffect
    | cons v rest =>
      obtain ⟨w, hw, rfl⟩ := Option.map_eq_some_iff.mp heffect
      exact ⟨w, rfl, Value.kind_convert? hw⟩
  exact hproduces.sound (fun _ _ _ => rfl) (x :: types)

private theorem order?_ok {c : Chance} {stack stack' : List Value}
    (h : order? c k stack = some stack') :
    ∃ v : Value, stack' = v :: stack.drop 2 ∧ v.kind = .num .int := by
  unfold order? at h
  split at h
  all_goals
    cases h
    try exact ⟨_, rfl, rfl⟩

theorem sound_order (hi : i = .lcmp ∨ ∃ high, i = .fcmp high ∨ i = .dcmp high) (x y : Ty)
    (types : List Ty) : Sound p declared i (y :: x :: types) (.prim .int32 :: types) := by
  have hproduces : Produces p i 2 .int := by
    rcases hi with rfl | ⟨high, rfl | rfl⟩ <;> exact fun _ _ _ _ _ h => order?_ok h
  refine hproduces.sound ?_ (y :: x :: types)
  rcases hi with rfl | ⟨high, rfl | rfl⟩ <;> exact fun _ _ _ => rfl

-- ==== calls

/-- The kind of what a library method for two integers returns. -/
inductive Answers (m : MethodSpec) : NumKind → Prop where
  | int (h : m.descriptor = "(II)I") : Answers m .int
  | long (h : m.descriptor = "(JJ)J") : Answers m .long
  | order (h : m.descriptor = "(JJ)I") : Answers m .int

private theorem call?_ok {m : MethodSpec} {stack stack' : List Value}
    (h : call? m stack = some stack') (hm : Answers m k) :
    ∃ v : Value, stack' = v :: stack.drop 2 ∧ v.kind = .num k := by
  unfold call? at h
  cases hm with
  | int hm | long hm | order hm =>
    simp only [hm, String.reduceEq, ↓reduceIte] at h
    split at h
    · obtain ⟨n, -, rfl⟩ := Option.map_eq_some_iff.mp h
      exact ⟨_, rfl, rfl⟩
    · cases h

theorem sound_call {m : MethodSpec} (hindex : ∀ q : Pool, p.PartOf q → q.method? index = some m)
    (hm : Answers m k) (x y : Ty) (types : List Ty) :
    Sound p declared (.invokeStatic index) (y :: x :: types) (.prim k.prim :: types) := by
  have hproduces : Produces p (.invokeStatic index) 2 k := by
    intro q c stack stack' hpart heffect
    change (q.method? index).bind (call? · stack) = some stack' at heffect
    rw [hindex q hpart] at heffect
    exact call?_ok heffect hm
  exact hproduces.sound (fun _ _ _ => rfl) (y :: x :: types)

-- ==== the stack

theorem topTwo?_wide {rest : List Value} (h : v.category = 2) :
    topTwo? (v :: rest) = some ([v], rest) :=
  if_pos h

theorem sound_popOf (t : Ty) (types : List Ty) :
    Sound p declared (.popOf t.category) (t :: types) types := by
  unfold Instr.popOf
  split
  · next htwo =>
    refine sound_of_effect (fun _ _ _ => rfl) fun q c stack stack' _ hfit heffect => ?_
    cases hfit with
    | cons hv hrest =>
      change (topTwo? (_ :: _)).map _ = _ at heffect
      rw [topTwo?_wide (hv.category htwo)] at heffect
      cases heffect
      exact hrest
  · refine sound_of_effect (fun _ _ _ => rfl) fun q c stack stack' _ hfit heffect => ?_
    cases hfit with
    | cons hv hrest =>
      change (if _ then some _ else none) = _ at heffect
      split at heffect
      · cases heffect
        exact hrest
      · cases heffect

theorem sound_dupOf (t : Ty) (types : List Ty) :
    Sound p declared (.dupOf t.category) (t :: types) (t :: t :: types) := by
  unfold Instr.dupOf
  split
  · next htwo =>
    refine sound_of_effect (fun _ _ _ => rfl) fun q c stack stack' _ hfit heffect => ?_
    cases hfit with
    | cons hv hrest =>
      change (topTwo? (_ :: _)).map _ = _ at heffect
      rw [topTwo?_wide (hv.category htwo)] at heffect
      cases heffect
      exact .cons hv (.cons hv hrest)
  · refine sound_of_effect (fun _ _ _ => rfl) fun q c stack stack' _ hfit heffect => ?_
    cases hfit with
    | cons hv hrest =>
      change (if _ then some _ else none) = _ at heffect
      split at heffect
      · cases heffect
        exact .cons hv (.cons hv hrest)
      · cases heffect

-- ==== narrowing

theorem sound_narrow {target : Narrow} {k : Prim} (hkind : k.stackKind = .num .int)
    (h : ∀ n, k.Holds (target.cut n).toInt) (x : Ty) (types : List Ty) :
    Sound p declared (.narrow target) (x :: types) (.prim k :: types) := by
  refine sound_of_effect (fun _ _ _ => rfl) fun q c stack stack' _ hfit heffect => ?_
  cases hfit with
  | @cons v _ rest _ hv hrest =>
    cases v with
    | int n =>
      cases heffect
      refine .cons (.within ⟨congrArg some hkind, ?_⟩) hrest
      rintro m k' ⟨⟩ ⟨⟩
      exact h n
    | _ => cases heffect

theorem sound_mask (types : List Ty) :
    Sound p declared (.sipush 0xff) types (.prim .uint8 :: types) := by
  refine sound_of_effect (fun _ _ _ => rfl) fun q c stack stack' _ hfit heffect => ?_
  cases heffect
  refine .cons (.within ⟨rfl, ?_⟩) hfit
  rintro n k hn ⟨⟩ low high ⟨⟩
  cases hn
  decide

/-- What is masked with a number of eight bits has eight bits. -/
theorem sound_and_mask (x : Ty) (types : List Ty) :
    Sound p declared (.binary .and .int) (.prim .uint8 :: x :: types) (.prim .uint8 :: types) := by
  refine sound_of_effect (fun _ _ _ => rfl) fun q c stack stack' _ hfit heffect => ?_
  cases hfit with
  | @cons v _ _ _ hv hfit =>
    cases hfit with
    | @cons w _ _ _ _ hrest =>
      cases v with
      | int b =>
        cases w with
        | int a =>
          cases heffect
          have hmask := (hv.within_of_kind rfl).range b .uint8 rfl rfl 0 255 rfl
          have hand := toInt_and_le a b hmask.1
          refine .cons (.within ⟨rfl, ?_⟩) hrest
          rintro n k ⟨⟩ ⟨⟩ low high ⟨⟩
          exact ⟨hand.1, Int.le_trans hand.2 hmask.2⟩
        | _ => cases heffect
      | _ => cases heffect

-- ==== slots

theorem sound_loadSlot {kind : StackKind} (ht : t.stackKind? = some kind)
    (hsame : ∀ k k', declared slot = some (.prim k) → t = .prim k' → k' = k) (types : List Ty) :
    Sound p declared (.loadSlot kind slot) types (t :: types) := by
  intro q c s out _ hfit hkept hout
  change (do
    let v ← s.locals (SlotForm.of slot).slot
    if v.kind = kind then some (Outcome.next { s with stack := v :: s.stack })
    else none) = _ at hout
  rw [SlotForm.slot_of] at hout
  obtain ⟨v, hv, hout⟩ := Option.bind_eq_some_iff.mp hout
  split at hout
  · next hkind =>
    cases hout
    refine ⟨_, rfl, .cons ?_ hfit, hkept⟩
    obtain ⟨d, hd, hwithin⟩ := hkept slot v hv
    subst hkind
    cases t with
    | top => cases ht
    | prim k' =>
      have hkind := hwithin.kind
      cases d with
      | prim k =>
        cases hsame k k' hd rfl
        exact .within hwithin
      | top => cases hkind
      | _ => cases Option.some_inj.mp (hkind.trans ht.symm)
    | _ => exact .reference (Value.eq_reference (Option.some_inj.mp ht).symm) rfl
  · cases hout

/-- Slots keep their types if a value of its type is stored in one. -/
theorem Kept.put {locals : Nat → Option Value} (h : Kept declared locals)
    (hslot : declared slot = some t) (hv : v.Within t) :
    Kept declared (putLocal Value.category locals slot v) := by
  intro k w hw
  unfold putLocal at hw
  split at hw
  · next hk =>
    cases hw
    exact ⟨t, hk ▸ hslot, hv⟩
  · split at hw
    · cases hw
    · split at hw
      · cases hw
      · exact h k w hw

theorem sound_storeSlot {kind : StackKind} {d : Ty} (hslot : declared slot = some d)
    (hkind : d.stackKind? = some kind) (ht : ∀ k, d = .prim k → t = d) (types : List Ty) :
    Sound p declared (.storeSlot kind slot) (t :: types) types := by
  intro q c s out _ hfit hkept hout
  obtain ⟨stack, locals⟩ := s
  cases hfit with
  | @cons v _ rest _ hv hrest =>
    change (if v.kind = kind then some (Outcome.next ⟨rest,
      putLocal Value.category locals (SlotForm.of slot).slot v⟩) else none) = _ at hout
    rw [SlotForm.slot_of] at hout
    split at hout
    · next hv' =>
      cases hout
      subst hv'
      refine ⟨_, rfl, hrest, hkept.put hslot ?_⟩
      cases d with
      | top => cases hkind
      | prim k =>
        cases ht k rfl
        exact hv.within_of_kind hkind
      | _ =>
        rw [Value.eq_reference (Option.some_inj.mp hkind).symm]
        exact Value.within_reference rfl
    · cases hout

-- ==== objects

/-- Pushing a reference. -/
theorem sound_reference (hi : i = .constNull ∨ ∃ index, i = .newObject index)
    (ht : t.category = 1) (types : List Ty) : Sound p declared i types (t :: types) := by
  have hexec : ∀ q c s, exec q c i s
      = (effect? q c i s.stack).map fun stack => .next { s with stack } := by
    rcases hi with rfl | ⟨index, rfl⟩ <;> exact fun _ _ _ => rfl
  refine sound_of_effect hexec fun q c stack stack' _ hfit heffect => ?_
  have hstack : stack' = .reference :: stack := by
    rcases hi with rfl | ⟨index, rfl⟩ <;>
    · cases heffect
      rfl
  subst hstack
  exact .cons (.reference rfl ht) hfit

theorem sound_construct (index : Nat) (x : Ty) (types : List Ty) :
    Sound p declared (.invokeSpecial index) (x :: types) types := by
  refine sound_of_effect (fun _ _ _ => rfl) fun q c stack stack' _ hfit heffect => ?_
  obtain ⟨m, -, heffect⟩ := Option.bind_eq_some_iff.mp heffect
  cases hfit with
  | @cons v _ rest _ _ hrest =>
    cases v with
    | reference =>
      change (if m.descriptor = "()V" then some rest else none) = _ at heffect
      split at heffect
      · cases heffect
        exact hrest
      · cases heffect
    | _ => cases heffect

end Sound

end Machine

end BytecodeBridge
