/-
What the operands of instructions name in the constant pool.

An instruction with a pool index needs a constant of a certain kind there
(`Need`), and so do the classes of a stack map and of an exception table.
`Pool.Holds` says that the pool has such a constant. In a pool that was
grown from the empty one that stays so, with one and the same constant,
whatever is added later (`Pool.Holds.mono`).

The computations that hand out indices do so for constants they have just
put in (`Serves`).
-/
import BytecodeBridge.Method
import BytecodeBridge.Proofs.Code.Path
import BytecodeBridge.Proofs.Pool

namespace BytecodeBridge

-- ==== needs

/-- What an index has to name. -/
inductive Need where
  | classRef
  | field
  | method
  | interfaceMethod
  /-- a method of a class or of an interface -/
  | anyMethod
  /-- a constant that a load of one slot pushes -/
  | single
  /-- a constant that a load of two slots pushes -/
  | double
  /-- a call site, for which the pool has no constants -/
  | callSite
deriving DecidableEq, Repr

/-- Whether the constant is what is needed. -/
def Need.admits : Need → Constant → Bool
  | classRef, .classRef _ => true
  | field, .fieldRef _ _ => true
  | method, .methodRef _ _ => true
  | interfaceMethod, .interfaceMethodRef _ _ => true
  | anyMethod, .methodRef _ _ | anyMethod, .interfaceMethodRef _ _ => true
  | single, .integer _ | single, .float _ | single, .stringRef _ => true
  | double, .long _ | double, .double _ => true
  | _, _ => false

/-- The pool index of an instruction, and what it has to name. -/
def Instr.operand? : Instr → Option (Need × Nat)
  | .invokeVirtual i => some (.method, i)
  | .invokeInterface i _ => some (.interfaceMethod, i)
  | .invokeStatic i | .invokeSpecial i => some (.anyMethod, i)
  | .invokeDynamic i => some (.callSite, i)
  | .getField i | .putField i | .getStatic i | .putStatic i => some (.field, i)
  | .newObject i | .checkCast i | .instanceOf i | .newRefArray i | .multiNewArray i _ =>
    some (.classRef, i)
  | .ldc i | .ldcW i => some (.single, i)
  | .ldc2W i => some (.double, i)
  | _ => none

/-- The pool index of a verifier's type. -/
def VType.operand? : VType → Option (Need × Nat)
  | .object i => some (.classRef, i)
  | _ => none

def StackMapEntry.operands (e : StackMapEntry) : List (Need × Nat) :=
  (e.locals ++ e.stack).filterMap VType.operand?

/-- All pool indices of a method: in its code, its stack map and its exception table. -/
def Method.operands (m : Method) : List (Need × Nat) :=
  m.code.filterMap (fun e => e.2.operand?) ++ m.stackMap.flatMap StackMapEntry.operands
    ++ m.exceptions.map fun e => (.classRef, e.catchType)

namespace Pool

/-- The index names what is needed. -/
def Holds (p : Pool) (need : Need) (i : Nat) : Prop :=
  ∃ c, p.get? i = some c ∧ need.admits c = true

theorem Holds.mono {p q : Pool} {need : Need} {i : Nat} (h : p.Holds need i) (hpq : p.PartOf q) :
    q.Holds need i := by
  obtain ⟨c, hc, hadmits⟩ := h
  exact ⟨c, hpq i c hc, hadmits⟩

theorem Holds.anyMethod {p : Pool} {onInterface : Bool} {i : Nat}
    (h : p.Holds (if onInterface then .interfaceMethod else .method) i) : p.Holds .anyMethod i := by
  obtain ⟨c, hc, hadmits⟩ := h
  refine ⟨c, hc, ?_⟩
  cases onInterface <;> cases c <;> first | rfl | cases hadmits

/-- Every index among the operands names what is needed. -/
def HoldsAll (p : Pool) (operands : List (Need × Nat)) : Prop :=
  ∀ o ∈ operands, p.Holds o.1 o.2

theorem HoldsAll.mono {p q : Pool} {operands : List (Need × Nat)} (h : p.HoldsAll operands)
    (hpq : p.PartOf q) : q.HoldsAll operands :=
  fun o ho => (h o ho).mono hpq

end Pool

-- ==== instructions

namespace Instr

/-- The operand of the instruction names what it needs. -/
def Resolved (p : Pool) (i : Instr) : Prop :=
  ∀ o ∈ i.operand?, p.Holds o.1 o.2

theorem Resolved.mono {p q : Pool} {i : Instr} (h : i.Resolved p) (hpq : p.PartOf q) :
    i.Resolved q :=
  fun o ho => (h o ho).mono hpq

theorem resolved_of_none {p : Pool} {i : Instr} (h : i.operand? = none) : i.Resolved p := by
  intro o ho
  rw [h] at ho
  cases ho

theorem resolved_of_some {p : Pool} {i : Instr} {need : Need} {index : Nat}
    (h : i.operand? = some (need, index)) (hholds : p.Holds need index) : i.Resolved p := by
  intro o ho
  rw [h] at ho
  cases ho
  exact hholds

theorem operand?_ldcOf (index : Nat) : (ldcOf index).operand? = some (.single, index) := by
  rcases ldcOf_eq index with h | h <;> exact h ▸ rfl

private theorem operand?_of_offsets {i : Instr} (h : i.offsets ≠ []) : i.operand? = none := by
  cases i <;> first | rfl | exact absurd rfl h

theorem plain_of_operand? {i : Instr} {o : Need × Nat} (h : i.operand? = some o) : i.Plain := by
  cases i <;> first | exact ⟨rfl, rfl, rfl⟩ | cases h

/-- An instruction that neither transfers control nor names a slot or an index. -/
def isBare (i : Instr) : Bool :=
  i.offsets.isEmpty && !i.isUnconditional && i.slot?.isNone && i.operand?.isNone

theorem of_isBare {i : Instr} (h : i.isBare = true) : i.Plain ∧ i.operand? = none := by
  simp only [isBare, Bool.and_eq_true, List.isEmpty_iff, Bool.not_eq_true',
    Option.isNone_iff_eq_none] at h
  obtain ⟨⟨⟨hoffsets, hcontinues⟩, hslot⟩, hoperand⟩ := h
  exact ⟨⟨hoffsets, hcontinues, hslot⟩, hoperand⟩

theorem isBare_popOf (category : Nat) : (popOf category).isBare = true := by
  unfold popOf
  split <;> rfl

theorem isBare_dupOf (category : Nat) : (dupOf category).isBare = true := by
  unfold dupOf
  split <;> rfl

end Instr

-- ==== handing out indices

/-- A computation only adds to the pool, its results are as said in the pool it
leaves. -/
structure Serves {α : Type} (x : PoolM α) (M : α → Pool → Prop) :
    Prop where
  growing : Growing x
  serves : ∀ p a q, p.Indexed → x p = .ok a q → M a q

namespace Serves

variable {α β : Type} {x : PoolM α} {M : α → Pool → Prop}

variable {f : α → PoolM β} {N : β → Pool → Prop}

theorem pure {a : α} (h : ∀ p, M a p) : Serves (pure a : PoolM α) M where
  growing := .pure a
  serves p b q _ hrun := by
    cases hrun
    exact h _

theorem lift (y : Except Cause α) : Serves (liftM y : PoolM α) fun _ _ => True :=
  ⟨.lift y, fun _ _ _ _ _ => trivial⟩

theorem bind (hx : Serves x M) (hf : ∀ a, Serves (f a) fun b q => ∀ p, p.PartOf q → M a p → N b q) :
    Serves (x >>= f) N where
  growing := hx.growing.bind fun a => (hf a).growing
  serves p b r hp hrun := by
    obtain ⟨a, q, ha, hb⟩ := state_bind_ok hrun
    have hq : q.Indexed := ((Pool.grows_of_ok hx.growing ha).indexed hp).1
    have hpart : q.PartOf r := ((Pool.grows_of_ok (hf a).growing hb).indexed hq).2
    exact (hf a).serves q b r hq hb q hpart (hx.serves p a q hp ha)

theorem last (hx : Serves x M) (hf : ∀ a, Serves (f a) N) : Serves (x >>= f) N :=
  hx.bind fun a => ⟨(hf a).growing, fun p b q hp hrun _ _ _ => (hf a).serves p b q hp hrun⟩

/-- Results along a list, where what is said of one goes on to hold. -/
theorem mapM {l : List α} (hmono : ∀ b {p q : Pool}, p.PartOf q → N b p → N b q)
    (h : ∀ a ∈ l, Serves (f a) N) :
    Serves (l.mapM f) fun bs q => ∀ b ∈ bs, N b q := by
  induction l with
  | nil =>
    rw [List.mapM_nil]
    exact pure fun _ => nofun
  | cons a l ih =>
    rw [List.mapM_cons]
    refine bind (h a (.head _)) fun b => ?_
    refine bind (ih fun a' ha' => h a' (.tail _ ha')) fun bs => pure ?_
    intro r q hq hbs p hp hb
    refine List.forall_mem_cons.mpr ⟨hmono b hp hb, fun c hc => hmono c hq (hbs c hc)⟩

end Serves

namespace Pool

theorem serves_constant (c : Constant) : Serves (intern c) fun i q => q.get? i = some c where
  growing := growing_intern c
  serves _ _ q hp hrun := get?_of_intern hp hrun (.refl q)

theorem serves_intern {c : Constant} {need : Need} (h : need.admits c = true) :
    Serves (intern c) fun i q => q.Holds need i :=
  have hc := serves_constant c
  ⟨hc.growing, fun p i q hp hrun => ⟨c, hc.serves p i q hp hrun, h⟩⟩

theorem serves_classRef (name : String) :
    Serves (classRef name) fun i q => q.Holds .classRef i :=
  .last (serves_constant _) fun _ => serves_intern rfl

theorem serves_stringRef (text : String) :
    Serves (stringRef text) fun i q => q.Holds .single i :=
  .last (serves_constant _) fun _ => serves_intern rfl

/-- A member of a class, by the constant that its owner and its name make up. -/
theorem serves_member (member : Nat → Nat → Constant) {need : Need}
    (h : ∀ c nt, need.admits (member c nt) = true) (owner name descriptor : String) :
    Serves (do
      let c ← classRef owner
      let nt ← nameAndType name descriptor
      intern (member c nt)) fun i q => q.Holds need i := by
  have hnamed : Serves (nameAndType name descriptor) fun _ _ => True :=
    .last (serves_constant _) fun _ => .last (serves_constant _) fun _ =>
      ⟨growing_intern _, fun _ _ _ _ _ => trivial⟩
  exact .last (serves_classRef owner) fun c => .last hnamed fun nt => serves_intern (h c nt)

theorem serves_methodRef (owner name descriptor : String) (onInterface : Bool) :
    Serves (methodRef owner name descriptor onInterface) fun i q =>
      q.Holds (if onInterface then .interfaceMethod else .method) i := by
  refine serves_member (fun c nt =>
    if onInterface then .interfaceMethodRef c nt else .methodRef c nt) ?_ owner name descriptor
  intro c nt
  cases onInterface <;> rfl

/-- A method, by an index that serves such calls as its owner allows. -/
theorem serves_callee (owner name descriptor : String) (onInterface : Bool) :
    Serves (methodRef owner name descriptor onInterface) fun i q =>
      q.Holds .anyMethod i ∧ (onInterface = true → q.Holds .interfaceMethod i) ∧
        (onInterface ≠ true → q.Holds .method i) := by
  have h : Serves _ _ := serves_methodRef owner name descriptor onInterface
  refine ⟨h.growing, fun p i q hp hrun => ?_⟩
  have hi := h.serves p i q hp hrun
  refine ⟨hi.anyMethod, fun hface => ?_, fun hface => ?_⟩
  · rwa [if_pos hface] at hi
  · rwa [if_neg hface] at hi

end Pool

open Pool

namespace Instr

/-- The code for a constant loads what was put in the pool for it. -/
theorem Chooses.serves {k : NumKind} {act : PoolM Instr} (h : Chooses k act) :
    Serves act fun i q => i.Resolved q := by
  cases h with
  | const | bipush | sipush => exact .pure fun _ => resolved_of_none rfl
  | integer | float =>
    exact (serves_intern rfl).bind fun i => .pure fun _ _ hpart hholds =>
      resolved_of_some (operand?_ldcOf i) (hholds.mono hpart)
  | long | double =>
    exact (serves_intern rfl).bind fun _ => .pure fun _ _ hpart hholds =>
      resolved_of_some rfl (hholds.mono hpart)

end Instr

-- ==== stack-map entries

/-- The class of the verifier's type is there. -/
def VType.Resolved (p : Pool) (v : VType) : Prop :=
  ∀ o ∈ v.operand?, p.Holds o.1 o.2

theorem VType.Resolved.mono {p q : Pool} {v : VType} (h : v.Resolved p) (hpq : p.PartOf q) :
    v.Resolved q :=
  fun o ho => (h o ho).mono hpq

theorem VType.serves_ofTy (T : TypeTable) (t : Ty) :
    Serves (VType.ofTy T t) fun v q => v.Resolved q := by
  have hnumber : ∀ (k : NumKind) (p : Pool), (ofNumKind k).Resolved p := by
    intro k p
    cases k <;> exact nofun
  unfold VType.ofTy
  split
  · exact .pure fun _ => nofun
  · exact .pure fun _ => nofun
  · exact .pure fun _ => nofun
  · exact .pure fun p => hnumber _ p
  · refine .last (.lift _) fun name =>
      (serves_classRef name).bind fun i => .pure ?_
    intro q p hpart hholds o ho
    cases ho
    exact hholds.mono hpart

theorem StackMapEntry.serves_layoutFrom (T : TypeTable) (entries : List (Nat × Ty)) (start : Nat) :
    Serves (layoutFrom T start entries) fun vs q => ∀ v ∈ vs, v.Resolved q := by
  induction entries generalizing start with
  | nil => exact .pure fun _ _ hv => absurd hv List.not_mem_nil
  | cons e entries ih =>
    obtain ⟨slot, t⟩ := e
    unfold layoutFrom
    split
    · exact ih start
    · refine (VType.serves_ofTy T t).bind fun v => (ih _).bind fun vs => .pure ?_
      intro r q hq hvs p hp hv
      refine List.forall_mem_append.mpr ⟨fun u hu => ?_, ?_⟩
      · rw [(List.mem_replicate.mp hu).2]
        intro o ho
        cases ho
      · exact List.forall_mem_cons.mpr ⟨hv.mono hp, fun u hu => (hvs u hu).mono hq⟩

theorem StackMapEntry.serves_ofFrame (T : TypeTable) (offset : Nat) (frame : Frame) :
    Serves (ofFrame T offset frame) fun e q => q.HoldsAll e.operands := by
  have hentry : Serves (do
      let locals ← layoutFrom T 0 frame.locals.entries
      let stack ← frame.stack.reverse.mapM (VType.ofTy T)
      return { offset, locals, stack : StackMapEntry }) fun e q => q.HoldsAll e.operands := by
    refine (serves_layoutFrom T _ 0).bind fun locals => ?_
    refine (Serves.mapM (fun _ _ _ hpart hv => hv.mono hpart)
      fun t _ => VType.serves_ofTy T t).bind fun stack => .pure ?_
    intro r q hq hstack p hp hlocals o ho
    obtain ⟨v, hv, ho⟩ := List.mem_filterMap.mp ho
    rcases List.mem_append.mp hv with hv | hv
    · exact ((hlocals v hv).mono hp) o ho
    · exact ((hstack v hv).mono hq) o ho
  unfold ofFrame
  split
  · refine ⟨(Growing.throw _).bind fun _ => hentry.growing, fun p a q _ hrun => ?_⟩
    cases hrun
  · exact hentry

-- ==== items

/-- The operand of the item's instruction names what it needs. -/
def Item.Resolved (p : Pool) : Item → Prop
  | .instr i | .branch i _ => i.Resolved p
  | .bind _ | .table _ _ _ => True

theorem Item.Resolved.mono {p q : Pool} {item : Item} (h : item.Resolved p) (hpq : p.PartOf q) :
    item.Resolved q := by
  cases item with
  | instr i | branch i target => exact Instr.Resolved.mono h hpq
  | bind label | table low targets default => trivial

theorem Item.Resolved.widens {p : Pool} {a b : Item} (h : a.Resolved p) (hwide : Item.Widens a b) :
    b.Resolved p := by
  cases hwide with
  | same => exact h
  | wide => exact Instr.resolved_of_none rfl

/-- A patched instruction has the operand that the item has. -/
theorem Item.Resolved.patch {p : Pool} {item : Item} (h : item.Resolved p) {l : Layout} {a : Nat}
    {i : Instr} (hpatch : l.patch a item = .ok (some i)) : i.Resolved p := by
  cases item with
  | instr j =>
    cases hpatch
    exact h
  | bind label => cases except_pure_ok hpatch
  | branch j target =>
    obtain ⟨_, _, hpatch⟩ := except_bind_ok hpatch
    obtain ⟨_, hoffset, hpatch⟩ := except_bind_ok hpatch
    cases except_pure_ok hpatch
    refine Instr.resolved_of_none (Instr.operand?_of_offsets ?_)
    rw [Instr.offsets_of_withOffset hoffset]
    exact List.cons_ne_nil _ _
  | table low targets default =>
    obtain ⟨_, _, hpatch⟩ := except_bind_ok hpatch
    obtain ⟨_, _, hpatch⟩ := except_bind_ok hpatch
    cases hpatch
    exact Instr.resolved_of_none rfl

/-- All operands of code under construction name what they need. -/
structure CodeBuffer.Resolved (p : Pool) (b : CodeBuffer) : Prop where
  prologue : ∀ i ∈ b.prologue, i.Resolved p
  body : ∀ item ∈ b.body, item.Resolved p

namespace CodeBuffer.Resolved

variable {p q : Pool} {b : CodeBuffer}

theorem empty : ({} : CodeBuffer).Resolved p :=
  ⟨by simp, by simp⟩

theorem mono (h : b.Resolved p) (hpq : p.PartOf q) : b.Resolved q :=
  ⟨fun i hi => (h.prologue i hi).mono hpq, fun item hitem => (h.body item hitem).mono hpq⟩

theorem push (h : b.Resolved p) (item : Item) (hitem : item.Resolved p) :
    (b.push item).Resolved p :=
  ⟨h.prologue, List.forall_mem_cons.mpr ⟨hitem, h.body⟩⟩

theorem emitPrologue {instrs : List Instr} (h : b.Resolved p)
    (hinstrs : ∀ i ∈ instrs, i.Resolved p) :
    (instrs.foldl CodeBuffer.emitPrologue b).Resolved p := by
  induction instrs generalizing b with
  | nil => exact h
  | cons i instrs ih =>
    obtain ⟨hi, hinstrs⟩ := List.forall_mem_cons.mp hinstrs
    exact ih ⟨List.forall_mem_cons.mpr ⟨hi, h.prologue⟩, h.body⟩ hinstrs

theorem retract {i : Instr} {passable : Label → Bool} {b' : CodeBuffer} (h : b.Resolved p)
    (hretract : b.retract? i passable = some b') : b'.Resolved p := by
  obtain ⟨body, hbody, rfl⟩ := Option.map_eq_some_iff.mp hretract
  exact ⟨h.prologue, fun item hitem => h.body item (CodeBuffer.mem_of_retractFrom hbody hitem)⟩

theorem items (h : b.Resolved p) : ∀ item ∈ b.items, item.Resolved p := by
  refine List.forall_mem_append.mpr ⟨fun item hitem => ?_, fun item hitem => ?_⟩
  · obtain ⟨i, hi, rfl⟩ := List.mem_map.mp hitem
    exact h.prologue i (List.mem_reverse.mp hi)
  · exact h.body item (List.mem_reverse.mp hitem)

theorem assemble (h : b.Resolved p) {asm : Assembly} (hasm : b.assemble = .ok asm) :
    ∀ e ∈ asm.code, e.2.Resolved p := by
  obtain ⟨items, l, hwide, hassembled⟩ := CodeBuffer.assemble_ok hasm
  intro e he
  obtain ⟨pre, item, post, rfl, -, hpatch⟩ := (hassembled.code e.1 e.2).mp he
  obtain ⟨item', hitem', hwidens⟩ :=
    forall₂_mem_right hwide (List.mem_append_right pre List.mem_cons_self)
  exact ((h.items item' hitem').widens hwidens).patch hpatch

end CodeBuffer.Resolved

end BytecodeBridge
