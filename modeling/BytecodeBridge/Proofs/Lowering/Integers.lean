/-
What the code of an operation on integers does.

Each operation is followed through its lowering: the numbers it leaves on
the stack are those that the source has there, and the live frame has
types that they are of. A comparison is the only one that makes a choice.
It pushes the outcome on each of two paths, which meet again in the frame
that both of them leave.
-/
import BytecodeBridge.Proofs.Lowering.Meaning

namespace BytecodeBridge.Lowering

open LowerM Machine Source FrameStore
open Source (Number)

variable {cx : Context} {start cells stack : List Number} {live : List Ty}

-- ==== results

/-- A moment at which the stack holds what was to come out, and the cells are as they were. -/
def Results (cells : List Number) (out : Option (List Number)) (q : Moment) : Prop :=
  ∃ ys types, out = some ys ∧ List.Forall₂ Number.IsOf ys types ∧ q = ⟨cells, ys, types⟩

section Operations

variable {out : Option (List Number)} {rest : List Number} {types : List Ty}

variable {z x y : Number} {k : Prim} {op : Arith}

theorem means_popNumber (h : List.Forall₂ Number.IsOf stack live) :
    Means cx start ⟨cells, stack, live⟩ popKind fun r q => ∃ x rest types, stack = x :: rest ∧
      x.IsOf r.1 ∧ r.2 = .num x.kind ∧ List.Forall₂ Number.IsOf rest types ∧
        q = ⟨cells, stack, types⟩ := by
  refine tracks_popKind.weaken ?_
  rintro ⟨ty, kind⟩ _ ⟨types, rfl, hkind, rfl⟩
  cases h with
  | @cons x _ rest _ hx hrest =>
    exact ⟨x, rest, types, rfl, hx, hx.kind_eq hkind, hrest, rfl⟩

theorem means_result (hout : out = some (z :: rest)) (hz : z.IsOf (.prim k))
    (hrest : List.Forall₂ Number.IsOf rest types) :
    Means cx start ⟨cells, z :: rest, types⟩ (pushNew (.prim k)) fun _ => Results cells out :=
  (tracks_pushNew _).moves fun _ => ⟨_, _, hout, .cons hz hrest, rfl⟩

theorem isOf_prim_of_kind {k : NumKind} (h : z.kind = k) : z.IsOf (.prim k.prim) :=
  h ▸ z.isOf_prim

-- ==== arithmetic

theorem means_unary (hop : op.isUnary = true) (h : List.Forall₂ Number.IsOf stack live) :
    Means cx start ⟨cells, stack, live⟩ (unary op) fun _ =>
      Results cells (effect? (.arithmetic op) stack) := by
  refine .bind (means_popNumber h) ?_
  rintro ⟨ty, kind⟩ _ ⟨x, rest, types, rfl, -, rfl, hrest, rfl⟩
  cases op with
  | neg =>
    obtain ⟨z, hz, hkind, hturns⟩ := turns_neg x
    refine (means_emit fun p => hturns p rest).bind fun _ => ?_
    refine means_result ?_ (isOf_prim_of_kind hkind) hrest
    show (x.unary? .neg).map _ = _
    rw [hz]
    rfl
  | not =>
    cases x with
    | int x =>
      refine (means_emit fun p => turns_const (-1) _).bind fun _ => ?_
      refine (means_emit fun p => turns_xor_ones_int x).bind fun _ => ?_
      refine (tracks_noteDepth 2).bind fun _ => ?_
      exact means_result rfl rfl hrest
    | long x =>
      refine means_emitOf_bind id (Instr.chooses_longConstant _).growing
        (fun p i p' hp hi => turns_longConstant hp hi _) ?_
      refine (means_emit fun p => turns_xor_ones_long x).bind fun _ => ?_
      refine (tracks_noteDepth 4).bind fun _ => ?_
      exact means_result rfl rfl hrest
  | _ => cases hop

theorem effect?_of_binary (hop : op.isUnary = false) (h : x.binary? op y = some z) :
    effect? (.arithmetic op) (y :: x :: rest) = some (z :: rest) := by
  show (if op.isUnary = true then (y.unary? op).map _ else (x.binary? op y).map _) = _
  rw [hop, h]
  rfl

theorem means_shift (hop : op.isUnary = false) (a b : Ty)
    (hrest : List.Forall₂ Number.IsOf rest types) :
    Means cx start ⟨cells, y :: x :: rest, types⟩ (shift op a b (.num x.kind) (.num y.kind))
      fun _ => Results cells (effect? (.arithmetic op) (y :: x :: rest)) := by
  cases hshift : shiftOp? op with
  | none =>
    unfold shift
    rw [hshift]
    exact .throw
  | some i =>
    cases y with
    | long d =>
      unfold shift
      rw [hshift]
      cases x <;> exact .throw
    | int d =>
      obtain ⟨z, hz, hkind, hturns⟩ := turns_shift (x := x) (y := .int d) hshift rfl
      have hsteps : Means cx start ⟨cells, .int d :: x :: rest, types⟩
          (emit (.binary i x.kind) >>= fun _ => pushNew (.prim x.kind.prim)) fun _ =>
            Results cells (effect? (.arithmetic op) (.int d :: x :: rest)) := by
        refine (means_emit fun p => hturns p rest).bind fun _ => ?_
        exact means_result (effect?_of_binary hop hz) (isOf_prim_of_kind hkind) hrest
      unfold shift
      rw [hshift]
      cases x <;> exact hsteps

theorem means_binary (hop : op.isUnary = false) (htotal : op.isTotal = true) (a b : Ty)
    (hrest : List.Forall₂ Number.IsOf rest types) :
    Means cx start ⟨cells, y :: x :: rest, types⟩ (binary op a b (.num x.kind) (.num y.kind))
      fun _ => Results cells (effect? (.arithmetic op) (y :: x :: rest)) := by
  unfold binary
  by_cases heq : StackKind.num x.kind = StackKind.num y.kind
  · rw [if_pos heq]
    have hkind : y.kind = x.kind := (StackKind.num.inj heq).symm
    dsimp only
    split
    · next i hform =>
      obtain ⟨z, hz, hz', hturns⟩ := turns_binary htotal hform hkind
      refine (means_emit fun p => hturns p rest).bind fun _ => ?_
      exact means_result (effect?_of_binary hop hz) (isOf_prim_of_kind hz') hrest
    · next m hform =>
      -- the operations that are calls may fail
      cases x <;> cases op <;> cases htotal <;> cases hform
    · exact .throw_bind
  · rw [if_neg heq]
    exact .throw_bind

theorem means_arithmetic (htotal : op.isTotal = true) (h : List.Forall₂ Number.IsOf stack live) :
    Means cx start ⟨cells, stack, live⟩ (arithmetic op) fun _ =>
      Results cells (effect? (.arithmetic op) stack) := by
  unfold arithmetic
  split
  · next hop => exact means_unary hop h
  · next hop =>
    have hop := Bool.eq_false_iff.mpr hop
    refine .bind (means_popNumber h) ?_
    rintro ⟨b, _⟩ _ ⟨y, rest, types, rfl, -, rfl, hrest, rfl⟩
    -- the second operand is popped off the frame below the first, which the code still has
    refine .bind tracks_popKind ?_
    rintro ⟨a, _⟩ _ ⟨types', rfl, hkind, rfl⟩
    cases hrest with
    | @cons x _ rest _ hx hrest =>
      cases hx.kind_eq hkind
      dsimp only
      split
      · exact means_shift hop a b hrest
      · exact means_binary hop htotal a b hrest

-- ==== conversions

/-- A 32-bit number is cut down to a kind, and the kind is recorded. -/
theorem means_narrow_result (hk : k.isIntegral = true) (hint : k.numKind = .int) (x : BitVec 32)
    (hrest : List.Forall₂ Number.IsOf rest types) :
    Means cx start ⟨cells, .int x :: rest, types⟩ (narrow k >>= fun _ => pushNew (.prim k))
      fun _ => Results cells (((Number.int x).cut? k).map (· :: rest)) := by
  refine .bind (means_narrow hk hint) ?_
  rintro _ _ ⟨y, hy, rfl⟩
  have hof : y.IsOf (.prim k) :=
    Number.isOf_of_store? (show (Number.int x).store? (.prim k) = some y from hy)
  refine means_result ?_ hof hrest
  rw [hy]
  rfl

theorem means_convert (hk : k.isIntegral = true) (h : List.Forall₂ Number.IsOf stack live) :
    Means cx start ⟨cells, stack, live⟩ (convert k false) fun _ =>
      Results cells (effect? (.convert k false) stack) := by
  refine .bind (means_popNumber h) ?_
  rintro ⟨ty, _⟩ _ ⟨x, rest, types, rfl, -, rfl, hrest, rfl⟩
  cases x with
  | int x =>
    cases k
    case int64 =>
      refine (means_emit fun p => turns_extend x).bind fun _ => ?_
      exact means_result rfl rfl hrest
    case uint64 =>
      refine (means_emit fun p => turns_extend x).bind fun _ => ?_
      refine means_emitOf_bind id (Instr.chooses_longConstant _).growing
        (fun p i p' hp hi => turns_longConstant hp hi _) ?_
      refine (means_emit fun p => turns_unsign x).bind fun _ => ?_
      refine (tracks_noteDepth 4).bind fun _ => ?_
      exact means_result rfl rfl hrest
    all_goals cases hk
    all_goals exact means_narrow_result rfl rfl x hrest
  | long x =>
    cases k
    case int64 => exact means_result rfl rfl hrest
    case uint64 => exact means_result rfl rfl hrest
    all_goals cases hk
    all_goals
      refine (means_emit fun p => turns_truncate x).bind fun _ => ?_
      exact means_narrow_result rfl rfl _ hrest

-- ==== constants, the stack

theorem means_loadInt32 (offset : Nat) (n : Int32) (h : List.Forall₂ Number.IsOf stack live) :
    Means cx start ⟨cells, stack, live⟩ (lowerOp offset (.loadInt32 n)) fun _ =>
      Results cells (effect? (.loadInt32 n) stack) :=
  means_emitOf_bind id (Instr.chooses_intConstant n).growing
    (fun _ _ _ hp hi => turns_intConstant hp hi _) (means_result rfl rfl h)

theorem means_loadInt64 (offset : Nat) (n : Int64) (h : List.Forall₂ Number.IsOf stack live) :
    Means cx start ⟨cells, stack, live⟩ (lowerOp offset (.loadInt64 n)) fun _ =>
      Results cells (effect? (.loadInt64 n) stack) :=
  means_emitOf_bind id (Instr.chooses_longConstant n).growing
    (fun _ _ _ hp hi => turns_longConstant hp hi _) (means_result rfl rfl h)

theorem category_of_isOf {ty : Ty} (h : x.IsOf ty) :
    ty.category = x.kind.category := by
  rw [← category_toValue h]
  cases x <;> rfl

theorem means_dup (offset : Nat) (h : List.Forall₂ Number.IsOf stack live) :
    Means cx start ⟨cells, stack, live⟩ (lowerOp offset .dup) fun _ =>
      Results cells (effect? .dup stack) := by
  refine .bind tracks_peek ?_
  rintro ty _ ⟨types, rfl, rfl⟩
  cases h with
  | @cons x _ rest _ hx hrest =>
    rw [category_of_isOf hx]
    refine (means_emit fun p => turns_dupOf).bind fun _ => ?_
    exact (tracks_push ty).moves fun _ => ⟨_, _, rfl, .cons hx (.cons hx hrest), rfl⟩

theorem means_dropTop (h : List.Forall₂ Number.IsOf stack live) :
    Means cx start ⟨cells, stack, live⟩ dropTop fun _ =>
      Results cells (effect? .pop stack) := by
  refine .bind tracks_pop ?_
  rintro ty _ ⟨types, rfl, rfl⟩
  cases h with
  | @cons x _ rest _ hx hrest =>
    rw [category_of_isOf hx]
    exact (means_emit fun p => (replaces_popOf x).turns rest).moves fun _ => ⟨_, _, rfl, hrest, rfl⟩

-- ==== comparisons

/-- What an instruction that makes a test finds on the stack. -/
structure Tests (test : Instr) (way : Comparison) (unsigned : Bool) (stack ys : List Number)
    (rest : List Number) (taken : Bool) : Prop where
  decides : Machine.Decides test ys taken rest
  conditional : test.isUnconditional = false
  source : effect? (.compare way unsigned) stack =
    some (.int (if taken then 1 else 0) :: rest)

theorem compareBits_of_not_byCall {way : Comparison} {unsigned : Bool}
    (h : (unsigned && way.isRelational) = false) {w : Nat} (x y : BitVec w) :
    compareBits way false x y = compareBits way unsigned x y := by
  rcases Bool.and_eq_false_iff.mp h with rfl | h
  · rfl
  · exact compareBits_of_isRelational h false unsigned x y

theorem means_comparison {way : Comparison} {unsigned : Bool}
    (h : List.Forall₂ Number.IsOf stack live) :
    Means cx start ⟨cells, stack, live⟩ (comparison way unsigned) fun test q =>
      ∃ ys rest types taken, Tests test way unsigned stack ys rest taken ∧
        List.Forall₂ Number.IsOf rest types ∧ q = ⟨cells, ys, types⟩ := by
  refine .bind (means_popNumber h) ?_
  rintro ⟨b, _⟩ _ ⟨y, rest, types, rfl, -, rfl, hrest, rfl⟩
  refine .bind tracks_popKind ?_
  rintro ⟨a, _⟩ _ ⟨types', rfl, hkind, rfl⟩
  cases hrest with
  | @cons x _ rest _ hx hrest =>
  cases hx.kind_eq hkind
  by_cases heq : StackKind.num x.kind = StackKind.num y.kind
  case neg =>
    dsimp only
    rw [if_neg heq]
    exact .throw_bind
  dsimp only
  rw [if_pos heq]
  cases hcall : unsigned && way.isRelational with
  | true =>
    obtain ⟨rfl, -⟩ := Bool.and_eq_true_iff.mp hcall
    cases x with
    | int x =>
      cases y with
      | long y => cases heq
      | int y =>
        refine (means_emitOf .invokeStatic (Pool.growing_methodRef _ _ _ _)
          fun p i p' hp hi => (replaces_compareUnsigned_int x y fun r hr =>
            Pool.method?_of_methodRef hp hi hr).turns rest).bind fun _ => ?_
        exact .pure ⟨_, rest, types', _,
          ⟨decides_sign 0 (holds_sign_unsigned_int way x y), rfl, rfl⟩, hrest, rfl⟩
    | long x =>
      cases y with
      | int y => cases heq
      | long y =>
        refine (means_emitOf .invokeStatic (Pool.growing_methodRef _ _ _ _)
          fun p i p' hp hi => (replaces_compareUnsigned_long x y fun r hr =>
            Pool.method?_of_methodRef hp hi hr).turns rest).bind fun _ => ?_
        exact .pure ⟨_, rest, types', _,
          ⟨decides_sign 0 (holds_sign_unsigned_long way x y), rfl, rfl⟩, hrest, rfl⟩
  | false =>
    cases x with
    | int x =>
      cases y with
      | long y => cases heq
      | int y =>
        have htest : Machine.Decides (.ifInt way 0) (.int y :: .int x :: rest)
            (compareBits way unsigned x y) rest := by
          rw [← compareBits_of_not_byCall hcall]
          exact decides_ifInt way 0 x y
        exact .pure ⟨_, rest, types', _, ⟨htest, rfl, rfl⟩, hrest, rfl⟩
    | long x =>
      cases y with
      | int y => cases heq
      | long y =>
        refine (means_emit fun p => (replaces_lcmp x y).turns rest).bind fun _ => ?_
        have hsign := holds_sign_long way x y
        rw [compareBits_of_not_byCall hcall] at hsign
        exact .pure ⟨_, rest, types', _, ⟨decides_sign 0 hsign, rfl, rfl⟩, hrest, rfl⟩

end Operations

variable {s : LowerState} {label : Label} {a : Unit} {r : Recorded} {test : Instr}

-- ==== answers

/-- A frame whose locals are cells has them at their declared types. -/
private theorem widen_of_inCells {body : Body} {slots : Slots} {frame : Frame} (T : TypeTable)
    (hcells : Cells body slots) (h : InCells body frame.locals) : widen T slots frame = frame := by
  have hlocals : (widen T slots frame).locals = frame.locals := by
    refine SlotMap.ext fun k => ?_
    unfold widen
    rw [SlotMap.get?_map]
    cases hk : frame.locals.get? k with
    | none => rfl
    | some t =>
      obtain ⟨j, ht, rfl⟩ := h hk
      obtain ⟨name, hd⟩ := hcells.declared ht
      have hty : slots.declaredType? (cellSlot body j) = some t := by
        unfold Slots.declaredType?
        rw [hd]
        rfl
      simp only [Option.map_some, hty, ite_self]
  exact congrArg (Frame.mk frame.stack) hlocals

/-- What saving the live frame comes to, in a frame that has its declared types. -/
theorem save_eq (label : Label) (hwiden : widen cx.types s.slots s.frames.live = s.frames.live) :
    save label cx s
      = ((liftM (s.frames.save cx.types label s.frames.live true false).2 : LowerM Saved)
        >>= settleSaved label) cx { s with
          frames := (s.frames.save cx.types label s.frames.live true false).1
          made := (s.frames.saveMakes cx.types label s.frames.live).reverse ++ s.made } := by
  show saveFrame label (widen cx.types s.slots s.frames.live) cx s = _
  rw [hwiden]
  rfl

/-- Saving at a label that has no frame records the live one. -/
private theorem save_of_fresh {t : LowerState} (hrun : save label cx s = .ok a t)
    (hfresh : s.frames.has label = false) (hdeferred : s.frames.deferred = [])
    (hwiden : widen cx.types s.slots s.frames.live = s.frames.live) :
    t = { s with
      frames := { s.frames with
        recorded := s.frames.recorded.insert label ⟨s.frames.live, true⟩ } } := by
  have hpromote : s.frames.promote label = s.frames := by
    unfold promote
    rw [hfresh, hdeferred]
    rfl
  have hnone : s.frames.recorded[label]? = none := by
    rw [has_eq_isSome] at hfresh
    exact Option.not_isSome_iff_eq_none.mp (Bool.eq_false_iff.mp hfresh)
  have hsave : s.frames.save cx.types label s.frames.live true false
      = ({ s.frames with recorded := s.frames.recorded.insert label ⟨s.frames.live, true⟩ },
        .ok .recorded) := by
    unfold FrameStore.save
    dsimp only
    rw [hpromote, hnone]
  have hmakes : s.frames.saveMakes cx.types label s.frames.live = [] := by
    unfold saveMakes
    rw [hpromote, hnone]
  rw [save_eq label hwiden, hsave, hmakes] at hrun
  cases hrun
  rfl

/-- Saving the frame that a label has changes nothing that counts. -/
private theorem save_of_same (hsame : s.frames.recorded[label]? = some ⟨s.frames.live, true⟩)
    (hmerge : s.frames.live.merge cx.types s.frames.live = .ok s.frames.live)
    (hwiden : widen cx.types s.slots s.frames.live = s.frames.live) :
    ∃ made, save label cx s = .ok () { s with
      frames := { s.frames with
        recorded := s.frames.recorded.insert label ⟨s.frames.live, true⟩ }
      made } := by
  have hhas : s.frames.has label = true := by
    rw [has_eq_isSome, hsame]
    rfl
  have hpromote : s.frames.promote label = s.frames := by
    unfold promote
    rw [hhas]
    rfl
  have hsave : s.frames.save cx.types label s.frames.live true false
      = ({ s.frames with recorded := s.frames.recorded.insert label ⟨s.frames.live, true⟩ },
        .ok .unchanged) := by
    unfold FrameStore.save
    dsimp only
    rw [hpromote, hsame]
    dsimp only
    rw [if_neg Bool.false_ne_true, hmerge]
    dsimp only
    rw [if_pos rfl]
    rfl
  rw [save_eq label hwiden, hsave]
  exact ⟨_, rfl⟩

theorem loadFrame_eq (h : s.frames.recorded[label]? = some r) :
    loadFrame label cx s = .ok () { s with frames := { s.frames with live := r.frame } } := by
  have hload : s.frames.load label = .ok { s.frames with live := r.frame } := by
    unfold FrameStore.load recorded?
    rw [h]
    rfl
  show ((liftM (s.frames.load label) : LowerM FrameStore) >>= setFrames) cx s = _
  rw [hload]
  rfl

/-- A label that only a branch reaches starts from the frame it has. -/
private theorem bindLabel_of_jump (h : s.frames.recorded[label]? = some r)
    (hreachable : s.reachable = false) :
    bindLabel label cx s
      = bindHere label cx { s with frames := { s.frames with live := r.frame } } := by
  have hhas : s.frames.has label = true := by
    rw [has_eq_isSome, h]
    rfl
  have hbind : bindLabel label cx s = (loadFrame label >>= fun _ => bindHere label) cx s := by
    change (if s.frames.has label = true then _ else _ : LowerM Unit) cx s = _
    rw [if_pos hhas, if_neg (Bool.eq_false_iff.mp hreachable)]
  rw [hbind]
  show EStateM.bind (loadFrame label cx) _ s = _
  unfold EStateM.bind
  rw [loadFrame_eq h]

/-- A label whose frame is the one that control reaches it with. -/
private theorem bindLabel_of_same {t : LowerState} (hrun : bindLabel label cx s = .ok a t)
    (hreachable : s.reachable = true)
    (hsame : s.frames.recorded[label]? = some ⟨s.frames.live, true⟩)
    (hmerge : s.frames.live.merge cx.types s.frames.live = .ok s.frames.live)
    (hwiden : widen cx.types s.slots s.frames.live = s.frames.live) :
    ∃ made, t = { s with
      frames := { s.frames with
        recorded := s.frames.recorded.insert label ⟨s.frames.live, true⟩
        bound := s.frames.bound.insert label }
      code := s.code.bind label
      reachable := true
      made } := by
  have hhas : s.frames.has label = true := by
    rw [has_eq_isSome, hsame]
    rfl
  have hbind : bindLabel label cx s
      = (save label >>= fun _ => loadFrame label >>= fun _ => bindHere label) cx s := by
    change (if s.frames.has label = true then _ else _ : LowerM Unit) cx s = _
    rw [if_pos hhas, if_pos hreachable]
  rw [hbind] at hrun
  obtain ⟨_, u, hsave, hrun⟩ := lower_bind_ok hrun
  obtain ⟨made, hsaved⟩ := save_of_same hsame hmerge hwiden
  cases hsaved.symm.trans hsave
  obtain ⟨_, v, hload, hrun⟩ := lower_bind_ok hrun
  rw [loadFrame_eq Std.TreeMap.getElem?_insert_self] at hload
  cases hload
  cases hrun
  exact ⟨made, rfl⟩

private theorem has_insert {m : LabelMap Recorded} {l : Label}
    (h : (m.insert label r).contains l = true) : l = label ∨ m.contains l = true := by
  rw [Std.TreeMap.contains_insert, Bool.or_eq_true] at h
  simp only [Std.LawfulEqCmp.compare_eq_iff_eq, beq_iff_eq] at h
  exact h.imp_left Eq.symm

/-- The code of an answer. -/
def answerCode (test : Instr) (n : Nat) : List Item :=
  [Item.branch test (.synthetic n)] ++ [Item.instr (.const .int 0)]
    ++ [Item.branch (.goto 0) (.synthetic (n + 1))] ++ [Item.bind (.synthetic n)]
    ++ [Item.instr (.const .int 1)] ++ [Item.bind (.synthetic (n + 1))]

/-- Pushes 1 if a test holds and 0 otherwise. -/
def answer (test : Instr) : LowerM Unit := do
  let yes ← freshLabel
  let done ← freshLabel
  let int ← make (.prim .int32)
  branchTo test yes
  emit (.const .int 0)
  push int
  jump done
  bindLabel yes
  emit (.const .int 1)
  push int
  bindLabel done

theorem compare_eq_answer (way : Comparison) (unsigned : Bool) :
    compare way unsigned = comparison way unsigned >>= answer :=
  rfl

/-- A state after an answer: both paths have left the frame that follows. -/
structure Answered (test : Instr) (s s' : LowerState) : Prop where
  live : s'.frames.live = { s.frames.live with stack := .prim .int32 :: s.frames.live.stack }
  deferred : s'.frames.deferred = s.frames.deferred
  labels : ∀ l, s'.frames.has l = true → s.frames.has l = true ∨ l = .synthetic s.nextLabel ∨
    l = .synthetic (s.nextLabel + 1)
  reachable : s'.reachable = true
  slots : s'.slots = s.slots
  pool : s'.pool = s.pool
  next : s'.nextLabel = s.nextLabel + 2
  prologue : s'.code.prologue = s.code.prologue
  code : s'.code.body = (answerCode test s.nextLabel).reverse ++ s.code.body

private theorem answered_of_answer {body : Body} {q : Moment} {s' : LowerState}
    (h : Now body start q s) (hrun : answer test cx s = .ok a s') : Answered test s s' := by
  have hfresh : ∀ m, s.nextLabel ≤ m → s.frames.has (.synthetic m) = false := by
    intro m hm
    refine Bool.eq_false_iff.mpr fun hhas => ?_
    obtain ⟨k, hk, hlt⟩ := h.labels _ hhas
    cases hk
    omega
  have hwiden : ∀ stack, widen cx.types s.slots { s.frames.live with stack }
      = { s.frames.live with stack } := fun stack => widen_of_inCells _ h.cells h.typed
  have htop : ∀ k t, s.frames.live.locals.get? k = some t → t.isTop = false := by
    intro k t hk
    obtain ⟨j, ht, -⟩ := h.typed hk
    obtain ⟨x, -, hx⟩ := forall₂_getElem?_left h.holds.flip ht
    cases t with
    | prim _ => rfl
    | _ => cases hx
  have hdeferred := h.deferred
  clear h
  obtain ⟨_, s₁, hyes, hrun⟩ := lower_bind_ok hrun
  cases hyes
  obtain ⟨_, s₂, hdone, hrun⟩ := lower_bind_ok hrun
  cases hdone
  obtain ⟨_, s₃, hmake, hrun⟩ := lower_bind_ok hrun
  cases hmake
  -- the branch leaves the frame that the outcome is still to come to
  obtain ⟨_, s₄, hbranch, hrun⟩ := lower_bind_ok hrun
  obtain ⟨_, t, hsave, hbranch⟩ := lower_bind_ok hbranch
  cases save_of_fresh hsave (hfresh _ (Nat.le_refl _)) hdeferred (hwiden _)
  cases hbranch
  -- the path on which the test fails
  obtain ⟨_, s₅, hzero, hrun⟩ := lower_bind_ok hrun
  cases hzero
  obtain ⟨_, s₆, hpush, hrun⟩ := lower_bind_ok hrun
  cases hpush
  obtain ⟨_, s₇, hjump, hrun⟩ := lower_bind_ok hrun
  obtain ⟨_, t, hbranch, hend⟩ := lower_bind_ok hjump
  obtain ⟨_, u, hsave, hbranch⟩ := lower_bind_ok hbranch
  have hnew : (s.frames.recorded.insert (.synthetic s.nextLabel) ⟨s.frames.live, true⟩).contains
      (.synthetic (s.nextLabel + 1)) = false := by
    refine Bool.eq_false_iff.mpr fun hhas => ?_
    rcases has_insert hhas with heq | hhas
    · have := Label.synthetic.inj heq
      omega
    · exact Bool.eq_false_iff.mp (hfresh _ (Nat.le_succ _)) hhas
  cases save_of_fresh hsave hnew hdeferred (hwiden _)
  cases hbranch
  cases hend
  -- the path on which it holds starts from the frame that the branch left
  obtain ⟨_, s₈, hbind, hrun⟩ := lower_bind_ok hrun
  have hyes : ((s.frames.recorded.insert (.synthetic s.nextLabel) ⟨s.frames.live, true⟩).insert
      (.synthetic (s.nextLabel + 1))
      ⟨{ s.frames.live with stack := .prim .int32 :: s.frames.live.stack }, true⟩)[Label.synthetic
        s.nextLabel]? = some ⟨s.frames.live, true⟩ := by
    rw [Std.TreeMap.getElem?_insert, if_neg, Std.TreeMap.getElem?_insert_self]
    rw [Std.LawfulEqCmp.compare_eq_iff_eq]
    intro heq
    have := Label.synthetic.inj heq
    omega
  rw [bindLabel_of_jump hyes rfl] at hbind
  cases hbind
  obtain ⟨_, s₉, hone, hrun⟩ := lower_bind_ok hrun
  cases hone
  obtain ⟨_, s₁₀, hpush, hrun⟩ := lower_bind_ok hrun
  cases hpush
  have hdone : ((s.frames.recorded.insert (.synthetic s.nextLabel) ⟨s.frames.live, true⟩).insert
      (.synthetic (s.nextLabel + 1))
      ⟨{ s.frames.live with stack := .prim .int32 :: s.frames.live.stack }, true⟩)[Label.synthetic
        (s.nextLabel + 1)]? = some ⟨{ s.frames.live with
          stack := .prim .int32 :: s.frames.live.stack }, true⟩ :=
    Std.TreeMap.getElem?_insert_self
  obtain ⟨made, rfl⟩ := bindLabel_of_same hrun rfl hdone (Frame.merge_self _ htop) (hwiden _)
  refine ⟨rfl, rfl, fun l hl => ?_, rfl, rfl, rfl, rfl, rfl, rfl⟩
  rcases has_insert hl with rfl | hl
  · exact .inr (.inr rfl)
  · rcases has_insert hl with rfl | hl
    · exact .inr (.inr rfl)
    · rcases has_insert hl with rfl | hl
      · exact .inr (.inl rfl)
      · exact .inl hl

private theorem carries_answerCode {p : Pool} {ys rest : List Number} {taken : Bool}
    (hdecides : Machine.Decides test ys taken rest) (hcond : test.isUnconditional = false) (n : Nat)
    (locals : Nat → Option Value) :
    Carries p (answerCode test n) ⟨values ys, locals⟩
      ⟨values (.int (if taken then 1 else 0) :: rest), locals⟩ := by
  refine .choose hcond hdecides (fun htaken => ?_) fun htaken => ?_
  · subst htaken
    exact .instr fun r c hpart => turns_const 0 rest r c locals hpart
  · subst htaken
    exact .instr fun r c hpart => turns_const 1 rest r c locals hpart

theorem means_answer {ys rest : List Number} {types : List Ty} {taken : Bool}
    (hdecides : Machine.Decides test ys taken rest) (hcond : test.isUnconditional = false) :
    Brings cx start ⟨cells, ys, types⟩ (answer test)
      ⟨cells, .int (if taken then 1 else 0) :: rest, .prim .int32 :: types⟩ := by
  intro s a s' hnow hrun
  have h := answered_of_answer hnow hrun
  have hlocals : s'.frames.live.locals = s.frames.live.locals := by
    rw [h.live]
  refine ⟨?_, h.reachable, ?_, ?_, ?_, fun {j} hj => ?_, fun {j t} ht hunset => ?_, hnow.holds,
    fun label hlabel => ?_, h.deferred.trans hnow.deferred, ?_, ?_⟩
  · rw [h.live]
    exact congrArg (_ :: ·) hnow.live
  · rw [h.pool]
    exact hnow.indexed
  · rw [h.slots]
    exact hnow.cells
  · rw [hlocals]
    exact hnow.typed
  · rw [hlocals]
    exact hnow.args hj
  · rw [hlocals] at hunset
    exact hnow.unset ht hunset
  · rw [h.next]
    rcases h.labels label hlabel with hlabel | rfl | rfl
    · obtain ⟨n, rfl, hlt⟩ := hnow.labels label hlabel
      exact ⟨n, rfl, by omega⟩
    · exact ⟨_, rfl, by omega⟩
    · exact ⟨_, rfl, by omega⟩
  · unfold Zeroes
    rw [h.pool, h.prologue, h.slots]
    exact hnow.front
  · refine hnow.code.carry (answerCode test s.nextLabel) ?_ h.code ?_
      fun zeroed locals _ hagree => ?_
    · rw [h.pool]
      exact .refl _
    · rw [h.slots]
      exact fun _ hslot => hslot
    · refine ⟨locals, carries_answerCode hdecides hcond _ _, ?_⟩
      unfold Reliable
      rw [hlocals]
      exact hagree

theorem means_compare {way : Comparison} {unsigned : Bool}
    (h : List.Forall₂ Number.IsOf stack live) :
    Means cx start ⟨cells, stack, live⟩ (compare way unsigned) fun _ =>
      Results cells (effect? (.compare way unsigned) stack) := by
  rw [compare_eq_answer]
  refine .bind (means_comparison h) ?_
  rintro test _ ⟨ys, rest, types, taken, htests, hrest, rfl⟩
  refine (means_answer htests.decides htests.conditional).moves fun _ => ?_
  refine ⟨_, _, htests.source, .cons ?_ hrest, rfl⟩
  exact Number.isOf_prim _

-- ==== operations

/-- A moment as the source has it. -/
def Moment.source (body : Body) (q : Moment) : Source.State where
  stack := q.stack
  args := q.cells.take body.params.length
  vars := q.cells.drop body.params.length

/-- The numbers on the stack are of the types that the live frame has for them. -/
def Moment.Ready (q : Moment) : Prop :=
  List.Forall₂ Number.IsOf q.stack q.live

/-- An operation leads from one moment to another, as it does in the source. -/
def Moment.Follows (body : Body) (op : Op) (q q' : Moment) : Prop :=
  exec body op (q.source body) = some (q'.source body) ∧ q'.Ready

section Straight

variable {op : Op} {q q' : Moment} {i j : Nat}

theorem Results.follows
    (hexec : ∀ s, exec cx.body op s
      = (effect? op s.stack).map fun stack => { s with stack })
    (h : Results q.cells (effect? op q.stack) q') : q.Follows cx.body op q' := by
  obtain ⟨ys, types, hout, hready, rfl⟩ := h
  refine ⟨?_, hready⟩
  rw [hexec]
  show (effect? op q.stack).map _ = _
  rw [hout]
  rfl

/-- What works on a slot that is looked up works on its cell. -/
theorem means_slot {find : Slots → Except Cause Nat} {f : Nat → LowerM Unit} {n : Nat}
    {Q : Unit → Moment → Prop}
    (hfind : ∀ {slots slot}, Cells cx.body slots → find slots = .ok slot →
      i < n ∧ slot = cellSlot cx.body j)
    (h : i < n → Means cx start q (f (cellSlot cx.body j)) Q) :
    Means cx start q (do f (← find (← get).slots)) Q := by
  refine Gives.bind Gives.get fun s₀ => ?_
  refine Gives.bind Gives.lift fun slot => Gives.of_fact fun hslot => ?_
  rintro s a s' ⟨rfl, hnow⟩ hrun
  obtain ⟨hi, rfl⟩ := hfind hnow.cells hslot
  exact h hi s₀ a s' hnow hrun

private theorem exists_paramType (hbody : cx.body.Straight) (hi : i < cx.body.params.length) :
    ∃ v, cx.body.params[i]? = some v ∧ (cellTypes cx.body)[i]? = some v.ty ∧
      v.ty.isIntegral = true := by
  have hv := List.getElem?_eq_getElem hi
  exact ⟨_, hv, getElem?_cellTypes_param hv, hbody.params _ (List.mem_of_getElem? hv)⟩

private theorem exists_localType (hbody : cx.body.Straight) (hi : i < cx.body.locals.length) :
    ∃ v, cx.body.locals[i]? = some v ∧
      (cellTypes cx.body)[cx.body.params.length + i]? = some v.ty ∧ v.ty.isIntegral = true := by
  have hv := List.getElem?_eq_getElem hi
  exact ⟨_, hv, getElem?_cellTypes_local hv, hbody.locals _ (List.mem_of_getElem? hv)⟩

theorem means_store {t : Ty} (hregions : cx.regions.regions = [])
    (ht : (cellTypes cx.body)[j]? = some t) (hint : t.isIntegral = true) (hready : q.Ready) :
    Means cx start q (storeDeclared (cellSlot cx.body j)) fun _ q' => ∃ x rest y,
      q.stack = x :: rest ∧
      x.store? t = some y ∧ q'.stack = rest ∧ q'.cells = q.cells.set j y ∧ q'.Ready := by
  obtain ⟨cells, stack, live⟩ := q
  cases hready with
  | nil =>
    refine .bind tracks_pop ?_
    rintro _ _ ⟨_, hnil, -⟩
    cases hnil
  | @cons x u rest types hx hrest =>
    refine (means_storeDeclared hregions ht hint hx).weaken ?_
    rintro _ _ ⟨y, hy, rfl⟩
    exact ⟨x, rest, y, rfl, hy, rfl, rfl, hrest⟩

/-- Every operation on integers does what it does in the source. -/
theorem means_lowerOp (hbody : cx.body.Straight) (hregions : cx.regions.regions = [])
    (hstart : Starts cx.body start) (hop : op.isIntegral = true) (hready : q.Ready) (offset : Nat) :
    Means cx start q (lowerOp offset op) fun _ q' => q.Follows cx.body op q' := by
  have hstack : (∀ s, exec cx.body op s
      = (effect? op s.stack).map fun stack => { s with stack }) → ∀ {m : LowerM Unit},
      Means cx start q m (fun _ => Results q.cells (effect? op q.stack)) →
        Means cx start q m fun _ q' => q.Follows cx.body op q' :=
    fun hexec _ h => h.weaken fun _ _ => Results.follows hexec
  cases op with
  | nop => exact .pure ⟨rfl, hready⟩
  | loadArg i =>
    refine means_slot (i := i) (fun hcells h => hcells.arg h) fun hi => ?_
    obtain ⟨v, -, ht, hint⟩ := exists_paramType hbody hi
    refine (means_load hstart ht hint).weaken ?_
    rintro _ _ ⟨x, hx, hisOf, rfl⟩
    refine ⟨?_, .cons hisOf hready⟩
    show (q.cells.take _)[i]?.map _ = _
    rw [List.getElem?_take_of_lt hi, hx]
    rfl
  | loadLocal i =>
    refine means_slot (i := i) (fun hcells h => hcells.var h) fun hi => ?_
    obtain ⟨v, -, ht, hint⟩ := exists_localType hbody hi
    refine (means_load hstart ht hint).weaken ?_
    rintro _ _ ⟨x, hx, hisOf, rfl⟩
    refine ⟨?_, .cons hisOf hready⟩
    show (q.cells.drop _)[i]?.map _ = _
    rw [List.getElem?_drop, hx]
    rfl
  | storeArg i =>
    refine means_slot (i := i) (fun hcells h => hcells.arg h) fun hi => ?_
    obtain ⟨v, hv, ht, hint⟩ := exists_paramType hbody hi
    refine (means_store hregions ht hint hready).weaken ?_
    rintro _ q' ⟨x, rest, y, hx, hy, hrest, hcells, hready'⟩
    refine ⟨?_, hready'⟩
    unfold Moment.source
    rw [hrest, hcells, List.take_set, List.drop_set_of_lt hi]
    simp only [Source.exec, hx, hv, hy, Option.bind_eq_bind, Option.bind_some]
  | storeLocal i =>
    refine means_slot (i := i) (fun hcells h => hcells.var h) fun hi => ?_
    obtain ⟨v, hv, ht, hint⟩ := exists_localType hbody hi
    refine (means_store hregions ht hint hready).weaken ?_
    rintro _ q' ⟨x, rest, y, hx, hy, hrest, hcells, hready'⟩
    refine ⟨?_, hready'⟩
    unfold Moment.source
    rw [hrest, hcells, List.take_set_of_le (Nat.le_add_right _ _), List.drop_set,
      if_neg (Nat.not_lt.mpr (Nat.le_add_right _ _)), Nat.add_sub_cancel_left]
    simp only [Source.exec, hx, hv, hy, Option.bind_eq_bind, Option.bind_some]
  | loadInt32 n => exact hstack (fun _ => rfl) (means_loadInt32 offset n hready)
  | loadInt64 n => exact hstack (fun _ => rfl) (means_loadInt64 offset n hready)
  | dup => exact hstack (fun _ => rfl) (means_dup offset hready)
  | pop => exact hstack (fun _ => rfl) (means_dropTop hready)
  | arithmetic op => exact hstack (fun _ => rfl) (means_arithmetic hop hready)
  | convert k checked =>
    cases checked with
    | true => cases hop
    | false => exact hstack (fun _ => rfl) (means_convert hop hready)
  | compare way unsigned => exact hstack (fun _ => rfl) (means_compare hready)
  | _ => cases hop

end Straight

end BytecodeBridge.Lowering
