/-
Narrow variables hold what their kind can hold.

A variable or an argument of a kind narrower than an `int` lives in a slot
that could hold any `int`. Code without handlers that is lowered from
scalar operations never leaves a value there that is out of the range of
the kind (`range_of_run`), whatever is executed and however often, as long
as the arguments are in range at the start.

There are two ways around this, and both are needed to tell what is true.
A branch back to code that is emitted already may bring a wider type on the
stack than the code was written for. The lowering reports that and goes on,
and a store in this code then takes the value as it is (`storesWidened`).
And if classes are declared below a 64-bit number, joining them makes a
value of one slot go by a type of two, and dropping it takes the value
below along.
-/
import BytecodeBridge.Proofs.Lowering.Isolation
import BytecodeBridge.Proofs.Lowering.Scalars

namespace BytecodeBridge.Lowering

open Machine

variable {cx : Context} {s : LowerState}

-- ==== the start

private theorem prepare_keeps {config : Config} {T : TypeTable} {body : Body} {pool : Pool}
    (h : prepare config T body (initial pool body) = .ok cx s) :
    s.pool = pool ∧ ∀ label, ¬ StackChanged label s := by
  obtain ⟨_, _, _, _, -, -, -, rfl⟩ := prepare_parts h
  refine ⟨rfl, ?_⟩
  rintro label ⟨locals, hevent⟩
  simp [initial] at hevent

/-- A lowering starts with nothing on the stack, in the code and in the frame. -/
theorem Started.at (h : Started cx s) (hindexed : s.pool.Indexed)
    (hreports : ∀ label, ¬ StackChanged label s) : At cx.targets ⟨some [], [], []⟩ s := by
  obtain ⟨locals, hframes, hlaid⟩ := h.laidOut
  constructor
  case live => rw [hframes]; rfl
  case reachable => exact h.reachable
  case flow => rw [h.code]; exact fun _ => .start
  case prologue => rw [Neutral, h.code]; exact fun _ _ => .start
  case settled => exact h.settled
  case typed =>
    rw [hframes]
    refine ⟨fun slot k t hk ht => ?_, fun label frame hframe => by cases hframe⟩
    obtain ⟨d, hd, hty⟩ := Option.map_eq_some_iff.mp hk
    obtain ⟨e, he, -, hinitial⟩ := hlaid.exists_argument ht
    cases hd.symm.trans he
    rwa [← hty]
  case indexed => exact hindexed
  case unbound => exact fun _ hl => absurd hl List.not_mem_nil
  case fresh =>
    rw [hframes]
    intro n hn
    simp [FrameStore.isBound, FrameStore.start] at hn
  case reports => exact fun label hl => absurd hl (hreports label)
  case noNull => rw [h.code]; exact List.not_mem_nil

-- ==== the end

/-- Executions of the code that a lowering has emitted keep the types of the slots, unless
they have jumped to a label that has changed behind its code. -/
theorem At.kept {targets : Std.TreeSet Nat} {pt : Point} (h : At targets pt s) {asm : Assembly}
    (hasm : s.code.assemble = .ok asm) {p : Pool} (hpool : s.pool.PartOf p) {start now : State}
    (hstack : start.stack = []) (hstart : Kept s.slots.declaredType? start.locals)
    {jumps : List Nat} {a : Nat} (hrun : Run asm.code p start jumps a now) :
    Kept s.slots.declaredType? now.locals ∨
      ∃ dest ∈ jumps, ∃ o, asm.labels[Label.source o]? = some dest ∧
        StackChanged (.source o) s := by
  by_cases hchanged : ∃ dest ∈ jumps, ∃ o, asm.labels[Label.source o]? = some dest ∧
      StackChanged (.source o) s
  · exact .inr hchanged
  obtain ⟨items, l, hwide, hassembled⟩ := CodeBuffer.assemble_ok hasm
  have hflow := (h.flow (nodup_of_assemble hasm)).append (h.prologue (view s) rfl)
  rw [← s.code.reverse_items] at hflow
  obtain ⟨typesAt, hat, -⟩ :=
    (hflow.widens (List.forall₂_reverse_iff.mpr hwide)).exists_typesAt
  refine .inl (Run.sound hassembled hat hpool hstack hstart hrun
    fun dest hdest label hl hno => ?_).1
  obtain ⟨o, rfl⟩ := h.reports label hno
  exact hchanged ⟨dest, hdest, o, hl, hno⟩

/-- What a lowering leaves and reports when all its parts succeed. -/
theorem lowerMethod_of_parts {config : Config} {T : TypeTable} {body : Body} {pool : Pool}
    {m : Method} {s₁ s₂ s₃ : LowerState}
    (hprepare : prepare config T body (initial pool body) = .ok cx s₁)
    (hlower : lowerAll body.code cx s₁ = .ok () s₂)
    (hfinish : finish body.targetName cx s₂ = .ok m s₃) :
    (lowerMethod config T pool body).pool = s₃.pool ∧
      s₃.events ⊆ (lowerMethod config T pool body).events := by
  have hrun : run config T body (initial pool body) = .ok m s₃ := by
    show EStateM.bind _ _ _ = _
    unfold EStateM.bind
    rw [hprepare]
    show EStateM.bind (lowerAll body.code cx) (fun _ => finish body.targetName cx) s₁ = _
    unfold EStateM.bind
    rw [hlower]
    exact hfinish
  unfold lowerMethod
  rw [hrun]
  exact ⟨rfl, List.subset_cons_self _ _⟩

-- ==== ranges

/-- What a method is entered with: an empty stack, and values of their types in the slots
of arguments. -/
structure Entered (body : Body) (start : State) : Prop where
  stack : start.stack = []
  locals : ∀ slot v, start.locals slot = some v → ∃ i arg,
    (arguments body)[i]? = some arg ∧ slot = argumentSlot body i ∧ v.Within arg.2.1

/-- The slot of an argument or a variable of a type. -/
inductive SlotOf (body : Body) (ty : Ty) : Nat → Prop where
  | arg {i : Nat} {arg : Option String × Ty × Ty} (h : (arguments body)[i]? = some arg)
      (hty : arg.2.1 = ty) : SlotOf body ty (argumentSlot body i)
  | var {i : Nat} {v : Variable} (h : body.locals[i]? = some v) (hty : v.ty = ty) :
      SlotOf body ty (variableSlot body i)

theorem SlotOf.declared {body : Body} {ty : Ty} {slot : Nat} (h : SlotOf body ty slot)
    {locals : SlotMap Ty} {regions : RegionTree} {slots : Slots}
    (hlaid : LaidOut body locals regions slots) : slots.declaredType? slot = some ty := by
  unfold Slots.declaredType?
  cases h with
  | arg h hty =>
    rw [(hlaid.args h).1, Option.map_some, ← hty]
  | var h hty =>
    rw [(hlaid.vars h).2, Option.map_some, ← hty]

theorem Entered.kept {body : Body} {start : State} (h : Entered body start)
    {locals : SlotMap Ty} {regions : RegionTree} {slots : Slots}
    (hlaid : LaidOut body locals regions slots) : Kept slots.declaredType? start.locals := by
  intro slot v hv
  obtain ⟨i, arg, harg, rfl, hwithin⟩ := h.locals slot v hv
  exact ⟨arg.2.1, (SlotOf.arg harg rfl).declared hlaid, hwithin⟩

private theorem exists_int_of_within {k : Prim} {low high : Int}
    (hrange : k.range? = some (low, high)) {v : Value} (h : v.Within (.prim k)) :
    ∃ n, v = .int n ∧ low ≤ n.toInt ∧ n.toInt ≤ high := by
  have hint : k.stackKind = .num .int := by
    cases k <;> first | rfl | cases hrange
  have hkind : v.kind = .num .int := (Option.some_inj.mp h.kind).symm.trans hint
  cases v with
  | int n => exact ⟨n, rfl, h.range n k rfl rfl low high hrange⟩
  | _ => cases hkind

/-- A variable or an argument of a narrow kind holds only values in the range of the kind,
at any time of any execution, unless the execution has jumped to a label that was reported
to have a stack other than the one its code was written for. -/
theorem range_of_run {config : Config} {T : TypeTable} {pool : Pool} {body : Body} {m : Method}
    (hpool : Pool.empty.Grows pool) (hslim : T.Slim) (hhandlers : body.handlers = [])
    (hscalar : ∀ e ∈ body.code, e.2.isScalar = true)
    (h : (lowerMethod config T pool body).result = .ok m) {p : Pool}
    (hp : (lowerMethod config T pool body).pool.PartOf p) {start now : State}
    (hstart : Entered body start) {jumps : List Nat} {a : Nat}
    (hrun : Run m.code p start jumps a now) {k : Prim} {low high : Int}
    (hrange : k.range? = some (low, high)) {slot : Nat} (hslot : SlotOf body (.prim k) slot)
    {v : Value} (hv : now.locals slot = some v) :
    (∃ n, v = .int n ∧ low ≤ n.toInt ∧ n.toInt ≤ high) ∨
      ∃ dest ∈ jumps, ∃ o locals, (o, dest) ∈ m.sourceOffsets ∧
        .frameChanged (.source o) locals true ∈ (lowerMethod config T pool body).events := by
  obtain ⟨cx, s₁, s₂, s₃, hprepare, hlower, hfinish⟩ := run_ok h
  obtain ⟨hlowered, hevents⟩ := lowerMethod_of_parts hprepare hlower hfinish
  obtain ⟨-, rfl, rfl, hstarted⟩ := prepare_ok hprepare
  obtain ⟨hpool₁, hreports⟩ := prepare_keeps hprepare
  obtain ⟨⟨asm, frames, hfinished⟩, hlater, -⟩ := exists_finished hfinish
  obtain ⟨hcode, -⟩ := lowerAll_ok hlower
  -- the code and the frame are in step from the start to the end
  have hat₁ : At cx.targets ⟨some [], [], []⟩ s₁ := by
    refine hstarted.at ?_ hreports
    rw [hpool₁]
    exact (hpool.indexed Pool.indexed_empty).1
  obtain ⟨pt, -, hat₂⟩ := moves_code hslim (hstarted.noRegions hhandlers) hstarted.prepared
    (fun _ he => he) hscalar (ready_same []) s₁ () s₂ hat₁ hcode
  -- what the slots are declared with does not change
  obtain ⟨locals, -, hlaid⟩ := hstarted.laidOut
  obtain ⟨_, hsteps⟩ :=
    codeSteps_of_forM hstarted.prepared (fun _ he => he) hstarted.backed hcode []
  have hdeclared : s₂.slots.declaredType? = s₁.slots.declaredType? :=
    declaredType?_congr hsteps.declared
  have hgrows : s₂.pool.Grows s₃.pool := by
    have hshares : Shares cx (finish cx.body.targetName) := shares_finish _
    have hextends := hshares.adds s₂
    rw [hfinish] at hextends
    exact hextends.pool
  have hpart : s₂.pool.PartOf p := by
    refine (hgrows.indexed hat₂.indexed).2.trans ?_
    rw [← hlowered]
    exact hp
  rw [hfinished.code] at hrun
  have hkept₁ : Kept s₂.slots.declaredType? start.locals := by
    rw [hdeclared]
    exact hstart.kept hlaid
  rcases hat₂.kept hfinished.assembled hpart hstart.stack hkept₁ hrun with hkept | hchanged
  · obtain ⟨t, ht, hwithin⟩ := hkept slot v hv
    rw [hdeclared, hslot.declared hlaid] at ht
    cases ht
    exact .inl (exists_int_of_within hrange hwithin)
  · obtain ⟨dest, hdest, o, hlabel, locals, hevent⟩ := hchanged
    refine .inr ⟨dest, hdest, o, locals, ?_, hevents (hlater hevent)⟩
    rw [hfinished.sourceOffsets]
    exact mem_sourceOffsets_iff.mpr hlabel

-- ==== examples

/-- Counts a variable of one byte up, until it is zero. -/
def countsUp : Body where
  owner := .ref "Count"
  name := "up"
  kind := .static
  params := [⟨none, .prim .int32⟩]
  locals := [⟨none, .prim .int8⟩]
  returns := none
  code := [(0, .loadArg 0), (1, .storeLocal 0), (2, .loadLocal 0), (3, .loadInt32 1),
    (4, .arithmetic .add), (5, .storeLocal 0), (6, .loadLocal 0), (7, .branchIf true 2), (8, .ret)]
  handlers := []

private theorem preview_countsUp :
    preview {} (.ofConfig {}) countsUp
      = some [(0, .load (.num .int) (.short 0)), (1, .narrow .byte),
          (2, .store (.num .int) (.short 1)), (3, .load (.num .int) (.short 1)),
          (4, .const .int 1), (5, .binary .add .int), (6, .narrow .byte),
          (7, .store (.num .int) (.short 1)), (8, .load (.num .int) (.short 1)),
          (9, .ifZero .ne (-6)), (12, .returnVoid)] := by
  cbv

/-- An invocation of a method with values for its arguments, the first of them in slot 0. -/
def entry (values : List Value) : State where
  locals slot := values[slot]?

/-- The byte is counted up from 127, which gives -128, and control goes back. -/
theorem range_of_run_countsUp :
    ∃ m now, (lowerMethod {} (.ofConfig {}) .empty countsUp).result = .ok m ∧
      Run m.code (lowerMethod {} (.ofConfig {}) .empty countsUp).pool (entry [.int 127]) [3] 3 now ∧
      now.locals 1 = some (.int (-128)) ∧
      ((∃ n, Value.int (-128) = .int n ∧ -128 ≤ n.toInt ∧ n.toInt ≤ 127) ∨
        ∃ dest ∈ [3], ∃ o locals, (o, dest) ∈ m.sourceOffsets ∧
          .frameChanged (.source o) locals true
            ∈ (lowerMethod {} (.ofConfig {}) .empty countsUp).events) := by
  obtain ⟨m, hm, hcode⟩ := exists_of_preview preview_countsUp
  have hentered : Entered countsUp (entry [.int 127]) := by
    refine ⟨rfl, fun slot v hv => ?_⟩
    match slot, hv with
    | 0, rfl => exact ⟨0, _, rfl, rfl, Value.within_of_kind (k := .int32) rfl rfl⟩
  obtain ⟨now, hrun, hnow⟩ : ∃ now, Run m.code
      (lowerMethod {} (.ofConfig {}) .empty countsUp).pool (entry [.int 127]) [3] 3 now ∧
      now.locals 1 = some (.int (-128)) :=
    exists_run_of_advance? (c := ⟨0, .eq, true⟩) (n := 10) (by rw [hcode]; rfl)
  have hslot : SlotOf countsUp (.prim .int8) 1 := .var (i := 0) rfl rfl
  exact ⟨m, now, hm, hrun, hnow, range_of_run .refl (TypeTable.slim_of_classes (by decide)) rfl
    (by decide) hm (.refl _) hentered hrun rfl hslot hnow⟩

/-- Stores a byte, and goes back to the store with an `int` on the stack. -/
def storesWidened : Body where
  owner := .ref "Store"
  name := "again"
  kind := .static
  params := [⟨none, .prim .int8⟩, ⟨none, .prim .int32⟩]
  locals := [⟨none, .prim .int8⟩]
  returns := none
  code := [(0, .loadArg 0), (1, .storeLocal 0), (2, .loadInt32 1000), (3, .loadArg 1),
    (4, .branchIf true 1), (5, .pop), (6, .ret)]
  handlers := []

private theorem preview_storesWidened :
    preview {} (.ofConfig {}) storesWidened
      = some [(0, .load (.num .int) (.short 0)), (1, .store (.num .int) (.short 2)),
          (2, .sipush 1000), (5, .load (.num .int) (.short 1)), (6, .ifZero .ne (-5)), (9, .pop),
          (10, .returnVoid)] := by
  cbv

/-- Code that is reached again with a wider type than it was written for stores the value
as it is, out of the range of the variable. -/
theorem out_of_range_storesWidened :
    ∃ m now, (lowerMethod {} (.ofConfig {}) .empty storesWidened).result = .ok m ∧
      storesWidened.handlers = [] ∧ (∀ e ∈ storesWidened.code, e.2.isScalar = true) ∧
      Entered storesWidened (entry [.int 0, .int 1]) ∧
      Run m.code (lowerMethod {} (.ofConfig {}) .empty storesWidened).pool
        (entry [.int 0, .int 1]) [1] 2 now ∧
      SlotOf storesWidened (.prim .int8) 2 ∧ now.locals 2 = some (.int 1000) := by
  obtain ⟨m, hm, hcode⟩ := exists_of_preview preview_storesWidened
  have hentered : Entered storesWidened (entry [.int 0, .int 1]) := by
    refine ⟨rfl, fun slot v hv => ?_⟩
    match slot, hv with
    | 0, rfl =>
      refine ⟨0, _, rfl, rfl, rfl, ?_⟩
      rintro n k ⟨⟩ ⟨⟩ low high ⟨⟩
      decide
    | 1, rfl => exact ⟨1, _, rfl, rfl, Value.within_of_kind (k := .int32) rfl rfl⟩
  obtain ⟨now, hrun, hnow⟩ : ∃ now, Run m.code
      (lowerMethod {} (.ofConfig {}) .empty storesWidened).pool (entry [.int 0, .int 1]) [1] 2 now ∧
      now.locals 2 = some (.int 1000) :=
    exists_run_of_advance? (c := ⟨0, .eq, true⟩) (n := 6) (by rw [hcode]; rfl)
  exact ⟨m, now, hm, rfl, by decide, hentered, hrun, .var (i := 0) rfl rfl, hnow⟩

end BytecodeBridge.Lowering
