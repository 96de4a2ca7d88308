/-
Every operation is lowered by steps.

This file goes through the functions that lower operations, in the order
of the files they are defined in, and shows of each that it only takes the
steps of `Step`. Most of it is a matter of following the code. What has to
be argued is where a label of the source is saved to: such a label has to
be a target of some operation, or lie ahead of the operation being
lowered. Branches and leaves go to targets. A handler goes to the clauses
of its region, which start at or behind the place where the handler is
emitted; and a filter that accepts goes to its handler, which lies behind
its condition.

`Prepared` collects what the preparation of a lowering establishes for
this purpose.
-/
import BytecodeBridge.Proofs.Lowering.Logic
import BytecodeBridge.Proofs.Lowering.Sharing
import BytecodeBridge.Proofs.Region.Laminar

namespace BytecodeBridge.Lowering

open LowerM TypeTable

/-- What the preparation of a lowering establishes about what it reads. -/
structure Prepared (cx : Context) : Prop where
  laminar : Laminar cx.regions.regions
  targets : ∀ o op, (o, op) ∈ cx.body.code → ∀ t ∈ op.targets, cx.targets.contains t = true
  /-- what a switch falls through to counts as a target -/
  falls : ∀ o targets next, (o, .switch targets) ∈ cx.body.code →
    cx.body.following o = some next → cx.targets.contains next = true
  leaves : ∀ r ∈ cx.regions.regions, ∀ t ∈ r.leaveTargets, cx.targets.contains t = true

variable {cx : Context} {scope : Scope}

variable {target : Nat} {stack : List Ty}

-- ==== routine

/-- A computation that takes steps in every scope, whatever the state, and that is proper
besides. -/
structure Routine (cx : Context) (H : Prop) (p : Pool) {α : Type} (m : LowerM α)
    (M : α → Pool → Prop) : Prop extends Proper cx H p m M where
  steps : ∀ scope, Runs cx scope m fun _ => True

namespace Routine

variable {H : Prop} {p : Pool} {α β : Type} {x : LowerM α} {f : α → LowerM β} {l : List α}
  {M : α → Pool → Prop} {N : β → Pool → Prop}

/-- From both parts, whatever is known of the result. -/
theorem of {φ : α → Prop} (h : Proper cx H p x M) (hruns : ∀ scope, Runs cx scope x φ) :
    Routine cx H p x M :=
  ⟨h, fun scope => Does.runs (hruns scope)⟩

theorem runs (h : Routine cx False .empty x M) : Runs cx scope x fun _ => True :=
  h.steps scope

theorem bind (hx : Routine cx H p x M)
    (hf : ∀ a q, Routine cx (H ∧ p.PartOf q ∧ M a q) q (f a) N) : Routine cx H p (x >>= f) N :=
  .of (hx.toProper.bind fun a q => (hf a q).toProper) fun scope =>
    .bind (hx.steps scope) fun a _ => (hf a p).steps scope

theorem next (hx : Routine cx H p x M) (hf : ∀ a, Routine cx H p (f a) N) :
    Routine cx H p (x >>= f) N :=
  .of (hx.toProper.next fun a => (hf a).toProper) fun scope =>
    .bind (hx.steps scope) fun a _ => (hf a).steps scope

theorem done {a : α} : Routine cx H p (pure a) Any :=
  ⟨.done, fun _ => .pure trivial⟩

theorem throw {e : Cause} : Routine cx H p (throw e : LowerM α) M :=
  ⟨.throw, fun _ => .throw⟩

theorem throw_bind {e : Cause} : Routine cx H p ((MonadExcept.throw e : LowerM α) >>= f) N :=
  ⟨.throw_bind, fun _ => .throw_bind⟩

theorem get : Routine cx H p get fun s q => s.code.Resolved q :=
  .of .get fun _ => .get

theorem lift (y : Except Cause α) : Routine cx H p (liftM y) Any :=
  .of (Proper.lift y).any fun _ => .lift

theorem read_bind {k : Context → LowerM β}
    (hblind : ∀ T, Alike cx.types T → ∀ handlers, k (recast cx T handlers) = k cx)
    (h : Routine cx H p (k cx) N) : Routine cx H p (read >>= k) N :=
  .of (.read_bind hblind h.toProper) fun scope => .read_bind (h.steps scope)

theorem read_bind_rfl {k : Context → LowerM β}
    (hblind : ∀ T handlers, k (recast cx T handlers) = k cx)
    (h : Routine cx H p (k cx) N) : Routine cx H p (read >>= k) N :=
  read_bind (fun T _ => hblind T) h

theorem discard (h : Routine cx H p x M) : Routine cx H p (discard x) Any :=
  .of h.toProper.discard fun scope => .discard (h.steps scope)

theorem forM {g : α → LowerM Unit} (h : ∀ a ∈ l, Routine cx H p (g a) Any) :
    Routine cx H p (l.forM g) Any :=
  .of (.forM fun a ha => (h a ha).toProper) fun scope =>
    .forM fun a ha => (h a ha).steps scope

theorem mapM (h : ∀ a ∈ l, Routine cx H p (f a) Any) : Routine cx H p (l.mapM f) Any :=
  .of (Proper.mapM (φ := fun _ => True) fun a ha => (h a ha).toProper).any fun scope =>
    .mapM fun a ha => (h a ha).steps scope

theorem onPool {act : PoolM α} (h : Serves act M) : Routine cx H p (onPool act) M :=
  .of (.onPool h) fun _ => runs_onPool_any

end Routine

section Routine

variable {H : Prop} {p : Pool} {i : Instr} {index : Nat} {ty : Ty}

/-- An instruction without operand, behind which the code goes on. -/
theorem routine_emit (h : i.isBare = true) : Routine cx H p (emit i) Any :=
  .of (proper_emit (Instr.of_isBare h).2) fun _ => runs_emit (Instr.of_isBare h).1

/-- An instruction with an index that the pool has for it. -/
theorem routine_use {need : Need} (h : i.operand? = some (need, index))
    (hH : H → p.Holds need index) : Routine cx H p (emit i) Any :=
  .of (proper_use h hH) fun _ => runs_emit (Instr.plain_of_operand? h)

theorem routine_noteDepth (depth : Nat) : Routine cx H p (noteDepth depth) Any :=
  .of (proper_noteDepth depth) fun _ => runs_noteDepth depth

theorem routine_push (ty : Ty) : Routine cx H p (push ty) Any :=
  .of (proper_push ty) fun _ => runs_push ty

theorem routine_make (h : Harmless cx.config ty) : Routine cx H p (make ty) Any :=
  .of (proper_make h) fun _ => runs_make ty

theorem routine_pushNew (h : Harmless cx.config ty) : Routine cx H p (pushNew ty) Any :=
  (routine_make h).next fun _ => routine_push _

theorem routine_pushPrim (k : Prim) : Routine cx H p (pushNew (.prim k)) Any :=
  routine_pushNew (harmless (by nofun))

theorem routine_pop : Routine cx H p pop Any :=
  .of proper_pop fun _ => runs_pop

theorem routine_stackKind (ty : Ty) : Routine cx H p (stackKind ty) Any :=
  .of (proper_stackKind ty) fun _ => runs_stackKind ty

theorem routine_popKind : Routine cx H p popKind Any :=
  .of proper_popKind fun _ => runs_popKind

theorem routine_popReference : Routine cx H p popReference Any := by
  refine routine_popKind.next fun r => ?_
  dsimp only
  split
  · exact .done
  · exact .throw_bind

theorem routine_className (ty : Ty) : Routine cx H p (className ty) Any :=
  .of (proper_className ty) fun _ => runs_className ty

theorem routine_classIndex (ty : Ty) :
    Routine cx H p (classIndex ty) fun i q => q.Holds .classRef i :=
  .of (proper_classIndex ty) fun _ => runs_classIndex ty

theorem routine_coerce (value target : Ty) : Routine cx H p (coerce value target) Any :=
  .of (proper_coerce value target) fun _ => runs_coerce value target

theorem routine_descriptor (ty : Ty) : Routine cx H p (descriptor ty) Any :=
  .read_bind (fun T hT _ => by rw [hT.descriptor]) (.lift _)

theorem routine_methodRef (owner name descriptor : String) :
    Routine cx H p (onPool (Pool.methodRef owner name descriptor false))
      fun i q => q.Holds .method i :=
  .onPool (Pool.serves_methodRef owner name descriptor false)

theorem routine_invokeStatic (m : MethodSpec) : Routine cx H p (invokeStatic m) Any :=
  (routine_methodRef _ _ _).bind fun _ _ => routine_use rfl fun h => holds_anyMethod h.2.2

theorem routine_dropTop : Routine cx H p dropTop Any :=
  routine_pop.next fun _ => routine_emit (Instr.isBare_popOf _)

theorem routine_peek : Routine cx H p peek Any :=
  Routine.get.next fun _ => .lift _

theorem routine_narrow (k : Prim) : Routine cx H p (narrow k) Any :=
  .of (proper_narrow k) fun _ => runs_narrow k

theorem routine_load (slot : Nat) : Routine cx H p (load slot) Any :=
  .of (proper_load slot) fun _ => runs_load slot

-- ==== arithmetic

/-- Behind the code for a constant the code goes on. -/
theorem runs_constant {k : NumKind} {act : PoolM Instr} (h : Instr.Chooses k act) :
    Runs cx scope (onPool act) Instr.Plain := by
  have hplain : Yields (fun _ => True) act fun i _ => i.Plain := by
    cases h with
    | const | bipush | sipush => exact .pure fun _ _ => ⟨rfl, rfl, rfl⟩
    | integer | float => exact .bind .any fun _ => .pure fun _ _ => Instr.plain_ldcOf _
    | long | double => exact .bind .any fun _ => .pure fun _ _ => ⟨rfl, rfl, rfl⟩
  exact runs_onPool fun pool i pool' hact => hplain pool i pool' trivial hact

/-- Code for a constant, with what follows it. -/
theorem routine_constant {k : NumKind} {act : PoolM Instr} (h : Instr.Chooses k act) {β : Type}
    {f : Unit → LowerM β} {N : β → Pool → Prop} (hf : ∀ u, Routine cx H p (f u) N) :
    Routine cx H p (onPool act >>= fun i => emit i >>= f) N := by
  refine ⟨(Proper.onPool h.serves).bind fun i q => ?_, fun scope => ?_⟩
  · refine (proper_emitResolved fun h => h.2.2).next fun u => ?_
    exact (hf u).toProper.later And.left fun h => h.2.1
  · exact Runs.bind (runs_constant h) fun i hi => Runs.bind (runs_emit hi) fun u _ =>
      (hf u).steps scope

/-- A constant for a mask, an operation with it, and the depth that both need. -/
theorem routine_mask (value : Int64) (op : BinOp) (prim : Prim) :
    Routine cx H p (do
      emit (← onPool (Instr.longConstant value))
      emit (.binary op .long)
      noteDepth 4
      pushNew (.prim prim)) Any := by
  refine routine_constant (Instr.chooses_longConstant _) fun _ => ?_
  refine (routine_emit rfl).next fun _ => ?_
  exact (routine_noteDepth _).next fun _ => routine_pushPrim _

theorem routine_unary (op : Arith) : Routine cx H p (unary op) Any := by
  refine routine_popKind.next fun r => ?_
  obtain ⟨ty, kind⟩ := r
  dsimp only
  split
  · exact (routine_emit rfl).next fun _ => routine_pushPrim _
  · refine (routine_emit rfl).next fun _ => ?_
    refine (routine_emit rfl).next fun _ => ?_
    exact (routine_noteDepth _).next fun _ => routine_pushPrim _
  · exact routine_mask _ _ _
  · exact .throw

theorem routine_shift (op : Arith) (a b : Ty) (aKind bKind : StackKind) :
    Routine cx H p (shift op a b aKind bKind) Any := by
  unfold shift
  split
  · exact (routine_emit rfl).next fun _ => routine_pushPrim _
  · exact (routine_emit rfl).next fun _ => routine_pushPrim _
  · exact .throw

theorem routine_binary (op : Arith) (a b : Ty) (aKind bKind : StackKind) :
    Routine cx H p (binary op a b aKind bKind) Any := by
  unfold binary
  dsimp only
  split
  · split
    · split
      · exact (routine_emit rfl).next fun _ => routine_pushPrim _
      · exact (routine_invokeStatic _).next fun _ => routine_pushPrim _
      · exact .throw_bind
    · exact .throw
  · exact .throw_bind

theorem routine_arithmetic (op : Arith) : Routine cx H p (arithmetic op) Any := by
  unfold arithmetic
  split
  · exact routine_unary op
  · refine routine_popKind.next fun r => routine_popKind.next fun q => ?_
    dsimp only
    split
    · exact routine_shift op _ _ _ _
    · exact routine_binary op _ _ _ _

theorem routine_cutDown (target : Prim) (source : NumKind) :
    Routine cx H p (cutDown target source) Any := by
  unfold cutDown
  split
  · exact (routine_narrow target).next fun _ => routine_pushPrim _
  · split
    · exact routine_mask _ _ _
    · exact routine_pushPrim _

theorem routine_convert (target : Prim) (checked : Bool) :
    Routine cx H p (convert target checked) Any := by
  unfold convert
  dsimp only
  split
  · exact (routine_make (harmless (by nofun))).discard.next fun _ => .throw_bind
  · refine routine_popKind.next fun r => ?_
    obtain ⟨ty, kind⟩ := r
    cases kind with
    | num source =>
      dsimp only
      split
      · exact routine_cutDown _ source
      · exact (routine_emit rfl).next fun _ => routine_cutDown _ source
    | reference => exact .throw

-- ==== comparisons

/-- Taking back a `null` is a step of its own. -/
theorem runs_retractNull : Runs cx scope retractNull fun _ => True := by
  refine Does.bind (M := fun cx' _ => cx' = cx) ?_ fun cx' => Does.bind Does.get fun s₀ => ?_
  · exact Runs.read.does
  dsimp only
  split
  · next code hretract =>
    refine .step fun s a s' p _ hP hrun => ?_
    obtain ⟨rfl, rfl⟩ := hP
    cases hrun
    refine ⟨⟨[], .retract ?_⟩, trivial⟩
    rw [← hretract]
    rfl
  · exact .pure fun _ _ => trivial

/-- A comparison ends with the test that its branch takes. -/
theorem runs_comparison (way : Comparison) (unsigned : Bool) :
    Runs cx scope (comparison way unsigned) fun i => i.isConditional = true := by
  refine .bind runs_popKind fun r _ => .bind runs_popKind fun q _ => ?_
  obtain ⟨b, bKind⟩ := r
  obtain ⟨a, aKind⟩ := q
  dsimp only
  split
  · split
    · split
      · exact .bind (routine_invokeStatic _).runs fun _ _ => .pure rfl
      · exact .pure rfl
    · split
      · exact .bind (routine_invokeStatic _).runs fun _ _ => .pure rfl
      · exact .bind (runs_emit ⟨rfl, rfl, rfl⟩) fun _ _ => .pure rfl
    · exact .bind (runs_emit ⟨rfl, rfl, rfl⟩) fun _ _ => .pure rfl
    · exact .bind (runs_emit ⟨rfl, rfl, rfl⟩) fun _ _ => .pure rfl
    · split
      · split
        · refine .bind runs_retractNull fun taken _ => ?_
          split
          · exact .pure rfl
          · exact .pure rfl
        · exact .pure rfl
      · exact .throw
  · exact .throw_bind

/-- What is branched to may be saved to. -/
theorem aim_of_target (h : cx.targets.contains target = true)
    (hsaves : scope.saves (.source target)) : Aim cx scope (.source target) := by
  refine ⟨fun o ho => ?_, hsaves⟩
  cases ho
  exact .inl h

theorem runs_branchIf (truth : Bool) (h : Aim cx scope (.source target)) :
    Runs cx scope (branchIf truth target) fun _ => True := by
  refine .bind runs_popKind fun r _ => ?_
  dsimp only
  split
  · exact runs_branchTo rfl h
  · refine .bind (runs_emit ⟨rfl, rfl, rfl⟩) fun _ _ => ?_
    refine .bind (runs_emit ⟨rfl, rfl, rfl⟩) fun _ _ => ?_
    exact .bind (runs_noteDepth 4) fun _ _ => runs_branchTo rfl h
  · exact runs_branchTo rfl h
  · exact .throw_bind

/-- Both labels are made for the comparison, and bound behind their branches. -/
theorem runs_compare (hturns : scope.turns) (way : Comparison) (unsigned : Bool) :
    Runs cx scope (compare way unsigned) fun _ => True := by
  refine Runs.bind (runs_comparison way unsigned) fun test htest => ?_
  refine Does.bind (does_freshLabel hturns lasting_true) fun yes => Does.of_fact ?_
  rintro ⟨m, rfl, hyesSaves, hyesBinds⟩
  refine Does.bind (does_freshLabel hturns ((lasting_made _).and lasting_true)) fun done =>
    Does.of_fact ?_
  rintro ⟨n, rfl, hdoneSaves, hdoneBinds⟩
  have hI : Lasting cx fun s => Made s (.synthetic n) ∧ Made s (.synthetic m) ∧ True :=
    (lasting_made _).and ((lasting_made _).and lasting_true)
  refine Runs.during_bind (runs_make _) hI fun int _ => ?_
  refine Does.bind (does_branchTo_made htest (aim_of_ne nofun hyesSaves) rfl hI
    fun _ hs => hs.2.1) fun _ => ?_
  refine Runs.during_bind (runs_emit ⟨rfl, rfl, rfl⟩) hI fun _ _ => ?_
  refine Runs.during_bind (runs_push _) hI fun _ _ => ?_
  refine Does.bind (does_jump_made hturns (aim_of_ne nofun hdoneSaves) rfl hI fun _ hs => hs.1)
    fun _ => ?_
  refine Does.bind (does_bindLabel_made hturns nofun trivial hyesSaves hyesBinds rfl hI
    fun _ hs => hs.2.1) fun _ => ?_
  refine Runs.during_bind (runs_emit ⟨rfl, rfl, rfl⟩) hI fun _ _ => ?_
  refine Runs.during_bind (runs_push _) hI fun _ _ => ?_
  exact Does.weaken (x := bindLabel (.synthetic n)) (does_bindLabel_made hturns nofun trivial
    hdoneSaves hdoneBinds rfl hI fun _ hs => hs.1) (fun _ hs => hs) fun _ _ _ => trivial

/-- A switch goes to its targets, and to the next operation. -/
theorem runs_switch {offset : Nat} {targets : List Nat} (hturns : scope.turns)
    (htargets : ∀ t ∈ targets, Aim cx scope (.source t))
    (hfalls : ∀ next, cx.body.following offset = some next → Aim cx scope (.source next)) :
    Runs cx scope (switch offset targets) fun _ => True := by
  refine .bind .read fun cx' hcx => ?_
  subst hcx
  split
  · next next hnext =>
    split
    · exact routine_dropTop.runs
    · -- all labels are labels of the source
      have hsource : ∀ label ∈ targets.map .source ++ [Label.source next],
          ∃ t, label = .source t ∧ Aim cx' scope label := by
        intro label hlabel
        rcases List.mem_append.mp hlabel with hlabel | hlabel
        · obtain ⟨t, ht, rfl⟩ := List.mem_map.mp hlabel
          exact ⟨t, rfl, htargets t ht⟩
        · cases List.mem_singleton.mp hlabel
          exact ⟨next, rfl, hfalls next hnext⟩
      refine (does_switchTo hturns fun label hlabel => ?_).weaken (fun s _ label hlabel => ?_)
        fun _ _ _ => trivial
      · obtain ⟨t, rfl, haim⟩ := hsource label hlabel
        exact ⟨haim, rfl⟩
      · obtain ⟨t, rfl, -⟩ := hsource label hlabel
        trivial
  · exact .throw

theorem routine_testGeneric (name : String) : Routine cx H p (testGeneric name) Any := by
  refine (Routine.onPool (Pool.serves_stringRef name)).bind fun index q => ?_
  refine (routine_use (Instr.operand?_ldcOf index) fun h => h.2.2).next
    fun _ => ?_
  exact (routine_noteDepth _).next fun _ => .read_bind_rfl (fun _ _ => rfl) (routine_invokeStatic _)

theorem routine_testedType (ty : Ty) : Routine cx H p (testedType ty) Any := by
  unfold testedType
  split
  · exact routine_make (harmless (by nofun))
  · exact .done

/-- The label in front of the cast is made for the test, and bound once. -/
theorem runs_isInstance (hturns : scope.turns) (ty : Ty) :
    Runs cx scope (isInstance ty) fun _ => True := by
  refine Runs.bind routine_popReference.runs fun value _ => ?_
  split
  · exact Runs.bind (routine_testGeneric _).runs fun _ _ => runs_push _
  · refine Runs.bind (runs_classIndex ty) fun index _ => ?_
    refine Does.bind (does_freshLabel hturns lasting_true) fun keep => Does.of_fact ?_
    rintro ⟨n, rfl, hsaves, hbinds⟩
    have hI : Lasting cx fun s => Made s (.synthetic n) ∧ True :=
      (lasting_made _).and lasting_true
    refine Runs.during_bind (routine_testedType ty).runs hI fun result _ => ?_
    refine Runs.during_bind (runs_push _) hI fun _ _ => ?_
    refine Runs.during_bind (runs_emit ⟨rfl, rfl, rfl⟩) hI fun _ _ => ?_
    refine Runs.during_bind (runs_emit ⟨rfl, rfl, rfl⟩) hI fun _ _ => ?_
    refine Runs.during_bind (runs_noteDepth 1) hI fun _ _ => ?_
    refine Does.bind (does_branchTo_made rfl (aim_of_ne nofun hsaves) rfl hI fun _ hs => hs.1)
      fun _ => ?_
    refine Runs.during_bind (Runs.discard runs_pop) hI fun _ _ => ?_
    refine Runs.during_bind (runs_emit ⟨rfl, rfl, rfl⟩) hI fun _ _ => ?_
    refine Runs.during_bind (runs_emit ⟨rfl, rfl, rfl⟩) hI fun _ _ => ?_
    refine Runs.during_bind (runs_pushNew _) hI fun _ _ => ?_
    refine Does.bind (does_bindLabel_made hturns nofun trivial hsaves hbinds rfl hI
      fun _ hs => hs.1) fun _ => Runs.does ?_
    refine Runs.bind (Runs.discard runs_pop) fun _ _ => ?_
    exact Runs.bind (runs_emit ⟨rfl, rfl, rfl⟩) fun _ _ => runs_push _

-- ==== calls and objects

theorem routine_popArguments (params : List Ty) : Routine cx H p (popArguments params) Any := by
  refine .next (.mapM fun param _ => routine_pop.next fun value => ?_) fun _ => .done
  refine (routine_stackKind value).next fun _ => (routine_stackKind param).next fun _ => ?_
  split
  · exact .done
  · exact .throw_bind

/-- What is popped was on top. -/
theorem gives_pop :
    Gives cx (fun s => s.frames.live.stack = stack) pop
      fun ty s => stack = ty :: s.frames.live.stack := by
  rintro s a s' rfl hrun
  obtain ⟨frames, hpop, rfl⟩ := pop_ok hrun
  obtain ⟨rest, hstack, rfl⟩ := FrameStore.pop_ok hpop
  exact hstack

theorem gives_popReference :
    Gives cx (fun s => s.frames.live.stack = stack) popReference
      fun ty s => stack = ty :: s.frames.live.stack := by
  intro s a s' hs hrun
  exact gives_pop s a s' hs (popReference_ok hrun).1

/-- The arguments of a call are all that is taken off the stack for them. -/
theorem gives_popArguments (params : List Ty) :
    Gives cx (fun s => s.frames.live.stack = stack) (popArguments params)
      fun _ s => s.frames.live.stack = stack.drop params.length := by
  rw [← List.length_reverse]
  refine .bind (M := fun _ s => s.frames.live.stack = stack.drop params.reverse.length) ?_
    fun _ => .pure fun _ h => h
  induction params.reverse generalizing stack with
  | nil =>
    rw [List.mapM_nil]
    exact .pure fun _ h => h
  | cons param params ih =>
    rw [List.mapM_cons]
    refine .bind (M := fun _ s => s.frames.live.stack = stack.drop 1) ?_ fun value => ?_
    · refine .bind gives_pop fun value => ?_
      refine .bind (gives_stackKind _ value) fun _ => ?_
      refine .bind (gives_stackKind _ param) fun _ => ?_
      split
      · refine .pure ?_
        rintro s ⟨-, -, rfl⟩
        rfl
      · exact .bind (M := fun _ _ => False) .throw fun _ _ _ _ hfalse => hfalse.elim
    · refine .bind ih fun values => .pure fun s h => ?_
      rw [h, List.drop_drop, List.length_cons, Nat.add_comm]

theorem routine_methodDescriptor (params : List Ty) (returns : Option Ty) :
    Routine cx H p (methodDescriptor params returns) Any :=
  .read_bind (fun T hT _ => by rw [hT.methodDescriptor]) (.lift _)

/-- Only a constructor called on the receiver changes the slots. -/
theorem runs_callConstructor (index : Nat) (receiver : Ty)
    (hscope : receiver = .uninitThis → scope.changes) :
    Runs cx scope (callConstructor index receiver) fun _ => True := by
  refine .bind (runs_emit ⟨rfl, rfl, rfl⟩) fun _ _ => ?_
  split
  · next hreceiver =>
    refine .bind .read fun cx' hcx => ?_
    subst hcx
    refine .step fun s a s' p _ _ hrun => ?_
    have htold := noteLocalsChanged_ok hrun
    exact ⟨⟨[], .change .replace htold (.inl (hscope hreceiver))⟩, trivial⟩
  · exact .pure trivial

theorem routine_callInterface (method : MethodRef) (h : H → p.Holds .interfaceMethod index) :
    Routine cx H p (callInterface method index) Any := by
  unfold callInterface
  dsimp only
  split
  · exact .throw_bind
  · exact routine_use rfl h

theorem routine_pushReturned (returns : Option Ty) :
    Routine cx H p (match returns with
      | some ty => push ty
      | _ => Pure.pure ()) Any := by
  cases returns with
  | none => exact .done
  | some ty => exact routine_push ty

/-- A call by which the object under construction counts as initialised: a constructor
is called on it. -/
def Initialises (method : MethodRef) (stack : List Ty) : Prop :=
  method.isConstructor = true ∧ method.isStatic = false ∧
    stack[method.params.length]? = some .uninitThis

/-- A call changes the slots of the source only if it initialises the receiver. -/
theorem does_call (method : MethodRef) (virtual : Bool)
    (hscope : Initialises method stack → scope.changes) :
    Does cx scope (fun s => s.frames.live.stack = stack) (call method virtual)
      fun _ _ => True := by
  refine Does.read_bind ?_
  refine Does.bind (M := fun _ s => s.frames.live.stack = stack) ?_ fun descriptor => ?_
  · exact Does.read_bind (Does.lift.weaken (fun _ h => h) fun _ _ h => h.2)
  refine Does.bind (M := fun _ s => s.frames.live.stack = stack.drop method.params.length) ?_
    fun _ => ?_
  · refine ((routine_popArguments _).discard.runs.does.gives ?_).weaken (fun _ h => h)
      fun _ _ h => h.2
    exact Gives.bind (gives_popArguments _) fun _ => Gives.pure fun _ h => h
  refine Does.bind (M := fun _ s => s.frames.live.stack = stack.drop method.params.length) ?_
    fun owner => ?_
  · exact Does.read_bind (Does.lift.weaken (fun _ h => h) fun _ _ h => h.2)
  refine Does.bind (M := fun _ s => s.frames.live.stack = stack.drop method.params.length) ?_
    fun index => ?_
  · exact (runs_onPool_any.does.gives (Gives.onPool fun s _ _ h _ => h)).weaken (fun _ h => h)
      fun _ _ h => h.2
  dsimp only
  split
  · exact Runs.does (Runs.bind (runs_emit ⟨rfl, rfl, rfl⟩) fun _ _ => (routine_pushReturned _).runs)
  · next hstatic =>
    refine Does.bind (M := fun receiver _ =>
      stack[method.params.length]? = some receiver ∧ True) ?_ fun receiver =>
      Does.of_fact fun hreceiver => Runs.does ?_
    · refine (routine_popReference.runs.does.gives gives_popReference).weaken (fun _ h => h)
        fun _ _ h => ?_
      rw [← Nat.add_zero method.params.length, ← List.getElem?_drop, h.2]
      exact ⟨rfl, trivial⟩
    split
    · next hconstructor =>
      refine Runs.bind (runs_callConstructor index receiver fun heq => ?_)
        fun _ _ => (routine_pushReturned _).runs
      exact hscope ⟨hconstructor, Bool.eq_false_iff.mpr hstatic, heq ▸ hreceiver⟩
    · split
      · exact Runs.bind (routine_callInterface method nofun).runs fun _ _ =>
          (routine_pushReturned _).runs
      · split
        · exact Runs.bind (runs_emit ⟨rfl, rfl, rfl⟩) fun _ _ => (routine_pushReturned _).runs
        · exact Runs.bind (runs_emit ⟨rfl, rfl, rfl⟩) fun _ _ => (routine_pushReturned _).runs

theorem runs_call (method : MethodRef) (virtual : Bool)
    (hscope : method.isConstructor = true → scope.changes) :
    Runs cx scope (call method virtual) fun _ => True :=
  fun s a s' p hback _ hrun =>
    does_call method virtual (fun h => hscope h.1) s a s' p hback rfl hrun

/-- A borrowed slot is a temporary in use. -/
private theorem mem_temps_borrow {ty : Ty} {slots slots' : Slots} {slot : Nat}
    (h : Slots.borrow ty slots = .ok slot slots') :
    ∃ t ∈ slots'.temps, t.slot = slot ∧ t.category = ty.category := by
  obtain ⟨_, _, hget, h⟩ := state_bind_ok h
  cases hget
  cases hfind : slots.parked.find? fun t => t.category == ty.category with
  | some t =>
    rw [hfind] at h
    cases h
    have hcategory := List.find?_some (p := fun t : Temp => t.category == ty.category) hfind
    exact ⟨t, .head _, rfl, eq_of_beq hcategory⟩
  | none =>
    rw [hfind] at h
    obtain ⟨top, _, -, h⟩ := state_bind_ok h
    cases h
    exact ⟨⟨slot, ty.category⟩, .head _, rfl, rfl⟩

/-- A value that is spilled goes above all declared slots. -/
theorem runs_spill (value : Ty) : Runs cx scope (spill value) fun _ => True := by
  refine Does.bind (M := fun slot => Storable cx scope slot value) ?_ fun slot => ?_
  · refine Does.step fun s a s' p hback _ hrun => ?_
    obtain ⟨slots, hborrow, rfl⟩ := onSlots_eq_ok.mp hrun
    obtain ⟨t, ht, rfl, hcategory⟩ := mem_temps_borrow hborrow
    obtain ⟨base, hfits⟩ := hback.fits
    have hfits := hfits.borrow hborrow
    have hnone : slots.declared? t.slot = none := by
      -- temporaries lie above what is declared
      refine Option.eq_none_iff_forall_ne_some.mpr fun d hd => ?_
      have hbelow := hfits.below hd
      have habove := hfits.temps t ht
      have hpos := d.ty.category_pos
      omega
    refine ⟨⟨[], .borrow hborrow⟩, .inr (.inr hnone), fun kind hkind => ?_, fun _ d hd _ => ?_⟩
    · exact .inr ⟨t, ht, rfl, hcategory.trans (Ty.category_of_stackKind? hkind)⟩
    · cases hnone.symm.trans hd
  · exact .bind (does_store slot value) fun _ => .pure fun _ _ => trivial

theorem runs_releaseTemp (slot : Nat) : Runs cx scope (releaseTemp slot) fun _ => True := by
  refine .step fun s a s' p _ _ hrun => ?_
  obtain ⟨_, t, hslots, hrun⟩ := lower_bind_ok hrun
  obtain ⟨slots, hrelease, rfl⟩ := onSlots_eq_ok.mp hslots
  cases hrun
  exact ⟨⟨[], .release hrelease⟩, trivial⟩

theorem routine_spill (value : Ty) : Routine cx H p (spill value) Any :=
  .of ((Proper.onSlots _).next fun slot => (proper_store slot value).next fun _ => .done)
    fun _ => runs_spill value

theorem routine_releaseTemp (slot : Nat) : Routine cx H p (releaseTemp slot) Any :=
  .of ((Proper.onSlots _).next fun _ => proper_modifyFrames _) fun _ => runs_releaseTemp slot

/-- Arguments are spilled, and loaded again on top of the new object. -/
theorem routine_newObject (method : MethodRef) : Routine cx H p (newObject method) Any := by
  refine (routine_methodDescriptor _ _).next fun descriptor => ?_
  refine (routine_popArguments _).next fun values => ?_
  refine (Routine.mapM fun value _ => routine_spill value).next fun temps => ?_
  refine (routine_classIndex _).bind fun index q => ?_
  refine (routine_use rfl fun h => h.2.2).next fun _ => ?_
  refine (routine_emit rfl).next fun _ => ?_
  refine (Routine.forM fun slot _ => routine_load slot).next fun _ => ?_
  refine (routine_noteDepth _).next fun _ => ?_
  refine (Routine.forM fun _ _ => routine_pop.discard).next fun _ => ?_
  refine (routine_className _).next fun name => (routine_methodRef _ _ _).bind fun init q' => ?_
  refine (routine_use rfl fun h => holds_anyMethod h.2.2).next fun _ => ?_
  exact (Routine.forM fun slot _ => routine_releaseTemp slot).next fun _ => routine_push _

-- ==== fields and arrays

theorem routine_fieldIndex (field : FieldRef) :
    Routine cx H p (fieldIndex field) fun i q => q.Holds .field i :=
  (routine_className _).next fun _ => (routine_descriptor _).next fun _ =>
    .onPool (Pool.serves_member .fieldRef (fun _ _ => rfl) _ _ _)

theorem routine_loadField (field : FieldRef) (isStatic : Bool) :
    Routine cx H p (loadField field isStatic) Any := by
  refine (routine_fieldIndex field).bind fun index q => ?_
  split
  · exact (routine_use rfl fun h => h.2.2).next fun _ => routine_push _
  · refine routine_popReference.discard.next fun _ => ?_
    exact (routine_use rfl fun h => h.2.2).next fun _ => routine_push _

theorem routine_storeField (field : FieldRef) (isStatic : Bool) :
    Routine cx H p (storeField field isStatic) Any := by
  refine (routine_fieldIndex field).bind fun index q => routine_pop.next fun value => ?_
  refine (routine_coerce _ _).discard.next fun _ => ?_
  split
  · exact routine_use rfl fun h => h.2.2
  · exact routine_popReference.discard.next fun _ =>
      routine_use rfl fun h => h.2.2

theorem routine_popIndex : Routine cx H p popIndex Any := by
  refine routine_popKind.next fun r => ?_
  dsimp only
  split
  · exact .done
  · exact .throw

/-- The element of an array is a type that may have to be made. -/
theorem routine_elementOf (array : Ty) : Routine cx H p (elementOf array) Any := by
  unfold elementOf
  split
  · exact routine_make (harmless (by nofun))
  · exact .done
  · exact .throw

theorem routine_newArray (element : Ty) : Routine cx H p (newArray element) Any := by
  have hpush : ∀ {H : Prop} {q : Pool}, Routine cx H q (pushNew (element.arrayOf 1)) Any := by
    refine routine_pushNew (harmless fun name => ?_)
    cases element <;> exact nofun
  refine routine_popIndex.next fun _ => ?_
  split
  · exact (routine_emit rfl).next fun _ => hpush
  · refine (routine_classIndex _).bind fun _ _ => ?_
    exact (routine_use rfl fun h => h.2.2).next fun _ => hpush

theorem routine_loadLength : Routine cx H p loadLength Any := by
  refine routine_popReference.next fun array => (routine_elementOf array).discard.next fun _ => ?_
  exact (routine_emit rfl).next fun _ => routine_pushPrim _

theorem routine_loadElement : Routine cx H p loadElement Any := by
  refine routine_popIndex.next fun _ => routine_popReference.next fun array => ?_
  refine (routine_elementOf array).next fun _ => ?_
  exact (routine_emit rfl).next fun _ => routine_push _

theorem routine_storeElement : Routine cx H p storeElement Any := by
  refine routine_pop.next fun value => routine_popIndex.next fun _ => ?_
  refine routine_popReference.next fun array => (routine_elementOf array).next fun element => ?_
  refine (routine_stackKind value).next fun _ => (routine_stackKind element).next fun _ => ?_
  split
  · exact routine_emit rfl
  · exact .throw_bind

-- ==== boxes

theorem routine_cloneValue (ty : Ty) : Routine cx H p (cloneValue ty) Any := by
  refine .read_bind_rfl (fun _ _ => rfl) ((routine_className ty).next fun name => ?_)
  refine (routine_methodRef _ _ _).bind fun _ _ => ?_
  refine (routine_use rfl fun h => h.2.2).next fun _ => ?_
  exact (Routine.onPool (Pool.serves_classRef _)).bind fun _ _ =>
    routine_use rfl fun h => h.2.2

theorem routine_box (ty : Ty) : Routine cx H p (box ty) Any := by
  refine routine_pop.next fun value => ?_
  split
  · exact (routine_invokeStatic _).next fun _ => routine_pushNew (harmless (by nofun))
  · exact (routine_cloneValue _).next fun _ => routine_pushNew (harmless (by nofun))
  · exact routine_push value

theorem routine_castTo (ty : Ty) : Routine cx H p (castTo ty) Any := by
  unfold castTo
  split
  · exact .done
  · exact .throw
  · exact .throw
  · exact (routine_classIndex _).bind fun _ _ => routine_use rfl fun h => h.2.2

theorem routine_castClass (ty : Ty) : Routine cx H p (castClass ty) Any :=
  routine_popReference.discard.next fun _ => (routine_castTo ty).next fun _ => routine_push ty

theorem routine_unboxAny (ty : Ty) : Routine cx H p (unboxAny ty) Any := by
  refine routine_popReference.discard.next fun _ => ?_
  split
  · refine (Routine.onPool (Pool.serves_classRef _)).bind fun _ _ => ?_
    refine (routine_use rfl fun h => h.2.2).next fun _ => ?_
    refine (routine_methodRef _ _ _).bind fun _ _ => ?_
    exact (routine_use rfl fun h => h.2.2).next fun _ => routine_push _
  · refine (routine_classIndex _).bind fun _ _ => ?_
    refine (routine_use rfl fun h => h.2.2).next fun _ => ?_
    exact (routine_cloneValue _).next fun _ => routine_push _
  · exact (routine_castTo _).next fun _ => routine_push _

-- ==== operations

/-- An operation whose code goes on behind it, and stores nothing in a slot of the source. -/
def Op.isRoutine : Op → Bool
  | .storeArg _ | .storeLocal _ | .compare _ _ | .branch _ _ _ | .branchIf _ _ | .jump _
  | .switch _ | .ret | .throw | .rethrow | .leave _ | .endFinally | .endFilter | .call _ _
  | .isInstance _ => false
  | _ => true

/-- The code for a number, and its type. -/
theorem routine_number {k : NumKind} {act : PoolM Instr} (h : Instr.Chooses k act) (prim : Prim) :
    Routine cx H p (onPool act >>= emitNew (.prim prim)) Any :=
  routine_constant h fun _ => routine_pushPrim prim

/-- All these operations take steps in any scope. -/
theorem routine_lowerOp {op : Op} (hop : Op.isRoutine op = true) (offset : Nat) :
    Routine cx H p (lowerOp offset op) Any := by
  cases op with
  | nop => exact .done
  | loadArg i | loadLocal i =>
    exact Routine.get.next fun _ => (Routine.lift _).next fun _ => routine_load _
  | addressOf i => exact .throw
  | loadInt32 v => exact routine_number (Instr.chooses_intConstant v) _
  | loadInt64 v => exact routine_number (Instr.chooses_longConstant v) _
  | loadFloat32 b => exact routine_number (Instr.chooses_floatConstant b) _
  | loadFloat64 b => exact routine_number (Instr.chooses_doubleConstant b) _
  | loadNull =>
    exact (routine_emit rfl).next fun _ => routine_pushNew (harmless (by nofun))
  | loadString text =>
    refine (Routine.onPool (Pool.serves_stringRef text)).bind fun index _ => ?_
    refine .read_bind_rfl (fun _ _ => rfl) (Routine.next (M := Any) ?_ fun _ => ?_)
    · exact routine_use (Instr.operand?_ldcOf index) fun h => h.2.2
    · exact routine_pushNew (.inr (.inl rfl))
  | dup =>
    refine routine_peek.next fun ty => ?_
    exact (routine_emit (Instr.isBare_dupOf _)).next fun _ =>
      routine_push ty
  | pop => exact routine_dropTop
  | arithmetic op => exact routine_arithmetic op
  | convert target checked => exact routine_convert target checked
  | newObject method => exact routine_newObject method
  | loadField field isStatic => exact routine_loadField field isStatic
  | storeField field isStatic => exact routine_storeField field isStatic
  | newArray element => exact routine_newArray element
  | loadLength => exact routine_loadLength
  | loadElement => exact routine_loadElement
  | storeElement => exact routine_storeElement
  | box ty => exact routine_box ty
  | unboxAny ty => exact routine_unboxAny ty
  | castClass ty => exact routine_castClass ty
  | _ => cases hop

end Routine

end BytecodeBridge.Lowering
