/-
Exception handling is lowered by steps.

The code of handlers, leaves and the ends of clauses transfers to labels of
its own and to labels of the source. The former need no argument. The
latter are where the clauses of a region start, where the handler of a
filter starts, and where leaves go: the first two lie ahead of the place
the code is emitted at, and leaves go to targets (`Prepared.leaves`). The
slots that exceptions are kept in are declared for that (`Backed`).
-/
import BytecodeBridge.Proofs.Lowering.Operations

namespace BytecodeBridge

-- ==== locations

namespace RegionTree

variable {t : RegionTree} {site : ClauseSite} {offset r : Nat} {region : Region}

theorem getElem?_of_get (h : t.get r = .ok region) :
    t.regions[r]? = some region := by
  unfold get at h
  split at h
  · next hget =>
    cases h
    exact hget
  · cases h

theorem mem_of_get (h : t.get r = .ok region) : region ∈ t.regions :=
  List.mem_of_getElem? (getElem?_of_get h)

/-- A clause that is found is one of its region, and has what is looked for. -/
theorem mem_of_locate {p : Clause → Bool} (h : t.locate p = some site) :
    site.region ∈ t.regions ∧ site.clause ∈ site.region.clauses ∧ p site.clause = true := by
  obtain ⟨⟨region, r⟩, hregion, h⟩ := List.exists_of_findSome?_eq_some h
  obtain ⟨⟨clause, k⟩, hclause, h⟩ := List.exists_of_findSome?_eq_some h
  dsimp only at h
  split at h
  · next hp =>
    cases h
    exact ⟨List.mem_of_getElem? (List.mk_mem_zipIdx_iff_getElem?.mp hregion),
      List.mem_of_getElem? (List.mk_mem_zipIdx_iff_getElem?.mp hclause), hp⟩
  · cases h

private theorem mem_of_finalClauseAt (h : t.finalClauseAt offset = .ok site) :
    site.region ∈ t.regions ∧ site.clause ∈ site.region.clauses := by
  unfold finalClauseAt at h
  split at h
  · next hsite =>
    cases h
    obtain ⟨hregion, hclause, -⟩ := mem_of_locate hsite
    exact ⟨hregion, hclause⟩
  · cases h

/-- A filter that decides at an offset has its handler behind it. -/
private theorem mem_of_filterAt (h : t.filterAt offset = .ok site) :
    site.region ∈ t.regions ∧ offset < site.clause.handlerStart := by
  unfold filterAt at h
  split at h
  · next hsite =>
    cases h
    obtain ⟨hregion, -, hdecides⟩ := mem_of_locate hsite
    refine ⟨hregion, ?_⟩
    unfold Clause.decides at hdecides
    split at hdecides
    · exact of_decide_eq_true (Bool.and_eq_true_iff.mp hdecides).2
    · cases hdecides
  · cases h

/-- The handler of a region is found at its own offset. -/
theorem handlerOffset_of_handlerAt? (h : t.handlerAt? offset = some r)
    (hget : t.regions[r]? = some region) : region.handlerOffset = offset := by
  obtain ⟨_, hoffset, -⟩ := List.findIdx?_eq_some_iff_getElem.mp h
  obtain ⟨_, rfl⟩ := List.getElem?_eq_some_iff.mp hget
  exact eq_of_beq hoffset

theorem mem_protecting_iff :
    r ∈ t.protecting offset ↔ ∃ region, t.regions[r]? = some region ∧ region.protects offset := by
  simp [protecting, List.mem_filterMap, List.mk_mem_zipIdx_iff_getElem?]

theorem mem_startingAt_iff :
    r ∈ t.startingAt offset ↔ ∃ region, t.regions[r]? = some region ∧ region.start = offset := by
  simp [startingAt, List.mem_filterMap, List.mk_mem_zipIdx_iff_getElem?]

section NoRegions

variable (h : t.regions = []) (offset : Nat)
include h

theorem handlerAt?_of_nil : t.handlerAt? offset = none := by
  rw [handlerAt?, h]
  rfl

theorem startingAt_of_nil : t.startingAt offset = [] := by
  rw [startingAt, h]
  rfl

theorem protecting_of_nil : t.protecting offset = [] := by
  rw [protecting, h]
  rfl

end NoRegions

end RegionTree

namespace Lowering

open LowerM RegionTree

variable {cx : Context} {scope : Scope}

-- ==== what is thrown

/-- What is on top of the live stack takes one slot. -/
def OnTop (cx : Context) (s : LowerState) : Prop :=
  Thin cx → Topped s.frames.live.stack

private theorem fit_handler {r : Nat} {s : LowerState} : Fit cx (.handler r) s ↔ OnTop cx s :=
  ⟨fun h hthin => h.topped hthin rfl, fun h => ⟨trivial, fun hthin _ => h hthin⟩⟩

/-- The test of a clause is entered with what was thrown on top. -/
theorem fit_dispatch {r k : Nat} {s : LowerState} : Fit cx (.dispatch r k) s ↔ OnTop cx s :=
  ⟨fun h hthin => h.topped hthin rfl, fun h => ⟨trivial, fun hthin _ => h hthin⟩⟩

/-- A computation that leaves the live stack as it is. -/
def Unmoved (cx : Context) {α : Type} (m : LowerM α) : Prop :=
  ∀ stack, Gives cx (fun s => s.frames.live.stack = stack) m
    fun _ s => s.frames.live.stack = stack

section Unmoved

variable {α β : Type} {x : LowerM α} {f : α → LowerM β} {φ : α → Prop}

theorem Unmoved.bind (hx : Unmoved cx x) (hf : ∀ a, Unmoved cx (f a)) : Unmoved cx (x >>= f) :=
  fun stack => .bind (hx stack) fun a => hf a stack

theorem Unmoved.pure {a : α} : Unmoved cx (pure a) :=
  fun _ => .pure fun _ h => h

theorem Unmoved.read : Unmoved cx read :=
  fun _ => Gives.read.weaken (fun _ h => h) fun _ _ h => h.2

theorem Unmoved.lift {y : Except Cause α} : Unmoved cx (liftM y) :=
  fun _ => Gives.lift.weaken (fun _ h => h) fun _ _ h => h.2

theorem unmoved_emit (i : Instr) : Unmoved cx (emit i) :=
  fun _ => .modify fun _ h => h

theorem unmoved_noteDepth (extra : Nat) : Unmoved cx (noteDepth extra) :=
  fun _ => .modify fun _ h => h

theorem unmoved_onPool {act : PoolM α} : Unmoved cx (onPool act) :=
  fun _ => .onPool fun _ _ _ h _ => h

theorem unmoved_className (ty : Ty) : Unmoved cx (className ty) :=
  Unmoved.read.bind fun _ => .lift

private theorem unmoved_testGeneric (name : String) : Unmoved cx (testGeneric name) :=
  unmoved_onPool.bind fun _ => (unmoved_emit _).bind fun _ => (unmoved_noteDepth 2).bind fun _ =>
    Unmoved.read.bind fun _ => unmoved_onPool.bind fun _ => unmoved_emit _

/-- What was thrown stays on top where the stack stays as it is. -/
theorem Runs.onTop (h : Runs cx scope x φ) (hx : Unmoved cx x) :
    Does cx scope (OnTop cx) x fun a s => φ a ∧ OnTop cx s := by
  intro s a s' p hback hs hrun
  obtain ⟨hsteps, hφ⟩ := h s a s' p hback trivial hrun
  have hstack : s'.frames.live.stack = s.frames.live.stack := hx _ s a s' rfl hrun
  exact ⟨hsteps, hφ, fun hthin => hstack ▸ hs hthin⟩

theorem Runs.onTop_bind {Q : β → LowerState → Prop} (h : Runs cx scope x φ) (hx : Unmoved cx x)
    (hf : ∀ a, φ a → Does cx scope (OnTop cx) (f a) Q) : Does cx scope (OnTop cx) (x >>= f) Q :=
  (h.onTop hx).bind fun a => .of_fact (hf a)

end Unmoved

section Stack

variable {P : LowerState → Prop} {ty : Ty}

theorem does_push_thrown (hty : Thin cx → ty.category = 1) :
    Does cx scope P (push ty) fun _ => OnTop cx :=
  (does_push ty).weaken (fun _ h => h) fun _ _ ⟨rest, hstack⟩ hthin =>
    ⟨ty, rest, hstack, hty hthin⟩

theorem does_pushNew_thrown (hty : Thin cx → ty.category = 1) :
    Does cx scope P (pushNew ty) fun _ => OnTop cx := by
  refine .bind (runs_make ty).does fun made => ?_
  intro s a s' p hback hmade hrun
  subst hmade
  exact does_push_thrown (P := fun _ => True) hty s a s' p hback trivial hrun

/-- What was thrown takes one slot. -/
theorem does_pop : Does cx scope (OnTop cx) pop fun ty _ => Thin cx → ty.category = 1 := by
  refine (runs_pop.does.gives (R := fun ty _ => Thin cx → ty.category = 1) ?_).weaken
    (fun _ h => h) fun _ _ h => h.2
  intro s ty s' hs hrun hthin
  obtain ⟨frames, hpop, rfl⟩ := pop_ok hrun
  obtain ⟨rest, hstack, -⟩ := FrameStore.pop_ok hpop
  obtain ⟨t, _, heq, hcategory⟩ := hs hthin
  rw [hstack] at heq
  cases heq
  exact hcategory

theorem does_peek : Does cx scope (OnTop cx) peek fun ty s =>
    (Thin cx → ty.category = 1) ∧ OnTop cx s := by
  refine .look fun s ty s' hs hrun => ?_
  obtain ⟨rfl, rest, hstack⟩ := peek_ok hrun
  refine ⟨rfl, fun hthin => ?_, hs⟩
  obtain ⟨t, _, heq, hcategory⟩ := hs hthin
  cases hstack.symm.trans heq
  exact hcategory

end Stack

variable {region : Region} {slot r : Nat} {P : LowerState → Prop} {α : Type} {clause : Clause}

theorem prim?_of_className {T : TypeTable} {ty : Ty} {name : String}
    (h : T.className ty = .ok name) : ty.prim? = none := by
  cases ty with
  | prim k => cases h
  | _ => rfl

/-- What was thrown goes to a slot that its region keeps. -/
theorem runs_store_kept (hregion : region ∈ cx.regions.regions) (hslot : slot ∈ region.keptSlots)
    {ty : Ty} (hty : Thin cx → ty.category = 1) :
    Runs cx scope (store slot ty) fun _ => True := by
  refine .backed ((does_store slot ty).weaken ?_ fun _ _ _ => trivial)
  rintro s ⟨hback, -⟩
  obtain ⟨d, hd, hkind⟩ := hback.kept region hregion slot hslot
  exact ⟨.inr (.inl (List.ne_nil_of_mem hregion)), fun _ _ => .inl ⟨d, hd, .inl hkind⟩,
    fun hthin _ _ _ => hty hthin⟩

/-- What a region keeps is on top of the stack once it is loaded. -/
theorem does_load_kept (hregion : region ∈ cx.regions.regions) (hslot : slot ∈ region.keptSlots)
    (hturns : scope.turns) :
    Does cx scope P (load slot) fun _ => OnTop cx := by
  refine .backed (.bind .get fun s₀ => ?_)
  refine .weaken (P := fun s => Backed cx scope s₀ ∧ s₀ = s) (.of_fact fun hback => ?_)
    (fun s h => ⟨h.1 ▸ h.2.1, h.1⟩) fun _ _ h => h
  obtain ⟨d, hd, hkind⟩ := hback.kept region hregion slot hslot
  split
  · next ty hty =>
    refine (does_fetch slot ty).weaken ?_ fun _ _ ⟨rest, hstack⟩ hthin => ?_
    · rintro s rfl kind hstack
      exact .inl ⟨ty, hty, hstack⟩
    · exact ⟨ty, rest, hstack, (hback.slender hturns hthin).locals.live slot d ty hd hkind hty⟩
  · -- a slot that is kept for exceptions has no default value
    refine .bind (M := fun _ _ => False) ?_ fun _ _ _ _ _ _ hfalse => hfalse.elim
    rintro s ty s' p - rfl hrun
    obtain ⟨hrepairs, -, e, he, -, hset⟩ := materialize_ok hrun
    rw [Slots.declared?_congr (Repairs.mends hrepairs).declared] at he
    cases hd.symm.trans he
    rw [hkind] at hset
    rcases hset with h | ⟨h, -⟩ <;> cases h

-- ==== dispatch

theorem does_stash (hregion : region ∈ cx.regions.regions) (hslot : slot ∈ region.keptSlots) :
    Does cx scope (OnTop cx) (stash slot) fun _ _ => True := by
  refine Does.bind does_peek fun ty => Does.of_fact fun hty => Runs.does ?_
  refine Runs.bind (runs_emit ⟨rfl, rfl, rfl⟩) fun _ _ => ?_
  exact .bind (runs_noteDepth 1) fun _ _ => runs_store_kept hregion hslot hty

theorem does_stashIn? (hregion : region ∈ cx.regions.regions) (hclause : clause ∈ region.clauses) :
    Does cx scope (OnTop cx) (stashIn? clause.rethrowSlot) fun _ _ => True := by
  cases hslot : clause.rethrowSlot with
  | none => exact .pure fun _ _ => trivial
  | some slot =>
    refine does_stash hregion (List.mem_append_right _ ?_)
    exact List.mem_filterMap.mpr ⟨clause, hclause, hslot⟩

/-- Behind a throw no code is reached. -/
theorem does_throwTop (hturns : scope.turns) :
    Does cx scope P throwTop fun _ s => s.reachable = false :=
  .bind routine_popReference.discard.runs.does fun _ => does_exit hturns ⟨rfl, rfl, rfl⟩

theorem runs_throwTop (hturns : scope.turns) : Runs cx scope throwTop fun _ => True :=
  (does_throwTop hturns).runs

theorem routine_isUniversal {H : Prop} {p : Pool} (ty : Ty) :
    Routine cx H p (isUniversal ty) Any := by
  unfold isUniversal
  split
  · exact .done
  · exact .done
  · exact .read_bind_rfl (fun _ _ => rfl) ((routine_className _).next fun _ => .done)

private theorem unmoved_isUniversal (ty : Ty) : Unmoved cx (isUniversal ty) := by
  unfold isUniversal
  split
  · exact .pure
  · exact .pure
  · exact Unmoved.read.bind fun _ => (unmoved_className _).bind fun _ => .pure

/-- What lies ahead may be saved to. -/
theorem aim_of_ahead {o : Nat} (hahead : Ahead cx o) (hsaves : scope.saves (.source o)) :
    Aim cx scope (.source o) := by
  refine ⟨fun o' ho => ?_, hsaves⟩
  cases ho
  exact .inr hahead

/-- A clause that catches a type is entered, or its test goes on to the next one. -/
theorem does_tryTyped (hregion : region ∈ cx.regions.regions) (hclause : clause ∈ region.clauses)
    (haim : Aim cx scope (.source clause.start)) (ty : Ty) {k : Nat}
    (hother : scope.saves (.dispatch r k)) (hturns : scope.turns) :
    Does cx scope (OnTop cx) (tryTyped clause ty (.dispatch r k)) fun _ s =>
      s.reachable = false := by
  have henter : Does cx scope (OnTop cx) (enterClause clause.rethrowSlot clause.start)
      fun _ s => s.reachable = false :=
    (does_stashIn? hregion hclause).bind fun _ => does_jump_source hturns haim
  -- a test that fails goes on with what was thrown
  have hbranch : ∀ {i : Instr}, i.isConditional = true → Does cx scope (OnTop cx)
      (branchTo i (.dispatch r k)) fun _ => OnTop cx := fun hi =>
    (does_branchTo hi (aim_of_ne (fun o ho => by cases ho) hother)).weaken
      (fun _ hs => fit_dispatch.mpr hs) fun _ _ hs => fit_dispatch.mp hs
  refine Runs.onTop_bind (routine_isUniversal ty).runs (unmoved_isUniversal ty)
    fun universal _ => ?_
  split
  · exact henter
  · split
    · refine Runs.onTop_bind (runs_emit ⟨rfl, rfl, rfl⟩) (unmoved_emit _) fun _ _ => ?_
      refine Runs.onTop_bind (routine_testGeneric _).runs (unmoved_testGeneric _) fun _ _ => ?_
      exact (hbranch rfl).bind fun _ => henter
    · refine Runs.onTop_bind (runs_classIndex _)
        ((unmoved_className _).bind fun _ => unmoved_onPool) fun index hindex => ?_
      obtain ⟨name, hname⟩ := hindex
      refine Runs.onTop_bind (runs_emit ⟨rfl, rfl, rfl⟩) (unmoved_emit _) fun _ _ => ?_
      refine Runs.onTop_bind (runs_emit ⟨rfl, rfl, rfl⟩) (unmoved_emit _) fun _ _ => ?_
      refine Runs.onTop_bind (runs_noteDepth 1) (unmoved_noteDepth 1) fun _ _ => ?_
      refine (hbranch rfl).bind fun _ => ?_
      refine Does.bind (runs_emit ⟨rfl, rfl, rfl⟩).does fun _ => ?_
      refine Does.bind (Runs.discard runs_pop).does fun _ => ?_
      exact Does.bind (does_push_thrown fun _ =>
        TypeTable.category_of_prim? (prim?_of_className hname)) fun _ => henter

/-- What a scope has to allow for the handler of a region to be emitted. -/
structure Dispatches (cx : Context) (scope : Scope) (r : Nat) : Prop where
  handler : scope.saves (.handler r) ∧ scope.binds (.handler r)
  tests : ∀ k, scope.saves (.dispatch r k) ∧ scope.binds (.dispatch r k)
  clauses : ∀ region, cx.regions.get r = .ok region → ∀ clause ∈ region.clauses,
    scope.saves (.source clause.start)
  turns : scope.turns

/-- Control gets here with something thrown on top of the stack only. -/
def Arriving (cx : Context) (s : LowerState) : Prop :=
  s.reachable = true → OnTop cx s

/-- The test of a clause starts with what was thrown on top. -/
theorem does_bindTest (hr : cx.regions.handlerAt? cx.current = some r)
    (hscope : Dispatches cx scope r) (k : Nat) :
    Does cx scope (Arriving cx) (bindLabel (.dispatch r k)) fun _ => OnTop cx :=
  .weaken (x := bindLabel (.dispatch r k))
    (does_bindLabel hscope.turns nofun hr (hscope.tests k).1 (hscope.tests k).2)
    (fun _ hs hreach => fit_dispatch.mpr (hs hreach)) fun _ _ hs => fit_dispatch.mp hs

/-- The slot of the region is stored to before the clause starts. -/
theorem does_enterFinal (hregion : region ∈ cx.regions.regions) {start : Nat}
    (haim : Aim cx scope (.source start)) (hturns : scope.turns) :
    Does cx scope (OnTop cx) (enterFinal region.finallySlot start) fun _ s =>
      s.reachable = false := by
  cases hslot : region.finallySlot with
  | none => exact does_jump_source hturns haim
  | some slot =>
    refine Does.bind does_pop fun ty s a s' p hback hty hrun => ?_
    refine Does.bind (runs_store_kept hregion ?_ hty) (fun _ => does_jump_source hturns haim)
      s a s' p hback trivial hrun
    exact List.mem_append_left _ (List.mem_append_left _ (Option.mem_toList.mpr hslot))

/-- The test of a clause is not left at its end. -/
theorem does_tryClause (hregion : region ∈ cx.regions.regions) (hclause : clause ∈ region.clauses)
    (haim : Aim cx scope (.source clause.start)) (hr : cx.regions.handlerAt? cx.current = some r)
    (hscope : Dispatches cx scope r) (k : Nat) :
    Does cx scope (Arriving cx) (tryClause r region k clause) fun _ s =>
      s.reachable = false := by
  refine Does.bind (does_bindTest hr hscope k) fun _ => ?_
  split
  · exact does_tryTyped hregion hclause haim _ (hscope.tests (k + 1)).1 hscope.turns
  · split
    · next slot hslot =>
      refine Does.bind (does_stash hregion ?_) fun _ => does_jump_source hscope.turns haim
      exact List.mem_append_left _ (List.mem_append_right _ (Option.mem_toList.mpr hslot))
    · exact Does.throw
  · exact does_enterFinal hregion haim hscope.turns
  · exact does_enterFinal hregion haim hscope.turns

theorem does_mapException :
    Does cx scope P mapException fun _ => OnTop cx := by
  refine .read_bind ?_
  refine .bind routine_popReference.discard.runs.does fun _ => ?_
  exact .bind (routine_invokeStatic _).runs.does fun _ => does_push_thrown Thin.throwable

/-- The tests follow one another, and behind the last one there is a throw. -/
theorem does_emitTests (hprepared : Prepared cx) (hr : cx.regions.handlerAt? cx.current = some r)
    (hget : cx.regions.get r = .ok region) (hscope : Dispatches cx scope r) :
    Does cx scope (OnTop cx) (emitTests r region) fun _ s => s.reachable = false := by
  have hregion := mem_of_get hget
  have hsound := hprepared.laminar.sound region hregion
  have hoffset := handlerOffset_of_handlerAt? hr (getElem?_of_get hget)
  refine .bind (.forM fun k _ => ?_) fun _ => ?_
  · exact (does_save (aim_of_ne (fun o ho => by cases ho) (hscope.tests k).1)).weaken
      (fun _ hs => fit_dispatch.mpr hs) fun _ _ hs => fit_dispatch.mp hs
  refine .weaken (P := Arriving cx) ?_ (fun _ hs _ => hs) fun _ _ h => h
  have harriving : ∀ s : LowerState, s.reachable = false → Arriving cx s := by
    intro s hs hreach
    rw [hs] at hreach
    cases hreach
  refine .bind (.forM_ne (List.zipIdx_eq_nil_iff.not.mpr hsound.nonempty) harriving
    fun entry hentry => ?_) fun _ => ?_
  · obtain ⟨clause, k⟩ := entry
    have hclause := List.mem_of_getElem? (List.mk_mem_zipIdx_iff_getElem?.mp hentry)
    have hle := hsound.handlerOffset_le hclause
    refine does_tryClause hregion hclause (aim_of_ahead ⟨List.ne_nil_of_mem hregion, ?_⟩
      (hscope.clauses region hget clause hclause)) hr hscope k
    rw [hoffset] at hle
    rcases Nat.lt_or_eq_of_le hle with hlt | heq
    · exact .inl hlt
    · exact .inr ⟨heq, by rw [← heq, hr]; rfl⟩
  · split
    · exact .bind ((does_bindTest hr hscope _).weaken harriving fun _ _ h => h) fun _ =>
        does_throwTop hscope.turns
    · exact .pure fun _ h => h

/-- The label of a handler is bound where no code is reached. -/
theorem does_bindHandler (hr : cx.regions.handlerAt? cx.current = some r)
    (hscope : Dispatches cx scope r) :
    Does cx scope (fun s => s.reachable = false) (bindLabel (.handler r)) fun _ => OnTop cx := by
  refine .weaken (x := bindLabel (.handler r))
    (does_bindLabel hscope.turns nofun hr hscope.handler.1 hscope.handler.2)
    (fun s hs hreach => ?_) fun _ _ hs => fit_handler.mp hs
  rw [hs] at hreach
  cases hreach

/-- The code of a handler is not left at its end. What is known from the binding of its
label goes on to hold. -/
theorem does_emitDispatch {I J : LowerState → Prop} (hprepared : Prepared cx)
    (hr : cx.regions.handlerAt? cx.current = some r) (hscope : Dispatches cx scope r)
    (hJ : Lasting cx J) (hbind : Gives cx I (bindLabel (.handler r)) fun _ => J) :
    Does cx scope I (emitDispatch r) fun _ s => s.reachable = false ∧ J s := by
  refine .read_bind (.bind .get fun s₀ => ?_)
  dsimp only
  split
  · exact .throw_bind
  · next hreach =>
    refine .lift_bind fun region hget => ?_
    have htests := (does_emitTests hprepared hr hget hscope).during hJ
    refine .bind (((does_bindHandler hr hscope).weaken ?_ fun _ _ h => h).gives
      (hbind.weaken (fun _ h => h.2) fun _ _ h => h)) fun _ => ?_
    · rintro s ⟨rfl, -⟩
      exact Bool.eq_false_iff.mpr hreach
    split
    · exact htests
    · exact ((does_mapException (P := OnTop cx)).during hJ).bind fun _ => htests

-- ==== leaves

theorem routine_dropDownTo {H : Prop} {p : Pool} (keep : Nat) :
    Routine cx H p (dropDownTo keep) Any :=
  Routine.get.next fun _ => .forM fun _ _ => routine_dropTop

/-- What a scope has to allow for a leave to be lowered. -/
structure Relays (cx : Context) (scope : Scope) (source target : Nat) : Prop where
  direct : cx.regions.planLeave source target = .ok .direct → scope.saves (.source target)
  relay : ∀ r index, cx.regions.planLeave source target = .ok (.relay r index) →
    ∀ k, scope.saves (.dispatch r k)
  turns : scope.turns

/-- A leave goes to its target, or to a clause on the way with a sentinel. -/
theorem runs_leave {source target : Nat} (h : cx.targets.contains target = true)
    (hscope : Relays cx scope source target) :
    Runs cx scope (leave source target) fun _ => True := by
  refine Does.read_bind ?_
  refine Runs.bind (routine_dropDownTo 0).runs fun _ _ => ?_
  refine Runs.bind Runs.lift fun plan hplan => ?_
  split
  · exact runs_jump hscope.turns (aim_of_target h (hscope.direct hplan))
  · next r index =>
    refine Runs.bind Runs.lift fun region _ => ?_
    split
    · next k _ _ =>
      split
      · exact Runs.throw_bind
      · refine Runs.bind (runs_constant (Instr.chooses_intConstant _)) fun i hi => ?_
        refine Runs.bind (runs_emit hi) fun _ _ => ?_
        refine Runs.bind (runs_noteDepth 1) fun _ _ => ?_
        refine Runs.bind (routine_invokeStatic _).runs fun _ _ => ?_
        -- a sentinel enters the clause like something thrown
        refine Does.bind (does_pushNew_thrown fun _ => rfl) fun _ => ?_
        exact (does_jump hscope.turns (aim_of_ne (fun o ho => by cases ho)
          (hscope.relay r index hplan k))).weaken (fun _ hs => fit_dispatch.mpr hs)
          fun _ _ _ => trivial
    · exact Runs.throw

/-- Labels with numbers may be saved to wherever control may turn. -/
theorem Does.numbered {m : LowerM α} {Q : α → LowerState → Prop} (hturns : scope.turns)
    (h : (∀ label : Label, label.isNumbered = true → scope.saves label) → Does cx scope P m Q) :
    Does cx scope P m Q :=
  fun s a s' p hback hP hrun => h (hback.saves hturns) s a s' p hback hP hrun

/-- The index in the sentinel selects where the leave goes on. -/
theorem does_switchOnSentinel (hturns : scope.turns)
    (hsaves : ∀ label : Label, label.isNumbered = true → scope.saves label) (count sentinel : Nat) :
    Does cx scope (fun s => Made s (.resume r 0)) (switchOnSentinel r count sentinel)
      fun _ s => Made s (.resume r 0) := by
  have hI : Lasting cx fun s => Made s (.resume r 0) := lasting_made _
  have hresume : ∀ label ∈ (List.range count).map (Label.resume r) ++ [.resume r (count - 1)],
      ∃ i, label = .resume r i := by
    intro label hlabel
    rcases List.mem_append.mp hlabel with hlabel | hlabel
    · obtain ⟨i, -, rfl⟩ := List.mem_map.mp hlabel
      exact ⟨i, rfl⟩
    · exact ⟨_, List.mem_singleton.mp hlabel⟩
  refine Does.read_bind ?_
  refine Runs.during_bind (runs_emit ⟨rfl, rfl, rfl⟩) hI fun _ _ => ?_
  refine Runs.during_bind runs_onPool_any hI fun accessor _ => ?_
  refine Runs.during_bind (runs_emit ⟨rfl, rfl, rfl⟩) hI fun _ _ => ?_
  refine Runs.during_bind (Runs.discard runs_pop) hI fun _ _ => ?_
  refine Runs.during_bind (runs_pushNew _) hI fun _ _ => ?_
  refine ((does_switchTo hturns fun label hlabel => ?_).during hI).weaken
    (fun s hs => ⟨fun label hlabel => ?_, hs⟩) fun _ _ h => h.2
  · obtain ⟨i, rfl⟩ := hresume label hlabel
    exact ⟨aim_of_ne (fun o ho => by cases ho) (hsaves _ rfl), rfl⟩
  · obtain ⟨i, rfl⟩ := hresume label hlabel
    exact hs

/-- Behind each label the leave goes on from the start of the clause. -/
theorem does_emitResumptions (hprepared : Prepared cx) (hregion : region ∈ cx.regions.regions)
    (hturns : scope.turns) (hsaves : ∀ label : Label, label.isNumbered = true → scope.saves label)
    (hbinds : ∀ i, scope.binds (.resume r i))
    (hscope : ∀ t ∈ region.leaveTargets, Relays cx scope clause.start t) :
    Does cx scope (fun s => Made s (.resume r 0)) (emitResumptions r region clause)
      fun _ s => Made s (.resume r 0) := by
  have hI : Lasting cx fun s => Made s (.resume r 0) := lasting_made _
  rw [emitResumptions_eq]
  refine .forM fun entry hentry => ?_
  obtain ⟨target, index⟩ := entry
  have htarget := List.mem_of_getElem? (List.mk_mem_zipIdx_iff_getElem?.mp hentry)
  refine .bind (does_bindLabel_made hturns nofun trivial
    (hsaves (.resume r index) rfl) (hbinds index) rfl hI fun _ hs => hs) fun _ => ?_
  refine ((runs_leave (hprepared.leaves region hregion target htarget)
    (hscope target htarget)).during hI).weaken (fun _ h => h) fun _ _ h => h.2

/-- The labels of the resumptions are bound at the first end of the clause. -/
theorem runs_resumeLeaves (hprepared : Prepared cx) (hregion : region ∈ cx.regions.regions)
    (hresumes : scope.resumes r) (hturns : scope.turns)
    (hscope : ∀ t ∈ region.leaveTargets, Relays cx scope clause.start t) :
    Runs cx scope (resumeLeaves r region clause) fun _ => True := by
  refine Does.numbered hturns fun hsaves => Does.read_bind ?_
  refine Runs.bind runs_onPool_any fun sentinel _ => ?_
  refine Does.bind (does_freshLabel hturns lasting_true) fun selected => Does.of_fact ?_
  rintro ⟨n, rfl, hselected, hbinds⟩
  have hI : Lasting cx fun s => Made s (.synthetic n) ∧ True := (lasting_made _).and lasting_true
  refine Runs.during_bind (runs_emit ⟨rfl, rfl, rfl⟩) hI fun _ _ => ?_
  refine Runs.during_bind (runs_emit ⟨rfl, rfl, rfl⟩) hI fun _ _ => ?_
  refine Runs.during_bind (runs_noteDepth 1) hI fun _ _ => ?_
  refine Does.bind (does_branchTo_made rfl (aim_of_ne nofun hselected) rfl hI fun _ hs => hs.1)
    fun _ => ?_
  refine Does.backed (Does.bind Does.get fun s₀ => ?_)
  -- what the first end of the clause may bind, and where the others go
  refine Does.bind (M := fun _ s => (r ∉ s₀.resumed → ∀ i, scope.binds (.resume r i)) ∧
    Made s (.resume r 0) ∧ Made s (.synthetic n)) ?_ fun _ => Does.of_fact fun hfirst => ?_
  · refine Does.step fun s a s' p _ hP hrun => ?_
    obtain ⟨rfl, hback, hmade, -⟩ := hP
    cases hrun
    exact ⟨⟨[], .resumed r hresumes⟩, fun hnew i => hback.binds hturns (.resume r i) hnew,
      List.mem_cons_self, hmade⟩
  have hJ : Lasting cx fun s => Made s (.resume r 0) ∧ Made s (.synthetic n) :=
    (lasting_made _).and (lasting_made _)
  refine Runs.during_bind (runs_throwTop hturns) hJ fun _ _ => ?_
  refine Does.bind (does_bindLabel_made hturns nofun trivial hselected hbinds rfl hJ
    fun _ hs => hs.2) fun _ => ?_
  refine Does.weaken (P := fun s => Made s (.resume r 0)) ?_ (fun _ h => h.1) fun _ _ h => h
  have hresumptions : s₀.resumed.contains r = false →
      Does cx scope (fun s => Made s (.resume r 0)) (emitResumptions r region clause)
        fun _ _ => True := fun hnew =>
    (does_emitResumptions hprepared hregion hturns hsaves
      (hfirst (by simpa using hnew)) hscope).weaken (fun _ h => h) fun _ _ _ => trivial
  split
  · refine Runs.during_bind routine_dropTop.runs (lasting_made _) fun _ _ => ?_
    split
    · next hnew => exact hresumptions (by simpa using hnew)
    · exact (does_jump_made hturns (aim_of_ne (fun o ho => by cases ho) (hsaves _ rfl)) rfl
        (lasting_made (.resume r 0)) fun _ hs => hs).weaken (fun _ h => h) fun _ _ _ => trivial
  · refine Does.bind (does_switchOnSentinel hturns hsaves _ _) fun _ => ?_
    split
    · next hnew => exact hresumptions (by simpa using hnew)
    · exact Does.pure fun _ _ => trivial

/-- A clause ends with a throw, or with the leaves that entered it. -/
theorem runs_endFinally (hprepared : Prepared cx) {offset : Nat} (hturns : scope.turns)
    (hscope : ∀ site, cx.regions.finalClauseAt offset = .ok site →
      scope.resumes site.regionIndex ∧
        ∀ t ∈ site.region.leaveTargets, Relays cx scope site.clause.start t) :
    Runs cx scope (endFinally offset) fun _ => True := by
  refine Does.read_bind ?_
  refine Runs.bind Runs.lift fun site hsite => ?_
  obtain ⟨hregion, -⟩ := mem_of_finalClauseAt hsite
  -- once what the clause was entered with is on the stack
  have hrest : Runs cx scope
      (if (site.clause.kind = .fault || site.region.leaveTargets.isEmpty) = true then throwTop
      else resumeLeaves site.regionIndex site.region site.clause) fun _ => True := by
    split
    · exact runs_throwTop hturns
    · exact runs_resumeLeaves hprepared hregion (hscope site hsite).1 hturns (hscope site hsite).2
  dsimp only
  split
  · refine Runs.bind (routine_dropDownTo 0).runs fun _ _ => ?_
    exact Runs.bind (runs_load _) fun _ _ => hrest
  · exact Runs.bind (routine_dropDownTo 1).runs fun _ _ => hrest

-- ==== filters, rethrows

/-- What a scope has to allow for the end of a filter's condition to be lowered. -/
structure Decides (scope : Scope) (site : ClauseSite) : Prop where
  accept : scope.saves (.source site.clause.handlerStart)
  next : scope.saves (.dispatch site.regionIndex (site.clauseIndex + 1))
  reject : scope.saves (.filterReject site.regionIndex site.clauseIndex) ∧
    scope.binds (.filterReject site.regionIndex site.clauseIndex)
  turns : scope.turns

/-- The end of a filter's condition, with what is known from the binding of the label for
exceptions that are not accepted. -/
theorem does_endFilter {I J : LowerState → Prop} (hI : Lasting cx I) (hJ : Lasting cx J)
    (hscope : ∀ site, cx.regions.filterAt cx.current = .ok site → Decides scope site)
    (hbind : ∀ site, cx.regions.filterAt cx.current = .ok site →
      Gives cx I (bindLabel (.filterReject site.regionIndex site.clauseIndex)) fun _ => J) :
    Does cx scope I (endFilter cx.current) fun _ => J := by
  refine Does.read_bind ?_
  refine Does.lift_bind fun site hsite => ?_
  obtain ⟨hregion, hlt⟩ := mem_of_filterAt hsite
  have hscope := hscope site hsite
  have hfit : ∀ s, Fit cx (.filterReject site.regionIndex site.clauseIndex) s :=
    fun s => fit_of_made rfl trivial
  split
  · next slot hslot =>
    have hkept : slot ∈ site.region.keptSlots :=
      List.mem_append_left _ (List.mem_append_right _ (Option.mem_toList.mpr hslot))
    refine Runs.during_bind runs_popKind hI fun r _ => ?_
    dsimp only
    split
    · refine Does.bind (((does_branchTo rfl (aim_of_ne (fun o ho => by cases ho)
        hscope.reject.1)).during hI).weaken (fun s hs => ⟨hfit s, hs⟩) fun _ _ h => h.2) fun _ => ?_
      refine Runs.during_bind (runs_load _) hI fun _ _ => ?_
      refine Runs.during_bind (runs_jump hscope.turns (aim_of_ahead
        ⟨List.ne_nil_of_mem hregion, .inl hlt⟩ hscope.accept)) hI fun _ _ => ?_
      refine Does.bind (Does.gives (Does.weaken (does_bindLabel hscope.turns nofun trivial
        hscope.reject.1 hscope.reject.2) (fun s _ _ => hfit s) fun _ _ _ => trivial)
        (hbind site hsite)) fun _ => ?_
      refine Does.bind ((does_load_kept hregion hkept hscope.turns).during hJ) fun _ => ?_
      exact ((does_jump hscope.turns (aim_of_ne (fun o ho => by cases ho)
        hscope.next)).during hJ).weaken (fun _ hs => ⟨fit_dispatch.mpr hs.1, hs.2⟩) fun _ _ h => h.2
    · exact Does.throw_bind
  · exact Does.throw

/-- A rethrow throws what its clause keeps. -/
theorem runs_rethrow (hturns : scope.turns) (offset : Nat) :
    Runs cx scope (rethrow offset) fun _ => True := by
  refine .bind .read fun cx' _ => ?_
  refine .bind .lift fun slot _ => ?_
  exact .bind (runs_load slot) fun _ _ => runs_throwTop hturns

end Lowering

end BytecodeBridge
