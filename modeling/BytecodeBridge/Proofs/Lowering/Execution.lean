/-
The run of a lowering.

An operation is lowered in three parts: the handler that goes in front of
it, if there is one; the arrival at its label, which decides the frame the
operation starts from (`Arrival`); and the code of the operation itself.
All three are sequences of steps, so that whatever every step preserves
holds at the end of the whole run (`CodeSteps.keeps`).
-/
import BytecodeBridge.Proofs.Lowering.Exceptions
import BytecodeBridge.Proofs.Lowering.Preparation

namespace BytecodeBridge

/-- The context in which the operation at an offset is lowered. -/
def Context.atOffset (cx : Context) (offset : Nat) : Context :=
  { cx with current := offset }

namespace Lowering

open LowerM

variable {cx : Context} {scope : Scope}

variable {s s' : LowerState} {a : Unit} {code : List (Nat × Op)} {b : Stage} {T : TypeTable}
  {m : Method} {labels : LabelMap Nat}

-- ==== one operation

theorem runs_returnAs (hturns : scope.turns) (returns : Option Ty) :
    Runs cx scope (returnAs returns) fun _ => True := by
  cases returns with
  | none => exact (does_exit hturns ⟨rfl, rfl, rfl⟩).runs
  | some ty =>
    refine .bind runs_pop fun value _ => ?_
    refine .bind (.discard (runs_coerce value ty)) fun _ _ => ?_
    exact .bind (runs_stackKind ty) fun kind _ => (does_exit hturns ⟨rfl, rfl, rfl⟩).runs

theorem runs_ret (hturns : scope.turns) : Runs cx scope ret fun _ => True := by
  refine .bind .read fun cx' _ => ?_
  dsimp only
  split
  · refine .bind .get fun s₀ _ => ?_
    split
    · exact .throw_bind
    · exact runs_returnAs hturns _
  · exact runs_returnAs hturns _

/-- Whether the code of the operation may end, or go on at a label of its own. -/
def Op.turns : Op → Bool
  | .compare _ _ | .isInstance _ | .jump _ | .switch _ | .ret | .throw | .rethrow | .leave _
  | .endFinally | .endFilter => true
  | _ => false

/-- What a scope has to allow for an operation to be lowered: the labels that its code
transfers to, the change that it makes, and the turns it takes. -/
structure Admits (cx : Context) (scope : Scope) (op : Op) : Prop where
  stores : ∀ i, op = .storeArg i ∨ op = .storeLocal i → scope.changes
  calls : ∀ method virtual, op = .call method virtual → method.isConstructor = true →
    scope.changes
  targets : ∀ t ∈ op.targets, scope.saves (.source t)
  falls : ∀ targets next, op = .switch targets → cx.body.following cx.current = some next →
    scope.saves (.source next)
  leaves : ∀ target, op = .leave target → Relays cx scope cx.current target
  finals : op = .endFinally → ∀ site, cx.regions.finalClauseAt cx.current = .ok site →
    scope.resumes site.regionIndex ∧
      ∀ t ∈ site.region.leaveTargets, Relays cx scope site.clause.start t
  filters : op = .endFilter → ∀ site, cx.regions.filterAt cx.current = .ok site →
    Decides scope site
  turns : Op.turns op = true → scope.turns

theorem admits_all (cx : Context) (op : Op) : Admits cx .all op where
  stores _ _ := trivial
  calls _ _ _ _ := trivial
  targets _ _ := trivial
  falls _ _ _ _ := trivial
  leaves _ _ := ⟨fun _ => trivial, fun _ _ _ _ => trivial, trivial⟩
  finals _ _ _ := ⟨trivial, fun _ _ => ⟨fun _ => trivial, fun _ _ _ _ => trivial, trivial⟩⟩
  filters _ _ _ := ⟨trivial, trivial, ⟨trivial, trivial⟩, trivial⟩
  turns _ := trivial

/-- The code of an operation is emitted by steps. -/
theorem runs_lowerOp (hprepared : Prepared cx) {op : Op} (hop : (cx.current, op) ∈ cx.body.code)
    (hscope : Admits cx scope op) : Runs cx scope (lowerOp cx.current op) fun _ => True := by
  have htarget : ∀ t ∈ op.targets, cx.targets.contains t = true := hprepared.targets _ op hop
  have haim : ∀ t ∈ op.targets, Aim cx scope (.source t) := fun t ht =>
    aim_of_target (htarget t ht) (hscope.targets t ht)
  cases op with
  | storeArg i =>
    exact .bind .get fun _ _ => .bind .lift fun slot _ =>
      runs_storeDeclared (hscope.stores i (.inl rfl)) slot
  | storeLocal i =>
    exact .bind .get fun _ _ => .bind .lift fun slot _ =>
      runs_storeDeclared (hscope.stores i (.inr rfl)) slot
  | compare way unsigned => exact runs_compare (hscope.turns rfl) way unsigned
  | branch way unsigned target =>
    exact .bind (runs_comparison way unsigned) fun _ hi => runs_branchTo hi (haim target (.head _))
  | branchIf truth target => exact runs_branchIf truth (haim target (.head _))
  | jump target => exact runs_jump (hscope.turns rfl) (haim target (.head _))
  | switch targets =>
    exact runs_switch (hscope.turns rfl) haim fun next hnext =>
      aim_of_target (hprepared.falls _ targets next hop hnext)
        (hscope.falls targets next rfl hnext)
  | ret => exact runs_ret (hscope.turns rfl)
  | throw => exact runs_throwTop (hscope.turns rfl)
  | rethrow => exact runs_rethrow (hscope.turns rfl) _
  | leave target => exact runs_leave (htarget target (.head _)) (hscope.leaves target rfl)
  | endFinally => exact runs_endFinally hprepared (hscope.turns rfl) (hscope.finals rfl)
  | endFilter =>
    exact does_endFilter lasting_true lasting_true (hscope.filters rfl) fun _ _ _ _ _ _ _ => trivial
  | call method virtual => exact runs_call method virtual (hscope.calls method virtual rfl)
  | isInstance ty => exact runs_isInstance (hscope.turns rfl) ty
  | _ => exact (routine_lowerOp rfl _).runs

-- ==== arrival

/-- How the label of the current operation is bound. -/
inductive Arrival (cx : Context) (s : LowerState) : LowerState → Prop where
  /-- control goes on from above, and the label has a frame or is a target -/
  | merged {t : LowerState} {frame : Frame} (hreach : s.reachable = true)
      (hopen : s.frames.has (.source cx.current) = true ∨ cx.targets.contains cx.current = true)
      (hsave : Saves cx (.source cx.current) (widen cx.types s.slots s.frames.live) s t)
      (hframe : t.frames.recorded? (.source cx.current) = some frame) :
      Arrival cx s
        { t with
          frames := { t.frames with live := frame }.markBound (.source cx.current)
          code := t.code.bind (.source cx.current)
          reachable := true }
  /-- only branches reach the label -/
  | loaded {frame : Frame} (hreach : s.reachable = false)
      (hframe : s.frames.recorded? (.source cx.current) = some frame) :
      Arrival cx s
        { s with
          frames := { s.frames with live := frame }.markBound (.source cx.current)
          code := s.code.bind (.source cx.current)
          reachable := true }
  /-- only control from above reaches the label -/
  | pass (hhas : s.frames.has (.source cx.current) = false) (hreach : s.reachable = true)
      (htarget : cx.targets.contains cx.current = false) :
      Arrival cx s
        { s with
          frames := s.frames.markBound (.source cx.current)
          code := s.code.bind (.source cx.current)
          reachable := true }
  /-- nothing reaches the label so far -/
  | defer (hhas : s.frames.has (.source cx.current) = false) (hreach : s.reachable = false) :
      Arrival cx s
        { s with
          frames := (s.frames.defer (.source cx.current)
            (widen cx.types s.slots s.frames.live)).markBound (.source cx.current)
          code := s.code.bind (.source cx.current)
          reachable := true }

private theorem arrival_ok (h : (enterFrame cx.current >>= fun _ =>
    bindHere (.source cx.current)) cx s = .ok a s') : Arrival cx s s' := by
  obtain ⟨_, t, henter, hbind⟩ := lower_bind_ok h
  cases hbind
  -- saving the live frame and going on with what is recorded then
  have hmerge : s.reachable = true →
      (s.frames.has (.source cx.current) = true ∨ cx.targets.contains cx.current = true) →
      (save (.source cx.current) >>= fun _ => loadFrame (.source cx.current)) cx s = .ok () t →
      Arrival cx s { t with
        frames := t.frames.markBound (.source cx.current)
        code := t.code.bind (.source cx.current)
        reachable := true } := by
    intro hreach hopen hrun
    obtain ⟨_, u, hsave, hload⟩ := lower_bind_ok hrun
    obtain ⟨frame, hframe, rfl⟩ := loadFrame_ok hload
    exact .merged hreach hopen (save_ok hsave) hframe
  have henter := get_bind_ok henter
  split at henter
  · next hhas =>
    split at henter
    · next hreach => exact hmerge hreach (.inl hhas) henter
    · next hreach =>
      obtain ⟨frame, hframe, rfl⟩ := loadFrame_ok henter
      exact .loaded (Bool.eq_false_iff.mpr hreach) hframe
  · next hhas =>
    split at henter
    · next hreach =>
      have henter := read_bind_ok henter
      split at henter
      · next htarget => exact hmerge hreach (.inr htarget) henter
      · next htarget =>
        cases henter
        exact .pass (Bool.eq_false_iff.mpr hhas) hreach (Bool.eq_false_iff.mpr htarget)
    · next hreach =>
      cases henter
      exact .defer (Bool.eq_false_iff.mpr hhas) (Bool.eq_false_iff.mpr hreach)

/-- What a scope has to allow for an operation to be entered: its own label, the handler
in front of it, and the handlers of the regions that start there. -/
structure Enters (cx : Context) (scope : Scope) : Prop where
  source : scope.saves (.source cx.current) ∧ scope.binds (.source cx.current)
  handler : ∀ r, cx.regions.handlerAt? cx.current = some r → Dispatches cx scope r
  starts : ∀ r ∈ cx.regions.startingAt cx.current, scope.saves (.handler r)

theorem enters_all (cx : Context) : Enters cx .all where
  source := ⟨trivial, trivial⟩
  handler _ _ := ⟨⟨trivial, trivial⟩, fun _ => ⟨trivial, trivial⟩, fun _ _ _ _ => trivial, trivial⟩
  starts _ _ := trivial

/-- An arrival is a sequence of steps. Code that a handler ends with is not left, so
a label behind a handler is never passed through. -/
theorem Arrival.stepsIn (h : Arrival cx s s')
    (hhandler : cx.regions.handlerAt? cx.current = none ∨ s.reachable = false)
    (hscope : scope.saves (.source cx.current) ∧ scope.binds (.source cx.current))
    (p : List Label) : ∃ p', StepsIn cx scope (s, p) (s', p') := by
  obtain ⟨hsaves, hbinds⟩ := hscope
  cases h with
  | @merged t frame hreach hopen hsave hframe =>
    have hsaved : StepIn cx scope (s, p) (t, .source cx.current :: p) := by
      refine .save rfl (fun o ho => ?_) hsave (.inl rfl) hsaves trivial fun _ hentry => ?_
      · cases ho
        exact hopen.symm.imp_right .inl
      · cases hentry
    exact ⟨[], .tail (.single hsaved)
      (.bindLoaded rfl (fun _ => .head _) hframe hbinds)⟩
  | loaded hreach hframe =>
    refine ⟨[], .single (.bindLoaded rfl (fun h => ?_) hframe hbinds)⟩
    rw [hreach] at h
    cases h
  | pass hhas hreach htarget =>
    refine ⟨[], .single (.pass hhas hreach htarget (hhandler.resolve_right fun h => ?_) hbinds)⟩
    rw [hreach] at h
    cases h
  | defer hhas hreach => exact ⟨[], .single (.defer hhas hreach hbinds)⟩

theorem Arrival.steps (h : Arrival cx s s')
    (hhandler : cx.regions.handlerAt? cx.current = none ∨ s.reachable = false) (p : List Label) :
    ∃ p', Steps cx (s, p) (s', p') :=
  h.stepsIn hhandler ⟨trivial, trivial⟩ p

theorem HandlerSaves.steps {o : Nat} (h : HandlerSaves cx (cx.regions.startingAt o) s s')
    (p : List Label) :
    ∃ p', Steps cx (s, p) (s', p') :=
  h.stepsIn (fun _ hr => ⟨RegionTree.ne_nil_of_startingAt hr, trivial⟩) p

/-- What entering an operation does behind the handler in front of it. -/
def arrive (cx : Context) : LowerM Unit := do
  enterFrame cx.current
  bindHere (.source cx.current)
  (cx.regions.startingAt cx.current).forM saveAtHandler

theorem enter_eq (cx : Context) :
    enter cx.current cx = (match cx.regions.handlerAt? cx.current with
      | some r => emitDispatch r >>= fun _ => arrive cx
      | _ => arrive cx : LowerM Unit) cx :=
  rfl

theorem enter_of_handler {r : Nat} (h : cx.regions.handlerAt? cx.current = some r) :
    enter cx.current cx = (emitDispatch r >>= fun _ => arrive cx) cx := by
  rw [enter_eq, h]

theorem enter_of_no_handler (h : cx.regions.handlerAt? cx.current = none) :
    enter cx.current cx = arrive cx cx := by
  rw [enter_eq, h]

theorem arrive_ok (h : arrive cx cx s = .ok a s') :
    ∃ t, Arrival cx s t ∧ HandlerSaves cx (cx.regions.startingAt cx.current) t s' := by
  unfold arrive at h
  rw [← bind_assoc] at h
  obtain ⟨_, t, harrive, h⟩ := state_bind_ok
    (x := (enterFrame cx.current >>= fun _ => bindHere (.source cx.current) : LowerM Unit) cx)
    (f := fun _ => (cx.regions.startingAt cx.current).forM saveAtHandler cx) h
  exact ⟨t, arrival_ok harrive, handlerSaves_ok h⟩

/-- The parts of entering an operation: the handler in front of it, the arrival,
and what the handlers of the regions that start here are told. -/
theorem enter_ok (hprepared : Prepared cx) (hback : Backed cx scope s)
    (hscope : ∀ r, cx.regions.handlerAt? cx.current = some r → Dispatches cx scope r)
    (p : List Label) (h : enter cx.current cx s = .ok a s') :
    ∃ s₁ s₂ p₁, StepsIn cx scope (s, p) (s₁, p₁) ∧
      (cx.regions.handlerAt? cx.current = none ∨ s₁.reachable = false) ∧
      Arrival cx s₁ s₂ ∧ HandlerSaves cx (cx.regions.startingAt cx.current) s₂ s' := by
  rw [enter_eq] at h
  cases hhandler : cx.regions.handlerAt? cx.current with
  | none =>
    rw [hhandler] at h
    obtain ⟨s₂, harrive, hsaves⟩ := arrive_ok h
    exact ⟨s, s₂, p, .refl, .inl rfl, harrive, hsaves⟩
  | some r =>
    rw [hhandler] at h
    obtain ⟨_, s₁, hdispatch, h⟩ := lower_bind_ok h
    obtain ⟨⟨p₁, hsteps⟩, hreach, -⟩ := does_emitDispatch (I := fun _ => True) hprepared hhandler
      (hscope r hhandler) lasting_true (fun _ _ _ _ _ => trivial) s _ s₁ p hback trivial hdispatch
    obtain ⟨s₂, harrive, hsaves⟩ := arrive_ok h
    exact ⟨s₁, s₂, p₁, hsteps, .inr hreach, harrive, hsaves⟩

theorem runs_enter (hprepared : Prepared cx) (hscope : Enters cx scope) :
    Runs cx scope (enter cx.current) fun _ => True := by
  intro s a s' p hback _ hrun
  obtain ⟨s₁, s₂, p₁, hsteps, hhandler, harrive, hsaves⟩ :=
    enter_ok hprepared hback hscope.handler p hrun
  obtain ⟨p₂, hsteps₂⟩ := harrive.stepsIn hhandler hscope.source p₁
  obtain ⟨p₃, hsteps₃⟩ := hsaves.stepsIn
    (fun r hr => ⟨RegionTree.ne_nil_of_startingAt hr, hscope.starts r hr⟩) p₂
  exact ⟨⟨p₃, (hsteps.trans hsteps₂).trans hsteps₃⟩, trivial⟩

-- ==== the run

theorem Prepared.atOffset (h : Prepared cx) (offset : Nat) : Prepared (cx.atOffset offset) :=
  ⟨h.laminar, h.targets, h.falls, h.leaves⟩

/-- What is known of a state does not depend on the operation being lowered. -/
theorem backed_atOffset {offset : Nat} :
    Backed (cx.atOffset offset) scope s ↔ Backed cx scope s := by
  constructor
  · rintro ⟨hkept, hfits, hmade, hthin, hslender, hsaves, hbinds⟩
    exact ⟨hkept, hfits, hmade, fun h => hthin ⟨h.slim, h.throwable, h.owner⟩,
      fun hturns h => hslender hturns ⟨h.slim, h.throwable, h.owner⟩, hsaves, hbinds⟩
  · rintro ⟨hkept, hfits, hmade, hthin, hslender, hsaves, hbinds⟩
    exact ⟨hkept, hfits, hmade, fun h => hthin ⟨h.slim, h.throwable, h.owner⟩,
      fun hturns h => hslender hturns ⟨h.slim, h.throwable, h.owner⟩, hsaves, hbinds⟩

theorem lowerAt_ok {o : Nat} {op : Op} (h : lowerAt o op cx s = .ok a s') :
    ∃ t, enter o (cx.atOffset o) s = .ok () t ∧ lowerOp o op (cx.atOffset o) t = .ok () s' := by
  have hbind : (enter o >>= fun _ => lowerOp o op) (cx.atOffset o) s = .ok a s' := h
  obtain ⟨_, t, henter, hlower⟩ := lower_bind_ok hbind
  exact ⟨t, henter, hlower⟩

theorem steps_of_lowerAt (hprepared : Prepared cx) {o : Nat} {op : Op}
    (hop : (o, op) ∈ cx.body.code) (hback : Backed cx .all s) (h : lowerAt o op cx s = .ok a s')
    (p : List Label) :
    ∃ p', Steps (cx.atOffset o) (s, p) (s', p') := by
  have hruns : Runs (cx.atOffset o) .all (enter o >>= fun _ => lowerOp o op) fun _ => True :=
    .bind (runs_enter (hprepared.atOffset o) (enters_all _)) fun _ _ =>
      runs_lowerOp (hprepared.atOffset o) hop (admits_all _ op)
  exact (hruns s a s' p (backed_atOffset.mpr hback) trivial h).1

/-- Steps taken while some operations are lowered. -/
abbrev CodeSteps (cx : Context) (code : List (Nat × Op)) : Stage → Stage → Prop :=
  Relation.ReflTransGen fun a b => ∃ e ∈ code, Step (cx.atOffset e.1) a b

theorem CodeSteps.declared {a : Stage} (h : CodeSteps cx code a b) :
    b.1.slots.declared = a.1.slots.declared := by
  induction h with
  | refl => rfl
  | tail _ hstep ih =>
    obtain ⟨_, _, hstep⟩ := hstep
    exact hstep.declared.trans ih

theorem CodeSteps.of_steps {e : Nat × Op} (he : e ∈ code) {a : Stage}
    (h : Steps (cx.atOffset e.1) a b) : CodeSteps cx code a b :=
  Relation.ReflTransGen.mono (fun _ _ hstep => ⟨e, he, hstep⟩) _ _ h

theorem CodeSteps.mono {code' : List (Nat × Op)} (hsub : code ⊆ code') {a : Stage}
    (h : CodeSteps cx code a b) : CodeSteps cx code' a b :=
  Relation.ReflTransGen.mono (fun _ _ ⟨e, he, hstep⟩ => ⟨e, hsub he, hstep⟩) _ _ h

theorem CodeSteps.keeps {I : Stage → Prop} {a : Stage} (h : CodeSteps cx code a b)
    (hstep : ∀ e ∈ code, ∀ a b, I a → Step (cx.atOffset e.1) a b → I b) (ha : I a) : I b := by
  induction h with
  | refl => exact ha
  | tail _ hlast ih =>
    obtain ⟨e, he, hlast⟩ := hlast
    exact hstep e he _ _ ih hlast

theorem Backed.codeSteps {a : Stage} (h : Backed cx scope a.1) (hsteps : CodeSteps cx code a b) :
    Backed cx scope b.1 :=
  hsteps.keeps (I := fun c => Backed cx scope c.1)
    (fun _ _ _ _ hc hstep => backed_atOffset.mp ((backed_atOffset.mpr hc).step hstep)) h

/-- Lowering operations one after the other is a sequence of steps. -/
theorem codeSteps_of_forM (hprepared : Prepared cx) (hcode : ∀ e ∈ code, e ∈ cx.body.code)
    (hback : Backed cx .all s) (h : (code.forM fun (o, op) => lowerAt o op) cx s = .ok a s')
    (p : List Label) :
    ∃ p', CodeSteps cx code (s, p) (s', p') := by
  induction code generalizing s p with
  | nil =>
    cases h
    exact ⟨p, .refl⟩
  | cons e code ih =>
    obtain ⟨o, op⟩ := e
    obtain ⟨_, t, hfirst, h⟩ := lower_bind_ok h
    obtain ⟨p₁, hsteps⟩ :=
      steps_of_lowerAt hprepared (hcode _ List.mem_cons_self) hback hfirst p
    have hsteps : CodeSteps cx ((o, op) :: code) (s, p) (t, p₁) :=
      CodeSteps.of_steps List.mem_cons_self hsteps
    have hback : Backed cx .all t := Backed.codeSteps hback hsteps
    obtain ⟨p₂, hrest⟩ := ih (fun e he => hcode e (List.mem_cons_of_mem _ he)) hback h p₁
    exact ⟨p₂, hsteps.trans (CodeSteps.mono (List.subset_cons_self _ _) hrest)⟩

theorem lowerAll_ok (h : lowerAll code cx s = .ok a s') :
    (code.forM fun (o, op) => lowerAt o op) cx s = .ok () s' ∧ s'.reachable = false := by
  obtain ⟨_, t, hcode, h⟩ := lower_bind_ok h
  change (if t.reachable = true then (throw (.malformed .fallsOffEnd) : LowerM Unit)
    else pure ()) cx t = _ at h
  split at h
  · cases h
  · next hreach =>
    cases h
    exact ⟨hcode, Bool.eq_false_iff.mpr hreach⟩

/-- The parts of a successful run. -/
theorem run_ok {config : Config} {body : Body} {pool : Pool}
    (h : (lowerMethod config T pool body).result = .ok m) :
    ∃ cx s₁ s₂ s₃, prepare config T body (initial pool body) = .ok cx s₁ ∧
      lowerAll body.code cx s₁ = .ok () s₂ ∧ finish body.targetName cx s₂ = .ok m s₃ := by
  unfold lowerMethod at h
  split at h
  · next m' s hrun =>
    cases h
    obtain ⟨cx, s₁, hprepare, hrun⟩ := state_bind_ok hrun
    obtain ⟨_, s₂, hlower, hfinish⟩ := lower_bind_ok hrun
    exact ⟨cx, s₁, s₂, s, hprepare, hlower, hfinish⟩
  · cases h

/-- A lowering that succeeds: a start, the steps of all operations, and an end in code
that control does not leave. -/
theorem exists_run {config : Config} {body : Body} {pool : Pool}
    (h : (lowerMethod config T pool body).result = .ok m) :
    ∃ cx s₁ s₂ s₃ p, cx.types = T ∧ cx.body = body ∧ Started cx s₁ ∧
      CodeSteps cx body.code (s₁, []) (s₂, p) ∧ s₂.reachable = false ∧
      finish body.targetName cx s₂ = .ok m s₃ := by
  obtain ⟨cx, s₁, s₂, s₃, hprepare, hlower, hfinish⟩ := run_ok h
  obtain ⟨-, htypes, hbody, hstarted⟩ := prepare_ok hprepare
  obtain ⟨hcode, hreach⟩ := lowerAll_ok hlower
  obtain ⟨p, hsteps⟩ := codeSteps_of_forM hstarted.prepared
    (fun e he => hbody.symm ▸ he) hstarted.backed hcode []
  exact ⟨cx, s₁, s₂, s₃, p, htypes, hbody, hstarted, hsteps, hreach, hfinish⟩

-- ==== the end

theorem exists_backfill (cx : Context) (s : LowerState) : ∃ events, s.events ⊆ events ∧
    backfill cx s = .ok () { s with frames := s.frames.backfill.1, events } := by
  change ∃ events, _ ∧ (if 0 < _ then _ else _ : LowerM Unit) cx _ = _
  split
  · exact ⟨_, List.subset_cons_self _ _, rfl⟩
  · exact ⟨_, List.Subset.refl _, rfl⟩

theorem gives_backfill (s : LowerState) :
    Gives cx (· = s) backfill fun _ t => ∃ events, s.events ⊆ events ∧
      t = { s with frames := s.frames.backfill.1, events } := by
  rintro s a t rfl hrun
  obtain ⟨events, hevents, heq⟩ := exists_backfill cx s
  cases heq.symm.trans hrun
  exact ⟨events, hevents, rfl⟩

private theorem address_ok {label : Label} {a : Nat} (h : address labels label = .ok a) :
    labels[label]? = some a := by
  unfold address at h
  split at h
  · next ha =>
    split at h
    · cases h
    · cases h
      exact ha
  · cases h

/-- The label at which the code of a protected range ends. -/
def stopLabel (r : Nat) (region : Region) : Label :=
  if region.stop = region.handlerOffset then .handler r else .source region.stop

/-- The row of a region in the exception table, whether or not its range has code. -/
structure RowOf (labels : LabelMap Nat) (r : Nat) (region : Region) (row : ExceptionEntry) :
    Prop where
  start : labels[Label.source region.start]? = some row.startPc
  stop : labels[stopLabel r region]? = some row.stopPc
  handler : labels[Label.handler r]? = some row.handlerPc

private theorem rowOf_of_exceptionEntry? {catchType r : Nat} {region : Region}
    {entry : Option ExceptionEntry} (h : exceptionEntry? labels catchType r region = .ok entry) :
    ∃ row, RowOf labels r region row ∧
      entry = if row.startPc < row.stopPc then some row else none := by
  obtain ⟨startPc, hstart, h⟩ := except_bind_ok h
  obtain ⟨stopPc, hstop, h⟩ := except_bind_ok h
  obtain ⟨handlerPc, hhandler, h⟩ := except_bind_ok h
  exact ⟨⟨startPc, stopPc, handlerPc, catchType⟩,
    ⟨address_ok hstart, address_ok hstop, address_ok hhandler⟩, (except_pure_ok h).symm⟩

/-- The exception table has the rows of the regions that have code, in their order. -/
private theorem exists_rows {catchType : Nat} {regions : List (Region × Nat)}
    {entries : List (Option ExceptionEntry)}
    (h : List.Forall₂ (fun e entry => exceptionEntry? labels catchType e.2 e.1 = .ok entry)
      regions entries) :
    ∃ rows, List.Forall₂ (fun e row => RowOf labels e.2 e.1 row) regions rows ∧
      entries.filterMap id = rows.filter fun row => row.startPc < row.stopPc := by
  induction h with
  | nil => exact ⟨[], .nil, rfl⟩
  | cons hone _ ih =>
    obtain ⟨row, hrow, hentry⟩ := rowOf_of_exceptionEntry? hone
    obtain ⟨rows, hrows, hfilter⟩ := ih
    refine ⟨row :: rows, .cons hrow hrows, ?_⟩
    by_cases hlt : row.startPc < row.stopPc
    · rw [hentry, if_pos hlt]
      simpa [hlt] using hfilter
    · rw [hentry, if_neg hlt]
      simpa [hlt] using hfilter

private theorem offset_ofFrame {offset : Nat} {frame : Frame} :
    Yields (fun _ => True) (StackMapEntry.ofFrame T offset frame)
      fun entry _ => entry.offset = offset := by
  unfold StackMapEntry.ofFrame
  split
  · exact .bind (M := fun _ _ => False) .throw fun _ _ _ _ hfalse => hfalse.elim
  · exact .bind .any fun _ => .bind .any fun _ => .pure fun _ _ => rfl

/-- What a method is made from at the end of a run. -/
structure Finished (cx : Context) (s : LowerState) (asm : Assembly)
    (frames : Std.TreeMap Nat Frame) (m : Method) : Prop where
  assembled : s.code.assemble = .ok asm
  resolved : s.frames.backfill.1.resolve cx.types asm.labels = .ok frames
  checked : checkFrames frames asm.code = .ok ()
  code : m.code = asm.code
  entries : List.Forall₂
    (fun e entry => ∃ pool pool', StackMapEntry.ofFrame cx.types e.1 e.2 pool = .ok entry pool')
    (frames.toList.filter fun e => e.1 < asm.length) m.stackMap
  rows : ∃ rows,
    List.Forall₂ (fun e row => RowOf asm.labels e.2 e.1 row) cx.regions.regions.zipIdx rows ∧
    m.exceptions = rows.filter fun row => row.startPc < row.stopPc
  maxStack : m.maxStack = max s.frames.maxStack s.prologueStack
  maxLocals : m.maxLocals = s.slots.maxLocals
  sourceOffsets : m.sourceOffsets = Lowering.sourceOffsets asm.labels
  /-- what is listed with a name has a type that can be written down -/
  named : ∀ e ∈ s.slots.named, ∃ d, cx.types.descriptor e.2.2 = .ok d

theorem exists_finished {name : String} (h : finish name cx s = .ok m s') :
    (∃ asm frames, Finished cx s asm frames m) ∧ s.events ⊆ s'.events ∧
      s'.frames.maxStack = s.frames.maxStack := by
  let Later (t : LowerState) : Prop :=
    s.events ⊆ t.events ∧ t.frames.maxStack = s.frames.maxStack
  have hgives : Gives cx (· = s) (finish name) fun m t =>
      (∃ asm frames, Finished cx s asm frames m) ∧ Later t := by
    refine Gives.bind Gives.read fun cx' => Gives.of_fact fun hcx => ?_
    subst hcx
    refine Gives.bind (gives_backfill s) fun _ => ?_
    refine Gives.bind Gives.get fun s₁ => Gives.bind Gives.lift fun asm => ?_
    -- from here on the pool may grow, and nothing else is looked at
    refine Gives.bind (M := fun _ t => (s.code.assemble = .ok asm ∧
      s₁.frames = s.frames.backfill.1 ∧ s₁.prologueStack = s.prologueStack ∧
      s₁.slots = s.slots) ∧ Later t) ?_ fun _ => Gives.of_fact fun hstart => ?_
    · refine Gives.modify ?_
      rintro t ⟨hasm, rfl, events, hevents, rfl⟩
      exact ⟨⟨hasm, rfl, rfl, rfl⟩, hevents, FrameStore.maxStack_backfill _⟩
    obtain ⟨hasm, hframes, hprologue, hslots⟩ := hstart
    refine Gives.bind Gives.lift fun frames => Gives.of_fact fun hresolve => ?_
    refine Gives.bind Gives.lift fun _ => Gives.of_fact fun hcheck => ?_
    refine Gives.bind (M := fun stackMap t => List.Forall₂
      (fun e entry => ∃ pool pool',
        StackMapEntry.ofFrame cx'.types e.1 e.2 pool = .ok entry pool')
      (frames.toList.filter fun e => e.1 < asm.length) stackMap ∧ Later t)
      (Gives.onPool fun t entries pool hlater hmap => ⟨state_mapM_ok hmap, hlater⟩)
      fun stackMap => Gives.of_fact fun hentries => ?_
    refine Gives.bind (M := fun _ => Later)
      (Gives.onPool fun t _ pool hlater _ => hlater) fun catchType => ?_
    refine Gives.bind (Gives.mapM_lift (g := fun e : Region × Nat =>
      exceptionEntry? asm.labels catchType e.2 e.1)) fun exceptions =>
      Gives.of_fact fun hexceptions => ?_
    refine Gives.bind (Gives.mapM (R := fun e _ => ∃ d, cx'.types.descriptor e.2.2 = .ok d)
      fun e _ => ?_) fun locals => Gives.of_fact fun hlocals => ?_
    · exact Gives.bind Gives.lift fun d => Gives.pure fun _ h => ⟨⟨d, h.1⟩, h.2⟩
    refine Gives.pure fun t hlater => ⟨⟨asm, frames, hasm, ?_, hcheck, rfl, hentries,
      exists_rows hexceptions, ?_, ?_, rfl, ?_⟩, hlater⟩
    · rw [← hframes]
      exact hresolve
    · rw [hframes, hprologue, FrameStore.maxStack_backfill]
    · rw [hslots]
    · intro e he
      rw [← hslots] at he
      obtain ⟨_, -, hd⟩ := forall₂_mem_left hlocals he
      exact hd
  exact hgives s m s' rfl h

theorem Finished.exceptions {asm : Assembly} {frames : Std.TreeMap Nat Frame}
    (h : Finished cx s asm frames m) :
    ∀ e ∈ m.exceptions, ∃ r, asm.labels[Label.handler r]? = some e.handlerPc := by
  intro e he
  obtain ⟨rows, hrows, heq⟩ := h.rows
  rw [heq] at he
  obtain ⟨entry, -, hrow⟩ := forall₂_mem_right hrows (List.mem_filter.mp he).1
  exact ⟨entry.2, hrow.handler⟩

theorem Finished.offsets {asm : Assembly} {frames : Std.TreeMap Nat Frame}
    (h : Finished cx s asm frames m) : m.stackMap.map (·.offset)
      = (frames.toList.filter fun e => e.1 < asm.length).map Prod.fst := by
  have hoffsets : List.Forall₂ Eq (m.stackMap.map (·.offset))
      ((frames.toList.filter fun e => e.1 < asm.length).map Prod.fst) := by
    rw [List.forall₂_map_left_iff, List.forall₂_map_right_iff]
    refine (h.entries.imp fun e entry hone => ?_).flip
    obtain ⟨pool, pool', hone⟩ := hone
    exact offset_ofFrame pool entry pool' trivial hone
  rwa [List.forall₂_eq_eq_eq] at hoffsets

theorem mem_sourceOffsets_iff {labels : LabelMap Nat} {o a : Nat} :
    (o, a) ∈ sourceOffsets labels ↔ labels[Label.source o]? = some a := by
  unfold sourceOffsets
  rw [List.mem_filterMap, ← Std.TreeMap.mem_toList_iff_getElem?_eq_some]
  constructor
  · rintro ⟨⟨label, addr⟩, hmem, heq⟩
    cases label <;> cases heq
    exact hmem
  · exact fun hmem => ⟨_, hmem, rfl⟩

theorem ascending_sourceOffsets (labels : LabelMap Nat) :
    (sourceOffsets labels).Pairwise fun e d => e.1 < d.1 := by
  refine List.Pairwise.filterMap _ (fun e d hlt x hx y hy => ?_)
    (Std.TreeMap.ordered_keys_toList (t := labels))
  match e, d, hx, hy with
  | (.source o, _), (.source o', _), rfl, rfl =>
    change ((compare 0 0).then ((compare o o').then (compare 0 0))) = .lt at hlt
    simpa [Nat.compare_eq_lt] using hlt

end Lowering

end BytecodeBridge
