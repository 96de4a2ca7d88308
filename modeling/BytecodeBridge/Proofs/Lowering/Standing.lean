/-
The states of a run, and what of the code stays.

Three facts hold in every state of a run and are needed together wherever
emitted code is followed to the end: the state is backed, its labels are
settled, and its pool is linked. `Standing` has all three. A part of a
lowering that is made of steps and links keeps them (`Standing.runs`), so
they hold when an operation is reached and when it is entered.

Code that is sealed is never taken back, and the pool only grows. What an
operation emits is therefore in the finished method, and its operands name
there what they named when it was emitted.
-/
import BytecodeBridge.Proofs.Lowering.Constants
import BytecodeBridge.Proofs.Lowering.Emission
import BytecodeBridge.Proofs.Lowering.Visit

namespace BytecodeBridge.Lowering

open LowerM

variable {cx : Context} {s t : LowerState}

-- ==== standing

theorem Settled.steps {a b : Stage} (h : Settled cx.targets a) (hsteps : Steps cx a b) :
    Settled cx.targets b := by
  induction hsteps with
  | refl => exact h
  | tail _ hstep ih => exact ih.step hstep

/-- What holds of every state of a run. -/
structure Standing (cx : Context) (s : LowerState) : Prop where
  backed : Backed cx .all s
  settled : ∃ p, Settled cx.targets (s, p)
  linked : Linked s

theorem standing_atOffset {offset : Nat} : Standing (cx.atOffset offset) s ↔ Standing cx s :=
  ⟨fun h => ⟨backed_atOffset.mp h.backed, h.settled, h.linked⟩,
    fun h => ⟨backed_atOffset.mpr h.backed, h.settled, h.linked⟩⟩

theorem Started.standing (h : Started cx s) (hpool : s.pool.Indexed) : Standing cx s := by
  refine ⟨h.backed, ⟨[], h.settled⟩, hpool, ?_⟩
  rw [h.code]
  exact .empty

theorem Standing.runs {α : Type} {m : LowerM α} {φ : α → Prop} {M : α → Pool → Prop} {x : α}
    (h : Standing cx s) (hruns : Runs cx .all m φ) (hproper : Proper cx True s.pool m M)
    (hrun : m cx s = .ok x t) : Standing cx t ∧ s.pool.PartOf t.pool := by
  obtain ⟨p, hsettled⟩ := h.settled
  obtain ⟨⟨p', hsteps⟩, -⟩ := hruns s x t p h.backed trivial hrun
  obtain ⟨hlinked, hpart, -⟩ := hproper.links trivial s x t h.linked (.refl _) hrun
  exact ⟨⟨h.backed.steps hsteps, ⟨p', hsettled.steps hsteps⟩, hlinked⟩, hpart⟩

theorem proper_arrive {p : Pool} : Proper cx True p (arrive cx) Any :=
  (proper_enterFrame _).next fun _ => (proper_bindHere _).next fun _ =>
    .forM fun r _ => proper_saveAtHandler r

theorem Standing.enter (h : Standing cx s) (hprepared : Prepared cx) {o : Nat} {a : Unit}
    (hrun : enter o (cx.atOffset o) s = .ok a t) : Standing cx t ∧ s.pool.PartOf t.pool := by
  obtain ⟨ht, hpart⟩ := (standing_atOffset.mpr h).runs
    (runs_enter (hprepared.atOffset o) (enters_all _)) (proper_enter o) hrun
  exact ⟨standing_atOffset.mp ht, hpart⟩

theorem Standing.lowerOp (h : Standing cx s) (hprepared : Prepared cx) {o : Nat} {op : Op}
    (hop : (o, op) ∈ cx.body.code) {a : Unit}
    (hrun : lowerOp o op (cx.atOffset o) s = .ok a t) : Standing cx t ∧ s.pool.PartOf t.pool := by
  obtain ⟨ht, hpart⟩ := (standing_atOffset.mpr h).runs
    (runs_lowerOp (hprepared.atOffset o) hop (admits_all _ op)) (proper_lowerOp o op) hrun
  exact ⟨standing_atOffset.mp ht, hpart⟩

theorem Standing.forM (h : Standing cx s) (hprepared : Prepared cx) {code : List (Nat × Op)}
    (hcode : ∀ e ∈ code, e ∈ cx.body.code) {a : Unit}
    (hrun : (code.forM fun (o, op) => lowerAt o op) cx s = .ok a t) :
    Standing cx t ∧ s.pool.PartOf t.pool := by
  induction code generalizing s with
  | nil =>
    cases hrun
    exact ⟨h, .refl _⟩
  | cons e code ih =>
    obtain ⟨o, op⟩ := e
    obtain ⟨_, u, hfirst, hrest⟩ := lower_bind_ok hrun
    obtain ⟨v, henter, hlower⟩ := lowerAt_ok hfirst
    obtain ⟨hv, hpart₁⟩ := h.enter hprepared henter
    obtain ⟨hu, hpart₂⟩ := hv.lowerOp hprepared (hcode _ (.head _)) hlower
    obtain ⟨ht, hpart₃⟩ := ih hu (fun e he => hcode e (.tail _ he)) hrest
    exact ⟨ht, (hpart₁.trans hpart₂).trans hpart₃⟩

theorem Backed.frameOf_eq_none (hback : Backed cx .all s)
    (hsettled : ∃ p, Settled cx.targets (s, p)) {label : Label} (hmade : ¬ Made s label) :
    s.frames.frameOf label = none := by
  obtain ⟨p, hsettled⟩ := hsettled
  refine hsettled.frameOf_eq_none_of_ne (fun o hsource => hmade (hsource ▸ trivial)) ?_
  rw [← Bool.not_eq_true]
  exact fun hhas => hmade (hback.made label hhas)

/-- A label that is not made yet has no frame. -/
theorem Standing.frameOf_eq_none (h : Standing cx s) {label : Label} (hmade : ¬ Made s label) :
    s.frames.frameOf label = none :=
  h.backed.frameOf_eq_none h.settled hmade

/-- A label gets a frame where it is saved to, unless it is one of a handler. -/
theorem StepIn.has_cases {scope : Scope} {a b : Stage} (h : StepIn cx scope a b) {label : Label}
    (hlabel : ∀ r, label ≠ .handler r) (hb : b.1.frames.has label = true) :
    a.1.frames.has label = true ∨ scope.saves label ∧ Open cx a.1 label := by
  cases h with
  | push h =>
    obtain ⟨-, rfl⟩ := FrameStore.push_ok h
    exact .inl hb
  | pop h =>
    obtain ⟨_, -, rfl⟩ := FrameStore.pop_ok h
    exact .inl hb
  | change h htold => exact .inl (((htold.has hlabel).trans (h.has label)) ▸ hb)
  | repair h => exact .inl ((h.has label) ▸ hb)
  | @save s s' p saved frame _ hopen h _ hsaves =>
    by_cases heq : label = saved
    · subst heq
      exact .inr ⟨hsaves, hopen⟩
    · exact .inl ((h.has_of_ne heq) ▸ hb)
  | @bindNew s s' p bound hbound _ _ h hscope =>
    by_cases heq : label = bound
    · subst heq
      exact .inr ⟨hscope.1, fun o ho => absurd ho (hbound.2 o)⟩
    · exact .inl ((h.has_of_ne heq) ▸ hb)
  | _ => exact .inl hb

-- ==== what stays

theorem suffix_of_steps {base : List Item} (hsealed : Sealed base) {a b : Stage}
    (ha : base <:+ a.1.code.body) (hsteps : Steps cx a b) : base <:+ b.1.code.body := by
  induction hsteps with
  | refl => exact ha
  | tail _ hstep ih => exact hstep.stays hsealed ih

theorem items_of_suffix {code : CodeBuffer} {block rest : List Item}
    (h : block.reverse ++ rest <:+ code.body) :
    ∃ front back, code.items = front ++ block ++ back := by
  obtain ⟨more, hmore⟩ := h
  refine ⟨code.prologue.reverse.map .instr ++ rest.reverse, more.reverse, ?_⟩
  rw [CodeBuffer.items, ← hmore]
  simp

-- ==== visits

section Visits

variable {config : Config} {T : TypeTable} {pool : Pool} {body : Body} {m : Method}
  {e : Nat × Op} {start before entry after final : LowerState}

variable (h : Visit config T pool body e cx start before entry after final)
include h

theorem Visit.part_of_finish (hfinal : Linked final)
    (hfinish : finish body.targetName cx final = .ok m s) :
    final.pool.PartOf (lowerMethod config T pool body).pool := by
  have hrun : run config T body (initial pool body) = .ok m s := by
    simp only [run, bind, EStateM.bind, ReaderT.bind, ReaderT.run, h.prepared, h.completed, hfinish]
  unfold lowerMethod
  rw [hrun]
  exact ((proper_finish _).links trivial final m s hfinal (.refl _) hfinish).2.1

theorem Visit.standing (hpool : pool.Indexed) : Standing cx before := by
  obtain ⟨-, rfl, hstarted⟩ := h.started
  obtain ⟨_, _, _, _, -, -, -, rfl⟩ := prepare_parts h.prepared
  exact ((hstarted.standing hpool).forM hstarted.prepared
    (fun e he => List.takeWhile_subset _ he) h.reached).1

theorem Visit.standingEntry (hpool : pool.Indexed) : Standing cx entry :=
  ((h.standing hpool).enter h.started.2.2.prepared h.enters).1

theorem Visit.standingAfter (hpool : pool.Indexed) (he : e ∈ body.code) : Standing cx after := by
  obtain ⟨-, rfl, hstarted⟩ := h.started
  exact ((h.standingEntry hpool).lowerOp hstarted.prepared he h.lowers).1

theorem Visit.arrived : ∃ s t, Arrival (cx.atOffset e.1) s t ∧
      HandlerSaves (cx.atOffset e.1) (cx.regions.startingAt e.1) t entry := by
  have hbacked := h.backed
  obtain ⟨-, rfl, hstarted⟩ := h.started
  obtain ⟨s, t, -, -, -, harrival, hsaves⟩ := enter_ok (hstarted.prepared.atOffset e.1)
    (backed_atOffset.mpr hbacked) (enters_all _).handler [] h.enters
  exact ⟨s, t, harrival, hsaves⟩

theorem Visit.bound : ∃ rest, entry.code.body = .bind (.source e.1) :: rest := by
  obtain ⟨s, t, harrival, hsaves⟩ := h.arrived
  rw [hsaves.mends.body]
  cases harrival <;> exact ⟨_, rfl⟩

/-- Behind its label an operation counts as reached. -/
theorem Visit.reachableEntry : entry.reachable = true := by
  obtain ⟨s, t, harrival, hsaves⟩ := h.arrived
  rw [hsaves.mends.reachable]
  cases harrival <;> rfl

/-- Where a handler starts, its code stands in front of the operation. -/
theorem Visit.handled {r : Nat} (hr : cx.regions.handlerAt? e.1 = some r) :
    ∃ u, emitDispatch r (cx.atOffset e.1) before = .ok () u ∧
      arrive (cx.atOffset e.1) (cx.atOffset e.1) u = .ok () entry := by
  have hhandler : (cx.atOffset e.1).regions.handlerAt? (cx.atOffset e.1).current = some r := hr
  obtain ⟨_, u, hdispatch, harrive⟩ := lower_bind_ok
    ((congrFun (enter_of_handler hhandler) before).symm.trans h.enters)
  exact ⟨u, hdispatch, harrive⟩

/-- What is sealed once an operation is lowered is in the code to the end. -/
theorem Visit.staysCode (he : e ∈ body.code) {base : List Item} (hsealed : Sealed base)
    (hafter : base <:+ after.code.body) : base <:+ final.code.body := by
  obtain ⟨_, _, -, hfinal⟩ := h.stepsLower he []
  exact hfinal.keeps (I := fun b => base <:+ b.1.code.body)
    (fun _ _ _ _ hb hstep => hstep.stays hsealed hb) hafter

/-- What is sealed once an operation is lowered is in the finished code, with the pool it
was emitted for as a part of the one in the end. -/
theorem Visit.stays (hpool : pool.Indexed) (he : e ∈ body.code)
    (hfinish : finish body.targetName cx final = .ok m s) {base : List Item} (hsealed : Sealed base)
    (hafter : base <:+ after.code.body) :
    base <:+ final.code.body ∧ after.pool.PartOf (lowerMethod config T pool body).pool := by
  refine ⟨h.staysCode he hsealed hafter, ?_⟩
  have hstanding := h.standingAfter hpool he
  obtain ⟨post, hpost, hrest⟩ := h.rest
  obtain ⟨-, hbody, hstarted⟩ := h.started
  rw [← hbody] at hpost
  obtain ⟨hfinal, hpart⟩ := hstanding.forM hstarted.prepared hpost hrest
  exact hpart.trans (h.part_of_finish hfinal.linked hfinish)

end Visits

end BytecodeBridge.Lowering
