/-
Code is lowered against the frame that is published for it.

An operation is lowered with the live frame that its label was entered with.
What the stack map lists for the label is the frame it has in the end, and
that may be another one: a later branch to the label merges into it. This
module follows the frame of a label from the one time to the other.

# What can change

After its label is bound, a frame changes in two ways (`Drifts`). A repair
fills declared slots, and unsets nothing. A save merges: the stack keeps its
height, and every slot and stack entry keeps its type, or the change is
reported. A variable that loses its type so gets a default value at once;
the stack, an argument or a temporary cannot be repaired, and the report is
all there is (`Excused`).

# What an operation is entered with

A label with a recorded frame is entered with that frame. A label that
nothing reaches so far has none; the live frame is then put aside for it
with all declared slots widened, while the operation goes on with the types
as they are, so that a slot may be published with its wider, declared type
(`Meets`).

Without handlers, an operation is entered by nothing but the arrival at its
label. That either goes on with a frame that is published in the end
(`Visit.joined`) or passes through, with the frame the operation in front
leaves.
-/
import BytecodeBridge.Proofs.Lowering.Labels
import BytecodeBridge.Proofs.Lowering.Locals
import BytecodeBridge.Proofs.Lowering.StackMap
import BytecodeBridge.Proofs.Lowering.Visit

namespace BytecodeBridge

open FrameStore

theorem TypeTable.assignable_self (T : TypeTable) (t : Ty) : T.assignable t t = true := by
  unfold assignable
  rw [beq_self_eq_true]
  rfl

/-- The second frame has all that the first has, and maybe more locals. -/
structure Frame.Fills (old new : Frame) : Prop where
  stack : new.stack = old.stack
  locals : ∀ {k t}, old.locals.get? k = some t → new.locals.get? k = some t

theorem Frame.Fills.refl (f : Frame) : f.Fills f :=
  ⟨rfl, id⟩

theorem Frame.Fills.trans {a b c : Frame} (hab : a.Fills b) (hbc : b.Fills c) : a.Fills c :=
  ⟨hbc.stack.trans hab.stack, fun h => hbc.locals (hab.locals h)⟩

namespace Lowering

open LowerM (widen)

variable {cx : Context} {base : Nat} {s s' : LowerState} {label : Label}

variable {old new frame : Frame} {a b : Stage} {T : TypeTable}

-- ==== reports

/-- A change of the stack at a label was reported. -/
def StackChanged (label : Label) (s : LowerState) : Prop :=
  ∃ locals, .frameChanged label locals true ∈ s.events

/-- A change of a slot at a label was reported. -/
def SlotChanged (label : Label) (s : LowerState) (slot : Nat) : Prop :=
  ∃ locals stack, .frameChanged label locals stack ∈ s.events ∧ slot ∈ locals

/-- A slot whose type a label may lose: a variable with a default value, or a slot that
is no variable and whose change was reported. -/
def Excused (label : Label) (s : LowerState) (slot : Nat) : Prop :=
  s.slots.isDefaulted slot = true ∨ s.slots.isVariable slot = false ∧ SlotChanged label s slot

/-- How the frame of a label may change: what is lost is accounted for. -/
structure Drifts (label : Label) (s : LowerState) (old new : Frame) : Prop where
  height : new.stack.length = old.stack.length
  stack : new.stack = old.stack ∨ StackChanged label s
  locals : ∀ {k t}, old.locals.get? k = some t → new.locals.get? k = some t ∨ Excused label s k

theorem Drifts.of_fills (h : old.Fills new) : Drifts label s old new :=
  ⟨by rw [h.stack], .inl h.stack, fun hk => .inl (h.locals hk)⟩

theorem Drifts.refl (frame : Frame) : Drifts label s frame frame :=
  .of_fills (.refl frame)

/-- The later state knows of all reports and default values of the earlier one. -/
structure Later (s s' : LowerState) : Prop where
  events : s.events ⊆ s'.events
  defaulted : ∀ {k}, s.slots.isDefaulted k = true → s'.slots.isDefaulted k = true
  declared : s'.slots.declared = s.slots.declared

theorem Step.later (h : Step cx a b) : Later a.1 b.1 :=
  ⟨h.events, h.defaulted, h.declared⟩

theorem Saves.later (h : Saves cx label frame s s') : Later s s' :=
  ⟨h.mends.events, h.mends.defaulted, h.mends.declared⟩

theorem CodeSteps.later {code : List (Nat × Op)} (h : CodeSteps cx code a b) :
    Later a.1 b.1 := by
  induction h with
  | refl => exact ⟨List.Subset.refl _, id, rfl⟩
  | tail _ hstep ih =>
    obtain ⟨e, -, hstep⟩ := hstep
    have hlast := hstep.later
    exact ⟨List.Subset.trans ih.events hlast.events, fun hk => hlast.defaulted (ih.defaulted hk),
      hlast.declared.trans ih.declared⟩

theorem Excused.later {slot : Nat} (h : Excused label s slot) (hlater : Later s s') :
    Excused label s' slot := by
  rcases h with hdefault | ⟨hvariable, locals, stack, hevent, hslot⟩
  · exact .inl (hlater.defaulted hdefault)
  · refine .inr ⟨?_, locals, stack, hlater.events hevent, hslot⟩
    rwa [Slots.isVariable_congr hlater.declared]

theorem Drifts.trans {mid : Frame} (h : Drifts label s old mid) (hlater : Later s s')
    (h' : Drifts label s' mid new) : Drifts label s' old new := by
  refine ⟨h'.height.trans h.height, ?_, fun hk => ?_⟩
  · rcases h'.stack with heq | hchanged
    · rw [heq]
      refine h.stack.imp_right fun ⟨locals, hevent⟩ => ⟨locals, hlater.events hevent⟩
    · exact .inr hchanged
  · rcases h.locals hk with hmid | hexcused
    · exact h'.locals hmid
    · exact .inr (hexcused.later hlater)

-- ==== repairs and saves

/-- Repairs fill the frame of a label, and leave the rest of it as it is. -/
theorem Repair.fills (hrepair : Repair s s') (htidy : Tidy base s)
    (h : s.frames.frameOf label = some old) :
    ∃ new, s'.frames.frameOf label = some new ∧ old.Fills new := by
  cases hrepair with
  | @fill slot d hd =>
    refine ⟨old.fillLocal slot d.ty, ?_, rfl, fun hk => ?_⟩
    · rw [frameOf_materialize, h]
      rfl
    · exact (htidy.placed.frames label old h).get?_fill htidy.fits hd hk
  | default => exact ⟨old, h, .refl old⟩

theorem Repairs.fills (hrepairs : Repairs s s') (htidy : Tidy base s)
    (h : s.frames.frameOf label = some old) :
    ∃ new, s'.frames.frameOf label = some new ∧ old.Fills new := by
  have hkeeps := hrepairs.keeps
    (I := fun t => Tidy base t ∧ ∃ new, t.frames.frameOf label = some new ∧ old.Fills new)
    (fun t t' _ ht hrepair => by
      obtain ⟨htidy, mid, hmid, hfills⟩ := ht
      obtain ⟨new, hnew, hfills'⟩ := hrepair.fills htidy hmid
      exact ⟨htidy.repair hrepair, new, hnew, hfills.trans hfills'⟩)
    ⟨htidy, old, h, .refl old⟩
  exact hkeeps.2

theorem Tidy.stored (h : Tidy base s) {saved : Saved} {frames : FrameStore}
    (hstored : FrameStore.Stored cx.types label frame saved s.frames frames)
    (hframe : Placed base s.slots frame.locals) (events : List Event) (made : List Ty) :
    Tidy base { s with frames, events, made } :=
  ⟨h.fits, (stable_placed h.fits).throughout_stored h.placed hstored hframe⟩

theorem Saves.fills {other : Label} (hsave : Saves cx other frame s s') (hne : label ≠ other)
    (htidy : Tidy base s) (hframe : Placed base s.slots frame.locals)
    (h : s.frames.frameOf label = some old) :
    ∃ new, s'.frames.frameOf label = some new ∧ old.Fills new := by
  obtain ⟨frames, saved, events, made, hok, -, hrepairs, -⟩ := hsave.exists_save
  have hstored := FrameStore.save_ok hok
  exact hrepairs.fills (htidy.stored hstored hframe events made)
    ((hstored.others label hne).1.trans h)

/-- A save accounts for what the frame of a bound label loses by it. -/
theorem Saves.drifts (hsave : Saves cx label frame s s') (htidy : Tidy base s)
    (hframe : Placed base s.slots frame.locals) (hbound : s.frames.isBound label = true)
    (h : s.frames.frameOf label = some old) :
    ∃ new, s'.frames.frameOf label = some new ∧ Drifts label s' old new := by
  have hdeclared := hsave.mends.declared
  obtain ⟨frames, saved, events, made, hok, -, hrepairs, hreport⟩ := hsave.exists_save
  have hstored := FrameStore.save_ok hok
  rcases hstored.frame with ⟨hnone, -⟩ | ⟨old', mid, hold, hmid, hmerge, hsaved⟩
  · cases h.symm.trans hnone
  cases h.symm.trans hold
  obtain ⟨new, hnew, hfills⟩ := hrepairs.fills (htidy.stored hstored hframe events made) hmid
  refine ⟨new, hnew, ?_⟩
  rcases hsaved with rfl | hunbound | rfl
  · exact .of_fills hfills
  · cases hbound.symm.trans hunbound
  · obtain ⟨hevent, hdefaulted⟩ := hreport _ _ rfl
    refine ⟨?_, ?_, fun {k t} hk => ?_⟩
    · rw [hfills.stack, (Frame.merge_ok hmerge).1]
    · rw [hfills.stack]
      by_cases heq : mid.stack = old.stack
      · exact .inl heq
      · rw [bne_iff_ne.mpr heq] at hevent
        exact .inr ⟨_, hevent⟩
    · by_cases hkept : mid.locals.get? k = some t
      · exact .inl (hfills.locals hkept)
      · have hmem := FrameStore.mem_changedLocals.mpr ⟨t, hk, hkept⟩
        cases hvariable : s.slots.isVariable k with
        | true => exact .inr (.inl (hdefaulted k hmem hvariable))
        | false =>
          refine .inr (.inr ⟨?_, _, _, hevent, hmem⟩)
          rwa [Slots.isVariable_congr hdeclared]

-- ==== steps and runs

/-- A step accounts for what the frame of a bound label loses by it. -/
theorem Step.drifts (hstep : Step cx a b) (htidy : Tidy base a.1)
    (hbound : a.1.frames.isBound label = true) (h : a.1.frames.frameOf label = some old) :
    ∃ new, b.1.frames.frameOf label = some new ∧ Drifts label b.1 old new := by
  have hsaves : ∀ {s s' : LowerState} {other : Label} {frame old : Frame}, Tidy base s →
      s.frames.isBound label = true → s.frames.frameOf label = some old →
      frame.locals = (widen cx.types s.slots s.frames.live).locals →
      Saves cx other frame s s' →
      ∃ new, s'.frames.frameOf label = some new ∧ Drifts label s' old new := by
    intro s s' other frame old htidy hbound h hlocals hsave
    have hframe : Placed base s.slots frame.locals := by
      rw [hlocals]
      exact htidy.widened
    by_cases hne : label = other
    · subst hne
      exact hsave.drifts htidy hframe hbound h
    · obtain ⟨new, hnew, hfills⟩ := hsave.fills hne htidy hframe h
      exact ⟨new, hnew, .of_fills hfills⟩
  cases hstep with
  | push hpush =>
    obtain ⟨-, rfl⟩ := FrameStore.push_ok hpush
    exact ⟨old, h, Drifts.refl old⟩
  | pop hpop =>
    obtain ⟨_, -, rfl⟩ := FrameStore.pop_ok hpop
    exact ⟨old, h, Drifts.refl old⟩
  | change hchange htold =>
    obtain ⟨-, -, -, -, hsame, -⟩ := hchange.outline
    refine (htold.keeps (I := fun t => Tidy base t ∧ t.frames.isBound label = true ∧
      ∃ new, t.frames.frameOf label = some new ∧ Drifts label t old new)
      (fun r _ t t' _ ht hsave => ?_) ⟨htidy.change hchange, ?_, old, ?_, Drifts.refl old⟩).2.2
    · obtain ⟨htidy, hbound, mid, hmid, hdrifts⟩ := ht
      obtain ⟨new, hnew, hdrifts'⟩ := hsaves htidy hbound hmid (by rfl) hsave
      exact ⟨htidy.saves hsave htidy.widened, (hsave.mends.isBound label).trans hbound, new, hnew,
        hdrifts.trans hsave.later hdrifts'⟩
    · unfold FrameStore.isBound
      rw [hsame]
      exact hbound
    · exact (hchange.frameOf label).trans h
  | repair hrepair =>
    obtain ⟨new, hnew, hfills⟩ := hrepair.fills htidy h
    exact ⟨new, hnew, .of_fills hfills⟩
  | save hlocals _ hsave => exact hsaves htidy hbound h hlocals hsave
  | bindNew _ _ _ hsave =>
    obtain ⟨new, hnew, hdrifts⟩ := hsaves htidy hbound h rfl hsave
    exact ⟨new, hnew, hdrifts.height, hdrifts.stack, hdrifts.locals⟩
  | @defer s p hhas hreach =>
    refine ⟨old, ?_, Drifts.refl old⟩
    show (s.frames.defer _ _).frameOf label = some old
    rw [FrameStore.frameOf_defer, h]
    rfl
  | _ => exact ⟨old, h, Drifts.refl old⟩

/-- So does a run. -/
theorem CodeSteps.drifts {code : List (Nat × Op)} (hsteps : CodeSteps cx code a b)
    (htidy : Tidy base a.1) (hbound : a.1.frames.isBound label = true)
    (h : a.1.frames.frameOf label = some old) :
    ∃ new, b.1.frames.frameOf label = some new ∧ Drifts label b.1 old new := by
  have hkeeps := hsteps.keeps
    (I := fun c => Tidy base c.1 ∧ c.1.frames.isBound label = true ∧
      ∃ new, c.1.frames.frameOf label = some new ∧ Drifts label c.1 old new)
    (fun e _ c d hc hstep => by
      obtain ⟨htidy, hbound, mid, hmid, hdrifts⟩ := hc
      obtain ⟨new, hnew, hdrifts'⟩ := hstep.drifts htidy hbound hmid
      exact ⟨htidy.step hstep, hstep.isBound hbound, new, hnew,
        hdrifts.trans hstep.later hdrifts'⟩)
    ⟨htidy, hbound, old, h, .refl old⟩
  exact hkeeps.2.2

-- ==== entering

/-- What is known of the frame of a label while its operation is entered: it agrees with
the live frame, except for what got a default value and, if nothing has reached the label
so far, what was widened. -/
structure Meets (T : TypeTable) (label : Label) (s : LowerState) (frame : Frame) : Prop where
  ofLabel : s.frames.frameOf label = some frame
  stack : frame.stack = s.frames.live.stack
  locals : ∀ {k t}, s.frames.live.locals.get? k = some t →
    (s.frames.has label = true ∨ (widen T s.slots s.frames.live).locals.get? k = some t) →
    frame.locals.get? k = some t ∨ s.slots.isDefaulted k = true

/-- An arrival ends with the frame of its label, unless the label is passed through. -/
theorem Arrival.meets (h : Arrival cx s s') {p : List Label} (hsettled : Settled cx.targets (s, p))
    (hnew : .source cx.current ∉ boundLabels s.code.body) :
    (∃ frame, Meets cx.types (.source cx.current) s' frame) ∨
      s'.frames.frameOf (.source cx.current) = none ∧ s.reachable = true ∧
        cx.targets.contains cx.current = false := by
  cases h with
  | merged _ _ _ hframe | loaded _ hframe =>
    exact .inl ⟨_, frameOf_of_recorded? hframe, rfl, fun hk _ => .inl hk⟩
  | pass hhas hreach htarget =>
    exact .inr ⟨hsettled.frameOf_eq_none hnew hhas, hreach, htarget⟩
  | defer hhas hreach =>
    refine .inl ⟨widen cx.types s.slots s.frames.live, ?_, rfl, fun hk hor => ?_⟩
    · show (s.frames.defer _ _).frameOf _ = _
      rw [frameOf_defer, hsettled.frameOf_eq_none hnew hhas, if_pos rfl]
      rfl
    · rcases hor with hhas' | hwide
      · cases hhas.symm.trans hhas'
      · exact .inl hwide

theorem Saves.get?_live (h : Saves cx label frame s s') {k : Nat} {t : Ty}
    (hk : s'.frames.live.locals.get? k = some t) :
    s.frames.live.locals.get? k = some t ∨ s'.slots.isDefaulted k = true := by
  cases h with
  | kept hok =>
    rw [(FrameStore.save_ok hok).live] at hk
    exact .inl hk
  | changed _ _ _ hfilled => exact hfilled k t hk

/-- A save at another label keeps the frame of a label in agreement with the live one. -/
theorem Meets.saves {other : Label} {saved : Frame} (h : Meets T label s frame)
    (hsave : Saves cx other saved s s') (hne : label ≠ other) (htidy : Tidy base s)
    (hsaved : Placed base s.slots saved.locals) :
    ∃ frame, Meets T label s' frame := by
  obtain ⟨new, hnew, hfills⟩ := hsave.fills hne htidy hsaved h.ofLabel
  refine ⟨new, hnew, by rw [hfills.stack, h.stack, hsave.mends.stack], fun {k t} hk hor => ?_⟩
  rcases hsave.get?_live hk with hold | hdefault
  · have hor' : s.frames.has label = true ∨
        (widen T s.slots s.frames.live).locals.get? k = some t := by
      rcases hor with hhas | hwide
      · exact .inl (hsave.has_of_ne hne ▸ hhas)
      · obtain ⟨x, hx, heq⟩ := LowerM.get?_widen.mp hwide
        cases hk.symm.trans hx
        refine .inr (LowerM.get?_widen.mpr ⟨t, hold, ?_⟩)
        rwa [Slots.declaredType?_congr hsave.mends.declared] at heq
    exact (h.locals hold hor').imp hfills.locals hsave.mends.defaulted
  · exact .inr hdefault

theorem HandlerSaves.meets {o : Nat} {rs : List Nat} (hsaves : HandlerSaves cx rs s s')
    (htidy : Tidy base s) (h : ∃ frame, Meets cx.types (.source o) s frame) :
    Tidy base s' ∧ ∃ frame, Meets cx.types (.source o) s' frame := by
  refine hsaves.keeps (I := fun t => Tidy base t ∧ ∃ frame, Meets cx.types (.source o) t frame)
    (fun r _ t t' _ ht hsave => ?_) ⟨htidy, h⟩
  obtain ⟨htidy, frame, hmeets⟩ := ht
  exact ⟨htidy.saves hsave htidy.widened, hmeets.saves hsave nofun htidy htidy.widened⟩

-- ==== publication

/-- How the frame published for a label compares with the live frame that the operation
of the label was entered with. -/
structure Published (T : TypeTable) (label : Label) (entry final : LowerState) (frame : Frame) :
    Prop where
  /-- the stack has the height it had -/
  height : frame.stack.length = entry.frames.live.stack.length
  /-- what is on the stack fits in its place, or a change of the stack was reported -/
  stack : StackChanged label final ∨
    List.Forall₂ (fun published lowered => T.assignable published lowered = true)
      frame.stack entry.frames.live.stack
  /-- what is in a slot fits in its place, or its change is accounted for; if nothing had
  reached the label, that is only said of slots that widening leaves as they are -/
  locals : ∀ {k t}, entry.frames.live.locals.get? k = some t →
    (entry.frames.has label = true ∨
      (widen T entry.slots entry.frames.live).locals.get? k = some t) →
    (∃ u, frame.locals.get? k = some u ∧ T.assignable u t = true) ∨ Excused label final k

theorem Meets.published (h : Meets T label s old) (hlater : Later s s')
    (hdrifts : Drifts label s' old new) : Published T label s s' new := by
  refine ⟨by rw [hdrifts.height, h.stack], ?_, fun hk hor => ?_⟩
  · refine hdrifts.stack.symm.imp_right fun heq => ?_
    rw [heq, h.stack]
    exact List.forall₂_same.mpr fun t _ => T.assignable_self t
  · rcases h.locals hk hor with hold | hdefault
    · exact (hdrifts.locals hold).imp_left fun hnew => ⟨_, hnew, T.assignable_self _⟩
    · exact .inr (.inl (hlater.defaulted hdefault))

-- ==== the run

/-- Code at ascending offsets is lowered against the frame that is published for it, up to
what was reported or got a default value. -/
theorem entered_published {config : Config} {T : TypeTable} {pool : Pool} {body : Body}
    {m : Method} (h : (lowerMethod config T pool body).result = .ok m)
    (hordered : body.code.Pairwise fun a b => a.1 < b.1) {o : Nat} {op : Op}
    (hop : (o, op) ∈ body.code) :
    ∃ entry final, entered? config T pool body o = some entry ∧
      completed? config T pool body = some final ∧
      ∀ frame, final.frames.backfill.1.recorded[Label.source o]? = some ⟨frame, true⟩ →
        Published T (.source o) entry final frame := by
  obtain ⟨cx, start, reached, entry, after, final, hvisit, _, hfinish⟩ :=
    exists_visit h hordered hop
  refine ⟨entry, final, hvisit.entered, hvisit.completes, fun frame hframe => ?_⟩
  obtain ⟨rfl, -, hstarted⟩ := hvisit.started
  obtain ⟨⟨asm, _, hfinished⟩, -⟩ := exists_finished hfinish
  have honce := nodup_of_assemble hfinished.assembled
  -- the steps up to the label, how it is bound, and the steps from there to the end
  obtain ⟨p₀, hreached⟩ := hvisit.stepsBefore
  obtain ⟨before, bound, p, hdispatch, hhandler, harrive, hsaves⟩ :=
    enter_ok hvisit.ready (backed_atOffset.mpr hvisit.backed) (enters_all _).handler p₀
      hvisit.enters
  have hbefore : CodeSteps cx body.code (start, []) (before, p) :=
    hreached.trans (CodeSteps.of_steps hop hdispatch)
  -- what is recorded at the end is the frame of the label
  have hlast : final.frames.frameOf (.source o) = some frame := by
    rw [← FrameStore.recorded?_backfill]
    unfold FrameStore.recorded?
    rw [hframe]
    rfl
  -- the arrival binds the label, which is not bound at any other time
  obtain ⟨p', harriving⟩ := harrive.steps hhandler p
  obtain ⟨q', hsaving⟩ := hsaves.steps p'
  obtain ⟨q, hlowers⟩ := hvisit.stepsLowerIn hop (admits_all _ op) hvisit.backedEntry q'
  obtain ⟨post, r, hpost, hrest⟩ := hvisit.stepsBehind hordered hop q
  have hin : (o, op) ∈ (o, op) :: post := List.mem_cons_self
  have hbehind : ∀ e ∈ (o, op) :: post, o ≤ e.1 :=
    List.forall_mem_cons.mpr ⟨Nat.le_refl o, fun e he => Nat.le_of_lt (hpost e he)⟩
  have hentering := CodeSteps.of_steps hin hsaving
  have hafter : CodeSteps cx ((o, op) :: post) (entry, q') (final, r) :=
    (CodeSteps.of_steps hin hlowers).trans (hrest.mono (List.subset_cons_self _ _))
  obtain ⟨hbound, hlabels⟩ := harrive.binds
  have honce' := honce.sublist hafter.boundLabels_suffix.sublist
  have hnew : .source o ∉ boundLabels before.code.body := by
    have hnodup := honce'.sublist hentering.boundLabels_suffix.sublist
    rw [hlabels] at hnodup
    exact (List.nodup_cons.mp hnodup).1
  rcases harrive.meets (hbefore.settled hstarted.settled) hnew with
    hmeets | ⟨hnone, hreach, htarget⟩
  · have htidy := (CodeSteps.of_steps hin harriving).tidy (hbefore.tidy hstarted.tidy)
    obtain ⟨htidy, old, hmeets⟩ := hsaves.meets htidy hmeets
    have hbound := hentering.keeps (I := fun c => c.1.frames.isBound (.source o) = true)
      (fun _ _ _ _ hc hstep => hstep.isBound hc) hbound
    obtain ⟨new, hfinal, hdrifts⟩ := hafter.drifts htidy hbound hmeets.ofLabel
    cases hlast.symm.trans hfinal
    exact hmeets.published hafter.later hdrifts
  · -- a label that is passed through has no frame at the end
    have hlater : ∀ e ∈ (o, op) :: post, ¬ Ahead (cx.atOffset e.1) o := by
      rintro e he ⟨-, hlt | ⟨-, hsome⟩⟩
      · exact absurd hlt (Nat.not_lt.mpr (hbehind e he))
      · rcases hhandler with hnohandler | hunreached
        · exact Option.isSome_iff_ne_none.mp hsome hnohandler
        · cases hreach.symm.trans hunreached
    have hmem : .source o ∈ boundLabels bound.code.body := by
      rw [hlabels]
      exact List.mem_cons_self
    have hentry := hentering.passed htarget hlater hnone hmem honce'
    have hnone := hafter.passed htarget hlater hentry
      (hentering.boundLabels_suffix.subset hmem) honce
    cases hlast.symm.trans hnone

/-- The body of the loop is entered before anything reaches it, and its frame is published
when the test behind it branches back. -/
theorem entered_published_testLast :
    ∃ m entry final frame, (lowerMethod {} (.ofConfig {}) .empty testLast).result = .ok m ∧
      entered? {} (.ofConfig {}) .empty testLast 1 = some entry ∧
      completed? {} (.ofConfig {}) .empty testLast = some final ∧
      final.frames.backfill.1.recorded[Label.source 1]? = some ⟨frame, true⟩ ∧
      Published (.ofConfig {}) (.source 1) entry final frame := by
  obtain ⟨m, hm, -⟩ := exists_of_preview preview_testLast
  have hop : (1, Op.loadLocal 0) ∈ testLast.code := by simp [testLast]
  obtain ⟨entry, final, hentry, hfinal, hpublished⟩ := entered_published hm (by decide) hop
  have hemit : ((completed? {} (.ofConfig {}) .empty testLast).bind fun s =>
      (s.frames.backfill.1.recorded[Label.source 1]?).map (·.emit)) = some true := by
    cbv
  rw [hfinal, Option.bind_some, Option.map_eq_some_iff] at hemit
  obtain ⟨⟨frame, emit⟩, hframe, rfl⟩ := hemit
  exact ⟨m, entry, final, frame, hm, hentry, hfinal, hframe, hpublished frame hframe⟩

/-- A loop that is entered with a narrow type on the stack, and repeated with a wide one. -/
def widensStack : Body where
  owner := .ref "Loop"
  name := "again"
  kind := .static
  params := [⟨none, .ref "Narrow"⟩, ⟨none, .ref "java/lang/Object"⟩, ⟨none, .prim .int32⟩]
  locals := []
  returns := none
  code := [(0, .loadArg 0), (1, .pop), (2, .loadArg 1), (3, .loadArg 2), (4, .branchIf true 1),
    (5, .pop), (6, .ret)]
  handlers := []

theorem previewed_widensStack : (previewed {} (.ofConfig {}) widensStack).isSome = true := by
  cbv

/-- A stack that a later branch widens cannot be repaired: the code was lowered against
the narrow type, and the wide one is published. -/
theorem entered_narrower_widensStack :
    ∃ m entry final frame, (lowerMethod {} (.ofConfig {}) .empty widensStack).result = .ok m ∧
      entered? {} (.ofConfig {}) .empty widensStack 1 = some entry ∧
      completed? {} (.ofConfig {}) .empty widensStack = some final ∧
      final.frames.backfill.1.recorded[Label.source 1]? = some ⟨frame, true⟩ ∧
      entry.frames.live.stack = [.ref "Narrow"] ∧ frame.stack = [.ref "java/lang/Object"] ∧
      (TypeTable.ofConfig {}).assignable (.ref "java/lang/Object") (.ref "Narrow") = false := by
  obtain ⟨m, hm⟩ := exists_of_isSome previewed_widensStack
  have hentry : (entered? {} (.ofConfig {}) .empty widensStack 1).map (·.frames.live.stack)
      = some [.ref "Narrow"] := by
    cbv
  have hfinal : ((completed? {} (.ofConfig {}) .empty widensStack).bind fun s =>
      (s.frames.backfill.1.recorded[Label.source 1]?).map fun r => (r.frame.stack, r.emit))
        = some ([.ref "java/lang/Object"], true) := by
    cbv
  obtain ⟨entry, hentered, hentry⟩ := Option.map_eq_some_iff.mp hentry
  obtain ⟨final, hcompleted, hfinal⟩ := Option.bind_eq_some_iff.mp hfinal
  obtain ⟨⟨frame, emit⟩, hframe, hstack⟩ := Option.map_eq_some_iff.mp hfinal
  obtain ⟨hstack, rfl⟩ := Prod.mk.inj hstack
  exact ⟨m, entry, final, frame, hm, hentered, hcompleted, hframe, hentry, hstack, by cbv⟩

-- ==== published labels

section Visits

variable {config : Config} {pool : Pool} {body : Body} {e : Nat × Op}
  {start before entry after final : LowerState}

theorem Visit.mapped (h : Visit config T pool body e cx start before entry after final)
    (he : e ∈ body.code) : ∃ p, Mapped (final, p) := by
  obtain ⟨p, hentry⟩ := h.stepsEntry he
  obtain ⟨q, hfinal⟩ := h.stepsFinal he p
  exact ⟨q, CodeSteps.keeps (I := Mapped) (hentry.trans hfinal)
    (fun _ _ _ _ hc hstep => hc.step hstep) h.started.2.2.mapped⟩

/-- Arriving at a label either finds a frame there or passes through. -/
theorem Arrival.joins_or_passes (h : Arrival cx s s') :
    s'.frames.frameOf (.source cx.current) ≠ none ∨
      s'.frames.live = s.frames.live ∧ cx.targets.contains cx.current = false := by
  cases h with
  | merged _ _ _ hframe | loaded _ hframe =>
    refine .inl fun hnone => ?_
    cases hnone.symm.trans (frameOf_of_recorded? hframe)
  | pass _ _ htarget => exact .inr ⟨rfl, htarget⟩
  | defer =>
    refine .inl fun hnone => ?_
    change (s.frames.defer _ _).frameOf _ = none at hnone
    rw [frameOf_defer, if_pos rfl, Option.or_eq_none_iff] at hnone
    cases hnone.2

/-- A frame is published for an offset: control may come there from elsewhere than from
the operation in front of it. -/
def Joined (config : Config) (T : TypeTable) (pool : Pool) (body : Body) (o : Nat) : Prop :=
  ∃ final frame, completed? config T pool body = some final ∧
    final.frames.backfill.1.recorded[Label.source o]? = some ⟨frame, true⟩

/-- What an operation is entered with, if it does not pass through its label, is a frame
that is published. -/
theorem Visit.joined (h : Visit config T pool body e cx start before entry after final)
    (he : e ∈ body.code) (hnone : body.handlers = [])
    (hframe : entry.frames.frameOf (.source e.1) ≠ none) : Joined config T pool body e.1 := by
  obtain ⟨p, hentry⟩ := h.stepsEntry he
  obtain ⟨q, hafter⟩ := h.stepsFinal he p
  obtain ⟨-, -, hstarted⟩ := h.started
  obtain ⟨old, hold⟩ := Option.ne_none_iff_exists'.mp hframe
  obtain ⟨frame, hlast, -⟩ := hafter.drifts (hentry.tidy hstarted.tidy)
    (h.arrival hnone).binds.1 hold
  obtain ⟨_, hmapped⟩ := h.mapped he
  rw [← recorded?_backfill] at hlast
  obtain ⟨⟨_, emit⟩, hrecorded, rfl⟩ := Option.map_eq_some_iff.mp hlast
  cases hmapped.listed.backfill _ _ hrecorded
  exact ⟨final, _, h.completes, hrecorded⟩

end Visits

end Lowering

end BytecodeBridge
