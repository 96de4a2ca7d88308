/-
The receiver of a constructor before it is initialised.

A constructor starts with an object in its first slot that has a type of
its own, `uninitThis`. Two things change that slot: a store to the first
argument, and a call of a constructor on the object, which puts the type of
the owner for it throughout the live frame. This file shows that nothing
else does (`raw_of_lowerOp`).

The code of most operations stays within a scope that changes no slot of the
source and binds no labels but those it makes (`Scope.own`). At such a label
all frames that are merged come from the operation itself, so the slot
survives there (`Pending`), as it does for stores to other slots and for
constructors called on other objects.
-/
import BytecodeBridge.Proofs.Lowering.Cells
import BytecodeBridge.Proofs.Lowering.LocalSlots

namespace BytecodeBridge

theorem TypeTable.assignable_uninitThis {T : TypeTable} {t : Ty} (htop : t ≠ .top)
    (h : T.assignable .uninitThis t = true) : t = .uninitThis := by
  unfold TypeTable.assignable at h
  cases t <;> simp_all [Ty.isTop]

namespace Lowering

open LowerM (widen)

variable {cx : Context} {first s s' : LowerState} {locals : SlotMap Ty}

-- ==== the slot

/-- The first slot holds an object that is not initialised. -/
def Raw (locals : SlotMap Ty) : Prop :=
  locals.get? 0 = some .uninitThis

theorem Raw.store (h : Raw locals) {slot : Nat} (hslot : slot ≠ 0) (ty : Ty) :
    Raw (locals.store slot ty) := by
  -- the receiver takes one slot, so it is not wide below another
  have hbelow : locals.shadowed slot = true → slot - 1 ≠ 0 := by
    intro hshadow hzero
    unfold SlotMap.shadowed at hshadow
    rw [hzero, h] at hshadow
    simp [Ty.category] at hshadow
  have hlow : (if locals.shadowed slot then locals.erase (slot - 1) else locals).get? 0
      = some .uninitThis := by
    split
    · next hshadow => rw [SlotMap.get?_erase, if_neg (hbelow hshadow), h]
    · exact h
  unfold Raw SlotMap.store
  rw [SlotMap.get?_insert, if_neg hslot]
  split
  · rw [SlotMap.get?_erase, if_neg (Nat.succ_ne_zero slot), hlow]
  · exact hlow

theorem Raw.fill (h : Raw locals) (slot : Nat) (ty : Ty) : Raw (locals.fill slot ty) :=
  SlotMap.get?_fill_of_some h fun _ => (Nat.succ_ne_zero slot).symm

theorem Raw.erase (h : Raw locals) {slot : Nat} (hslot : slot ≠ 0) : Raw (locals.erase slot) := by
  unfold Raw
  rw [SlotMap.get?_erase, if_neg hslot, h]

theorem Raw.merge {T : TypeTable} {a b c : Frame} (ha : Raw a.locals) (hb : Raw b.locals)
    (h : a.merge T b = .ok c) : Raw c.locals := by
  have hjoin : T.join .uninitThis .uninitThis = .uninitThis := by simp [TypeTable.join]
  exact (Frame.merge_ok h).2.mpr ⟨_, _, ha, hb, hjoin, by rw [hjoin]; rfl⟩

theorem Raw.widen {T : TypeTable} {slots : Slots} {frame : Frame} {d : Declared}
    (h : Raw frame.locals) (hd : slots.declared? 0 = some d) (htop : d.ty ≠ .top) :
    Raw (widen T slots frame).locals := by
  refine LowerM.get?_widen.mpr ⟨_, h, ?_⟩
  unfold Slots.declaredType?
  rw [hd]
  dsimp only [Option.map_some]
  split
  · next hassignable => exact (TypeTable.assignable_uninitThis htop hassignable).symm
  · rfl

-- ==== steps

/-- The scope of an operation that changes no slot of the source and binds no labels but
those it makes. -/
def Scope.own (first : LowerState) : Scope :=
  ⟨fun _ => True, fun label => ¬ Made first label, False, fun _ => True, True⟩

/-- The receiver is not initialised, neither here nor where the labels lead that were made
since an earlier state. -/
structure Pending (cx : Context) (first s : LowerState) : Prop where
  live : Raw s.frames.live.locals
  frames : ∀ label frame, ¬ Made first label → s.frames.frameOf label = some frame →
    Raw frame.locals
  receiver : ∃ d, s.slots.declared? 0 = some d ∧ d.ty ≠ .top
  fits : ∃ base, s.slots.Fits base

namespace Pending

theorem each (h : Pending cx first s) :
    s.frames.Each fun l f => (∀ label, l = some label → ¬ Made first label) → Raw f.locals :=
  ⟨fun _ => h.live, fun l f hf hl => h.frames l f (hl l rfl) hf⟩

theorem mends (h : Pending cx first s) (hmends : Mends s s')
    (heach : s'.frames.Each fun l f =>
      (∀ label, l = some label → ¬ Made first label) → Raw f.locals) : Pending cx first s' := by
  refine ⟨heach.live nofun, fun l f hl hf => heach.frames l f hf ?_, ?_, ?_⟩
  · rintro _ ⟨⟩
    exact hl
  · rw [Slots.declared?_congr hmends.declared]
    exact h.receiver
  · exact h.fits.imp fun _ => hmends.fits

theorem repair (h : Pending cx first s) (hrepair : Repair s s') : Pending cx first s' :=
  h.mends hrepair.mends (hrepair.each (fun _ _ _ _ hf hl => (hf hl).fill _ _) h.each)

theorem saves (h : Pending cx first s) {label : Label} {frame : Frame}
    (hsave : Saves cx label frame s s') (hframe : Raw frame.locals) : Pending cx first s' :=
  h.mends hsave.mends (hsave.each (fun _ _ _ _ hf hl => (hf hl).fill _ _)
    (fun hold hmerged hl => (hold hl).merge hframe hmerged) (fun _ => hframe) h.each)

theorem widened (h : Pending cx first s) : Raw (widen cx.types s.slots s.frames.live).locals := by
  obtain ⟨d, hd, htop⟩ := h.receiver
  exact h.live.widen hd htop

theorem ne_zero (h : Pending cx first s) {slot : Nat} (hslot : s.slots.declared? slot = none) :
    slot ≠ 0 := by
  rintro rfl
  obtain ⟨d, hd, -⟩ := h.receiver
  cases hslot.symm.trans hd

/-- Where there are no regions, a change that a scope allows concerns a temporary. -/
theorem change (h : Pending cx first s) (hregions : cx.regions.regions = [])
    {t : LowerState} (hchange : Change cx s t) (hscope : Allows cx (.own first) s t) :
    Pending cx first t := by
  obtain ⟨base, hfits⟩ := h.fits
  have hdeclared := hchange.outline.1
  rcases hscope with hnever | ⟨slot, ty, hnever | hnone | hslot, hframes⟩
  · exact hnever.elim
  · exact hnever.elim
  · exact absurd hregions hnone
  · refine ⟨?_, ?_, ?_, base, hchange.fits hfits⟩
    · rw [hframes]
      exact h.live.store (h.ne_zero hslot) ty
    · rw [hframes]
      exact h.frames
    · rw [Slots.declared?_congr hdeclared]
      exact h.receiver

/-- A step in the scope of an operation does not initialise the receiver. -/
theorem step (h : Pending cx first s) (hregions : cx.regions.regions = []) {p p' : List Label}
    (hstep : StepIn cx (.own first) (s, p) (s', p')) : Pending cx first s' := by
  have hreceiver : ∃ d, s'.slots.declared? 0 = some d ∧ d.ty ≠ .top := by
    rw [Slots.declared?_congr hstep.step.declared]
    exact h.receiver
  have hfits : ∃ base, s'.slots.Fits base := by
    obtain ⟨base, hfits⟩ := h.fits
    exact ⟨base, hstep.step.fits hfits⟩
  cases hstep with
  | @release _ _ slot slots hrelease =>
    refine ⟨h.live.erase ?_, h.frames, hreceiver, hfits⟩
    -- temporaries lie above what is declared
    obtain ⟨base, hbase⟩ := h.fits
    obtain ⟨d, hd, -⟩ := h.receiver
    have hbelow := hbase.below hd
    have habove := hbase.le_of_release hrelease
    have hpos := d.ty.category_pos
    omega
  | push hpush =>
    obtain ⟨-, rfl⟩ := FrameStore.push_ok hpush
    exact ⟨h.live, h.frames, hreceiver, hfits⟩
  | pop hpop =>
    obtain ⟨_, -, rfl⟩ := FrameStore.pop_ok hpop
    exact ⟨h.live, h.frames, hreceiver, hfits⟩
  | change hchange htold hscope =>
    rw [RegionTree.protecting_of_nil hregions] at htold
    cases htold
    exact h.change hregions hchange hscope
  | repair hrepair => exact h.repair hrepair
  | save hlocals _ hsave =>
    refine h.saves hsave ?_
    rw [hlocals]
    exact h.widened
  | bindLoaded _ _ hframe hscope =>
    have hraw := h.frames _ _ hscope (FrameStore.frameOf_of_recorded? hframe)
    exact ⟨hraw, h.frames, hreceiver, hfits⟩
  | bindNew _ _ _ hsave =>
    have hsaved := h.saves hsave h.widened
    exact ⟨hsaved.live, hsaved.frames, hreceiver, hfits⟩
  | pass _ _ _ _ hscope | defer _ _ hscope => exact absurd trivial hscope
  | _ => exact ⟨h.live, h.frames, hreceiver, hfits⟩

theorem steps (hregions : cx.regions.regions = []) {a b : Stage} (h : Pending cx first a.1)
    (hsteps : StepsIn cx (.own first) a b) : Pending cx first b.1 := by
  induction hsteps with
  | refl => exact h
  | tail _ hstep ih => exact ih.step hregions hstep

end Pending

-- ==== layout

/-- The receiver has the first slot, and no argument or variable shares it. -/
structure Housed (owner : Ty) (s : Slots) : Prop where
  receiver : s.declared? 0 = some ⟨.argument, some "this", owner⟩
  written : s.written.contains 0 = true
  args : ∀ i slot, s.argumentSlot i = .ok slot → i ≠ 0 → slot ≠ 0
  vars : ∀ i slot, s.variableSlot i = .ok slot → slot ≠ 0

/-- Temporaries and marks are no part of the layout. -/
theorem Housed.step {owner : Ty} {p p' : List Label} (h : Housed owner s.slots)
    (hstep : Step cx (s, p) (s', p')) : Housed owner s'.slots := by
  have hmarks : ∀ {slots : Slots}, s.slots.Remarked slots → Housed owner slots := by
    rintro slots ⟨defaulted, written, rfl, hwritten⟩
    exact ⟨h.receiver, hwritten 0 h.written, h.args, h.vars⟩
  cases hstep with
  | borrow hborrow =>
    obtain ⟨_, _, _, _, rfl⟩ := Slots.borrow_ok hborrow
    exact ⟨h.receiver, h.written, h.args, h.vars⟩
  | release hrelease =>
    obtain ⟨_, _, _, rfl⟩ := Slots.release_ok hrelease
    exact ⟨h.receiver, h.written, h.args, h.vars⟩
  | change hchange htold => exact hmarks (hchange.remarked.trans htold.remarked)
  | repair hrepair => exact hmarks hrepair.remarked
  | save _ _ hsave | bindNew _ _ _ hsave => exact hmarks hsave.remarked
  | _ => exact h

theorem Housed.codeSteps {owner : Ty} {code : List (Nat × Op)} {a b : Stage}
    (h : Housed owner a.1.slots) (hsteps : CodeSteps cx code a b) : Housed owner b.1.slots :=
  hsteps.keeps (I := fun c => Housed owner c.1.slots) (fun _ _ _ _ hc hstep => hc.step hstep) h

private theorem arguments_of_instance {body : Body} (hkind : body.kind ≠ .static) :
    arguments body = (some "this", body.owner, receiverType body) ::
      body.params.map fun p => (p.name, p.ty, p.ty) := by
  unfold arguments
  rw [if_neg hkind]

/-- The receiver is laid out first, and set at the start. -/
theorem LaidOut.housed {body : Body} {regions : RegionTree} {slots : Slots}
    (h : LaidOut body locals regions slots) (hkind : body.kind ≠ .static) :
    Housed body.owner slots ∧ locals.get? 0 = some (receiverType body) := by
  have hpos := body.owner.category_pos
  have hfirst : (arguments body)[0]? = some (some "this", body.owner, receiverType body) := by
    rw [arguments_of_instance hkind]
    rfl
  refine ⟨⟨(h.args hfirst).1, (h.args hfirst).2, fun i slot hslot hi => ?_, fun i slot hslot => ?_⟩,
    h.set_iff.mpr ⟨0, _, hfirst, rfl, rfl⟩⟩
  · -- the other arguments lie above it
    rw [(h.onlyArgs hslot).2]
    have habove := argumentSlot_add_le hfirst (Nat.pos_of_ne_zero hi)
    dsimp only at habove
    omega
  · rw [(h.onlyVars hslot).2, variableSlot, arguments_of_instance hkind, List.map_cons,
      slotsOf_cons]
    dsimp only
    omega

-- ==== operations

/-- A store into another slot leaves the receiver as it is. -/
theorem Pending.storeDeclared (h : Pending cx s s) (hregions : cx.regions.regions = [])
    (hback : Backed cx (.own s) s) {slot : Nat} (hslot : slot ≠ 0) {a : Unit}
    (hrun : LowerM.storeDeclared slot cx s = .ok a s') : Raw s'.frames.live.locals := by
  obtain ⟨value, t, hpop, hrun⟩ := lower_bind_ok hrun
  obtain ⟨⟨p, hsteps⟩, -⟩ := runs_pop s value t [] hback trivial hpop
  obtain ⟨_, u, hget, hrun⟩ := lower_bind_ok hrun
  cases hget
  cases hty : t.slots.declaredType? slot with
  | none =>
    rw [hty] at hrun
    cases hrun
  | some ty =>
    rw [hty] at hrun
    obtain ⟨stored, u, hcoerce, hrun⟩ := lower_bind_ok hrun
    obtain ⟨⟨q, hsteps'⟩, -⟩ :=
      runs_coerce value ty t stored u p (hback.steps hsteps) trivial hcoerce
    have hraw := (h.steps hregions (hsteps.trans hsteps')).live
    obtain ⟨kind, v, hkind, hput⟩ := lower_bind_ok hrun
    obtain ⟨-, rfl⟩ := stackKind_ok hkind
    have htold := noteLocalsChanged_ok hput
    rw [RegionTree.protecting_of_nil hregions] at htold
    cases htold
    exact hraw.store hslot stored

/-- An operation that neither stores to the slot of the receiver nor calls a constructor
on it leaves it as it is. -/
theorem raw_of_lowerOp (hprepared : Prepared cx) (hregions : cx.regions.regions = [])
    {op : Op} (hop : (cx.current, op) ∈ cx.body.code) {p : List Label}
    (hsettled : Settled cx.targets (s, p)) (hback : Backed cx .all s)
    (hhoused : Housed cx.body.owner s.slots) (howner : cx.body.owner ≠ .top)
    (hraw : Raw s.frames.live.locals) (hstore : op ≠ .storeArg 0)
    (hcall : ∀ method virtual, op = .call method virtual →
      ¬ Initialises method s.frames.live.stack)
    {a : Unit} (hrun : LowerM.lowerOp cx.current op cx s = .ok a s') :
    Raw s'.frames.live.locals := by
  have hown : Backed cx (.own s) s :=
    ⟨hback.kept, hback.fits, hback.made, hback.thin, hback.slender, fun _ _ _ => trivial,
      fun _ _ h => h⟩
  have hpending : Pending cx s s := by
    refine ⟨hraw, fun label frame hlabel hframe => ?_, ⟨_, hhoused.receiver, howner⟩, hback.fits⟩
    -- a label with a frame is made already
    cases hhas : s.frames.has label with
    | true => exact absurd (hback.made label hhas) hlabel
    | false =>
      obtain ⟨-, o, rfl⟩ := hsettled.aside label hhas (by rw [hframe]; exact nofun)
      exact absurd trivial hlabel
  have hruns : Does cx (.own s) (· = s) (LowerM.lowerOp cx.current op) (fun _ _ => True) →
      Raw s'.frames.live.locals := by
    intro hdoes
    obtain ⟨⟨q, hsteps⟩, -⟩ := hdoes s a s' [] hown rfl hrun
    exact (hpending.steps hregions hsteps).live
  have hnowhere : ∀ q, cx.regions.locate q = none := by
    intro q
    unfold RegionTree.locate
    rw [hregions]
    rfl
  have hadmits : (∀ i, op = .storeArg i ∨ op = .storeLocal i → False) →
      (∀ method virtual, op = .call method virtual → method.isConstructor = true → False) →
      Admits cx (.own s) op := fun hstores hcalls =>
    { stores := hstores
      calls := hcalls
      targets := fun _ _ => trivial
      falls := fun _ _ _ _ => trivial
      leaves := fun _ _ => ⟨fun _ => trivial, fun _ _ _ _ => trivial, trivial⟩
      finals := fun _ _ _ =>
        ⟨trivial, fun _ _ => ⟨fun _ => trivial, fun _ _ _ _ => trivial, trivial⟩⟩
      filters := fun _ site hsite => by
        unfold RegionTree.filterAt at hsite
        rw [hnowhere] at hsite
        cases hsite
      turns := fun _ => trivial }
  cases op with
  | storeArg i =>
    obtain ⟨_, t, hget, hrun⟩ := lower_bind_ok hrun
    cases hget
    obtain ⟨slot, t, hlift, hstored⟩ := lower_bind_ok hrun
    obtain ⟨hslot, rfl⟩ := state_lift_ok hlift
    refine hpending.storeDeclared hregions hown (hhoused.args i slot hslot ?_) hstored
    rintro rfl
    exact hstore rfl
  | storeLocal i =>
    obtain ⟨_, t, hget, hrun⟩ := lower_bind_ok hrun
    cases hget
    obtain ⟨slot, t, hlift, hstored⟩ := lower_bind_ok hrun
    obtain ⟨hslot, rfl⟩ := state_lift_ok hlift
    exact hpending.storeDeclared hregions hown (hhoused.vars i slot hslot) hstored
  | call method virtual =>
    refine hruns ((does_call method virtual fun h => absurd h (hcall method virtual rfl)).weaken
      (fun _ heq => ?_) fun _ _ _ => trivial)
    rw [heq]
  | _ =>
    refine hruns (Runs.does (runs_lowerOp hprepared hop (hadmits ?_ ?_)))
    · rintro i (h | h) <;> cases h
    · rintro method virtual h
      cases h

end Lowering

end BytecodeBridge
