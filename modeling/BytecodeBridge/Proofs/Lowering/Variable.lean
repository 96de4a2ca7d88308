/-
One variable of a method, followed through its lowering.

A variable has a slot of its own, and nothing else ever lies on it: the
slots of a method are laid out without overlap, and temporaries stay above.
So it makes sense to follow what the frames say about the slot through
every step. Two things are needed of it. While the variable has no default
value, a label whose code is emitted never loses it (`VariableAt.saves`).
And whatever type a frame has for the variable is held on the stack as the
declared one is (`Kinded`), because a store converts to the declared type,
and joins keep the kind.
-/
import BytecodeBridge.Proofs.Lowering.Locals

namespace BytecodeBridge

open SlotMap

-- ==== the slot in frames

namespace FrameStore

variable {s s' : FrameStore} {v : Nat} {label : Label}

/-- What the frame of a label has for a slot. -/
def typeAt (s : FrameStore) (v : Nat) (label : Label) : Option (Option Ty) :=
  (s.frameOf label).map fun f => f.locals.get? v

/-- The label has no frame, or the frame has the slot set. -/
def Kept (s : FrameStore) (v : Nat) (label : Label) : Prop :=
  s.typeAt v label ≠ some none

theorem kept_congr (h : ∀ l, s'.typeAt v l = s.typeAt v l) : s'.Kept v = s.Kept v := by
  funext l
  unfold Kept
  rw [h l]

theorem kept_of_none (h : s.frameOf label = none) : s.Kept v label := by
  unfold Kept typeAt
  rw [h]
  exact nofun

theorem kept_iff {f : Frame} (h : s.frameOf label = some f) :
    s.Kept v label ↔ f.locals.contains v = true := by
  unfold Kept typeAt
  rw [h, Option.map_some, contains, Option.isSome_iff_ne_none]
  exact not_congr Option.some_inj

/-- What saving a frame at a label does to a slot, if no report concerns the slot. -/
structure SlotSaved (v : Nat) (label : Label) (frame : Frame) (s s' : FrameStore) : Prop where
  live : s'.live.locals.get? v = s.live.locals.get? v
  down : ∀ l, s'.Kept v l → s.Kept v l
  carried : s'.Kept v label → frame.locals.contains v = true
  fresh : s.frameOf label = none → frame.locals.contains v = true → s'.Kept v label
  /-- a label whose code is emitted does not lose the slot -/
  up : ∀ l, s.isBound l = true → s.frameOf l ≠ none → s.Kept v l → s'.Kept v l

theorem Stored.slotSaved {T : TypeTable} {frame : Frame} {saved : Saved}
    (h : Stored T label frame saved s s')
    (hspared : ∀ locals stack, saved = .invalidated locals stack → v ∉ locals) :
    SlotSaved v label frame s s' := by
  have hothers : ∀ l, l ≠ label → (s'.Kept v l ↔ s.Kept v l) := by
    intro l hl
    unfold Kept typeAt
    rw [(h.others l hl).1]
  -- for the label itself, by what was done to its frame
  have hlabel : (s'.Kept v label → s.Kept v label ∧ frame.locals.contains v = true) ∧
      (s.frameOf label = none → frame.locals.contains v = true → s'.Kept v label) ∧
      (s.isBound label = true → s.frameOf label ≠ none → s.Kept v label → s'.Kept v label) := by
    rcases h.frame with ⟨hnone, hsome⟩ | ⟨old, new, hold, hnew, hmerge, hsaved⟩
    · rw [kept_iff hsome]
      exact ⟨fun h => ⟨kept_of_none hnone, h⟩, fun _ h => h, fun _ hne => absurd hnone hne⟩
    · rw [kept_iff hold, kept_iff hnew]
      obtain ⟨-, hlocals⟩ := Frame.merge_ok hmerge
      refine ⟨fun h => ?_, fun hnone => ?_, fun hbound _ hkept => ?_⟩
      · obtain ⟨t, ht⟩ := contains_iff.mp h
        obtain ⟨x, y, hx, hy, -⟩ := hlocals.mp ht
        exact ⟨contains_iff.mpr ⟨x, hx⟩, contains_iff.mpr ⟨y, hy⟩⟩
      · cases hnone.symm.trans hold
      · obtain ⟨t, ht⟩ := contains_iff.mp hkept
        rcases hsaved with rfl | hunbound | hreport
        · exact hkept
        · cases hbound.symm.trans hunbound
        · by_contra hlost
          refine hspared _ _ hreport (mem_changedLocals.mpr ⟨t, ht, fun ht' => hlost ?_⟩)
          exact contains_iff.mpr ⟨t, ht'⟩
  refine ⟨by rw [h.live], fun l hl => ?_, fun hl => (hlabel.1 hl).2, hlabel.2.1,
    fun l hbound hne hl => ?_⟩
  · by_cases heq : l = label
    · subst heq
      exact (hlabel.1 hl).1
    · exact (hothers l heq).mp hl
  · by_cases heq : l = label
    · subst heq
      exact hlabel.2.2 hbound hne hl
    · exact (hothers l heq).mpr hl

end FrameStore

namespace Lowering

open LowerM (widen)

-- ==== the variable

/-- The slot belongs to a variable of the type, in a layout below the base. -/
structure VariableAt (base v : Nat) (ty : Ty) (s : Slots) : Prop where
  fits : s.Fits base
  declared : ∃ name, s.declared? v = some ⟨.variable, name, ty⟩

section Variable

variable {cx : Context} {base v : Nat} {ty : Ty} {s s' : LowerState}

theorem VariableAt.of_declared {slots slots' : Slots} (h : VariableAt base v ty slots)
    (hfits : slots'.Fits base) (heq : slots'.declared = slots.declared) :
    VariableAt base v ty slots' := by
  refine ⟨hfits, ?_⟩
  rw [Slots.declared?_congr heq]
  exact h.declared

theorem VariableAt.mends (h : VariableAt base v ty s.slots) (hmends : Mends s s') :
    VariableAt base v ty s'.slots :=
  h.of_declared (hmends.fits h.fits) hmends.declared

theorem VariableAt.step {a b : Stage} (h : VariableAt base v ty a.1.slots) (hstep : Step cx a b) :
    VariableAt base v ty b.1.slots :=
  h.of_declared (hstep.fits h.fits) hstep.declared

theorem VariableAt.get?_fill {slots : Slots} (h : VariableAt base v ty slots) {slot : Nat}
    {d : Declared} (hd : slots.declared? slot = some d) (hne : slot ≠ v) (locals : SlotMap Ty) :
    (locals.fill slot d.ty).get? v = locals.get? v := by
  obtain ⟨name, hname⟩ := h.declared
  refine Option.ext fun t => ⟨fun ht => ?_, fun ht => ?_⟩
  · exact (get?_of_fill ht).resolve_left fun heq => hne heq.1.symm
  · exact get?_fill_of_some ht (h.fits.ne_succ hd hname)

/-- While the variable has no default value, repairs do not concern it. -/
theorem VariableAt.repair (h : VariableAt base v ty s.slots) (hrepair : Repair s s')
    (hplain : s'.slots.isDefaulted v = false) :
    s'.frames.live.locals.get? v = s.frames.live.locals.get? v ∧
      ∀ l, s'.frames.typeAt v l = s.frames.typeAt v l := by
  cases hrepair with
  | default => exact ⟨rfl, fun _ => rfl⟩
  | @fill slot d hdeclared hset =>
    have hne : slot ≠ v := by
      rintro rfl
      obtain ⟨name, hname⟩ := h.declared
      cases hname.symm.trans hdeclared
      rcases hset with harg | ⟨-, hdefault⟩
      · cases harg
      · exact Bool.false_ne_true (hplain.symm.trans hdefault)
    refine ⟨h.get?_fill hdeclared hne _, fun l => ?_⟩
    unfold FrameStore.typeAt
    rw [FrameStore.frameOf_materialize, Option.map_map]
    congr 1
    funext f
    exact h.get?_fill hdeclared hne _

theorem VariableAt.repairs (h : VariableAt base v ty s.slots) (hrepairs : Repairs s s')
    (hplain : s'.slots.isDefaulted v = false) :
    s'.frames.live.locals.get? v = s.frames.live.locals.get? v ∧
      ∀ l, s'.frames.typeAt v l = s.frames.typeAt v l := by
  induction hrepairs with
  | refl => exact ⟨rfl, fun _ => rfl⟩
  | @tail t t' hrepairs hlast ih =>
    have ht : t.slots.isDefaulted v = false := by
      refine Bool.eq_false_iff.mpr fun htrue => ?_
      exact Bool.false_ne_true (hplain.symm.trans (hlast.mends.defaulted htrue))
    obtain ⟨hlive, hframes⟩ := ih ht
    obtain ⟨hlive', hframes'⟩ := (h.mends (Repairs.mends hrepairs)).repair hlast hplain
    exact ⟨hlive'.trans hlive, fun l => (hframes' l).trans (hframes l)⟩

/-- A save whose report concerns the variable gives it a default value; so no report
concerns a variable without one. -/
theorem VariableAt.saves (h : VariableAt base v ty s.slots) {label : Label} {frame : Frame}
    (hsave : Saves cx label frame s s') (hplain : s'.slots.isDefaulted v = false) :
    FrameStore.SlotSaved v label frame s.frames s'.frames := by
  obtain ⟨frames, saved, events, made, hok, -, hrepairs, hreport⟩ := hsave.exists_save
  have hslot := (FrameStore.save_ok hok).slotSaved (v := v) fun locals stack heq hmem => by
    obtain ⟨name, hname⟩ := h.declared
    have hvariable : s.slots.isVariable v = true := by
      unfold Slots.isVariable
      rw [hname]
      rfl
    exact Bool.false_ne_true (hplain.symm.trans ((hreport locals stack heq).2 v hmem hvariable))
  obtain ⟨hlive, hframes⟩ :=
    VariableAt.repairs (s := { s with frames, events, made }) h hrepairs hplain
  have hcongr := FrameStore.kept_congr hframes
  refine ⟨hlive.trans hslot.live, ?_, ?_, ?_, ?_⟩
  · rw [hcongr]
    exact hslot.down
  · rw [hcongr]
    exact hslot.carried
  · rw [hcongr]
    exact hslot.fresh
  · rw [hcongr]
    exact hslot.up

/-- A value that may be stored to the variable has the kind of its type. -/
theorem VariableAt.kind_of_writable (h : VariableAt base v ty s.slots) {kind : StackKind}
    (hwritable : Writable s kind v) : ty.stackKind? = some kind := by
  obtain ⟨name, hname⟩ := h.declared
  rcases hwritable with ⟨d, hd, hdkind⟩ | ⟨temp, htemp, rfl, -⟩
  · cases hname.symm.trans hd
    exact hdkind.resolve_left nofun
  · -- no temporary lies on a declared slot
    have habove := h.fits.temps temp htemp
    have hbelow := h.fits.below hname
    have hpos := ty.category_pos
    dsimp only at hbelow
    omega

end Variable

-- ==== kinds

/-- The type found, if any, is held on the stack as the declared one. -/
def Agrees (ty : Ty) (found : Option Ty) : Prop :=
  ∀ t kind, found = some t → t.stackKind? = some kind → ty.stackKind? = some kind

/-- The frames have the variable in its own kind only, and it is read in that kind. -/
structure Kinded (v : Nat) (ty : Ty) (s : LowerState) : Prop where
  frames : s.frames.Throughout fun locals => Agrees ty (locals.get? v)
  code : ∀ kind form, .instr (.load kind form) ∈ s.code.body → form.slot = v →
    ty.stackKind? = some kind

section Kinds

variable {cx : Context} {base v : Nat} {ty : Ty} {s : LowerState}

/-- That the variable has its own kind is stable: a store converts to its type, a join
keeps the kind, and an object that is not initialised is a reference, as the owner of
its method is. -/
theorem VariableAt.stable_agrees (h : VariableAt base v ty s.slots) (hT : cx.types.Proper)
    (howner : cx.body.owner.prim? = none) :
    Stable cx s fun locals => Agrees ty (locals.get? v) where
  erase m slot hm t kind ht hkind := by
    rw [get?_erase] at ht
    split at ht
    · cases ht
    · exact hm t kind ht hkind
  replace m hm t kind ht hkind := by
    rw [get?_map, Option.map_eq_some_iff] at ht
    obtain ⟨x, hx, hswap⟩ := ht
    split at hswap
    · next huninit =>
      subst huninit hswap
      rw [TypeTable.eq_reference_of_prim? howner hkind]
      exact hm .uninitThis .reference hx rfl
    · subst hswap
      exact hm x kind hx hkind
  fill m slot d hd _ hm t kind ht hkind := by
    rcases get?_of_fill ht with ⟨rfl, rfl⟩ | hold
    · obtain ⟨name, hname⟩ := h.declared
      cases hname.symm.trans hd
      exact hkind
    · exact hm t kind hold hkind
  store m slot u kind hkind hwritable _ hm t kind' ht hkind' := by
    rcases get?_of_store ht with ⟨rfl, rfl⟩ | hold
    · cases hkind.symm.trans hkind'
      exact h.kind_of_writable hwritable
    · exact hm t kind' hold hkind'
  widen f hf t kind ht hkind := by
    obtain ⟨name, hname⟩ := h.declared
    obtain ⟨x, hx, hwide⟩ := LowerM.get?_widen.mp ht
    have hdeclared : s.slots.declaredType? v = some ty := by
      unfold Slots.declaredType?
      rw [hname]
      rfl
    rw [hdeclared] at hwide
    dsimp only at hwide
    split at hwide
    · rwa [hwide] at hkind
    · rw [hwide] at hkind
      exact hf x kind hx hkind
  merge old frame new hold _ hmerge t kind ht hkind := by
    obtain ⟨x, y, hx, -, rfl, -⟩ := (Frame.merge_ok hmerge).2.mp ht
    exact hold x kind hx (TypeTable.stackKind?_of_join hT hkind)

/-- A load that a step adds to the code is of a slot that can be read so. -/
theorem Step.readable_of_load {a b : Stage} (h : Step cx a b) {kind : StackKind} {form : SlotForm}
    (hmem : .instr (.load kind form) ∈ b.1.code.body) :
    .instr (.load kind form) ∈ a.1.code.body ∨ Readable a.1 kind form.slot := by
  -- an item added at the end that is no load
  have hpush : ∀ {items : List Item} {item : Item}, .instr (.load kind form) ∈ item :: items →
      item ≠ .instr (.load kind form) → .instr (.load kind form) ∈ items :=
    fun hmem hne => (List.mem_cons.mp hmem).resolve_left (Ne.symm hne)
  have hslot : ∀ {i : Instr}, i.slot? = none → Item.instr i ≠ .instr (.load kind form) := by
    rintro i hnone heq
    cases heq
    cases hnone
  cases h with
  | change hchange htold =>
    rw [htold.mends.body] at hmem
    cases hchange with
    | put => exact .inl (hpush hmem nofun)
    | replace => exact .inl hmem
  | repair hrepair =>
    rw [hrepair.mends.body] at hmem
    exact .inl hmem
  | save _ _ hsave =>
    rw [hsave.mends.body] at hmem
    exact .inl hmem
  | emit hi => exact .inl (hpush hmem (hslot hi.slot))
  | @fetch s p kind' slot hreadable =>
    rcases List.mem_cons.mp hmem with heq | hmem
    · cases heq
      rw [SlotForm.slot_of]
      exact .inr hreadable
    · exact .inl hmem
  | retract hretract =>
    obtain ⟨rest, hrest, rfl⟩ := Option.map_eq_some_iff.mp hretract
    exact .inl (CodeBuffer.mem_of_retractFrom hrest hmem)
  | branch => exact .inl (hpush hmem nofun)
  | exit hi => exact .inl (hpush hmem (hslot hi.slot))
  | jump | table | bindLoaded => exact .inl (hpush hmem nofun)
  | bindNew _ _ _ hsave =>
    rw [← hsave.mends.body]
    exact .inl (hpush hmem nofun)
  | pass | defer => exact .inl (hpush hmem nofun)
  | _ => exact .inl hmem

theorem Kinded.step (hT : cx.types.Proper) (howner : cx.body.owner.prim? = none) {a b : Stage}
    (h : Kinded v ty a.1) (hvar : VariableAt base v ty a.1.slots) (hstep : Step cx a b) :
    Kinded v ty b.1 := by
  refine ⟨(hvar.stable_agrees hT howner).throughout_step h.frames hstep,
    fun kind form hmem hslot => ?_⟩
  rcases hstep.readable_of_load hmem with hold | hreadable
  · exact h.code kind form hold hslot
  · subst hslot
    obtain ⟨name, hname⟩ := hvar.declared
    rcases hreadable with ⟨t, ht, hkind⟩ | ⟨d, hd, hkind, -⟩
    · exact h.frames.live t kind ht hkind
    · cases hname.symm.trans hd
      exact hkind

end Kinds

end Lowering

end BytecodeBridge
