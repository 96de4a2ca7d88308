/-
Conditions on locals that every step preserves.

At any time a lowering knows many frames: the live one, and one for most of
the labels. Their locals all come about in the same few ways, by stores,
by filling and widening declared slots, and by merging, so a condition that
these preserve holds of all frames throughout a run (`Stable`,
`Stable.throughout_step`).
-/
import BytecodeBridge.Proofs.Frame.Locals
import BytecodeBridge.Proofs.Lowering.Step

namespace BytecodeBridge

open FrameStore

/-- The live frame and the frames of all labels satisfy a condition on locals. -/
structure FrameStore.Throughout (Q : SlotMap Ty → Prop) (s : FrameStore) : Prop where
  live : Q s.live.locals
  frames : ∀ l f, s.frameOf l = some f → Q f.locals

theorem FrameStore.throughout_iff {Q : SlotMap Ty → Prop} {s : FrameStore} :
    s.Throughout Q ↔ s.Each fun _ f => Q f.locals :=
  ⟨fun h => ⟨h.live, h.frames⟩, fun h => ⟨h.live, h.frames⟩⟩

/-- Widening sets and unsets no slot. -/
theorem LowerM.contains_widen {T : TypeTable} {slots : Slots} {frame : Frame} {k : Nat} :
    (widen T slots frame).locals.contains k = frame.locals.contains k :=
  SlotMap.contains_map _

/-- A declared slot may get its declared type by widening. -/
theorem LowerM.get?_widen {T : TypeTable} {slots : Slots} {frame : Frame} {k : Nat} {t : Ty} :
    (widen T slots frame).locals.get? k = some t ↔ ∃ x, frame.locals.get? k = some x ∧
      t = match slots.declaredType? k with
        | some d => if T.assignable x d then d else x
        | none => x := by
  unfold widen
  rw [SlotMap.get?_map, Option.map_eq_some_iff]
  constructor
  · intro ⟨x, hx, heq⟩
    exact ⟨x, hx, heq.symm⟩
  · intro ⟨x, hx, heq⟩
    exact ⟨x, hx, heq.symm⟩

theorem LowerM.widen_congr {slots slots' : Slots} (h : slots'.declared = slots.declared)
    (T : TypeTable) (f : Frame) : widen T slots' f = widen T slots f := by
  unfold widen Slots.declaredType? Slots.declared?
  rw [h]

namespace Lowering

open LowerM (widen)

variable {cx : Context} {s s' : LowerState} {Q : SlotMap Ty → Prop}

/-- A condition on locals that whatever is done in a state preserves. -/
structure Stable (cx : Context) (s : LowerState) (Q : SlotMap Ty → Prop) : Prop where
  erase : ∀ m slot, Q m → Q (m.erase slot)
  replace : ∀ m, Q m → Q (m.map fun _ t => if t = .uninitThis then cx.body.owner else t)
  fill : ∀ m slot d, s.slots.declared? slot = some d → d.kind ≠ .synthetic → Q m →
    Q (m.fill slot d.ty)
  store : ∀ m slot ty kind, ty.stackKind? = some kind → Writable s kind slot →
    (Thin cx → ∀ d, s.slots.declared? slot = some d → d.kind = .synthetic → ty.category = 1) →
    Q m → Q (m.store slot ty)
  widen : ∀ f, Q f.locals → Q (widen cx.types s.slots f).locals
  merge : ∀ old frame new : Frame, Q old.locals → Q frame.locals →
    old.merge cx.types frame = .ok new → Q new.locals

theorem Repair.throughout (hrepair : Repair s s')
    (hfill : ∀ m slot d, s.slots.declared? slot = some d → d.kind ≠ .synthetic → Q m →
      Q (m.fill slot d.ty))
    (h : s.frames.Throughout Q) : s'.frames.Throughout Q := by
  rw [throughout_iff] at h ⊢
  exact hrepair.each (fun hd hkind _ _ => hfill _ _ _ hd hkind) h

/-- What merging and filling keep, a save with its repairs keeps. -/
theorem Saves.throughout {label : Label} {frame : Frame} (hsave : Saves cx label frame s s')
    (h : s.frames.Throughout Q) (hframe : Q frame.locals)
    (hfill : ∀ m slot d, s.slots.declared? slot = some d → d.kind ≠ .synthetic → Q m →
      Q (m.fill slot d.ty))
    (hmerge : ∀ a b c : Frame, Q a.locals → Q b.locals → a.merge cx.types b = .ok c → Q c.locals) :
    s'.frames.Throughout Q := by
  rw [throughout_iff] at h ⊢
  exact hsave.each (fun hd hkind _ _ => hfill _ _ _ hd hkind)
    (fun hold => hmerge _ _ _ hold hframe) hframe h

namespace Stable

variable {t t' : LowerState}

theorem throughout_repair (hQ : Stable cx s Q) (hdeclared : t.slots.declared = s.slots.declared)
    (h : t.frames.Throughout Q) (hrepair : Repair t t') : t'.frames.Throughout Q := by
  refine hrepair.throughout (fun m slot d hd => hQ.fill m slot d ?_) h
  rwa [← Slots.declared?_congr hdeclared]

theorem throughout_stored (hQ : Stable cx s Q) {label : Label} {frame : Frame} {saved : Saved}
    {frames : FrameStore} (h : s.frames.Throughout Q)
    (hstored : FrameStore.Stored cx.types label frame saved s.frames frames)
    (hframe : Q frame.locals) : frames.Throughout Q := by
  rw [throughout_iff] at h ⊢
  exact h.stored hstored hframe fun hold => hQ.merge _ _ _ hold hframe

theorem throughout_saves (hQ : Stable cx s Q) (hdeclared : t.slots.declared = s.slots.declared)
    {label : Label} {frame : Frame} (h : t.frames.Throughout Q)
    (hsave : Saves cx label frame t t') (hframe : Q frame.locals) : t'.frames.Throughout Q := by
  refine hsave.throughout h hframe (fun m slot d hd => hQ.fill m slot d ?_) hQ.merge
  rwa [← Slots.declared?_congr hdeclared]

theorem throughout_handlerSaves (hQ : Stable cx s Q)
    (hdeclared : t.slots.declared = s.slots.declared) {rs : List Nat} (h : t.frames.Throughout Q)
    (hsaves : HandlerSaves cx rs t t') : t'.frames.Throughout Q := by
  refine hsaves.keeps (I := fun u => u.frames.Throughout Q) (fun r _ u u' hmends hu hsave => ?_) h
  have hsame := hmends.declared.trans hdeclared
  refine hQ.throughout_saves hsame hu hsave ?_
  rw [LowerM.widen_congr hsame]
  exact hQ.widen _ hu.live

theorem throughout_change (hQ : Stable cx s Q) (h : s.frames.Throughout Q)
    (hchange : Change cx s t) : t.frames.Throughout Q := by
  cases hchange with
  | put hkind hwritable hthin => exact ⟨hQ.store _ _ _ _ hkind hwritable hthin h.live, h.frames⟩
  | replace => exact ⟨hQ.replace _ h.live, h.frames⟩

/-- A stable condition that holds of all frames holds of them after a step. -/
theorem throughout_step {a b : Stage} (hQ : Stable cx a.1 Q) (h : a.1.frames.Throughout Q)
    (hstep : Step cx a b) : b.1.frames.Throughout Q := by
  cases hstep with
  | @release s p slot slots hrelease => exact ⟨hQ.erase _ slot h.live, h.frames⟩
  | push hpush =>
    obtain ⟨-, rfl⟩ := push_ok hpush
    exact ⟨h.live, h.frames⟩
  | pop hpop =>
    obtain ⟨_, -, rfl⟩ := pop_ok hpop
    exact ⟨h.live, h.frames⟩
  | note => exact ⟨h.live, h.frames⟩
  | change hchange htold =>
    exact hQ.throughout_handlerSaves hchange.outline.1 (hQ.throughout_change h hchange) htold
  | repair hrepair => exact hQ.throughout_repair rfl h hrepair
  | save hlocals _ hsave =>
    refine hQ.throughout_saves rfl h hsave ?_
    rw [hlocals]
    exact hQ.widen _ h.live
  | bindLoaded _ _ hframe =>
    exact ⟨h.frames _ _ (frameOf_of_recorded? hframe), h.frames⟩
  | bindNew _ _ _ hsave =>
    have hsaved := hQ.throughout_saves rfl h hsave (hQ.widen _ h.live)
    exact ⟨hsaved.live, hsaved.frames⟩
  | pass => exact ⟨h.live, h.frames⟩
  | defer =>
    exact ⟨h.live, ((throughout_iff.mp h).defer (hQ.widen _ h.live)).frames⟩
  | _ => exact h

end Stable

end Lowering

end BytecodeBridge
