/-
Where the locals of every frame lie.

Nothing is stored inside a wide slot: every local that is set is in a
declared slot or lies above all of them (`Tidy`). Filling a declared slot
therefore unsets nothing.
-/
import BytecodeBridge.Proofs.Lowering.Execution

namespace BytecodeBridge

namespace Lowering

open LowerM (widen)

variable {cx : Context} {s s' : LowerState}

-- ==== where locals lie

/-- Every local that is set is in a declared slot, or lies above the base. -/
def Placed (base : Nat) (slots : Slots) (locals : SlotMap Ty) : Prop :=
  ∀ k t, locals.get? k = some t → (∃ d, slots.declared? k = some d) ∨ base ≤ k

/-- The slots are laid out below the base, and all locals lie in them or above. -/
structure Tidy (base : Nat) (s : LowerState) : Prop where
  fits : s.slots.Fits base
  placed : s.frames.Throughout (Placed base s.slots)

section Tidy

variable {base : Nat}

theorem Placed.of_declared {slots slots' : Slots} (h : slots'.declared = slots.declared) :
    Placed base slots' = Placed base slots := by
  unfold Placed Slots.declared?
  rw [h]

theorem Placed.get?_fill {slots : Slots} (hfits : slots.Fits base) {locals : SlotMap Ty}
    (h : Placed base slots locals) {slot : Nat} {d : Declared}
    (hd : slots.declared? slot = some d) {k : Nat} {t : Ty} (hk : locals.get? k = some t) :
    (locals.fill slot d.ty).get? k = some t := by
  refine SlotMap.get?_fill_of_some hk fun hwide => ?_
  rcases h k t hk with ⟨e, he⟩ | habove
  · exact hfits.ne_succ hd he hwide
  · have hbelow := hfits.below hd
    omega

theorem Placed.fill {slots : Slots} {locals : SlotMap Ty} (h : Placed base slots locals)
    {slot : Nat} {d : Declared} (hd : slots.declared? slot = some d) :
    Placed base slots (locals.fill slot d.ty) := by
  intro k t hk
  rcases SlotMap.get?_of_fill hk with ⟨rfl, -⟩ | hold
  · exact .inl ⟨d, hd⟩
  · exact h k t hold

/-- Where locals lie is preserved: a store is to a declared slot or to a temporary. -/
theorem stable_placed (hfits : s.slots.Fits base) : Stable cx s (Placed base s.slots) where
  erase m slot h k t hk := by
    rw [SlotMap.get?_erase] at hk
    split at hk
    · cases hk
    · exact h k t hk
  replace m h k t hk := by
    rw [SlotMap.get?_map, Option.map_eq_some_iff] at hk
    obtain ⟨x, hx, -⟩ := hk
    exact h k x hx
  fill m slot d hd _ h := h.fill hd
  store m slot ty kind _ hwritable _ h k t hk := by
    rcases SlotMap.get?_of_store hk with ⟨rfl, -⟩ | hold
    · rcases hwritable with ⟨d, hd, -⟩ | ⟨temp, htemp, rfl, -⟩
      · exact .inl ⟨d, hd⟩
      · exact .inr (hfits.temps temp htemp)
    · exact h k t hold
  widen f h k t hk := by
    obtain ⟨x, hx, -⟩ := LowerM.get?_widen.mp hk
    exact h k x hx
  merge old frame new h _ hmerge k t hk := by
    obtain ⟨x, _, hx, -⟩ := (Frame.merge_ok hmerge).2.mp hk
    exact h k x hx

theorem Tidy.repair (h : Tidy base s) (hrepair : Repair s s') : Tidy base s' := by
  refine ⟨hrepair.mends.fits h.fits, ?_⟩
  rw [Placed.of_declared hrepair.mends.declared]
  exact hrepair.throughout (fun _ _ _ hd _ hm => hm.fill hd) h.placed

theorem Tidy.widened (h : Tidy base s) :
    Placed base s.slots (widen cx.types s.slots s.frames.live).locals :=
  (stable_placed h.fits).widen _ h.placed.live

theorem Tidy.saves (h : Tidy base s) {label : Label} {frame : Frame}
    (hsave : Saves cx label frame s s') (hframe : Placed base s.slots frame.locals) :
    Tidy base s' := by
  refine ⟨hsave.mends.fits h.fits, ?_⟩
  rw [Placed.of_declared hsave.mends.declared]
  exact (stable_placed h.fits).throughout_saves rfl h.placed hsave hframe

theorem Tidy.change (h : Tidy base s) (hchange : Change cx s s') : Tidy base s' := by
  refine ⟨hchange.fits h.fits, ?_⟩
  rw [Placed.of_declared hchange.outline.1]
  exact (stable_placed h.fits).throughout_change h.placed hchange

theorem Tidy.step {a b : Stage} (h : Tidy base a.1) (hstep : Step cx a b) : Tidy base b.1 := by
  refine ⟨hstep.fits h.fits, ?_⟩
  rw [Placed.of_declared hstep.declared]
  exact (stable_placed h.fits).throughout_step h.placed hstep

theorem CodeSteps.tidy {code : List (Nat × Op)} {a b : Stage} (h : CodeSteps cx code a b)
    (ha : Tidy base a.1) : Tidy base b.1 :=
  h.keeps (I := fun c => Tidy base c.1) (fun _ _ _ _ hc hstep => hc.step hstep) ha

theorem Started.tidy (h : Started cx s) : Tidy s.slots.next s := by
  obtain ⟨locals, hframes, hlaid⟩ := h.laidOut
  refine ⟨hlaid.fits, fun k t hk => ?_, fun l f hf => ?_⟩
  · rw [hframes] at hk
    obtain ⟨d, hd, -⟩ := hlaid.exists_argument hk
    exact .inl ⟨d, hd⟩
  · cases (h.frameOf_eq_none l).symm.trans hf

end Tidy

end Lowering

end BytecodeBridge
