/-
What the frames have for one variable, through every step of a lowering.

A frame gets what it has for a variable from the live frame: the live type,
widened to the declared one where it fits, is recorded, and merged with what
later saves bring. As long as the variable has no default value nothing else
touches it, so a step does one of five things (`Touches`). A condition that
widening and merging keep (`Steady`) then spreads from the live frame to the
labels that it is saved at, and from a label to the live frame where the label
is bound.

# Backwards

That a slot is there with a type of some family is more than steady: a merge
has such a slot only if both sides had it (`Firm`). So what the frame of a
label has at the end it had at all times, and so had every live frame that was
ever saved there. For the handler of a region that is each live frame that the
handler was told of (`HandlerSaves.reflects`).
-/
import BytecodeBridge.Proofs.Lowering.Publication
import BytecodeBridge.Proofs.Lowering.Variable
import BytecodeBridge.Proofs.TypeTable.Family

namespace BytecodeBridge

-- ==== one slot

namespace TypeTable

/-- What is saved for a slot of a declared type. -/
def widened (T : TypeTable) (ty t : Ty) : Ty :=
  if T.assignable t ty then ty else t

/-- What a merge leaves in a slot. -/
def merged (T : TypeTable) : Option Ty → Option Ty → Option Ty
  | some x, some y => if (T.join x y).isTop then none else some (T.join x y)
  | _, _ => none

end TypeTable

theorem Frame.get?_of_merge {T : TypeTable} {a b c : Frame} (h : a.merge T b = .ok c) (k : Nat) :
    c.locals.get? k = T.merged (a.locals.get? k) (b.locals.get? k) := by
  obtain ⟨-, hlocals⟩ := merge_ok h
  refine Option.ext fun t => hlocals.trans ?_
  unfold TypeTable.merged
  constructor
  · rintro ⟨x, y, hx, hy, rfl, htop⟩
    simp only [hx, hy, htop, Bool.false_eq_true, if_false]
  · intro ht
    split at ht
    · next x y hx hy =>
      split at ht
      · cases ht
      · next htop =>
        cases ht
        exact ⟨x, y, hx, hy, rfl, Bool.eq_false_iff.mpr htop⟩
    · cases ht

namespace Lowering

open LowerM (widen)

-- ==== conditions

/-- A condition on what a frame has for a variable of a type, which saves keep. -/
structure Steady (T : TypeTable) (ty : Ty) (R : Option Ty → Prop) : Prop where
  widened : ∀ {found}, R found → R (found.map (T.widened ty))
  merged : ∀ {old found}, R old → R found → R (T.merged old found)

/-- A condition that holds after a save only if it held before it. -/
structure Firm (T : TypeTable) (ty : Ty) (R : Option Ty → Prop) : Prop extends Steady T ty R where
  of_widened : ∀ {found}, R (found.map (T.widened ty)) → R found
  of_merged : ∀ {old found}, R (T.merged old found) → R old ∧ R found

/-- The slot is set, to a type of the family. -/
def Among (F : Family) (found : Option Ty) : Prop :=
  ∃ t, found = some t ∧ t.family? = some F

private theorem family?_widened (T : TypeTable) {ty : Ty} (hty : ty ≠ .top) (t : Ty) :
    (T.widened ty t).family? = t.family? := by
  unfold TypeTable.widened
  split
  · next h => exact ((TypeTable.fits_of_assignable h).family? hty).symm
  · rfl

theorem firm_among {T : TypeTable} (hT : T.Referential) {ty : Ty} (hty : ty ≠ .top) (F : Family) :
    Firm T ty (Among F) where
  widened := by
    rintro _ ⟨t, rfl, ht⟩
    exact ⟨_, rfl, (family?_widened T hty t).trans ht⟩
  merged := by
    rintro _ _ ⟨x, rfl, hx⟩ ⟨y, rfl, hy⟩
    have hjoin := hT.family?_join hx hy
    refine ⟨T.join x y, ?_, hjoin⟩
    simp only [TypeTable.merged, Ty.isTop_of_family? hjoin, Bool.false_eq_true, if_false]
  of_widened := by
    rintro found ⟨t, ht, hF⟩
    obtain ⟨x, rfl, rfl⟩ := Option.map_eq_some_iff.mp ht
    exact ⟨x, rfl, (family?_widened T hty x).symm.trans hF⟩
  of_merged := by
    rintro old found ⟨t, ht, hF⟩
    unfold TypeTable.merged at ht
    split at ht
    · next x y =>
      split at ht
      · cases ht
      · next htop =>
        cases ht
        obtain ⟨hx, hy⟩ := hT.family?_of_join (Bool.eq_false_iff.mpr htop)
        exact ⟨⟨x, rfl, hx.trans hF⟩, ⟨y, rfl, hy.trans hF⟩⟩
    · cases ht

/-- A variable without a type is not there. -/
def Untyped (ty : Ty) (found : Option Ty) : Prop :=
  ty = .top → found = none

private theorem steady_untyped (T : TypeTable) (ty : Ty) : Steady T ty (Untyped ty) where
  widened h hty := by rw [h hty]; rfl
  merged h _ hty := by rw [h hty]; rfl

-- ==== saves

/-- The frames of some labels have the variable as a condition says. -/
def Holds (v : Nat) (D : Label → Prop) (R : Option Ty → Prop) (s : FrameStore) : Prop :=
  ∀ label, D label → ∀ found, s.typeAt v label = some found → R found

/-- What a save does to a variable without a default value. -/
structure Traced (T : TypeTable) (v : Nat) (label : Label) (found : Option Ty)
    (s s' : FrameStore) : Prop where
  live : s'.live.locals.get? v = s.live.locals.get? v
  others : ∀ l, l ≠ label → s'.typeAt v l = s.typeAt v l
  label : s'.typeAt v label = some (match s.typeAt v label with
    | some old => T.merged old found
    | none => found)

section Saves

variable {cx : Context} {base v : Nat} {ty : Ty} {s s' : LowerState}
  {D : Label → Prop} {R : Option Ty → Prop}

variable {frames frames' : FrameStore} {label : Label} {rs : List Nat}

theorem holds_congr (h : ∀ l, frames'.typeAt v l = frames.typeAt v l) :
    Holds v D R frames' ↔ Holds v D R frames := by
  unfold Holds
  simp only [h]

theorem Traced.holds {T : TypeTable} {found : Option Ty} (h : Traced T v label found frames frames')
    (hR : Steady T ty R) (hs : Holds v D R frames) (hfound : D label → R found) :
    Holds v D R frames' := by
  intro l hl now hnow
  by_cases heq : l = label
  · subst heq
    cases h.label.symm.trans hnow
    cases hold : frames.typeAt v l with
    | none => exact hfound hl
    | some old => exact hR.merged (hs l hl old hold) (hfound hl)
  · rw [h.others l heq] at hnow
    exact hs l hl now hnow

theorem Traced.reflects {T : TypeTable} {found : Option Ty}
    (h : Traced T v label found frames frames') (hR : Firm T ty R) (hs : Holds v D R frames') :
    Holds v D R frames ∧ (D label → R found) := by
  have hlabel : D label → ∀ old, frames.typeAt v label = some old → R old ∧ R found := by
    intro hl old hold
    have hnow := hs label hl _ h.label
    rw [hold] at hnow
    exact hR.of_merged hnow
  refine ⟨fun l hl old hold => ?_, fun hl => ?_⟩
  · by_cases heq : l = label
    · subst heq
      exact (hlabel hl old hold).1
    · exact hs l hl old ((h.others l heq).trans hold)
  · cases hold : frames.typeAt v label with
    | some old => exact (hlabel hl old hold).2
    | none =>
      have hnow := hs label hl _ h.label
      rwa [hold] at hnow

theorem VariableAt.get?_widen {slots : Slots} (h : VariableAt base v ty slots) (T : TypeTable)
    (frame : Frame) :
    (widen T slots frame).locals.get? v = (frame.locals.get? v).map (T.widened ty) := by
  obtain ⟨name, hname⟩ := h.declared
  have hdeclared : slots.declaredType? v = some ty := by
    unfold Slots.declaredType?
    rw [hname]
    rfl
  refine Option.ext fun t => ?_
  rw [LowerM.get?_widen, hdeclared, Option.map_eq_some_iff]
  constructor
  · rintro ⟨x, hx, rfl⟩
    exact ⟨x, hx, rfl⟩
  · rintro ⟨x, hx, rfl⟩
    exact ⟨x, hx, rfl⟩

theorem VariableAt.traced (h : VariableAt base v ty s.slots) {frame : Frame}
    (hsave : Saves cx label frame s s') (hplain : s'.slots.isDefaulted v = false) :
    Traced cx.types v label (frame.locals.get? v) s.frames s'.frames := by
  obtain ⟨frames, saved, events, made, hok, -, hrepairs, -⟩ := hsave.exists_save
  have hstored := FrameStore.save_ok hok
  obtain ⟨hlive, hframes⟩ :=
    VariableAt.repairs (s := { s with frames, events, made }) h hrepairs hplain
  refine ⟨hlive.trans (by rw [hstored.live]), fun l hl => (hframes l).trans ?_,
    (hframes label).trans ?_⟩
  · unfold FrameStore.typeAt
    rw [(hstored.others l hl).1]
  · unfold FrameStore.typeAt
    rcases hstored.frame with ⟨hnone, hsome⟩ | ⟨old, new, hold, hnew, hmerge, -⟩
    · rw [hnone, hsome]
      rfl
    · rw [hold, hnew, Option.map_some, Frame.get?_of_merge hmerge]
      rfl

theorem VariableAt.traced_live (h : VariableAt base v ty s.slots) {frame : Frame}
    (hsave : Saves cx label frame s s') (hplain : s'.slots.isDefaulted v = false)
    (hlocals : frame.locals = (widen cx.types s.slots s.frames.live).locals) :
    Traced cx.types v label ((s.frames.live.locals.get? v).map (cx.types.widened ty))
      s.frames s'.frames := by
  rw [← h.get?_widen, ← hlocals]
  exact h.traced hsave hplain

theorem HandlerSaves.plain (h : HandlerSaves cx rs s s') (hplain : s'.slots.isDefaulted v = false) :
    s.slots.isDefaulted v = false :=
  Bool.eq_false_iff.mpr fun htrue =>
    Bool.false_ne_true (hplain.symm.trans (h.mends.defaulted htrue))

/-- Handlers are told of the variable as the live frame has it, and that does not
change. -/
theorem HandlerSaves.holds (h : HandlerSaves cx rs s s') (hvar : VariableAt base v ty s.slots)
    (hplain : s'.slots.isDefaulted v = false) (hR : Steady cx.types ty R)
    (hs : Holds v D R s.frames)
    (hlive : ∀ r ∈ rs, D (.handler r) → R (s.frames.live.locals.get? v)) :
    Holds v D R s'.frames ∧ s'.frames.live.locals.get? v = s.frames.live.locals.get? v := by
  induction h with
  | nil => exact ⟨hs, rfl⟩
  | cons hsave hrest ih =>
    have htraced := hvar.traced_live hsave (hrest.plain hplain) rfl
    obtain ⟨hholds, hsame⟩ :=
      ih (hvar.mends hsave.mends) hplain
        (htraced.holds hR hs fun hl => hR.widened (hlive _ (.head _) hl))
        (fun r hr hl => htraced.live ▸ hlive r (.tail _ hr) hl)
    exact ⟨hholds, hsame.trans htraced.live⟩

/-- What the handlers have in the end the live frame had that they were told of. -/
theorem HandlerSaves.reflects (h : HandlerSaves cx rs s s') (hvar : VariableAt base v ty s.slots)
    (hplain : s'.slots.isDefaulted v = false) (hR : Firm cx.types ty R)
    (hs : Holds v D R s'.frames) :
    Holds v D R s.frames ∧ ∀ r ∈ rs, D (.handler r) → R (s.frames.live.locals.get? v) := by
  induction h with
  | nil => exact ⟨hs, by simp⟩
  | cons hsave hrest ih =>
    have htraced := hvar.traced_live hsave (hrest.plain hplain) rfl
    obtain ⟨hholds, hlive⟩ := ih (hvar.mends hsave.mends) hplain hs
    obtain ⟨hholds, hfound⟩ := htraced.reflects hR hholds
    refine ⟨hholds, List.forall_mem_cons.mpr ⟨fun hl => hR.of_widened (hfound hl), ?_⟩⟩
    exact fun r hr hl => htraced.live ▸ hlive r hr hl

end Saves

-- ==== steps

/-- What a step does to a variable without a default value. -/
inductive Touches (cx : Context) (scope : Scope) (v : Nat) (ty : Ty) (s s' : LowerState) :
    Prop where
  | still (hlive : s'.frames.live.locals.get? v = s.frames.live.locals.get? v)
      (hframes : ∀ l, s'.frames.typeAt v l = s.frames.typeAt v l)
  | saved {label : Label} (hscope : scope.saves label)
      (h : Traced cx.types v label ((s.frames.live.locals.get? v).map (cx.types.widened ty))
        s.frames s'.frames)
  | told {t : LowerState} (hchange : Change cx s t)
      (h : HandlerSaves cx (cx.regions.protecting cx.current) t s')
  | loaded {label : Label} (hscope : scope.binds label)
      (hlive : s.frames.typeAt v label = some (s'.frames.live.locals.get? v))
      (hframes : ∀ l, s'.frames.typeAt v l = s.frames.typeAt v l)
  | deferred (hscope : scope.binds (.source cx.current))
      (hlive : s'.frames.live.locals.get? v = s.frames.live.locals.get? v)
      (hframes : ∀ l, s'.frames.typeAt v l = (s.frames.typeAt v l).or
        (if .source cx.current = l then
          some ((s.frames.live.locals.get? v).map (cx.types.widened ty)) else none))

section Steps

variable {cx : Context} {scope : Scope} {base v : Nat} {ty : Ty} {a b : Stage}
  {D : Label → Prop} {R : Option Ty → Prop}

theorem StepIn.touches (h : StepIn cx scope a b) (hvar : VariableAt base v ty a.1.slots)
    (hplain : b.1.slots.isDefaulted v = false) : Touches cx scope v ty a.1 b.1 := by
  cases h with
  | push hpush =>
    obtain ⟨-, rfl⟩ := FrameStore.push_ok hpush
    exact .still rfl fun _ => rfl
  | pop hpop =>
    obtain ⟨_, -, rfl⟩ := FrameStore.pop_ok hpop
    exact .still rfl fun _ => rfl
  | @release s p slot slots hrelease =>
    refine .still ?_ fun _ => rfl
    show (SlotMap.erase _ slot).get? v = _
    obtain ⟨name, hname⟩ := hvar.declared
    have habove := hvar.fits.le_of_release hrelease
    have hbelow := hvar.fits.below hname
    have hpos := ty.category_pos
    dsimp only at hbelow
    rw [SlotMap.get?_erase, if_neg (by omega)]
  | change hchange htold => exact .told hchange htold
  | repair hrepair =>
    obtain ⟨hlive, hframes⟩ := hvar.repair hrepair hplain
    exact .still hlive hframes
  | save hlocals _ hsave _ hscope => exact .saved hscope (hvar.traced_live hsave hplain hlocals)
  | @bindLoaded s p label frame _ _ hframe hscope =>
    have hfound : s.frames.typeAt v label = some (frame.locals.get? v) := by
      unfold FrameStore.typeAt
      rw [FrameStore.frameOf_of_recorded? hframe]
      rfl
    exact .loaded hscope hfound fun _ => rfl
  | bindNew _ _ _ hsave hscope =>
    obtain ⟨hlive, hothers, hlabel⟩ := hvar.traced_live hsave hplain rfl
    exact .saved hscope.1 ⟨hlive, hothers, hlabel⟩
  | @defer s p _ _ hscope =>
    refine .deferred hscope rfl fun l => ?_
    show FrameStore.typeAt (s.frames.defer _ _) v l = _
    unfold FrameStore.typeAt
    rw [FrameStore.frameOf_defer, Option.map_or, apply_ite (Option.map _), Option.map_some,
      Option.map_none, hvar.get?_widen]
  | _ => exact .still rfl fun _ => rfl

theorem Change.typeAt {s t : LowerState} (h : Change cx s t) (l : Label) :
    t.frames.typeAt v l = s.frames.typeAt v l := by
  obtain ⟨-, -, hrecorded, hdeferred, -⟩ := h.outline
  unfold FrameStore.typeAt FrameStore.frameOf
  rw [hrecorded, hdeferred]

theorem VariableAt.change {s t : LowerState} (hvar : VariableAt base v ty s.slots)
    (h : Change cx s t) : VariableAt base v ty t.slots :=
  hvar.of_declared (h.fits hvar.fits) h.outline.1

namespace Touches

variable {s s' : LowerState}

/-- The labels that the live frame may be saved at have the variable as before, if the
live frame has it so, and each live frame that handlers are told of. -/
theorem holds (h : Touches cx scope v ty s s') (hvar : VariableAt base v ty s.slots)
    (hplain : s'.slots.isDefaulted v = false) (hR : Steady cx.types ty R)
    (hs : Holds v D R s.frames)
    (hlive : ∀ l, D l → scope.saves l ∨ scope.binds l → R (s.frames.live.locals.get? v))
    (htold : ∀ t, Change cx s t → HandlerSaves cx (cx.regions.protecting cx.current) t s' →
      ∀ r ∈ cx.regions.protecting cx.current, D (.handler r) → R (t.frames.live.locals.get? v)) :
    Holds v D R s'.frames := by
  cases h with
  | still _ hframes => exact (holds_congr hframes).mpr hs
  | saved hscope h => exact h.holds hR hs fun hl => hR.widened (hlive _ hl (.inl hscope))
  | told hchange h =>
    exact (h.holds (hvar.change hchange) hplain hR ((holds_congr hchange.typeAt).mpr hs)
      (htold _ hchange h)).1
  | loaded _ _ hframes => exact (holds_congr hframes).mpr hs
  | deferred hscope _ hframes =>
    intro l hl now hnow
    rw [hframes l] at hnow
    cases hold : s.frames.typeAt v l with
    | some old =>
      rw [hold] at hnow
      cases hnow
      exact hs l hl _ hold
    | none =>
      rw [hold, Option.none_or] at hnow
      split at hnow
      · next heq =>
        cases hnow
        exact hR.widened (hlive l hl (.inr (heq ▸ hscope)))
      · cases hnow

/-- The live frame has the variable as before, if the labels have it so that may be
bound. -/
theorem live (h : Touches cx scope v ty s s') (hvar : VariableAt base v ty s.slots)
    (hplain : s'.slots.isDefaulted v = false) (hR : Steady cx.types ty R)
    (hbinds : ∀ l, scope.binds l → D l) (hs : Holds v D R s.frames)
    (hlive : R (s.frames.live.locals.get? v))
    (htold : ∀ t, Change cx s t → HandlerSaves cx (cx.regions.protecting cx.current) t s' →
      R (t.frames.live.locals.get? v)) :
    R (s'.frames.live.locals.get? v) := by
  cases h with
  | still hsame => exact hsame ▸ hlive
  | saved _ h => exact h.live ▸ hlive
  | @told t hchange h =>
    have hnone : Holds v (fun _ => False) R t.frames := fun _ hl => hl.elim
    obtain ⟨-, hsame⟩ := h.holds (hvar.change hchange) hplain hR hnone fun _ _ hl => hl.elim
    exact hsame ▸ htold t hchange h
  | @loaded label hscope hfound _ => exact hs label (hbinds label hscope) _ hfound
  | deferred _ hsame => exact hsame ▸ hlive

/-- What the frames of labels have after a step they had before it. -/
theorem reflects (h : Touches cx scope v ty s s') (hvar : VariableAt base v ty s.slots)
    (hplain : s'.slots.isDefaulted v = false) (hR : Firm cx.types ty R)
    (hs : Holds v D R s'.frames) : Holds v D R s.frames := by
  cases h with
  | still _ hframes => exact (holds_congr hframes).mp hs
  | saved _ h => exact (h.reflects hR hs).1
  | told hchange h =>
    exact (holds_congr hchange.typeAt).mp
      (h.reflects (hvar.change hchange) hplain hR hs).1
  | loaded _ _ hframes => exact (holds_congr hframes).mp hs
  | deferred _ _ hframes =>
    intro l hl old hold
    refine hs l hl old ?_
    rw [hframes l, hold]
    rfl

end Touches

-- ==== runs

theorem Step.plain (h : Step cx a b) (hplain : b.1.slots.isDefaulted v = false) :
    a.1.slots.isDefaulted v = false :=
  Bool.eq_false_iff.mpr fun htrue => Bool.false_ne_true (hplain.symm.trans (h.defaulted htrue))

theorem VariableAt.steps (hvar : VariableAt base v ty a.1.slots) (h : Steps cx a b) :
    VariableAt base v ty b.1.slots := by
  induction h with
  | refl => exact hvar
  | tail _ hstep ih => exact ih.step hstep

theorem HandlerSaves.told {s t : LowerState} {rs : List Nat} (h : HandlerSaves cx rs t s)
    (hvar : VariableAt base v ty t.slots) (hplain : s.slots.isDefaulted v = false)
    (hR : Firm cx.types ty R) {r : Nat} (hr : r ∈ rs)
    (hend : Holds v (· = .handler r) R s.frames) : R (t.frames.live.locals.get? v) :=
  (h.reflects hvar hplain hR hend).2 r hr rfl

/-- Code around which a region has its handler: the live frame has the variable as the
handler has it in the end, if it starts so and binds labels only that have it so. -/
theorem StepsIn.covered (h : StepsIn cx scope a b) (hvar : VariableAt base v ty a.1.slots)
    (hplain : b.1.slots.isDefaulted v = false) (hR : Firm cx.types ty R) {r : Nat}
    (hr : r ∈ cx.regions.protecting cx.current)
    (hend : Holds v (· = .handler r) R b.1.frames) (hbinds : ∀ l, scope.binds l → D l)
    (hs : Holds v D R a.1.frames) (hlive : R (a.1.frames.live.locals.get? v)) :
    Holds v D R b.1.frames ∧ R (b.1.frames.live.locals.get? v) := by
  -- what the handler has in the end it has at all times, so the induction may assume it
  induction h with
  | refl => exact ⟨hs, hlive⟩
  | @tail c b hsteps hstep ih =>
    have hat := hvar.steps (StepsIn.steps hsteps)
    have htouches := hstep.touches hat hplain
    obtain ⟨hs, hlive⟩ := ih (hstep.step.plain hplain) (htouches.reflects hat hplain hR hend)
    have htold : ∀ t, Change cx c.1 t →
        HandlerSaves cx (cx.regions.protecting cx.current) t b.1 →
        R (t.frames.live.locals.get? v) :=
      fun t hchange h => h.told (hat.change hchange) hplain hR hr hend
    exact ⟨htouches.holds hat hplain hR.toSteady hs (fun _ _ _ => hlive)
        fun t hchange h _ _ _ => htold t hchange h,
      htouches.live hat hplain hR.toSteady hbinds hs hlive htold⟩

/-- Code that saves to none of some labels: they have the variable as before, if no handler
among them is told of it, or one that has it so in the end. -/
theorem StepsIn.spared (h : StepsIn cx scope a b) (hvar : VariableAt base v ty a.1.slots)
    (hplain : b.1.slots.isDefaulted v = false) (hR : Firm cx.types ty R)
    (hscope : ∀ l, D l → ¬ scope.saves l ∧ ¬ scope.binds l)
    (htold : ∀ q ∈ cx.regions.protecting cx.current, D (.handler q) →
      ∃ r ∈ cx.regions.protecting cx.current, Holds v (· = .handler r) R b.1.frames)
    (hs : Holds v D R a.1.frames) : Holds v D R b.1.frames := by
  induction h with
  | refl => exact hs
  | @tail c b hsteps hstep ih =>
    have hat := hvar.steps (StepsIn.steps hsteps)
    have htouches := hstep.touches hat hplain
    have hs := ih (hstep.step.plain hplain) fun q hq hl => by
      obtain ⟨r, hr, hend⟩ := htold q hq hl
      exact ⟨r, hr, htouches.reflects hat hplain hR hend⟩
    refine htouches.holds hat hplain hR.toSteady hs (fun l hl hor => ?_)
      fun t hchange h q hq hl => ?_
    · exact (hor.elim (hscope l hl).1 (hscope l hl).2).elim
    · obtain ⟨r, hr, hend⟩ := htold q hq hl
      exact h.told (hat.change hchange) hplain hR hr hend

theorem VariableAt.codeSteps {code : List (Nat × Op)} (hvar : VariableAt base v ty a.1.slots)
    (h : CodeSteps cx code a b) : VariableAt base v ty b.1.slots :=
  h.keeps (I := fun c => VariableAt base v ty c.1.slots) (fun _ _ _ _ hc hstep => hc.step hstep)
    hvar

theorem CodeSteps.reflects {code : List (Nat × Op)} (h : CodeSteps cx code a b)
    (hvar : VariableAt base v ty a.1.slots) (hplain : b.1.slots.isDefaulted v = false)
    (hR : Firm cx.types ty R) (hb : Holds v D R b.1.frames) :
    a.1.slots.isDefaulted v = false ∧ Holds v D R a.1.frames := by
  induction h with
  | refl => exact ⟨hplain, hb⟩
  | tail hsteps hstep ih =>
    obtain ⟨e, -, hstep⟩ := hstep
    have hat := hvar.codeSteps hsteps
    exact ih (hstep.plain hplain) ((hstep.touches hat hplain).reflects hat hplain hR hb)

/-- Nothing can be stored to a variable without a type. -/
theorem VariableAt.untyped_change {s t : LowerState} (hvar : VariableAt base v ty s.slots)
    (h : Change cx s t) (hs : Untyped ty (s.frames.live.locals.get? v)) :
    Untyped ty (t.frames.live.locals.get? v) := by
  intro hty
  cases h with
  | put hkind hwritable =>
    refine Option.eq_none_iff_forall_ne_some.mpr fun u hu => ?_
    rcases SlotMap.get?_of_store hu with ⟨rfl, -⟩ | hold
    · have hkind := hvar.kind_of_writable hwritable
      rw [hty] at hkind
      cases hkind
    · cases (hs hty).symm.trans hold
  | replace =>
    show (SlotMap.map _ _).get? v = none
    rw [SlotMap.get?_map, hs hty]
    rfl

/-- So no frame ever has one. -/
theorem CodeSteps.untyped {code : List (Nat × Op)} (h : CodeSteps cx code a b)
    (hvar : VariableAt base v ty a.1.slots) (hplain : b.1.slots.isDefaulted v = false)
    (hs : Holds v (fun _ => True) (Untyped ty) a.1.frames)
    (hlive : Untyped ty (a.1.frames.live.locals.get? v)) :
    Holds v (fun _ => True) (Untyped ty) b.1.frames ∧
      Untyped ty (b.1.frames.live.locals.get? v) := by
  induction h with
  | refl => exact ⟨hs, hlive⟩
  | tail hsteps hstep ih =>
    obtain ⟨e, -, hstep⟩ := hstep
    have hat := hvar.codeSteps hsteps
    have hR := steady_untyped (cx.atOffset e.1).types ty
    have htouches := hstep.touches hat hplain
    obtain ⟨hs, hlive⟩ := ih (hstep.plain hplain)
    exact ⟨htouches.holds hat hplain hR hs (fun _ _ _ => hlive)
        fun t hchange _ _ _ _ => hat.untyped_change hchange hlive,
      htouches.live hat hplain hR (fun _ _ => trivial) hs hlive
        fun t hchange _ => hat.untyped_change hchange hlive⟩

end Steps

end Lowering

end BytecodeBridge
