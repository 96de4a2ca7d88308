/-
Variables are assigned before they are read.

Whether a variable needs a default value is decided in one pass over the
operations. A variable that the live frame has a type for is taken to be
set, and the frame may still turn out wrong: a branch further down can lead
back to a label with a frame in which the variable is unset. The save in
front of that branch then changes the frame of code already emitted, and
the variable gets its default value after all.

So there are two reasons why a read is safe. A variable with a default
value is stored to before the method starts. For one without, every frame
recorded so far has told the truth (`Assigned`): where the live frame has
the variable, it was stored to on every path that leads here, and every
branch to a label whose frame has the variable stands where it was. What
makes this an invariant is that a label whose code is emitted never loses
the variable, because the save that would take it away makes the invariant
void by giving the variable its default value.

Code without exception handlers is assumed, as a path follows branches and
not exceptions.
-/
import BytecodeBridge.Proofs.Lowering.Labels
import BytecodeBridge.Proofs.Lowering.StackMap
import BytecodeBridge.Proofs.Lowering.Variable

namespace BytecodeBridge

namespace Lowering

open SlotMap FrameStore

open LowerM (widen contains_widen)

-- ==== the invariant

/-- Stores to the slot, in the kind that values of the type have. -/
def Stores (v : Nat) (ty : Ty) (i : Instr) : Prop :=
  ∃ kind, ty.stackKind? = some kind ∧ i = .storeSlot kind v

def Reads (v : Nat) (i : Instr) : Prop :=
  ∃ kind form, i = .load kind form ∧ form.slot = v

/-- The frames tell the truth about a variable: where they have it set, it was stored
to on every path. -/
structure Assigned (v : Nat) (ty : Ty) (a : Stage) : Prop where
  guarded : Guarded (a.1.frames.Kept v) (Stores v ty) (Reads v) a.1.code.body
  live : a.1.frames.live.locals.contains v = true →
    Sure (a.1.frames.Kept v) (Stores v ty) a.1.code.body
  saved : ∀ label ∈ a.2, a.1.frames.Kept v label →
    Sure (a.1.frames.Kept v) (Stores v ty) a.1.code.body

theorem not_reads_of_slot? {v : Nat} {i : Instr} (h : i.slot? = none) : ¬ Reads v i := by
  rintro ⟨kind, form, rfl, -⟩
  cases h

namespace Assigned

variable {cx : Context} {base v : Nat} {ty : Ty} {s s' : LowerState} {p : List Label}

/-- Steps that leave the code and the frames of labels alone, and set no slot. -/
theorem of_same (h : Assigned v ty (s, p)) (hbody : s'.code.body = s.code.body)
    (hframes : ∀ l, s'.frames.typeAt v l = s.frames.typeAt v l)
    (hlive : s'.frames.live.locals.contains v = true → s.frames.live.locals.contains v = true) :
    Assigned v ty (s', []) := by
  refine ⟨?_, fun hv => ?_, by simp⟩
  · rw [kept_congr hframes, hbody]
    exact h.guarded
  · rw [kept_congr hframes, hbody]
    exact h.live (hlive hv)

/-- A save keeps the frames truthful as long as the variable needs no default value. -/
theorem saves (h : Assigned v ty (s, p)) (hvar : VariableAt base v ty s.slots)
    (hsettled : Settled cx.targets (s, p)) {label : Label} {frame : Frame}
    (hsave : Saves cx label frame s s') (hplain : s'.slots.isDefaulted v = false)
    (hframed : label ∈ boundLabels s.code.body → s.frames.frameOf label ≠ none)
    (hframe : frame.locals.contains v = true → s.frames.live.locals.contains v = true) :
    Assigned v ty (s', label :: p) := by
  have hslot := hvar.saves hsave hplain
  -- a label without a frame stays without one, or it is not bound yet
  have hkept : ∀ l, .bind l ∈ s.code.body → s.frames.Kept v l → s'.frames.Kept v l := by
    intro l hl hkept
    rw [← mem_boundLabels] at hl
    cases hnone : s.frames.frameOf l with
    | some f => exact hslot.up l (hsettled.bound l hl) (by rw [hnone]; exact nofun) hkept
    | none =>
      have hother : l ≠ label := fun heq => hframed (heq ▸ hl) (heq ▸ hnone)
      exact kept_of_none ((hsave.frameOf_eq_none hother).mpr hnone)
  have hsure : s.frames.live.locals.contains v = true →
      Sure (s'.frames.Kept v) (Stores v ty) s.code.body := fun hv => (h.live hv).mono hkept
  refine ⟨?_, fun hv => ?_, List.forall_mem_cons.mpr ⟨fun hl => ?_, fun l hl hkeeps => ?_⟩⟩
  · rw [hsave.mends.body]
    exact h.guarded.mono hslot.down hkept
  · rw [hsave.mends.body]
    refine hsure ?_
    rwa [contains, hslot.live] at hv
  · rw [hsave.mends.body]
    exact hsure (hframe (hslot.carried hl))
  · rw [hsave.mends.body]
    exact (h.saved l hl (hslot.down l hkeeps)).mono hkept

/-- An item other than a label is added at the end. -/
theorem push (h : Assigned v ty (s, p)) (item : Item) (hitem : item.label? = none)
    (htargets : ∀ label ∈ item.targets, label ∈ p)
    (hreads : ∀ i, item = .instr i → Reads v i → s.frames.live.locals.contains v = true)
    {frames : FrameStore} (hframes : ∀ l, frames.typeAt v l = s.frames.typeAt v l)
    (hlive : frames.live.locals.contains v = true → s.frames.live.locals.contains v = true ∨
      ∃ i, item = .instr i ∧ Stores v ty i) {slots : Slots} {reachable : Bool} :
    Assigned v ty ({ s with code := s.code.push item, frames, slots, reachable }, []) := by
  have hcongr : frames.Kept v = s.frames.Kept v := kept_congr hframes
  refine ⟨?_, fun hv => ?_, by simp⟩
  · rw [hcongr]
    exact ⟨fun ⟨label, hl, hkept⟩ => h.saved label (htargets label hl) hkept,
      fun i hi hr => h.live (hreads i hi hr), h.guarded⟩
  · rw [hcongr]
    rcases hlive hv with hold | ⟨i, rfl, hstore⟩
    · exact (h.live hold).cons fun label hl => by rw [hl] at hitem; cases hitem
    · exact .inl hstore

theorem emit (h : Assigned v ty (s, p)) {i : Instr} (hi : i.slot? = none) {reachable : Bool} :
    Assigned v ty ({ s with code := s.code.emit i, reachable }, []) := by
  refine h.push (.instr i) rfl (by simp [Item.targets]) (fun j hj hr => ?_) (fun _ => rfl) .inl
  cases hj
  exact absurd hr (not_reads_of_slot? hi)

theorem transfer (h : Assigned v ty (s, p)) (item : Item) (hlabel : item.label? = none)
    (hinstr : ∀ i, item ≠ .instr i) (htargets : ∀ label ∈ item.targets, label ∈ p)
    {reachable : Bool} : Assigned v ty ({ s with code := s.code.push item, reachable }, []) :=
  h.push item hlabel htargets (fun i hi => absurd hi (hinstr i)) (fun _ => rfl) .inl

/-- A label is bound at the end, and control goes on with a frame of which the label
knows. -/
theorem bind (h : Assigned v ty (s, p)) {label : Label} {frames : FrameStore}
    (hsub : ∀ l, frames.Kept v l → s.frames.Kept v l)
    (hbound : ∀ l, .bind l ∈ s.code.body → s.frames.Kept v l → frames.Kept v l)
    (hlive : frames.live.locals.contains v = true → frames.Kept v label ∧
      Sure (s.frames.Kept v) (Stores v ty) s.code.body) :
    Assigned v ty ({ s with code := s.code.bind label, frames, reachable := true }, []) := by
  refine ⟨⟨?_, nofun, h.guarded.mono hsub hbound⟩, fun hv => ?_, by simp⟩
  · rintro ⟨l, hl, -⟩
    cases hl
  · obtain ⟨hkept, hsure⟩ := hlive hv
    exact ⟨hkept, hsure.mono hbound⟩

theorem change (h : Assigned v ty (s, p)) (hvar : VariableAt base v ty s.slots)
    (hchange : Change cx s s') : Assigned v ty (s', []) := by
  cases hchange with
  | @put kind slot t _ hwritable =>
    refine h.push (.instr _) rfl (by simp [Item.targets]) (fun i hi hreads => ?_)
      (fun l => ?_) fun hv => ?_
    · cases hi
      obtain ⟨_, _, heq, -⟩ := hreads
      cases heq
    · rfl
    · obtain ⟨u, hu⟩ := contains_iff.mp hv
      rcases get?_of_store hu with ⟨rfl, -⟩ | hold
      · -- a store to the variable is one of its kind
        exact .inr ⟨_, rfl, kind, hvar.kind_of_writable hwritable, rfl⟩
      · exact .inl (contains_iff.mpr ⟨u, hold⟩)
  | replace =>
    refine h.of_same rfl (fun _ => rfl) fun hv => ?_
    rwa [← contains_map]

/-- A slot that is readable and has no default value is set. -/
theorem fetch (h : Assigned v ty (s, p)) (hvar : VariableAt base v ty s.slots)
    (hplain : s.slots.isDefaulted v = false) {kind : StackKind} {slot : Nat}
    (hreadable : Readable s kind slot) :
    Assigned v ty ({ s with code := s.code.emit (.loadSlot kind slot) }, []) := by
  refine h.push (.instr _) rfl (by simp [Item.targets]) (fun i hi hreads => ?_) (fun _ => rfl) .inl
  cases hi
  obtain ⟨_, _, heq, hslot⟩ := hreads
  cases heq
  rw [SlotForm.slot_of] at hslot
  subst hslot
  rcases hreadable with ⟨t, ht, -⟩ | ⟨d, hd, -, harg | ⟨-, hdefault⟩⟩
  · exact contains_iff.mpr ⟨t, ht⟩
  · obtain ⟨name, hname⟩ := hvar.declared
    cases hname.symm.trans hd
    cases harg
  · exact absurd (hplain.symm.trans hdefault) Bool.false_ne_true

theorem retract (h : Assigned v ty (s, p)) {code : CodeBuffer}
    (hretract : s.code.retract? .constNull (passable cx s) = some code) :
    Assigned v ty ({ s with code }, []) := by
  obtain ⟨rest, hrest, rfl⟩ := Option.map_eq_some_iff.mp hretract
  have hnostore : ¬ Stores v ty .constNull := by
    rintro ⟨_, -, heq⟩
    cases heq
  exact ⟨h.guarded.retract hrest, fun hv => (h.live hv).retract rfl hnostore hrest, by simp⟩

theorem bindLoaded (h : Assigned v ty (s, p)) (hmapped : Mapped (s, p)) {label : Label}
    {frame : Frame} (hreach : s.reachable = true → label ∈ p)
    (hframe : s.frames.recorded? label = some frame) :
    Assigned v ty ({ s with
      frames := { s.frames with live := frame }.markBound label
      code := s.code.bind label
      reachable := true }, []) := by
  refine h.bind (fun _ => id) (fun _ _ => id) fun hv => ?_
  have hkept : s.frames.Kept v label := (kept_iff (frameOf_of_recorded? hframe)).mpr hv
  refine ⟨hkept, ?_⟩
  cases hr : s.reachable with
  | true => exact h.saved label (hreach hr) hkept
  | false => exact (hmapped.closed hr).sure

/-- A label that was not bound before gets the live frame, in which nothing is lost. -/
theorem bindNew (h : Assigned v ty (s, p)) (hvar : VariableAt base v ty s.slots)
    (hsettled : Settled cx.targets (s, p)) {label : Label} (hhas : s.frames.has label = false)
    (hsave : Saves cx label (widen cx.types s.slots s.frames.live) s s')
    (hplain : s'.slots.isDefaulted v = false) (hnew : label ∉ boundLabels s.code.body) :
    Assigned v ty ({ s' with
      frames := s'.frames.markBound label
      code := s'.code.bind label
      reachable := true }, []) := by
  have hsaved := h.saves hvar hsettled hsave hplain (fun hbound => absurd hbound hnew)
    fun hv => by rwa [← contains_widen]
  refine hsaved.bind (fun _ => id) (fun _ _ => id) fun hv => ?_
  have hslot := hvar.saves hsave hplain
  refine ⟨hslot.fresh (hsettled.frameOf_eq_none hnew hhas) ?_, hsaved.live hv⟩
  rw [contains_widen]
  change s'.frames.live.locals.contains v = true at hv
  rwa [contains, hslot.live] at hv

/-- Code that nothing reaches goes on with a frame put aside, which its label then has. -/
theorem defer (h : Assigned v ty (s, p)) (hmapped : Mapped (s, p)) (hreach : s.reachable = false)
    {label : Label} (hnone : s.frames.frameOf label = none)
    (hnew : label ∉ boundLabels s.code.body) :
    Assigned v ty ({ s with
      frames := (s.frames.defer label (widen cx.types s.slots s.frames.live)).markBound label
      code := s.code.bind label
      reachable := true }, []) := by
  have hframe : (s.frames.defer label (widen cx.types s.slots s.frames.live)).frameOf label
      = some (widen cx.types s.slots s.frames.live) := by
    rw [frameOf_defer, hnone, if_pos rfl]
    rfl
  have hothers : ∀ l, l ≠ label →
      ((s.frames.defer label (widen cx.types s.slots s.frames.live)).Kept v l ↔
        s.frames.Kept v l) := by
    intro l hl
    unfold Kept typeAt
    rw [frameOf_defer, if_neg (Ne.symm hl), Option.or_none]
  refine h.bind (fun l hl => ?_) (fun l hmem hl => ?_) fun hv =>
    ⟨(kept_iff hframe).mpr ?_, (hmapped.closed hreach).sure⟩
  · by_cases heq : l = label
    · exact heq ▸ kept_of_none hnone
    · exact (hothers l heq).mp hl
  · refine (hothers l fun heq => hnew ?_).mpr hl
    exact mem_boundLabels.mpr (heq ▸ hmem)
  · rwa [contains_widen]

/-- Every step keeps the frames truthful, as long as no label is bound twice and the
variable needs no default value. -/
theorem step {a b : Stage} (h : Assigned v ty a) (hvar : VariableAt base v ty a.1.slots)
    (hmapped : Mapped a) (hsettled : Settled cx.targets a) (hregions : cx.regions.regions = [])
    (hstep : Step cx a b) (honce : (boundLabels b.1.code.body).Nodup)
    (hplain : b.1.slots.isDefaulted v = false) : Assigned v ty b := by
  cases hstep with
  | push hpush =>
    obtain ⟨-, rfl⟩ := FrameStore.push_ok hpush
    exact h.of_same rfl (fun _ => rfl) id
  | pop hpop =>
    obtain ⟨_, -, rfl⟩ := FrameStore.pop_ok hpop
    exact h.of_same rfl (fun _ => rfl) id
  | release => exact h.of_same rfl (fun _ => rfl) contains_of_erase
  | change hchange htold =>
    -- there are no handlers to tell
    rw [RegionTree.protecting_of_nil hregions] at htold
    cases htold
    exact h.change hvar hchange
  | repair hrepair =>
    obtain ⟨hlive, hframes⟩ := hvar.repair hrepair hplain
    refine h.of_same hrepair.mends.body hframes fun hv => ?_
    rwa [contains, hlive] at hv
  | @save s s' p label frame hlocals hopen hsave =>
    refine h.saves hvar hsettled hsave hplain (fun hbound hnone => ?_) fun hv => ?_
    · -- a label that was passed through is not saved to
      obtain ⟨o, rfl, htarget⟩ := hsettled.framed label hbound hnone
      exact (hopen.ahead htarget hnone).1 hregions
    · rwa [hlocals, contains_widen] at hv
  | emit hi => exact h.emit hi.slot
  | fetch hreadable => exact h.fetch hvar hplain hreadable
  | retract hretract => exact h.retract hretract
  | branch hi hlabel =>
    refine h.transfer (.branch _ _) rfl (fun i hi => by cases hi) ?_
    simpa [Item.targets] using hlabel
  | exit hi => exact h.emit hi.slot
  | jump hlabel =>
    refine h.transfer (.branch _ _) rfl (fun i hi => by cases hi) ?_
    simpa [Item.targets] using hlabel
  | table hlabels => exact h.transfer (.table _ _ _) rfl (fun i hi => by cases hi) hlabels
  | bindLoaded _ hreach hframe => exact h.bindLoaded hmapped hreach hframe
  | bindNew _ hhas _ hsave =>
    have hnew := (List.nodup_cons.mp honce).1
    rw [hsave.mends.body] at hnew
    exact h.bindNew hvar hsettled hhas hsave hplain hnew
  | pass hhas =>
    have hnew := (List.nodup_cons.mp honce).1
    refine h.bind (fun _ => id) (fun _ _ => id) fun hv => ⟨?_, h.live hv⟩
    exact kept_of_none (hsettled.frameOf_eq_none hnew hhas)
  | defer hhas hreach =>
    have hnew := (List.nodup_cons.mp honce).1
    exact h.defer hmapped hreach (hsettled.frameOf_eq_none hnew hhas) hnew
  | _ => exact h.of_same rfl (fun _ => rfl) id

end Assigned

-- ==== default values

/-- The prologue stores to a variable that has a default value, and reads nothing. -/
structure Defaults (v : Nat) (ty : Ty) (s : LowerState) : Prop where
  unread : ∀ i ∈ s.code.prologue, ¬ Reads v i
  stored : s.slots.isDefaulted v = true → ∃ i ∈ s.code.prologue, Stores v ty i

section Run

variable {cx : Context} {base v : Nat} {ty : Ty} {s s' : LowerState}

theorem Defaults.repair (h : Defaults v ty s) (hvar : VariableAt base v ty s.slots)
    (hrepair : Repair s s') : Defaults v ty s' := by
  cases hrepair with
  | fill => exact ⟨h.unread, h.stored⟩
  | @default slot d kind instrs depth pool hdeclared hvariable hnew hkind hcode =>
    constructor
    · rw [CodeBuffer.foldl_emitPrologue]
      intro i hi
      rcases List.mem_append.mp hi with hi | hi
      · rcases List.mem_append.mp (List.mem_reverse.mp hi) with hi | hi
        · exact not_reads_of_slot? (hcode.plain i hi).slot
        · rintro ⟨_, _, rfl, -⟩
          cases List.mem_singleton.mp hi
      · exact h.unread i hi
    · rw [CodeBuffer.foldl_emitPrologue]
      intro hv
      change (s.slots.defaulted.insert slot).contains v = true at hv
      rw [Std.TreeSet.contains_insert, Bool.or_eq_true] at hv
      rcases hv with heq | hv
      · -- the variable is the one that gets a default value
        obtain rfl : slot = v := by simpa using heq
        obtain ⟨name, hname⟩ := hvar.declared
        cases hname.symm.trans hdeclared
        exact ⟨_, by simp, kind, hkind, rfl⟩
      · obtain ⟨i, hi, hstores⟩ := h.stored hv
        exact ⟨i, List.mem_append_right _ hi, hstores⟩

theorem Defaults.saves (h : Defaults v ty s) (hvar : VariableAt base v ty s.slots)
    {label : Label} {frame : Frame} (hsave : Saves cx label frame s s') : Defaults v ty s' := by
  obtain ⟨frames, saved, events, made, -, -, hrepairs, -⟩ := hsave.exists_save
  have hat : VariableAt base v ty { s with frames, events, made }.slots := hvar
  exact hrepairs.keeps (I := Defaults v ty)
    (fun _ _ hmends ht hrepair => ht.repair (hat.mends hmends) hrepair) ⟨h.unread, h.stored⟩

theorem Defaults.change (h : Defaults v ty s) (hchange : Change cx s s') : Defaults v ty s' := by
  cases hchange with
  | put | replace => exact ⟨h.unread, h.stored⟩

theorem Defaults.step {a b : Stage} (h : Defaults v ty a.1) (hvar : VariableAt base v ty a.1.slots)
    (hstep : Step cx a b) : Defaults v ty b.1 := by
  cases hstep with
  | borrow hborrow =>
    obtain ⟨_, _, _, _, rfl⟩ := Slots.borrow_ok hborrow
    exact ⟨h.unread, h.stored⟩
  | release hrelease =>
    obtain ⟨_, _, _, rfl⟩ := Slots.release_ok hrelease
    exact ⟨h.unread, h.stored⟩
  | change hchange htold =>
    have hchanged := hvar.of_declared (hchange.fits hvar.fits) hchange.outline.1
    exact htold.keeps (I := Defaults v ty)
      (fun _ _ _ _ hmends ht hsave => ht.saves (hchanged.mends hmends) hsave) (h.change hchange)
  | repair hrepair => exact h.repair hvar hrepair
  | save _ _ hsave => exact h.saves hvar hsave
  | retract hretract =>
    obtain ⟨rest, -, rfl⟩ := Option.map_eq_some_iff.mp hretract
    exact ⟨h.unread, h.stored⟩
  | bindNew _ _ _ hsave =>
    obtain ⟨hunread, hstored⟩ := h.saves hvar hsave
    exact ⟨hunread, hstored⟩
  | _ => exact ⟨h.unread, h.stored⟩

-- ==== the run

/-- What holds of a variable throughout a run. -/
structure Followed (targets : Std.TreeSet Nat) (base v : Nat) (ty : Ty) (a : Stage) :
    Prop where
  variableAt : VariableAt base v ty a.1.slots
  mapped : Mapped a
  settled : Settled targets a
  defaults : Defaults v ty a.1
  assigned : (boundLabels a.1.code.body).Nodup → a.1.slots.isDefaulted v = false →
    Assigned v ty a

theorem Followed.step {a b : Stage} (h : Followed cx.targets base v ty a)
    (hregions : cx.regions.regions = []) (hstep : Step cx a b) :
    Followed cx.targets base v ty b := by
  refine ⟨h.variableAt.step hstep, h.mapped.step hstep, h.settled.step hstep,
    h.defaults.step h.variableAt hstep, fun honce hplain => ?_⟩
  have honce' : (boundLabels a.1.code.body).Nodup :=
    honce.sublist hstep.boundLabels_suffix.sublist
  have hplain' : a.1.slots.isDefaulted v = false := by
    refine Bool.eq_false_iff.mpr fun htrue => ?_
    exact Bool.false_ne_true (hplain.symm.trans (hstep.defaulted htrue))
  exact (h.assigned honce' hplain').step h.variableAt h.mapped h.settled hregions hstep honce hplain

/-- At the start no variable is set. -/
theorem Started.followed (h : Started cx s) {i : Nat} {x : Variable}
    (hx : cx.body.locals[i]? = some x) :
    Followed cx.targets s.slots.next (variableSlot cx.body i) x.ty (s, []) := by
  obtain ⟨locals, -, hlaid⟩ := h.laidOut
  refine ⟨⟨hlaid.fits, x.name, (hlaid.vars hx).2⟩, h.mapped, h.settled, ⟨?_, fun hv => ?_⟩,
    fun _ _ => ⟨?_, fun hv => ?_, by simp⟩⟩
  · simp [h.code]
  · rw [hlaid.fresh] at hv
    cases hv
  · rw [h.code]
    trivial
  · obtain ⟨t, ht⟩ := contains_iff.mp hv
    cases (h.get?_variable hx).symm.trans ht

theorem Started.kinded (h : Started cx s) {i : Nat} {x : Variable}
    (hx : cx.body.locals[i]? = some x) : Kinded (variableSlot cx.body i) x.ty s := by
  refine ⟨⟨fun t kind ht => ?_, fun l f hf => ?_⟩, ?_⟩
  · cases (h.get?_variable hx).symm.trans ht
  · cases (h.frameOf_eq_none l).symm.trans hf
  · simp [h.code]

/-- The code at the end is guarded: reads of the variable stand behind its stores. -/
theorem Followed.guarded {p : List Label} (h : Followed cx.targets base v ty (s, p))
    (honce : (boundLabels s.code.body).Nodup) :
    ∃ R, Guarded R (Stores v ty) (Reads v) (s.code.body ++ s.code.prologue.map .instr) := by
  cases hdefault : s.slots.isDefaulted v with
  | false =>
    exact ⟨_, (h.assigned honce hdefault).guarded.append (guarded_instrs h.defaults.unread)⟩
  | true =>
    obtain ⟨i, hi, hstores⟩ := h.defaults.stored hdefault
    exact ⟨_, (guarded_of_sure (sure_instrs hi hstores) (guarded_instrs h.defaults.unread)).2⟩

end Run

/-- Variables are assigned before they are read. On every path through the code of a
method without handlers, a load of a variable's slot comes behind a store to that slot
in the kind of the variable's type; and the load is of that kind too, where primitives
are neither the owner of the method nor declared as supertypes. -/
theorem load_after_store {config : Config} {T : TypeTable} {pool : Pool} {body : Body} {m : Method}
    (h : (lowerMethod config T pool body).result = .ok m) (hhandlers : body.handlers = [])
    {i : Nat} {x : Variable} (hx : body.locals[i]? = some x) {trace : List Instr} {a : Nat}
    (hpath : Path m.code trace a) {kind : StackKind} {form : SlotForm}
    (hload : (a, .load kind form) ∈ m.code) (hslot : form.slot = variableSlot body i) :
    ∃ declared, x.ty.stackKind? = some declared ∧
      .storeSlot declared (variableSlot body i) ∈ trace ∧
      (body.owner.prim? = none → T.Proper → kind = declared) := by
  obtain ⟨cx, s₁, s₂, s₃, p, rfl, rfl, hstarted, hsteps, hreach, hfinish⟩ := exists_run h
  have hregions := hstarted.noRegions hhandlers
  have hfollowed := hsteps.keeps
    (fun e _ _ _ ha hstep => @Followed.step (cx.atOffset e.1) _ _ _ _ _ ha hregions hstep)
    (hstarted.followed hx)
  obtain ⟨⟨asm, frames, hfinished⟩, -⟩ := exists_finished hfinish
  obtain ⟨items, l, hwide, hassembled⟩ := CodeBuffer.assemble_ok hfinished.assembled
  rw [hfinished.code] at hpath hload
  have hplain := hfollowed.mapped.plain_of_widens hwide
  obtain ⟨R, hguard⟩ := hfollowed.guarded (nodup_of_assemble hfinished.assembled)
  have hguarded := hguard.widens (s₂.code.reverse_items ▸ List.forall₂_reverse_iff.mpr hwide)
  obtain ⟨store, hstore, declared, hdeclared, rfl⟩ :=
    Path.stores_of_reads hassembled hplain hguarded hpath hload ⟨kind, form, rfl, hslot⟩ rfl
  refine ⟨declared, hdeclared, hstore, fun howner hT => ?_⟩
  -- the load stands in the body, where it was emitted in the kind of the variable
  have hkinded := hsteps.keeps
    (I := fun a => VariableAt s₁.slots.next (variableSlot cx.body i) x.ty a.1.slots ∧
      Kinded (variableSlot cx.body i) x.ty a.1)
    (fun e _ _ _ ha hstep => ⟨ha.1.step hstep,
      @Kinded.step (cx.atOffset e.1) _ _ _ hT howner _ _ ha.2 ha.1 hstep⟩)
    ⟨(hstarted.followed hx).variableAt, hstarted.kinded hx⟩
  obtain ⟨pre, item, post, heq, -, hpatch⟩ := (hassembled.code _ _).mp hload
  have hitem := (Layout.patch_ok hpatch).2.2.resolve_right fun hne => hne rfl
  have hmem : .instr (.load kind form) ∈ items := by
    rw [heq, ← hitem]
    exact List.mem_append_right _ List.mem_cons_self
  rcases mem_body_of_widens hwide hmem with ⟨j, hj, hinstr⟩ | ⟨original, hbody, hwidens⟩
  · cases hinstr
    exact absurd ⟨kind, form, rfl, hslot⟩ (hfollowed.defaults.unread _ hj)
  · cases hwidens
    exact Option.some_inj.mp ((hkinded.2.code kind form hbody hslot).symm.trans hdeclared)

/-- The body of the loop reads a variable that only the prologue stores to. -/
theorem load_after_store_testLast :
    ∃ m, (lowerMethod {} (.ofConfig {}) .empty testLast).result = .ok m ∧
      ∃ trace, Path m.code trace 5 ∧ (5, .load (.num .int) (.short 1)) ∈ m.code ∧
        ∃ declared, .storeSlot declared 1 ∈ trace ∧ declared = .num .int := by
  obtain ⟨m, hm, hcode⟩ := exists_of_preview preview_testLast
  have hpath : Path m.code [.ifZero .ne (-3), .load (.num .int) (.short 0), .goto 5,
      .store (.num .int) (.short 1), .const .int 0] 5 := by
    have hconst : Path m.code _ 1 := .next (i := .const .int 0) .start (by simp [hcode]) rfl
    have hstore : Path m.code _ 2 :=
      .next (i := .store (.num .int) (.short 1)) hconst (by simp [hcode]) rfl
    have hjump : Path m.code _ 7 := .jump (o := 5) (i := .goto 5) hstore (by simp [hcode])
      List.mem_cons_self rfl
    have hload : Path m.code _ 8 :=
      .next (i := .load (.num .int) (.short 0)) hjump (by simp [hcode]) rfl
    exact .jump (o := -3) hload (by simp [hcode]) List.mem_cons_self rfl
  have hload : (5, .load (.num .int) (.short 1)) ∈ m.code := by simp [hcode]
  obtain ⟨declared, -, hstore, hkind⟩ := load_after_store hm rfl (i := 0) rfl hpath hload rfl
  exact ⟨m, hm, _, hpath, hload, declared, hstore,
    (hkind rfl (TypeTable.proper_of_classes (by decide))).symm⟩

/-- A method that joins two classes which are both declared below `int`. -/
def joinsClasses : Body where
  owner := .ref "Join"
  name := "pick"
  kind := .static
  params := [⟨none, .prim .int32⟩, ⟨none, .ref "A"⟩, ⟨none, .ref "B"⟩]
  locals := [⟨none, .ref "X"⟩]
  returns := none
  code := [(0, .loadArg 0), (1, .branchIf true 5), (2, .loadArg 1), (3, .storeLocal 0),
    (4, .jump 7), (5, .loadArg 2), (6, .storeLocal 0), (7, .loadLocal 0), (8, .pop), (9, .ret)]
  handlers := []

def belowInt : TypeTable :=
  ((TypeTable.ofConfig {}).declareClass "A" (some (.prim .int32)) []).declareClass "B"
    (some (.prim .int32)) []

private theorem preview_joinsClasses :
    preview {} belowInt joinsClasses
      = some [(0, .load (.num .int) (.short 0)), (1, .ifZero .ne 8),
          (4, .load .reference (.short 1)), (5, .store .reference (.short 3)), (6, .goto 5),
          (9, .load .reference (.short 2)), (10, .store .reference (.short 3)),
          (11, .load (.num .int) (.short 3)), (12, .pop), (13, .returnVoid)] := by
  cbv

/-- With a primitive declared as a supertype the kinds may differ: a variable that
references were stored to on both paths is read as an `int`. -/
theorem load_kind_joinsClasses :
    ∃ m trace, (lowerMethod {} belowInt .empty joinsClasses).result = .ok m ∧
      variableSlot joinsClasses 0 = 3 ∧ Path m.code trace 11 ∧
      (11, .load (.num .int) (.short 3)) ∈ m.code ∧ ∀ i ∈ trace, i ≠ .storeSlot (.num .int) 3 := by
  obtain ⟨m, hm, hcode⟩ := exists_of_preview preview_joinsClasses
  have hpath : Path m.code [.goto 5, .store .reference (.short 3), .load .reference (.short 1),
      .ifZero .ne 8, .load (.num .int) (.short 0)] 11 := by
    have hchoice : Path m.code [.load (.num .int) (.short 0)] 1 :=
      .next .start (by simp [hcode]) rfl
    have htest : Path m.code _ 4 := .next (i := .ifZero .ne 8) hchoice (by simp [hcode]) rfl
    have harg : Path m.code _ 5 :=
      .next (i := .load .reference (.short 1)) htest (by simp [hcode]) rfl
    have hstore : Path m.code _ 6 :=
      .next (i := .store .reference (.short 3)) harg (by simp [hcode]) rfl
    exact .jump (o := 5) hstore (by simp [hcode]) List.mem_cons_self rfl
  exact ⟨m, _, hm, by decide, hpath, by simp [hcode], by decide⟩

end Lowering

end BytecodeBridge
