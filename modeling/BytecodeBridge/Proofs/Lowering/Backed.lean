/-
What holds of the state of a lowering at any time.

A few facts about what was done so far make the next step possible. The
slots are laid out without overlap, and those that regions keep for
exceptions are declared for that. A label that
is numbered or resumed has a frame only once it was made, so that one just
made has none. And what is thrown takes one slot, on the stack of every
handler as in the slots it is kept in (`Slender`), as long as nothing wide
can be thrown or joined (`Thin`).

`Backed` collects them, together with what a scope has to allow for the
labels of an operation's own code, and `Backed.step` shows that steps keep
them.
-/
import BytecodeBridge.Proofs.Lowering.Stable

namespace BytecodeBridge

/-- The slots a region keeps for exceptions. -/
def Region.keptSlots (r : Region) : List Nat :=
  r.finallySlot.toList ++ r.filterSlot.toList ++ r.clauses.filterMap Clause.rethrowSlot

/-- Whether the label is made by the code that uses it. -/
def Label.isNumbered : Label → Bool
  | .resume _ _ | .synthetic _ => true
  | .source _ | .handler _ | .dispatch _ _ | .filterReject _ _ => false

namespace Lowering

open LowerM (widen)

variable {cx : Context} {s s' : LowerState}

variable {label : Label} {p p' : List Label} {a b : Stage}

-- ==== labels made

theorem Made.mono (h : Made s label) (hnext : s.nextLabel ≤ s'.nextLabel)
    (hresumed : ∀ r ∈ s.resumed, r ∈ s'.resumed) : Made s' label := by
  cases label with
  | synthetic n => exact Nat.lt_of_lt_of_le h hnext
  | resume r _ => exact hresumed r h
  | _ => trivial

theorem made_of_not_isNumbered (h : label.isNumbered = false) : Made s label := by
  cases label with
  | synthetic _ | resume _ _ => cases h
  | _ => trivial

theorem Step.made (h : Step cx (s, p) (s', p')) (hlabel : Made s label) : Made s' label := by
  cases h with
  | fresh => exact hlabel.mono (Nat.le_succ _) fun _ hr => hr
  | resumed => exact hlabel.mono (Nat.le_refl _) fun _ hr => .tail _ hr
  | change hchange htold =>
    have hmade := htold.mends.made
    cases hchange with
    | put | replace => exact hlabel.mono (Nat.le_of_eq hmade.1.symm) fun _ hr => hmade.2 ▸ hr
  | repair h | save _ _ h | bindNew _ _ _ h =>
    exact hlabel.mono (Nat.le_of_eq h.mends.made.1.symm) fun _ hr => h.mends.made.2 ▸ hr
  | _ => exact hlabel

/-- A step gives a frame to labels that were made only. -/
theorem Step.has_made (h : Step cx (s, p) (s', p')) (hhas : s'.frames.has label = true)
    (hold : s.frames.has label = true → Made s label) :
    Made s' label := by
  -- labels that handlers are entered at need not be made
  have htell : ∀ {rs : List Nat} {t : LowerState}, HandlerSaves cx rs t s' →
      t.frames.has label = s.frames.has label → Made s' label ∨ s.frames.has label = true := by
    intro rs t htold hsame
    cases hnumbered : label.isNumbered with
    | false => exact .inl (made_of_not_isNumbered hnumbered)
    | true =>
      have hne : ∀ r, label ≠ .handler r := by
        rintro r rfl
        cases hnumbered
      exact .inr (hsame ▸ htold.has hne ▸ hhas)
  have hlater : (s.frames.has label = true) → Made s' label := fun hs => h.made (hold hs)
  cases h with
  | push hpush =>
    obtain ⟨-, rfl⟩ := FrameStore.push_ok hpush
    exact hlater hhas
  | pop hpop =>
    obtain ⟨_, -, rfl⟩ := FrameStore.pop_ok hpop
    exact hlater hhas
  | change hchange htold =>
    exact (htell htold (hchange.has label)).elim id hlater
  | repair hrepair => exact hlater ((hrepair.has label).symm.trans hhas)
  | @save _ _ _ saved _ _ _ hsave _ _ hmade | @bindNew _ t _ saved _ _ _ hsave _ hmade =>
    by_cases heq : label = saved
    · subst heq
      exact hmade.mono (Nat.le_of_eq hsave.mends.made.1.symm) fun _ hr => hsave.mends.made.2 ▸ hr
    · exact hlater ((hsave.has_of_ne heq).symm.trans hhas)
  | _ => exact hlater hhas

-- ==== stacks at labels

/-- If the label has a frame, its stack is as said. -/
def StackAt (Q : List Ty → Prop) (label : Label) (frames : FrameStore) : Prop :=
  ∀ f, frames.frameOf label = some f → Q f.stack

namespace StackAt

variable {Q : List Ty → Prop}

theorem congr {frames frames' : FrameStore} (h : StackAt Q label frames)
    (hrecorded : frames'.recorded = frames.recorded)
    (hdeferred : frames'.deferred = frames.deferred) : StackAt Q label frames' := by
  intro f hf
  refine h f ?_
  unfold FrameStore.frameOf at hf ⊢
  rw [← hrecorded, ← hdeferred]
  exact hf

theorem iff_each {frames : FrameStore} :
    StackAt Q label frames ↔ frames.Each fun l f => l = some label → Q f.stack := by
  refine ⟨fun h => ⟨nofun, fun l f hf heq => ?_⟩, fun h f hf => h.frames label f hf rfl⟩
  cases heq
  exact h f hf

theorem repair (h : StackAt Q label s.frames) (hrepair : Repair s s') :
    StackAt Q label s'.frames := by
  rw [iff_each] at h ⊢
  exact hrepair.each (fun _ _ => id) h

section Merges

variable (hmerge : ∀ {a b c : Frame}, Q a.stack → a.merge cx.types b = .ok c → Q c.stack)
include hmerge

theorem saves (h : StackAt Q label s.frames) {saved : Label} {frame : Frame}
    (hsave : Saves cx saved frame s s') (hframe : saved = label → Q frame.stack) :
    StackAt Q label s'.frames := by
  rw [iff_each] at h ⊢
  exact hsave.each (fun _ _ => id) (fun hold hmerged heq => hmerge (hold heq) hmerged)
    (fun heq => hframe (Option.some.inj heq)) h

theorem handlerSaves (h : StackAt Q label s.frames) {rs : List Nat}
    (hsaves : HandlerSaves cx rs s s')
    (hthrown : ∀ r, .handler r = label → Q [cx.types.throwable]) :
    StackAt Q label s'.frames :=
  hsaves.keeps (I := fun t => StackAt Q label t.frames)
    (fun r _ _ _ _ ht hsave => ht.saves hmerge hsave (hthrown r)) h

/-- A step changes the frame of a label by telling its handler, or by what it saves there. -/
theorem step {scope : Scope} (h : StackAt Q label a.1.frames) (hstep : StepIn cx scope a b)
    (hthrown : ∀ r, .handler r = label → Q [cx.types.throwable])
    (hsource : ∀ o stack, .source o = label → Q stack)
    (hsaves : ∀ stack, scope.saves label → (Thin cx → label.isEntry = true → Topped stack) →
      Q stack) : StackAt Q label b.1.frames := by
  cases hstep with
  | push hpush =>
    obtain ⟨-, rfl⟩ := FrameStore.push_ok hpush
    exact h.congr rfl rfl
  | pop hpop =>
    obtain ⟨_, -, rfl⟩ := FrameStore.pop_ok hpop
    exact h.congr rfl rfl
  | change hchange htold =>
    obtain ⟨-, -, hrecorded, hdeferred, -⟩ := hchange.outline
    exact (h.congr hrecorded hdeferred).handlerSaves hmerge htold hthrown
  | repair hrepair => exact h.repair hrepair
  | save _ _ hsave _ hscope _ htop =>
    refine h.saves hmerge hsave ?_
    rintro rfl
    exact hsaves _ hscope htop
  | bindLoaded => exact h.congr rfl rfl
  | bindNew _ _ _ hsave hscope _ htop =>
    have hsaved := h.saves hmerge hsave (by rintro rfl; exact hsaves _ hscope.1 htop)
    exact hsaved.congr rfl rfl
  | defer =>
    refine StackAt.congr (iff_each.mpr ((iff_each.mp h).defer fun heq => ?_)) rfl rfl
    exact hsource _ _ (Option.some.inj heq)
  | _ => exact h.congr rfl rfl

end Merges

end StackAt

-- ==== exceptions

/-- In the slots that are kept for exceptions, only what takes one slot is set. -/
def ThinKept (slots : Slots) (locals : SlotMap Ty) : Prop :=
  ∀ slot d t, slots.declared? slot = some d → d.kind = .synthetic → locals.get? slot = some t →
    t.category = 1

theorem ThinKept.of_declared {slots slots' : Slots} (h : slots'.declared = slots.declared) :
    ThinKept slots' = ThinKept slots := by
  unfold ThinKept Slots.declared?
  rw [h]

/-- The slots that are kept for exceptions are for what takes one slot. -/
def ThinSlots (slots : Slots) : Prop :=
  ∀ slot d, slots.declared? slot = some d → d.kind = .synthetic → d.ty.category = 1

theorem ThinSlots.of_declared {slots slots' : Slots} (h : slots'.declared = slots.declared) :
    ThinSlots slots' = ThinSlots slots := by
  unfold ThinSlots Slots.declared?
  rw [h]

/-- What is thrown takes one slot: where it is kept, and where it is handled. -/
structure Slender (s : LowerState) : Prop where
  locals : s.frames.Throughout (ThinKept s.slots)
  entries : ∀ label f, label.isEntry = true → s.frames.frameOf label = some f → Topped f.stack

theorem category_join (hthin : Thin cx) {x y : Ty} (hx : x.category = 1) :
    (cx.types.join x y).category = 1 :=
  Nat.le_antisymm (hx ▸ TypeTable.category_join_le hthin.slim x y) (Ty.category_pos _)

/-- What takes one slot stays so when it is stored, widened or merged. -/
private theorem stable_thinKept (hthin : Thin cx) (hslots : ThinSlots s.slots) :
    Stable cx s (ThinKept s.slots) where
  erase m k h slot d t hd hkind ht := by
    rw [SlotMap.get?_erase] at ht
    split at ht
    · cases ht
    · exact h slot d t hd hkind ht
  replace m h slot d t hd hkind ht := by
    rw [SlotMap.get?_map, Option.map_eq_some_iff] at ht
    obtain ⟨x, hx, rfl⟩ := ht
    split
    · exact hthin.owner
    · exact h slot d x hd hkind hx
  fill m k e he hother h slot d t hd hkind ht := by
    rcases SlotMap.get?_of_fill ht with ⟨rfl, -⟩ | hold
    · rw [he] at hd
      cases hd
      exact absurd hkind hother
    · exact h slot d t hd hkind hold
  store m k ty kind _ _ hstore h slot d t hd hkind ht := by
    rcases SlotMap.get?_of_store ht with ⟨rfl, rfl⟩ | hold
    · exact hstore hthin d hd hkind
    · exact h slot d t hd hkind hold
  widen f h slot d t hd hkind ht := by
    obtain ⟨x, hx, heq⟩ := LowerM.get?_widen.mp ht
    have hx := h slot d x hd hkind hx
    unfold Slots.declaredType? at heq
    rw [hd] at heq
    dsimp only [Option.map_some] at heq
    split at heq
    · exact heq ▸ hslots slot d hd hkind
    · exact heq ▸ hx
  merge old frame new h _ hmerge slot d t hd hkind ht := by
    obtain ⟨x, y, hx, -, rfl, -⟩ := (Frame.merge_ok hmerge).2.mp ht
    exact category_join hthin (h slot d x hd hkind hx)

private theorem topped_merge (hthin : Thin cx) {a b c : Frame} (ha : Topped a.stack)
    (h : a.merge cx.types b = .ok c) : Topped c.stack := by
  obtain ⟨x, xs, hx, hcategory⟩ := ha
  obtain ⟨y, rest, hc⟩ := (Frame.merge_eq_ok_iff.mp h).1.head hx
  exact ⟨_, rest, hc, category_join hthin hcategory⟩

theorem Slender.step (hthin : Thin cx) (hslots : ThinSlots a.1.slots) (h : Slender a.1)
    (hstep : Step cx a b) : Slender b.1 := by
  -- handlers are entered with something thrown on top of the stack
  have hentries : ∀ label, label.isEntry = true → StackAt Topped label b.1.frames := by
    intro label hentry
    have hold : StackAt Topped label a.1.frames := fun f => h.entries label f hentry
    refine hold.step (topped_merge hthin) hstep (fun _ _ => ⟨_, [], rfl, hthin.throwable⟩) ?_
      fun _ _ htop => htop hthin hentry
    rintro o stack rfl
    cases hentry
  refine ⟨?_, fun label f hentry => hentries label hentry f⟩
  rw [ThinKept.of_declared hstep.declared]
  exact (stable_thinKept hthin hslots).throughout_step h.locals hstep

-- ==== soundness

/-- What holds of every state of a lowering, in a scope that lets the labels of an
operation's own code be used if it lets code turn. -/
structure Backed (cx : Context) (scope : Scope) (s : LowerState) : Prop where
  /-- the slots that regions keep for exceptions are declared as such -/
  kept : ∀ r ∈ cx.regions.regions, ∀ slot ∈ r.keptSlots,
    ∃ d, s.slots.declared? slot = some d ∧ d.kind = .synthetic
  fits : ∃ base, s.slots.Fits base
  made : ∀ label, s.frames.has label = true → Made s label
  thin : Thin cx → ThinSlots s.slots
  slender : scope.turns → Thin cx → Slender s
  saves : scope.turns → ∀ label, label.isNumbered = true → scope.saves label
  binds : scope.turns → ∀ label, ¬ Made s label → scope.binds label

theorem Backed.step {scope wider : Scope} (h : Backed cx scope s)
    (hstep : StepIn cx wider (s, p) (s', p')) : Backed cx scope s' := by
  have hstep := hstep.step
  obtain ⟨base, hfits⟩ := h.fits
  refine ⟨fun r hr slot hslot => ?_, ⟨base, hstep.fits hfits⟩,
    fun label hhas => hstep.has_made hhas (h.made label),
    fun hthin => ThinSlots.of_declared hstep.declared ▸ h.thin hthin,
    fun hturns hthin => (h.slender hturns hthin).step hthin (h.thin hthin) hstep, h.saves,
    fun hturns label hlabel => h.binds hturns label fun hmade => hlabel (hstep.made hmade)⟩
  rw [Slots.declared?_congr hstep.declared]
  exact h.kept r hr slot hslot

theorem Backed.steps {scope wider : Scope} (h : Backed cx scope a.1)
    (hsteps : StepsIn cx wider a b) : Backed cx scope b.1 := by
  induction hsteps with
  | refl => exact h
  | tail _ hstep ih => exact ih.step hstep

end Lowering

end BytecodeBridge
