/-
The frame of a label covers everything that was saved at the label.

Code at a label is checked against one frame, whichever way control came.
That is sound if the frame takes what every way brings: the stacks are of
one height and every value on them fits, and a local that the frame has is
set on every way, to a value that fits (`Frame.Fits`). A merge gives such a
frame for two (`fits_merge`), because a join is an upper bound, and since
fitting is transitive a frame that later saves are merged into goes on
covering the earlier ones.

The statement is about any use of a store: `FrameStore.Run` lists what may
be done with one, and keeps the frames that were saved. Saves make types,
and these stay in the table, but they change no answer that is looked at.
-/
import BytecodeBridge.Proofs.Frame.Growth
import BytecodeBridge.Proofs.Frame.Locals
import BytecodeBridge.Proofs.Frame.Store
import BytecodeBridge.Proofs.TypeTable.Order

namespace BytecodeBridge

open TypeTable

namespace Frame

-- ==== fitting

/-- All types of a frame are regular. -/
structure Regular (f : Frame) : Prop where
  stack : ∀ t ∈ f.stack, t.regular = true
  locals : ∀ slot t, f.locals.get? slot = some t → t.regular = true

/-- What a frame describes may stand where the other frame is expected. -/
structure Fits (T : TypeTable) (a b : Frame) : Prop where
  stack : List.Forall₂ (fun x y => T.assignable x y = true) a.stack b.stack
  locals : ∀ slot y, b.locals.get? slot = some y →
    ∃ x, a.locals.get? slot = some x ∧ T.assignable x y = true

variable {T : TypeTable} {a b c : Frame}

theorem Fits.refl (T : TypeTable) (a : Frame) : a.Fits T a := by
  have hself : ∀ t, T.assignable t t = true := fun t => assignable_iff.mpr (.refl t)
  exact ⟨List.forall₂_same.mpr fun t _ => hself t, fun slot y hy => ⟨y, hy, hself y⟩⟩

private theorem assignable_trans (hT : T.Ordered) {x y z : Ty} (hxy : T.assignable x y = true)
    (hyz : T.assignable y z = true) (hx : x.regular = true) (hy : y.regular = true)
    (hz : z.regular = true) : T.assignable x z = true :=
  assignable_iff.mpr ((assignable_iff.mp hxy).trans hT (assignable_iff.mp hyz)
    (Ty.wellBoxed_of_regular hx) (Ty.wellBoxed_of_regular hy) (Ty.wellBoxed_of_regular hz))

theorem Fits.trans (hT : T.Ordered) (hab : a.Fits T b) (hbc : b.Fits T c) (ha : a.Regular)
    (hb : b.Regular) (hc : c.Regular) : a.Fits T c := by
  refine ⟨?_, fun slot z hz => ?_⟩
  · have hstack : ∀ {x y z : List Ty}, List.Forall₂ (fun x y => T.assignable x y = true) x y →
        List.Forall₂ (fun x y => T.assignable x y = true) y z → (∀ t ∈ x, t.regular = true) →
        (∀ t ∈ y, t.regular = true) → (∀ t ∈ z, t.regular = true) →
        List.Forall₂ (fun x y => T.assignable x y = true) x z := by
      intro x y z hxy
      induction hxy generalizing z with
      | nil => exact fun hyz _ _ _ => hyz
      | cons hone _ ih =>
        intro hyz hx hy hz
        cases hyz with
        | cons hone' hrest =>
          obtain ⟨hx, hxs⟩ := List.forall_mem_cons.mp hx
          obtain ⟨hy, hys⟩ := List.forall_mem_cons.mp hy
          obtain ⟨hz, hzs⟩ := List.forall_mem_cons.mp hz
          exact .cons (assignable_trans hT hone hone' hx hy hz) (ih hrest hxs hys hzs)
    exact hstack hab.stack hbc.stack ha.stack hb.stack hc.stack
  · obtain ⟨y, hy, hyz⟩ := hbc.locals slot z hz
    obtain ⟨x, hx, hxy⟩ := hab.locals slot y hy
    exact ⟨x, hx, assignable_trans hT hxy hyz (ha.locals slot x hx) (hb.locals slot y hy)
      (hc.locals slot z hz)⟩

theorem assignable_join (hT : T.Ordered) {x y : Ty} (hx : x.regular = true)
    (hy : y.regular = true) : T.assignable x (T.join x y) = true ∧
      T.assignable y (T.join x y) = true ∧ (T.join x y).regular = true := by
  obtain ⟨hleft, hright, hregular⟩ := fits_join hT hx hy
  exact ⟨assignable_iff.mpr hleft, assignable_iff.mpr hright, hregular⟩

/-- The stack of a merge takes what is on the two stacks. -/
theorem StackMerge.fits (hT : T.Ordered) {x y r : List Ty} (h : StackMerge T x y r)
    (hx : ∀ t ∈ x, t.regular = true) (hy : ∀ t ∈ y, t.regular = true) :
    List.Forall₂ (fun x y => T.assignable x y = true) x r ∧
      List.Forall₂ (fun x y => T.assignable x y = true) y r ∧ ∀ t ∈ r, t.regular = true := by
  induction h with
  | nil => exact ⟨.nil, .nil, by simp⟩
  | cons _ _ ih =>
    obtain ⟨ht, hx⟩ := List.forall_mem_cons.mp hx
    obtain ⟨hu, hy⟩ := List.forall_mem_cons.mp hy
    obtain ⟨hleft, hright, hregular⟩ := ih hx hy
    obtain ⟨hjoin, hjoin', hjoined⟩ := assignable_join hT ht hu
    exact ⟨.cons hjoin hleft, .cons hjoin' hright,
      List.forall_mem_cons.mpr ⟨hjoined, hregular⟩⟩

/-- A merge takes what the two frames describe. -/
private theorem fits_merge (hT : T.Ordered) (ha : a.Regular) (hb : b.Regular)
    (h : a.merge T b = .ok c) : a.Fits T c ∧ b.Fits T c ∧ c.Regular := by
  have hmerge := merge_ok h
  have hstacks := (merge_eq_ok_iff.mp h).1.fits hT ha.stack hb.stack
  have hjoins : ∀ slot t, c.locals.get? slot = some t → ∃ x y, a.locals.get? slot = some x ∧
      b.locals.get? slot = some y ∧ T.assignable x t = true ∧ T.assignable y t = true ∧
      t.regular = true := by
    intro slot t ht
    obtain ⟨x, y, hx, hy, rfl, -⟩ := hmerge.2.mp ht
    exact ⟨x, y, hx, hy, assignable_join hT (ha.locals slot x hx) (hb.locals slot y hy)⟩
  refine ⟨⟨hstacks.1, fun slot t ht => ?_⟩, ⟨hstacks.2.1, fun slot t ht => ?_⟩,
    hstacks.2.2, fun slot t ht => ?_⟩
  · obtain ⟨x, _, hx, -, hfits, -⟩ := hjoins slot t ht
    exact ⟨x, hx, hfits⟩
  · obtain ⟨_, y, -, hy, -, hfits, -⟩ := hjoins slot t ht
    exact ⟨y, hy, hfits⟩
  · obtain ⟨_, _, -, -, -, -, hregular⟩ := hjoins slot t ht
    exact hregular

end Frame

namespace FrameStore

-- ==== runs

/-- The frame that a save at a label finds put aside: the label has no frame yet, and
its code was lowered against this one. -/
def pending? (s : FrameStore) (label : Label) : Option Frame :=
  if s.has label then none else s.frameOf label

/-- A use of a store, from the start. It ends with a table and a store, and with the
frames that were saved, each with its label, the latest first. A frame that was put aside
counts as saved when the first save at its label finds it. -/
inductive Run (T₀ : TypeTable) : TypeTable → FrameStore → List (Label × Frame) → Prop where
  | start {initial : Frame} (hinitial : initial.Regular) : Run T₀ T₀ (.start initial) []
  | push {T : TypeTable} {s s' : FrameStore} {history : List (Label × Frame)} {ty : Ty}
      (h : Run T₀ T s history) (hty : ty.regular = true) (hpush : s.push ty = .ok s') :
      Run T₀ T s' history
  | pop {T : TypeTable} {s s' : FrameStore} {history : List (Label × Frame)} {ty : Ty}
      (h : Run T₀ T s history) (hpop : s.pop = .ok (ty, s')) : Run T₀ T s' history
  | setLocal {T : TypeTable} {s : FrameStore} {history : List (Label × Frame)} {ty : Ty}
      (h : Run T₀ T s history) (slot : Nat) (hty : ty.regular = true) :
      Run T₀ T (s.setLocal slot ty) history
  | clearLocal {T : TypeTable} {s : FrameStore} {history : List (Label × Frame)}
      (h : Run T₀ T s history) (slot : Nat) : Run T₀ T (s.clearLocal slot) history
  | load {T : TypeTable} {s s' : FrameStore} {history : List (Label × Frame)} {label : Label}
      (h : Run T₀ T s history) (hload : s.load label = .ok s') : Run T₀ T s' history
  | markBound {T : TypeTable} {s : FrameStore} {history : List (Label × Frame)}
      (h : Run T₀ T s history) (label : Label) : Run T₀ T (s.markBound label) history
  | defer {T : TypeTable} {s : FrameStore} {history : List (Label × Frame)} {frame : Frame}
      (h : Run T₀ T s history) (label : Label) (hframe : frame = s.live ∨ frame.Regular) :
      Run T₀ T (s.defer label frame) history
  | backfill {T : TypeTable} {s : FrameStore} {history : List (Label × Frame)}
      (h : Run T₀ T s history) : Run T₀ T s.backfill.1 history
  | save {T : TypeTable} {s s' : FrameStore} {history : List (Label × Frame)} {label : Label}
      {frame : Frame} {emit : Bool} {saved : Saved} (h : Run T₀ T s history)
      (hframe : frame = s.live ∨ frame.Regular)
      (hsave : s.save T label frame emit false = (s', .ok saved)) :
      Run T₀ (T.addAll (s.saveMakes T label frame).reverse) s'
        ((label, frame) :: ((s.pending? label).toList.map (Prod.mk label) ++ history))

/-- All frames of a store have regular types, and those of labels take what was saved
at them. -/
structure Covering (T : TypeTable) (s : FrameStore) (history : List (Label × Frame)) : Prop where
  live : s.live.Regular
  frames : ∀ l f, s.frameOf l = some f → f.Regular
  saved : ∀ e ∈ history, e.2.Regular ∧ ∃ R, s.recorded? e.1 = some R ∧ e.2.Fits T R

namespace Covering

variable {T : TypeTable} {s s' : FrameStore} {history : List (Label × Frame)}

theorem of_live (h : Covering T s history) (hlive : s'.live.Regular)
    (hrecorded : s'.recorded = s.recorded) (hdeferred : s'.deferred = s.deferred) :
    Covering T s' history := by
  refine ⟨hlive, fun l f hf => h.frames l f ?_, fun e he => ?_⟩
  · unfold frameOf at hf ⊢
    rwa [← hrecorded, ← hdeferred]
  · unfold recorded?
    rw [hrecorded]
    exact h.saved e he

/-- A save keeps what is covered, and covers what it saves. -/
theorem save (hT : T.Ordered) (h : Covering T s history) {label : Label} {frame : Frame}
    {saved : Saved} (hframe : frame.Regular) (hstored : Stored T label frame saved s s') :
    Covering T s'
      ((label, frame) :: ((s.pending? label).toList.map (Prod.mk label) ++ history)) := by
  -- the frame of the label takes the new one, and all that the old one took
  obtain ⟨R, hR, hregular, hnew, hold⟩ : ∃ R, s'.frameOf label = some R ∧ R.Regular ∧
      frame.Fits T R ∧ ∀ old, s.frameOf label = some old → old.Regular ∧ old.Fits T R := by
    rcases hstored.frame with ⟨hnone, hnew⟩ | ⟨old, new, hold, hnew, hmerge, -⟩
    · refine ⟨frame, hnew, hframe, .refl T frame, fun old hold => ?_⟩
      cases hnone.symm.trans hold
    · have hregular := h.frames label old hold
      obtain ⟨hleft, hright, hmerged⟩ := Frame.fits_merge hT hregular hframe hmerge
      refine ⟨new, hnew, hmerged, hright, fun old' hold' => ?_⟩
      cases hold.symm.trans hold'
      exact ⟨hregular, hleft⟩
  have hrecorded : s'.recorded? label = some R := (recorded?_of_has hstored.has).trans hR
  refine ⟨hstored.live ▸ h.live, fun l f hf => ?_, List.forall_mem_cons.mpr
    ⟨⟨hframe, R, hrecorded, hnew⟩, List.forall_mem_append.mpr ⟨fun e he => ?_, fun e he => ?_⟩⟩⟩
  · by_cases hl : l = label
    · subst hl
      cases hR.symm.trans hf
      exact hregular
    · rw [(hstored.others l hl).1] at hf
      exact h.frames l f hf
  · obtain ⟨old, hold', rfl⟩ := List.mem_map.mp he
    rw [Option.mem_toList] at hold'
    unfold pending? at hold'
    split at hold'
    · cases hold'
    · obtain ⟨hregular', hfits⟩ := hold old hold'
      exact ⟨hregular', R, hrecorded, hfits⟩
  · obtain ⟨hregular', R', hR', hfits⟩ := h.saved e he
    refine ⟨hregular', ?_⟩
    by_cases hl : e.1 = label
    · rw [hl] at hR' ⊢
      obtain ⟨hold', hfits'⟩ := hold R' (frameOf_of_recorded? hR')
      exact ⟨R, hrecorded, hfits.trans hT hfits' hregular' hold' hregular⟩
    · obtain ⟨hframe, hhas⟩ := hstored.others e.1 hl
      refine ⟨R', ?_, hfits⟩
      rw [recorded?_of_has (hhas.trans (has_of_recorded? hR')), hframe]
      exact frameOf_of_recorded? hR'

theorem backfill (h : Covering T s history) : Covering T s.backfill.1 history := by
  refine ⟨live_backfill s ▸ h.live, fun l f hf => h.frames l f (frameOf_backfill s l ▸ hf),
    fun e he => ?_⟩
  obtain ⟨hregular, R, hR, hfits⟩ := h.saved e he
  exact ⟨hregular, R, (recorded?_backfill s e.1).trans (frameOf_of_recorded? hR), hfits⟩

theorem defer (h : Covering T s history) {frame : Frame} (hframe : frame.Regular) (label : Label) :
    Covering T (s.defer label frame) history := by
  have heach : s.Each fun _ f => f.Regular := ⟨h.live, h.frames⟩
  exact ⟨h.live, (heach.defer hframe).frames, h.saved⟩

end Covering

/-- At any time the frames of labels cover what was saved, and the table has grown by
types that change no answer. -/
theorem Run.covering {c : Config} {T₀ T : TypeTable} {s : FrameStore}
    {history : List (Label × Frame)} (hequipped : Equipped c T₀) (hT : T₀.Ordered)
    (h : Run T₀ T s history) : Grown T₀ T ∧ Covering T₀ s history := by
  induction h with
  | start hinitial =>
    refine ⟨.refl T₀, hinitial, fun l f hf => ?_, by simp⟩
    unfold frameOf at hf
    simp [FrameStore.start] at hf
  | push _ hty hpush ih =>
    obtain ⟨-, rfl⟩ := push_ok hpush
    exact ⟨ih.1, ih.2.of_live ⟨List.forall_mem_cons.mpr ⟨hty, ih.2.live.stack⟩,
      ih.2.live.locals⟩ rfl rfl⟩
  | pop _ hpop ih =>
    obtain ⟨rest, hstack, rfl⟩ := pop_ok hpop
    refine ⟨ih.1, ih.2.of_live ⟨fun t ht => ih.2.live.stack t ?_, ih.2.live.locals⟩ rfl rfl⟩
    rw [hstack]
    exact List.mem_cons_of_mem _ ht
  | setLocal _ slot hty ih =>
    refine ⟨ih.1, ih.2.of_live ⟨ih.2.live.stack, fun k t hk => ?_⟩ rfl rfl⟩
    rcases SlotMap.get?_of_store hk with ⟨-, rfl⟩ | hold
    · exact hty
    · exact ih.2.live.locals k t hold
  | clearLocal _ slot ih =>
    refine ⟨ih.1, ih.2.of_live ⟨ih.2.live.stack, fun k t hk => ?_⟩ rfl rfl⟩
    change (SlotMap.erase _ slot).get? k = some t at hk
    rw [SlotMap.get?_erase] at hk
    split at hk
    · cases hk
    · exact ih.2.live.locals k t hk
  | load _ hload ih =>
    unfold FrameStore.load at hload
    split at hload
    · next frame hframe =>
      cases hload
      exact ⟨ih.1, ih.2.of_live (ih.2.frames _ frame (frameOf_of_recorded? hframe)) rfl rfl⟩
    · cases hload
  | markBound _ label ih => exact ⟨ih.1, ih.2.of_live ih.2.live rfl rfl⟩
  | defer _ label hframe ih =>
    exact ⟨ih.1, ih.2.defer (hframe.elim (· ▸ ih.2.live) id) label⟩
  | backfill _ ih => exact ⟨ih.1, ih.2.backfill⟩
  | @save T s s' _ label frame emit saved _ hframe hsave ih =>
    obtain ⟨hgrown, hcovering⟩ := ih
    have hmakes := saveMakes_harmless c s T label frame
    rw [save_alike (alike_of_grown hequipped.toRooted hgrown)] at hsave
    exact ⟨hgrown.addAll hequipped fun t ht => hmakes t (List.mem_reverse.mp ht),
      hcovering.save hT (hframe.elim (· ▸ hcovering.live) id) (save_ok hsave)⟩

/-- Recorded frames are upper bounds of what was saved. Take a table that a program makes
from the standard configuration, in which all declared supertypes are classes or
interfaces and the universal object type has none, and any use of a store with regular
types. Then every label that was saved at has a frame, and it takes what each saved frame
describes. The frame that was put aside for a label counts as saved. -/
theorem recorded_covers_saved {T₀ T : TypeTable} {s : FrameStore}
    {history : List (Label × Frame)} (hbuilt : Built {} T₀)
    (hreferences : ∀ t, ∀ u ∈ T₀.supertypes t, ∃ name, u = .ref name)
    (hobject : T₀.supertypes T₀.object = []) (h : Run T₀ T s history) :
    ∀ e ∈ history, ∃ R, s.recorded? e.1 = some R ∧ e.2.Fits T R := by
  have hT := hbuilt.ordered hreferences hobject
  obtain ⟨hgrown, hcovering⟩ := h.covering hbuilt.equipped hT
  intro e he
  obtain ⟨-, R, hR, hfits⟩ := hcovering.saved e he
  have hsame := (alike_of_grown hbuilt.equipped.toRooted hgrown).assignable
  refine ⟨R, hR, ?_, ?_⟩
  · rw [hsame]
    exact hfits.stack
  · rw [hsame]
    exact hfits.locals

/-- Two classes with a common base. -/
def shapes : TypeTable :=
  (((TypeTable.ofConfig {}).declareClass "Shape" none []).declareClass "Circle"
    (some (.ref "Shape")) []).declareClass "Square" (some (.ref "Shape")) []

private theorem built_shapes : Built {} shapes := by
  refine .declareClass _ ?_ (.declareClass _ ?_ (.declareClass _ (by simp) .start))
  · intro u hu
    cases List.mem_singleton.mp hu
    exact mem_declare _ _ (mem_declare_self _ _)
  · intro u hu
    cases List.mem_singleton.mp hu
    exact mem_declare_self _ _

/-- A circle is put aside for a label, and then a square is saved there. -/
private theorem exists_run_shapes : ∃ T s, Run shapes T s
    [(.source 4, ⟨[.ref "Square"], .empty⟩), (.source 4, ⟨[.ref "Circle"], .empty⟩)] := by
  have hstart : Run shapes shapes (.start {}) [] := .start ⟨by simp, fun slot t h => by cases h⟩
  have hcircle : Run shapes shapes { live := ⟨[.ref "Circle"], .empty⟩, maxStack := 1 } [] :=
    hstart.push (rfl : (Ty.ref "Circle").regular = true) rfl
  have hsquare : Run shapes shapes
      { live := ⟨[.ref "Square"], .empty⟩, maxStack := 1,
        deferred := [⟨.source 4, ⟨[.ref "Circle"], .empty⟩⟩] } [] :=
    ((hcircle.defer (.source 4) (.inl rfl)).pop rfl).push
      (rfl : (Ty.ref "Square").regular = true) rfl
  obtain ⟨saved, hsaved⟩ : ∃ saved, (FrameStore.save
      { live := ⟨[.ref "Square"], .empty⟩, maxStack := 1,
        deferred := [⟨.source 4, ⟨[.ref "Circle"], .empty⟩⟩] }
      shapes (.source 4) ⟨[.ref "Square"], .empty⟩ true false).2 = .ok saved := by
    change ∃ saved, (if (⟨[shapes.join (.ref "Circle") (.ref "Square")], .empty⟩ : Frame) =
      ⟨[.ref "Circle"], .empty⟩ then _ else _ : FrameStore × Except Cause Saved).2 = .ok saved
    split <;> exact ⟨_, rfl⟩
  exact ⟨_, _, hsquare.save (.inl rfl) (Prod.ext rfl hsaved)⟩

/-- The frame of the label takes both. -/
theorem recorded_covers_shapes : ∃ (T : TypeTable) (s : FrameStore) (R : Frame),
    s.recorded? (.source 4) = some R ∧ Frame.Fits T ⟨[.ref "Square"], .empty⟩ R ∧
      Frame.Fits T ⟨[.ref "Circle"], .empty⟩ R := by
  obtain ⟨T, s, h⟩ := exists_run_shapes
  have hcovers := recorded_covers_saved built_shapes
    (forall_supertypes (by simp [shapes, declareClass, declare, ofConfig, object]))
    (by decide +kernel) h
  obtain ⟨R, hR, hsquare⟩ := hcovers _ List.mem_cons_self
  obtain ⟨R', hR', hcircle⟩ := hcovers _ (List.mem_cons_of_mem _ List.mem_cons_self)
  cases hR.symm.trans hR'
  exact ⟨T, s, R, hR, hsquare, hcircle⟩

end FrameStore

end BytecodeBridge
