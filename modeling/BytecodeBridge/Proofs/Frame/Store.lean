/-
The frames of labels, and what the operations on a store do to them.

A label can have a frame in two places: recorded, or put aside until
something reaches the label. For the theory it is one frame, the one that
the code of the label is lowered against: `FrameStore.frameOf`. Promoting a
frame from one place to the other changes nothing about it, saving sets it
or merges into it, filling a slot fills it in all of them, and at the end
it is what is recorded. Everything a proof needs about the store is stated
here in terms of it.
-/
import BytecodeBridge.Proofs.Run

namespace BytecodeBridge.FrameStore

variable {s : FrameStore} {label : Label}

-- ==== definitions

/-- The frame that the code of a label is lowered against: the recorded one or,
where there is none yet, the oldest one put aside. -/
def frameOf (s : FrameStore) (label : Label) : Option Frame :=
  match s.recorded[label]? with
  | some r => some r.frame
  | none => (s.deferred.find? fun d => d.label == label).map (·.frame)

/-- The stack map lists every recorded frame. -/
def Listed (s : FrameStore) : Prop :=
  ∀ (label : Label) (r : Recorded), s.recorded[label]? = some r → r.emit = true

theorem has_eq_isSome (s : FrameStore) (label : Label) :
    s.has label = s.recorded[label]?.isSome :=
  Std.TreeMap.contains_eq_isSome_getElem?

theorem frameOf_of_recorded {r : Recorded} (h : s.recorded[label]? = some r) :
    s.frameOf label = some r.frame := by
  unfold frameOf
  rw [h]

theorem frameOf_of_recorded? {frame : Frame} (h : s.recorded? label = some frame) :
    s.frameOf label = some frame := by
  obtain ⟨r, hr, rfl⟩ := Option.map_eq_some_iff.mp h
  exact frameOf_of_recorded hr

theorem recorded?_of_has (h : s.has label = true) :
    s.recorded? label = s.frameOf label := by
  rw [has_eq_isSome, Option.isSome_iff_exists] at h
  obtain ⟨r, hr⟩ := h
  rw [frameOf_of_recorded hr]
  unfold recorded?
  rw [hr]
  rfl

theorem has_of_recorded? {frame : Frame} (h : s.recorded? label = some frame) :
    s.has label = true := by
  obtain ⟨r, hr, -⟩ := Option.map_eq_some_iff.mp h
  rw [has_eq_isSome, hr]
  rfl

theorem frameOf_ne_none (h : s.has label = true) :
    s.frameOf label ≠ none := by
  rw [has_eq_isSome, Option.isSome_iff_exists] at h
  obtain ⟨r, hr⟩ := h
  rw [frameOf_of_recorded hr]
  exact nofun

theorem getElem?_insert (m : LabelMap Recorded) (label l : Label) (r : Recorded) :
    (m.insert label r)[l]? = if label = l then some r else m[l]? := by
  rw [Std.TreeMap.getElem?_insert]
  simp only [Std.LawfulEqCmp.compare_eq_iff_eq]

/-- The store in which a frame is recorded at a label. -/
structure Records (label : Label) (r : Recorded) (s s' : FrameStore) : Prop where
  live : s'.live = s.live
  bound : s'.bound = s.bound
  deferred : ∀ l, l ≠ label → s'.deferred.find? (fun d => d.label == l)
    = s.deferred.find? (fun d => d.label == l)
  recorded : ∀ l : Label, s'.recorded[l]? = if label = l then some r else s.recorded[l]?

namespace Records

variable {label : Label} {r : Recorded} {s s' : FrameStore}

theorem frameOf (h : Records label r s s') : s'.frameOf label = some r.frame := by
  have hlabel := h.recorded label
  rw [if_pos rfl] at hlabel
  exact frameOf_of_recorded hlabel

theorem frameOf_of_ne (h : Records label r s s') {l : Label} (hl : l ≠ label) :
    s'.frameOf l = s.frameOf l := by
  unfold FrameStore.frameOf
  rw [h.recorded, if_neg (Ne.symm hl), h.deferred l hl]

theorem has (h : Records label r s s') : s'.has label = true := by
  rw [has_eq_isSome, h.recorded, if_pos rfl]
  rfl

theorem has_of_ne (h : Records label r s s') {l : Label} (hl : l ≠ label) :
    s'.has l = s.has l := by
  rw [has_eq_isSome, has_eq_isSome, h.recorded, if_neg (Ne.symm hl)]

theorem listed (h : Records label r s s') (hr : r.emit = true) (hs : s.Listed) : s'.Listed := by
  intro l r' hr'
  rw [h.recorded] at hr'
  split at hr'
  · cases hr'
    exact hr
  · exact hs l r' hr'

theorem trans {r' : Recorded} {s'' : FrameStore} (h : Records label r s s')
    (h' : Records label r' s' s'') : Records label r' s s'' := by
  refine ⟨h'.live.trans h.live, h'.bound.trans h.bound,
    fun l hl => (h'.deferred l hl).trans (h.deferred l hl), fun l => ?_⟩
  rw [h'.recorded, h.recorded]
  split <;> rfl

end Records

variable {T : TypeTable} {label : Label} {frame : Frame} {saved : Saved} {s s' : FrameStore}

theorem records_insert (s : FrameStore) (label : Label) (r : Recorded) :
    Records label r s { s with recorded := s.recorded.insert label r } :=
  ⟨rfl, rfl, fun _ _ => rfl, fun l => getElem?_insert s.recorded label l _⟩

-- ==== promotion

/-- Taking one entry out of a list does not hide the entries of another sort. -/
private theorem find?_eraseP {α : Type} {p q : α → Bool} (h : ∀ a, p a = true → q a = false)
    (l : List α) : (l.eraseP p).find? q = l.find? q := by
  induction l with
  | nil => rfl
  | cons a l ih =>
    rw [List.eraseP_cons]
    cases hp : p a with
    | true =>
      rw [cond_true, List.find?_cons_of_neg]
      rw [h a hp]
      exact Bool.false_ne_true
    | false =>
      rw [cond_false, List.find?_cons, List.find?_cons, ih]

/-- Promoting leaves the store alone or records the frame that the label has. -/
theorem promote_cases (s : FrameStore) (label : Label) :
    s.promote label = s ∧ (s.has label = true ∨ s.frameOf label = none) ∨
      ∃ frame, s.frameOf label = some frame ∧
        Records label ⟨frame, true⟩ s (s.promote label) := by
  unfold promote
  split
  · next hhas => exact .inl ⟨rfl, .inl hhas⟩
  · next hhas =>
    rw [has_eq_isSome, Bool.not_eq_true, Option.isSome_eq_false_iff, Option.isNone_iff_eq_none]
      at hhas
    split
    · next d hd =>
      refine .inr ⟨d.frame, ?_, ⟨rfl, rfl, fun l hl => ?_, fun l => ?_⟩⟩
      · unfold frameOf
        rw [hhas, hd]
        rfl
      · refine find?_eraseP (fun d' hd' => ?_) s.deferred
        rw [eq_of_beq hd']
        exact beq_false_of_ne (Ne.symm hl)
      · exact getElem?_insert s.recorded label l _
    · next hd =>
      refine .inl ⟨rfl, .inr ?_⟩
      unfold frameOf
      rw [hhas, hd]
      rfl

private theorem recorded?_promote (s : FrameStore) (label : Label) :
    (s.promote label).recorded? label = s.frameOf label := by
  rcases promote_cases s label with ⟨heq, hhas | hnone⟩ | ⟨frame, hframe, hrecords⟩
  · rw [heq, recorded?_of_has hhas]
  · rw [heq, hnone]
    cases hrec : s.recorded? label with
    | none => rfl
    | some frame =>
      rw [frameOf_of_recorded? hrec] at hnone
      cases hnone
  · rw [recorded?_of_has hrecords.has, hrecords.frameOf, hframe]

theorem isBound_promote (s : FrameStore) (label l : Label) :
    (s.promote label).isBound l = s.isBound l := by
  unfold isBound
  rcases promote_cases s label with ⟨heq, -⟩ | ⟨f, -, hpromote⟩
  · rw [heq]
  · rw [hpromote.bound]

-- ==== saving

/-- What a successful save of a frame at a label does: it sets the frame of the
label, or merges into it, and touches nothing else. -/
structure Stored (T : TypeTable) (label : Label) (frame : Frame) (saved : Saved)
    (s s' : FrameStore) : Prop where
  live : s'.live = s.live
  bound : s'.bound = s.bound
  has : s'.has label = true
  others : ∀ l, l ≠ label → s'.frameOf l = s.frameOf l ∧ s'.has l = s.has l
  frame : s.frameOf label = none ∧ s'.frameOf label = some frame ∨
    ∃ old new, s.frameOf label = some old ∧ s'.frameOf label = some new ∧
      old.merge T frame = .ok new ∧
      (new = old ∨ s.isBound label = false ∨
        saved = .invalidated (changedLocals old new) (new.stack != old.stack))

theorem Stored.has_mono (h : Stored T label frame saved s s') {l : Label} (hl : s.has l = true) :
    s'.has l = true := by
  by_cases hne : l = label
  · rw [hne]
    exact h.has
  · rw [(h.others l hne).2]
    exact hl

/-- All successful saves end with some frame recorded at the label in the promoted
store. -/
theorem exists_records {emit : Bool} (h : s.save T label frame emit false = (s', .ok saved)) :
    ∃ r, Records label r (s.promote label) s' ∧ (emit = true → r.emit = true) ∧
      (s.frameOf label = none ∧ r.frame = frame ∨
        ∃ old, s.frameOf label = some old ∧ old.merge T frame = .ok r.frame ∧
          (r.frame = old ∨ s.isBound label = false ∨
            saved = .invalidated (changedLocals old r.frame) (r.frame.stack != old.stack))) := by
  have hpromoted := recorded?_promote s label
  unfold recorded? at hpromoted
  unfold save at h
  dsimp only at h
  split at h
  · next hnone =>
    cases h
    rw [hnone] at hpromoted
    exact ⟨⟨frame, emit⟩, records_insert _ _ _, fun hemit => hemit, .inl ⟨hpromoted.symm, rfl⟩⟩
  · next r hr =>
    rw [hr] at hpromoted
    have hemit : emit = true → (r.emit || emit) = true := by
      rintro rfl
      exact Bool.or_true _
    split at h
    · cases h
    · next updated hmerge =>
      split at h
      · next heq =>
        cases h
        exact ⟨⟨r.frame, r.emit || emit⟩, records_insert _ _ _, hemit,
          .inr ⟨r.frame, hpromoted.symm, heq ▸ hmerge, .inl rfl⟩⟩
      · -- the emit flag is set first, then the frame
        refine ⟨⟨updated, r.emit || emit⟩, ?_, hemit, .inr ⟨r.frame, hpromoted.symm, hmerge, ?_⟩⟩
        · cases h
          exact (records_insert _ label _).trans (records_insert _ label _)
        · split at h
          · cases h
            exact .inr (.inr rfl)
          · next hb =>
            exact .inr (.inl (Bool.eq_false_iff.mpr fun hs =>
              hb ((isBound_promote s label label).trans hs)))

theorem save_ok {emit : Bool} (h : s.save T label frame emit false = (s', .ok saved)) :
    Stored T label frame saved s s' := by
  obtain ⟨r, hrecords, -, hnew⟩ := exists_records h
  have hframe : s.frameOf label = none ∧ s'.frameOf label = some frame ∨
      ∃ old new, s.frameOf label = some old ∧ s'.frameOf label = some new ∧
        old.merge T frame = .ok new ∧
        (new = old ∨ s.isBound label = false ∨
          saved = .invalidated (changedLocals old new) (new.stack != old.stack)) := by
    rcases hnew with ⟨hnone, heq⟩ | ⟨old, hold, hmerge, hsaved⟩
    · exact .inl ⟨hnone, heq ▸ hrecords.frameOf⟩
    · exact .inr ⟨old, r.frame, hold, hrecords.frameOf, hmerge, hsaved⟩
  have hall : Records label r s s' → Stored T label frame saved s s' := fun hf =>
    ⟨hf.live, hf.bound, hf.has, fun l hl => ⟨hf.frameOf_of_ne hl, hf.has_of_ne hl⟩, hframe⟩
  rcases promote_cases s label with ⟨heq, -⟩ | ⟨f, -, hpromote⟩
  · rw [heq] at hrecords
    exact hall hrecords
  · exact hall (hpromote.trans hrecords)

theorem Listed.save (hs : s.Listed) (h : s.save T label frame true false = (s', .ok saved)) :
    s'.Listed := by
  obtain ⟨r, hrecords, hemit, -⟩ := exists_records h
  refine hrecords.listed (hemit rfl) ?_
  rcases promote_cases s label with ⟨heq, -⟩ | ⟨f, -, hpromote⟩
  · rw [heq]
    exact hs
  · exact hpromote.listed rfl hs

/-- Only the frame of a label whose code is there can be reported as changed. -/
theorem isBound_of_invalidated {locals : List Nat} {stack : Bool}
    (h : s.save T label frame true false = (s', .ok (.invalidated locals stack))) :
    s.isBound label = true := by
  unfold save at h
  dsimp only at h
  split at h
  · cases h
  · split at h
    · cases h
    · split at h
      · cases h
      · split at h
        · next hb => exact (isBound_promote s label label).symm.trans hb
        · cases h

/-- A save accounts for no stack slots. -/
theorem maxStack_save (s : FrameStore) (T : TypeTable) (label : Label) (frame : Frame)
    (emit overwrite : Bool) : (s.save T label frame emit overwrite).1.maxStack = s.maxStack := by
  have hpromote : (s.promote label).maxStack = s.maxStack := by
    unfold promote
    split
    · rfl
    · split <;> rfl
  unfold save
  dsimp only
  split
  · exact hpromote
  · split
    · exact hpromote
    · split
      · exact hpromote
      · exact hpromote

-- ==== other steps

theorem push_ok {ty : Ty} (h : s.push ty = .ok s') :
    ty.isTop = false ∧
      s' = noteDepth { s with live := { s.live with stack := ty :: s.live.stack } } 0 := by
  unfold push at h
  split at h
  · cases h
  · next htop =>
    cases h
    exact ⟨Bool.eq_false_iff.mpr htop, rfl⟩

theorem pop_ok {ty : Ty} (h : s.pop = .ok (ty, s')) :
    ∃ rest, s.live.stack = ty :: rest ∧ s' = { s with live := { s.live with stack := rest } } := by
  unfold pop at h
  split at h
  · next t rest hstack =>
    cases h
    exact ⟨rest, hstack, rfl⟩
  · cases h

section Others

variable (s : FrameStore)

theorem isBound_markBound (label l : Label) :
    (s.markBound label).isBound l = (label == l || s.isBound l) := by
  unfold markBound isBound
  rw [Std.TreeSet.contains_insert]
  congr 1
  rw [Bool.eq_iff_iff]
  simp

theorem frameOf_materialize (slot : Nat) (ty : Ty) (l : Label) :
    (s.materialize slot ty).frameOf l = (s.frameOf l).map (·.fillLocal slot ty) := by
  unfold frameOf materialize
  rw [Std.TreeMap.getElem?_map, List.find?_map]
  cases s.recorded[l]? with
  | some r => rfl
  | none =>
    rw [Option.map_map, Option.map_map]
    rfl

theorem has_materialize (slot : Nat) (ty : Ty) (l : Label) :
    (s.materialize slot ty).has l = s.has l :=
  Std.TreeMap.contains_map

theorem Listed.materialize {s : FrameStore} (h : s.Listed) (slot : Nat) (ty : Ty) :
    (s.materialize slot ty).Listed := by
  intro l r hr
  unfold FrameStore.materialize at hr
  rw [Std.TreeMap.getElem?_map] at hr
  obtain ⟨r', hr', rfl⟩ := Option.map_eq_some_iff.mp hr
  exact h l r' hr'

/-- A frame put aside is the frame of its label, unless that has one. -/
theorem frameOf_defer (label : Label) (frame : Frame) (l : Label) :
    (s.defer label frame).frameOf l
      = (s.frameOf l).or (if label = l then some frame else none) := by
  unfold frameOf defer
  cases s.recorded[l]? with
  | some r => rfl
  | none =>
    dsimp only
    rw [List.find?_append]
    cases s.deferred.find? fun d => d.label == l with
    | some d => rfl
    | none =>
      rw [List.find?_singleton]
      by_cases hl : label = l
      · rw [if_pos hl, hl, if_pos (beq_self_eq_true l)]
        rfl
      · rw [if_neg hl, if_neg (ne_true_of_eq_false (beq_false_of_ne hl))]
        rfl

end Others

-- ==== all frames

/-- The live frame and the frame of each label are as said. -/
structure Each (P : Option Label → Frame → Prop) (s : FrameStore) : Prop where
  live : P none s.live
  frames : ∀ l f, s.frameOf l = some f → P (some l) f

namespace Each

variable {P : Option Label → Frame → Prop} {s s' : FrameStore} {label : Label} {frame : Frame}

/-- What merging keeps, a save keeps. -/
theorem stored {T : TypeTable} {saved : Saved} (h : s.Each P)
    (hstored : Stored T label frame saved s s') (hframe : P (some label) frame)
    (hmerge : ∀ {old new}, P (some label) old → old.merge T frame = .ok new →
      P (some label) new) : s'.Each P := by
  refine ⟨by rw [hstored.live]; exact h.live, fun l f hf => ?_⟩
  by_cases hl : l = label
  · subst hl
    rcases hstored.frame with ⟨-, hnew⟩ | ⟨old, new, hold, hnew, hmerged, -⟩
    · cases hnew.symm.trans hf
      exact hframe
    · cases hnew.symm.trans hf
      exact hmerge (h.frames l old hold) hmerged
  · exact h.frames l f ((hstored.others l hl).1.symm.trans hf)

theorem materialize {slot : Nat} {ty : Ty} (h : s.Each P)
    (hfill : ∀ {l f}, P l f → P l (f.fillLocal slot ty)) : (s.materialize slot ty).Each P := by
  refine ⟨hfill h.live, fun l f hf => ?_⟩
  rw [frameOf_materialize, Option.map_eq_some_iff] at hf
  obtain ⟨old, hold, rfl⟩ := hf
  exact hfill (h.frames l old hold)

theorem defer (h : s.Each P) (hframe : P (some label) frame) : (s.defer label frame).Each P := by
  refine ⟨h.live, fun l f hf => ?_⟩
  rw [frameOf_defer, Option.or_eq_some_iff] at hf
  rcases hf with hold | ⟨-, hnew⟩
  · exact h.frames l f hold
  · split at hnew
    · next heq =>
      cases hnew
      exact heq ▸ hframe
    · cases hnew

end Each

variable {s : FrameStore} {T : TypeTable} {labels : LabelMap Nat}

-- ==== the end

/-- Recording frames that are put aside, where a label has none. -/
theorem foldl_backfill (l : Label) (ds : List Deferred) (t : FrameStore) (n : Nat) :
    let t' := (ds.foldl
      (fun ((s, n) : FrameStore × Nat) d =>
        if s.has d.label then (s, n)
        else ({ s with recorded := s.recorded.insert d.label ⟨d.frame, true⟩ }, n + 1)) (t, n)).1
    t'.recorded? l = (t.recorded? l).or ((ds.find? fun d => d.label == l).map (·.frame)) ∧
      (t.Listed → t'.Listed) := by
  induction ds generalizing t n with
  | nil =>
    refine ⟨?_, fun h => h⟩
    rw [List.find?_nil, Option.map_none, Option.or_none]
    rfl
  | cons d ds ih =>
    rw [List.foldl_cons]
    dsimp only
    split
    · next hhas =>
      obtain ⟨hrecorded, hlisted⟩ := ih t n
      refine ⟨?_, hlisted⟩
      rw [hrecorded, List.find?_cons]
      by_cases hl : d.label = l
      · -- the label has a frame already
        rw [hl, has_eq_isSome, Option.isSome_iff_exists] at hhas
        obtain ⟨r, hr⟩ := hhas
        unfold recorded?
        rw [hr]
        rfl
      · rw [beq_false_of_ne hl]
    · next hhas =>
      obtain ⟨hrecorded, hlisted⟩ := ih
        { t with recorded := t.recorded.insert d.label ⟨d.frame, true⟩ } (n + 1)
      refine ⟨?_, fun h => hlisted ((records_insert t d.label _).listed rfl h)⟩
      rw [hrecorded, List.find?_cons]
      unfold recorded?
      rw [getElem?_insert]
      by_cases hl : d.label = l
      · rw [hl, has_eq_isSome, Bool.not_eq_true, Option.isSome_eq_false_iff,
          Option.isNone_iff_eq_none] at hhas
        rw [if_pos hl, hl, beq_self_eq_true, hhas]
        rfl
      · rw [if_neg hl, beq_false_of_ne hl]

theorem recorded?_backfill (s : FrameStore) (l : Label) :
    s.backfill.1.recorded? l = s.frameOf l := by
  have hfold := (foldl_backfill l s.deferred { s with deferred := [] } 0).1
  refine hfold.trans ?_
  unfold recorded? frameOf
  cases s.recorded[l]? with
  | some r | none => rfl

/-- Recording the frames that are put aside changes nothing else. -/
theorem exists_backfill_eq (s : FrameStore) :
    ∃ recorded, s.backfill.1 = { s with recorded, deferred := [] } := by
  suffices h : ∀ (ds : List Deferred) (t : FrameStore) (n : Nat), ∃ recorded, (ds.foldl
      (fun (x : FrameStore × Nat) d => if x.1.has d.label then (x.1, x.2)
        else ({ x.1 with recorded := x.1.recorded.insert d.label ⟨d.frame, true⟩ }, x.2 + 1))
      (t, n)).1 = { t with recorded } from h _ _ _
  intro ds
  induction ds with
  | nil => exact fun t _ => ⟨t.recorded, rfl⟩
  | cons d ds ih =>
    intro t n
    rw [List.foldl_cons]
    split
    · exact ih _ _
    · obtain ⟨recorded, heq⟩ := ih
        { t with recorded := t.recorded.insert d.label ⟨d.frame, true⟩ } (n + 1)
      exact ⟨recorded, heq⟩

theorem maxStack_backfill (s : FrameStore) : s.backfill.1.maxStack = s.maxStack := by
  obtain ⟨recorded, heq⟩ := exists_backfill_eq s
  rw [heq]

theorem live_backfill (s : FrameStore) : s.backfill.1.live = s.live := by
  obtain ⟨recorded, heq⟩ := exists_backfill_eq s
  rw [heq]

theorem frameOf_backfill (s : FrameStore) (l : Label) :
    s.backfill.1.frameOf l = s.frameOf l := by
  obtain ⟨recorded, heq⟩ := exists_backfill_eq s
  refine Eq.trans ?_ (recorded?_backfill s l)
  rw [heq]
  unfold frameOf recorded?
  cases recorded[l]? <;> rfl

theorem Listed.backfill (h : s.Listed) : s.backfill.1.Listed :=
  (foldl_backfill (.source 0) s.deferred { s with deferred := [] } 0).2 h

private theorem contains_of_addAt {out out' : Std.TreeMap Nat Frame} {addr : Nat} {frame : Frame}
    (h : addAt T out addr frame = .ok out') (a : Nat) :
    out'.contains a = (addr == a || out.contains a) := by
  have hinsert : ∀ f, (out.insert addr f).contains a = (addr == a || out.contains a) := by
    intro f
    rw [Std.TreeMap.contains_insert]
    congr 1
    rw [Bool.eq_iff_iff]
    simp
  unfold addAt at h
  split at h
  · cases h
    exact hinsert _
  · split at h
    · cases except_pure_ok h
      exact hinsert _
    · cases h

/-- What resolving frames along a list of labels adds. -/
private theorem foldlM_resolveOne {entries : List (Label × Recorded)}
    {first last : Std.TreeMap Nat Frame}
    (h : entries.foldlM (resolveOne T labels) first = .ok last) :
    (∀ a, first.contains a = true → last.contains a = true) ∧
    (∀ e ∈ entries, e.2.emit = true → ∃ a, labels[e.1]? = some a ∧ last.contains a = true) ∧
    ∀ a, last.contains a = true → first.contains a = true ∨
      ∃ e ∈ entries, labels[e.1]? = some a := by
  induction entries generalizing first with
  | nil =>
    cases h
    exact ⟨fun _ h => h, by simp, fun _ h => .inl h⟩
  | cons e entries ih =>
    rw [List.foldlM_cons] at h
    obtain ⟨out, hone, h⟩ := except_bind_ok h
    obtain ⟨hmono, hall, hback⟩ := ih h
    unfold resolveOne at hone
    dsimp only at hone
    split at hone
    · next hemit =>
      split at hone
      · next addr haddr =>
        have hout := contains_of_addAt hone
        refine ⟨fun a ha => hmono a ?_,
          List.forall_mem_cons.mpr ⟨fun _ => ⟨addr, haddr, ?_⟩, hall⟩, fun a ha => ?_⟩
        · rw [hout, ha, Bool.or_true]
        · exact hmono addr (by rw [hout, beq_self_eq_true, Bool.true_or])
        · rcases hback a ha with hfirst | ⟨e', he', hlabel⟩
          · rw [hout, Bool.or_eq_true] at hfirst
            rcases hfirst with heq | hfirst
            · rw [← eq_of_beq heq]
              exact .inr ⟨e, .head _, haddr⟩
            · exact .inl hfirst
          · exact .inr ⟨e', .tail _ he', hlabel⟩
      · cases hone
    · next hemit =>
      cases hone
      refine ⟨hmono, List.forall_mem_cons.mpr ⟨fun h => absurd h hemit, hall⟩, fun a ha => ?_⟩
      rcases hback a ha with hfirst | ⟨e', he', hlabel⟩
      · exact .inl hfirst
      · exact .inr ⟨e', .tail _ he', hlabel⟩

/-- The listed addresses are the addresses of the labels that have a frame. -/
theorem resolve_ok (hlisted : s.Listed) {frames : Std.TreeMap Nat Frame}
    (h : s.resolve T labels = .ok frames) :
    (∀ l, s.has l = true → ∃ a, labels[l]? = some a ∧ frames.contains a = true) ∧
      ∀ a, frames.contains a = true → ∃ l : Label, labels[l]? = some a := by
  obtain ⟨-, hall, hback⟩ := foldlM_resolveOne h
  refine ⟨fun l hl => ?_, fun a ha => ?_⟩
  · rw [has_eq_isSome, Option.isSome_iff_exists] at hl
    obtain ⟨r, hr⟩ := hl
    exact hall (l, r) (Std.TreeMap.mem_toList_iff_getElem?_eq_some.mpr hr) (hlisted l r hr)
  · rcases hback a ha with hempty | ⟨e, -, hlabel⟩
    · rw [Std.TreeMap.contains_emptyc] at hempty
      cases hempty
    · exact ⟨e.1, hlabel⟩

/-- What merges keep, and all recorded frames satisfy, the listed frames satisfy. -/
theorem resolve_keeps {P : Frame → Prop} {frames : Std.TreeMap Nat Frame}
    (hmerge : ∀ a b c : Frame, P a → P b → a.merge T b = .ok c → P c)
    (hrecorded : ∀ l frame, s.recorded? l = some frame → P frame)
    (h : s.resolve T labels = .ok frames) : ∀ e ∈ frames.toList, P e.2 := by
  have hinsert : ∀ {out : Std.TreeMap Nat Frame} {addr : Nat} {f : Frame},
      (∀ (a : Nat) g, out[a]? = some g → P g) → P f →
      ∀ (a : Nat) g, (out.insert addr f)[a]? = some g → P g := by
    intro out addr f hout hf a g hg
    rw [Std.TreeMap.getElem?_insert] at hg
    split at hg
    · cases hg
      exact hf
    · exact hout a g hg
  have hfold : ∀ {entries : List (Label × Recorded)} {first last : Std.TreeMap Nat Frame},
      (∀ e ∈ entries, P e.2.frame) → (∀ (a : Nat) g, first[a]? = some g → P g) →
      entries.foldlM (resolveOne T labels) first = .ok last →
      ∀ (a : Nat) g, last[a]? = some g → P g := by
    intro entries
    induction entries with
    | nil =>
      intro first last _ hfirst h
      cases h
      exact hfirst
    | cons e entries ih =>
      intro first last hall hfirst h
      obtain ⟨he, hall⟩ := List.forall_mem_cons.mp hall
      rw [List.foldlM_cons] at h
      obtain ⟨out, hone, h⟩ := except_bind_ok h
      refine ih hall ?_ h
      unfold resolveOne addAt at hone
      dsimp only at hone
      split at hone
      · split at hone
        · split at hone
          · cases hone
            exact hinsert hfirst he
          · next earlier hearlier =>
            split at hone
            · next merged hmerged =>
              cases hone
              exact hinsert hfirst (hmerge _ _ _ (hfirst _ _ hearlier) he hmerged)
            · cases hone
        · cases hone
      · cases except_pure_ok hone
        exact hfirst
  intro e he
  refine hfold (fun e' he' => ?_) (fun a g hg => ?_) h e.1 e.2
    (Std.TreeMap.mem_toList_iff_getElem?_eq_some.mp he)
  · refine hrecorded e'.1 e'.2.frame ?_
    unfold recorded?
    rw [Std.TreeMap.mem_toList_iff_getElem?_eq_some.mp he']
    rfl
  · rw [Std.TreeMap.getElem?_emptyc] at hg
    cases hg

end BytecodeBridge.FrameStore
