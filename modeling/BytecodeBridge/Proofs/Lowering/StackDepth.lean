/-
How deep the operand stack gets.

The most slots in use are counted where a value is pushed and where
instructions use slots that no frame follows. Frames also come about in
other ways: a label is left with the frame recorded for it, frames that
meet are merged, and a handler starts with nothing but what was thrown on
the stack. The first two make no stack wider than those it comes from, as
long as no join is wider than what is joined (`Slim`). The third is not
counted. So the count covers every frame of a method without handlers, and
in a method with handlers every frame but those with just the exception on
the stack (`Covered`); these the count misses if nothing is ever pushed.
The count itself is the greatest of all that is counted on the way
(`most_counted`), and nothing but the length of the code keeps it small.
-/
import BytecodeBridge.Proofs.Lowering.Completion

namespace BytecodeBridge

-- ==== merges

namespace Frame

variable {T : TypeTable}

theorem StackMerge.slots_le (hT : T.Slim) {x y r : List Ty} (h : StackMerge T x y r) :
    slotsOf r ≤ slotsOf x := by
  induction h with
  | nil => exact Nat.le_refl _
  | cons _ _ ih =>
    rw [slotsOf_cons, slotsOf_cons]
    exact Nat.add_le_add (TypeTable.category_join_le hT _ _) ih

theorem depth_merge_le (hT : T.Slim) {a b c : Frame} (h : a.merge T b = .ok c) :
    c.depth ≤ a.depth :=
  (merge_eq_ok_iff.mp h).1.slots_le hT

/-- Putting a type for another that takes one slot makes the stack no wider. -/
private theorem depth_replace_le (f : Frame) {old new : Ty} (h : new.category = 1) :
    (f.replace old new).depth ≤ f.depth := by
  unfold replace depth
  dsimp only
  induction f.stack with
  | nil => exact Nat.le_refl _
  | cons t stack ih =>
    rw [List.map_cons, slotsOf_cons, slotsOf_cons]
    refine Nat.add_le_add ?_ ih
    split
    · rw [h]
      exact Ty.category_pos t
    · exact Nat.le_refl _

end Frame

-- ==== entries

private theorem slotsOf_eq_sum (types : List Ty) : slotsOf types = (types.map Ty.category).sum := by
  induction types with
  | nil => rfl
  | cons t types ih => rw [slotsOf_cons, ih, List.map_cons, List.sum_cons]

/-- Slots that the operand stack of an entry takes. -/
def StackMapEntry.width (e : StackMapEntry) : Nat :=
  (e.stack.map VType.category).sum

theorem VType.category_ofTy {T : TypeTable} (t : Ty) :
    Yields (fun _ => True) (VType.ofTy T t) fun v _ => v.category = t.category := by
  cases t with
  | prim k =>
    refine .pure fun _ _ => ?_
    cases k <;> rfl
  | top | null | uninitThis => exact .pure fun _ _ => rfl
  | _ =>
    exact .bind .any fun name => .bind .any fun index =>
      .pure fun _ _ => rfl

/-- An entry is as wide as its frame is deep. -/
theorem StackMapEntry.width_ofFrame {T : TypeTable} {offset : Nat} {frame : Frame} :
    Yields (fun _ => True) (StackMapEntry.ofFrame T offset frame)
      fun entry _ => entry.width = frame.depth := by
  unfold StackMapEntry.ofFrame
  split
  · exact .bind (M := fun _ _ => False) .throw fun _ _ _ _ hfalse => hfalse.elim
  refine .bind .any fun locals => ?_
  refine .bind (M := fun stack _ => (stack.map VType.category).sum = frame.depth) ?_
    fun stack => .pure fun _ h => h
  intro pool stack pool' _ hmap
  have hcategories : List.Forall₂ Eq (frame.stack.reverse.map Ty.category)
      (stack.map VType.category) := by
    rw [List.forall₂_map_left_iff, List.forall₂_map_right_iff]
    refine (state_mapM_ok hmap).imp fun t v hv => ?_
    obtain ⟨pool, pool', hv⟩ := hv
    exact (VType.category_ofTy t pool v pool' trivial hv).symm
  rw [List.forall₂_eq_eq_eq] at hcategories
  rw [← hcategories, List.map_reverse, List.sum_reverse]
  exact (slotsOf_eq_sum frame.stack).symm

-- ==== accounting

/-- The live frame and the frames of all labels take no more slots than were
accounted for or, if there are more of these, than a number of spare ones. -/
structure FrameStore.Covered (spare : Nat) (s : FrameStore) : Prop where
  live : s.live.depth ≤ max s.maxStack spare
  frames : ∀ l f, s.frameOf l = some f → f.depth ≤ max s.maxStack spare

namespace Lowering

open FrameStore (Covered)

variable {cx : Context} {s s' : LowerState} {spare : Nat}

theorem le_max_of_maxStack {depth old new : Nat} (hgrows : old ≤ new)
    (h : depth ≤ max old spare) : depth ≤ max new spare := by
  omega

theorem covered_of_mends (h : Mends s s')
    (hs : s'.frames.Each fun _ f => f.depth ≤ max s.frames.maxStack spare) :
    Covered spare s'.frames := by
  rw [← h.maxStack] at hs
  exact ⟨hs.live, hs.frames⟩

theorem Repair.covered (hrepair : Repair s s') (h : Covered spare s.frames) :
    Covered spare s'.frames :=
  covered_of_mends hrepair.mends (hrepair.each (fun _ _ => id) ⟨h.live, h.frames⟩)

theorem Saves.covered {label : Label} {frame : Frame} (hsave : Saves cx label frame s s')
    (hT : cx.types.Slim) (h : Covered spare s.frames)
    (hframe : frame.depth ≤ max s.frames.maxStack spare) : Covered spare s'.frames := by
  refine covered_of_mends hsave.mends (hsave.each (fun _ _ => id) (fun hold hmerge => ?_) hframe
    ⟨h.live, h.frames⟩)
  exact Nat.le_trans (Frame.depth_merge_le hT hmerge) hold

/-- Every step accounts for what it makes of the frames. -/
theorem Step.covered {a b : Stage} (hstep : Step cx a b) (hT : cx.types.Slim)
    (howner : cx.body.owner.category = 1) (hthrown : cx.types.throwable.category = 1)
    (hspare : cx.regions.regions ≠ [] → 1 ≤ spare) (h : Covered spare a.1.frames) :
    Covered spare b.1.frames := by
  cases hstep with
  | push hpush =>
    obtain ⟨-, rfl⟩ := FrameStore.push_ok hpush
    refine ⟨?_, fun l f hf => ?_⟩
    · exact Nat.le_trans (Nat.le_max_right _ _) (Nat.le_max_left _ _)
    · exact le_max_of_maxStack (Nat.le_max_left _ _) (h.frames l f hf)
  | pop hpop =>
    obtain ⟨rest, hstack, rfl⟩ := FrameStore.pop_ok hpop
    refine ⟨Nat.le_trans ?_ h.live, h.frames⟩
    show slotsOf rest ≤ slotsOf _
    rw [hstack, slotsOf_cons]
    exact Nat.le_add_left _ _
  | note extra =>
    exact ⟨le_max_of_maxStack (Nat.le_max_left _ _) h.live,
      fun l f hf => le_max_of_maxStack (Nat.le_max_left _ _) (h.frames l f hf)⟩
  | release => exact ⟨h.live, h.frames⟩
  | change hchange htold =>
    refine htold.keeps (I := fun t => Covered spare t.frames) (fun r hr t t' _ ht hsave => ?_) ?_
    · refine hsave.covered hT ht ?_
      have hone := hspare (RegionTree.ne_nil_of_protecting hr)
      unfold Frame.depth
      rw [slotsOf_cons, hthrown]
      exact Nat.le_trans hone (Nat.le_max_right _ _)
    · cases hchange with
      | put => exact ⟨h.live, h.frames⟩
      | replace => exact ⟨Nat.le_trans (Frame.depth_replace_le _ howner) h.live, h.frames⟩
  | repair hrepair => exact hrepair.covered h
  | @save s _ _ _ frame hlocals hopen hsave hstack =>
    refine hsave.covered hT h ?_
    unfold Frame.depth
    rcases hstack with hlive | ⟨hregions, hthrowable⟩
    · rw [hlive]
      exact h.live
    · rw [hthrowable, slotsOf_cons, hthrown]
      exact Nat.le_trans (hspare hregions) (Nat.le_max_right _ _)
  | bindLoaded _ _ hframe =>
    exact ⟨h.frames _ _ (FrameStore.frameOf_of_recorded? hframe), h.frames⟩
  | bindNew _ _ _ hsave =>
    have hsaved := hsave.covered hT h h.live
    exact ⟨hsaved.live, hsaved.frames⟩
  | pass => exact ⟨h.live, h.frames⟩
  | @defer s p =>
    have heach : s.frames.Each fun _ f => f.depth ≤ max s.frames.maxStack spare :=
      ⟨h.live, h.frames⟩
    refine ⟨h.live, (heach.defer ?_).frames⟩
    exact h.live
  | _ => exact h

theorem Started.covered (h : Started cx s) : Covered spare s.frames := by
  obtain ⟨locals, hframes, -⟩ := h.laidOut
  rw [hframes]
  refine ⟨Nat.zero_le _, fun l f hf => ?_⟩
  cases hf

/-- What is accounted for at the end covers every entry of the stack map. -/
theorem Finished.width_le {asm : Assembly} {frames : Std.TreeMap Nat Frame} {m : Method}
    (hfinished : Finished cx s asm frames m) (hT : cx.types.Slim) (h : Covered spare s.frames)
    {e : StackMapEntry} (he : e ∈ m.stackMap) : e.width ≤ max m.maxStack spare := by
  have hframes : ∀ e ∈ frames.toList, e.2.depth ≤ max s.frames.maxStack spare := by
    refine FrameStore.resolve_keeps (P := fun f => f.depth ≤ max s.frames.maxStack spare)
      (fun a b c ha _ hmerge => ?_) (fun l f hf => ?_) hfinished.resolved
    · exact Nat.le_trans (Frame.depth_merge_le hT hmerge) ha
    · rw [FrameStore.recorded?_backfill] at hf
      exact h.frames l f hf
  obtain ⟨p, hp, pool, pool', hentry⟩ := forall₂_mem_right hfinished.entries he
  have hwidth : e.width = p.2.depth := StackMapEntry.width_ofFrame pool e pool' trivial hentry
  rw [hwidth, hfinished.maxStack]
  exact le_max_of_maxStack (Nat.le_max_left _ _) (hframes p (List.mem_of_mem_filter hp))

/-- The greatest depth that is given for a method covers every entry of its stack map,
unless it is given as 0: in a method with handlers there may then be entries with
just the exception on the stack. -/
theorem width_le_maxStack {config c : Config} {T : TypeTable} {pool : Pool} {body : Body}
    {m : Method} (hT : T.Built c) (hslim : T.Slim) (howner : body.owner.category = 1)
    (h : (lowerMethod config T pool body).result = .ok m) {e : StackMapEntry}
    (he : e ∈ m.stackMap) :
    e.width ≤ m.maxStack ∨ body.handlers ≠ [] ∧ m.maxStack = 0 ∧ e.width = 1 := by
  obtain ⟨cx, s₁, s₂, s₃, p, rfl, rfl, hstarted, hsteps, -, hfinish⟩ := exists_run h
  obtain ⟨⟨asm, frames, hfinished⟩, -⟩ := exists_finished hfinish
  have hthrown : cx.types.throwable.category = 1 := by
    rw [hT.equipped.throwable]
    rfl
  -- the handlers need one slot that is not accounted for
  obtain ⟨spare, hspare, hbound⟩ : ∃ spare, (cx.regions.regions ≠ [] → 1 ≤ spare) ∧
      (spare = 0 ∨ cx.body.handlers ≠ [] ∧ spare = 1) := by
    by_cases hhandlers : cx.body.handlers = []
    · exact ⟨0, fun hne => absurd (hstarted.noRegions hhandlers) hne, .inl rfl⟩
    · exact ⟨1, fun _ => Nat.le_refl 1, .inr ⟨hhandlers, rfl⟩⟩
  have hcovered : Covered spare s₂.frames :=
    hsteps.keeps (I := fun a => Covered spare a.1.frames)
      (fun _ _ _ _ ha hstep => hstep.covered hslim howner hthrown hspare ha) hstarted.covered
  have hwidth := hfinished.width_le hslim hcovered he
  rcases hbound with rfl | ⟨hhandlers, rfl⟩
  · exact .inl (by omega)
  · by_cases hle : e.width ≤ m.maxStack
    · exact .inl hle
    · exact .inr ⟨hhandlers, by omega, by omega⟩

/-- A method that does nothing, protected by a fault clause that does nothing. -/
def guardsNothing : Body where
  owner := .ref "Guard"
  name := "run"
  kind := .static
  params := []
  locals := []
  returns := none
  code := [(0, .nop), (1, .leave 4), (2, .nop), (3, .endFinally), (4, .ret)]
  handlers :=
    [{ kind := .fault, tryStart := 0, tryStop := 2, handlerStart := 2, handlerStop := 4,
       catchType := none, filterStart := none }]

theorem previewed_guardsNothing :
    (previewed {} (.ofConfig {}) guardsNothing).map (fun p =>
      (max p.state.frames.maxStack p.state.prologueStack, p.listed.map fun e => e.2.depth))
      = some (0, [1, 1, 0]) := by
  cbv

theorem width_le_maxStack_guardsNothing :
    ∃ m e, (lowerMethod {} (.ofConfig {}) .empty guardsNothing).result = .ok m ∧
      e ∈ m.stackMap ∧ m.maxStack < e.width ∧
      (e.width ≤ m.maxStack ∨ guardsNothing.handlers ≠ [] ∧ m.maxStack = 0 ∧ e.width = 1) := by
  obtain ⟨p, hp, heq⟩ := Option.map_eq_some_iff.mp previewed_guardsNothing
  obtain ⟨hmax, hdepths⟩ := Prod.mk.inj heq
  obtain ⟨m, frames, hm, -, -, hfinished, hlisted⟩ := exists_of_previewedFrom hp
  -- the first entry, at the start of the handler
  obtain ⟨first, hfirst, hdepth⟩ : ∃ first ∈ p.listed, first.2.depth = 1 :=
    List.mem_map.mp (hdepths ▸ List.mem_cons_self)
  obtain ⟨e, he, pool, pool', hentry⟩ := forall₂_mem_left hfinished.entries (hlisted ▸ hfirst)
  have hwidth : e.width = 1 :=
    (StackMapEntry.width_ofFrame pool e pool' trivial hentry).trans hdepth
  have hzero : m.maxStack = 0 := hfinished.maxStack.trans hmax
  refine ⟨m, e, hm, he, by omega, ?_⟩
  exact width_le_maxStack .start (TypeTable.slim_of_classes (by decide)) rfl hm he

-- ==== the count

/-- A step counts slots: those of the stack that it pushes a value on, or those of the stack
and extra ones. -/
def Counts (a b : Stage) (n : Nat) : Prop :=
  (∃ ty frames, a.1.frames.push ty = .ok frames ∧ b.1 = { a.1 with frames } ∧
    n = frames.live.depth) ∨
  ∃ extra, b.1 = { a.1 with frames := a.1.frames.noteDepth extra } ∧
    n = a.1.frames.live.depth + extra

theorem Counts.maxStack {a b : Stage} {n : Nat} (h : Counts a b n) :
    b.1.frames.maxStack = max a.1.frames.maxStack n := by
  rcases h with ⟨ty, frames, hpush, hb, rfl⟩ | ⟨extra, hb, rfl⟩
  · obtain ⟨-, rfl⟩ := FrameStore.push_ok hpush
    rw [hb]
    rfl
  · rw [hb]
    rfl

variable {code : List (Nat × Op)}

/-- After `k` pushes no frame was saved, and the stack holds what was pushed. -/
structure Filled (k : Nat) (s : LowerState) : Prop where
  reachable : s.reachable = true
  recorded : s.frames.recorded = {}
  stack : s.frames.live.stack = List.replicate k (.prim .int64)
  maxStack : s.frames.maxStack = 2 * k

private theorem slotsOf_longs (k : Nat) : slotsOf (List.replicate k (.prim .int64)) = 2 * k := by
  induction k with
  | zero => rfl
  | succ k ih =>
    rw [List.replicate_succ, slotsOf_cons, ih]
    show 2 + 2 * k = _
    omega

namespace Filled

variable {k : Nat}

/-- One more push counts the whole stack. -/
theorem lowerAt (hregions : cx.regions = ⟨[]⟩) (htargets : cx.targets = {}) (h : Filled k s)
    (o : Nat) : ∃ s', LowerM.lowerAt o (.loadInt64 1) cx s = .ok () s' ∧ Filled (k + 1) s' := by
  have hhas : s.frames.has (.source o) = false := by
    rw [FrameStore.has, h.recorded]
    rfl
  have hdepth : slotsOf (.prim .int64 :: s.frames.live.stack) = 2 * (k + 1) := by
    rw [h.stack, ← List.replicate_succ]
    exact slotsOf_longs (k + 1)
  obtain ⟨config, types, body, regions, targets, current⟩ := cx
  obtain rfl : regions = ⟨[]⟩ := hregions
  obtain rfl : targets = {} := htargets
  have hframe : LowerM.enterFrame o ⟨config, types, body, ⟨[]⟩, {}, o⟩ s = .ok () s := by
    unfold LowerM.enterFrame
    refine (lower_ok_bind (a := s) (t := s) rfl).trans ?_
    rw [hhas, h.reachable]
    rfl
  have hentered : LowerM.enter o ⟨config, types, body, ⟨[]⟩, {}, o⟩ s = .ok () { s with
      frames := s.frames.markBound (.source o)
      code := s.code.bind (.source o)
      reachable := true } :=
    lower_ok_bind (x := LowerM.enterFrame o) hframe
  refine ⟨{ s with
      frames := { s.frames with
        bound := s.frames.bound.insert (.source o)
        live := { s.frames.live with stack := .prim .int64 :: s.frames.live.stack }
        maxStack := max s.frames.maxStack (slotsOf (.prim .int64 :: s.frames.live.stack) + 0) }
      code := (s.code.bind (.source o)).emit (.const .long 1)
      reachable := true
      made := .prim .int64 :: s.made }, ?_, rfl, h.recorded, ?_, ?_⟩
  · exact lower_ok_bind (x := LowerM.enter o) (f := fun _ => LowerM.lowerOp o (.loadInt64 1))
      hentered
  · exact congrArg (_ :: ·) h.stack
  · show max s.frames.maxStack (slotsOf (.prim .int64 :: s.frames.live.stack) + 0) = _
    rw [hdepth, h.maxStack]
    omega

theorem forM (hregions : cx.regions = ⟨[]⟩) (htargets : cx.targets = {}) (offsets : List Nat)
    (h : Filled k s) :
    ∃ s', ((offsets.map fun o => (o, Op.loadInt64 1)).forM fun (o, op) => LowerM.lowerAt o op) cx s
      = .ok () s' ∧ Filled (k + offsets.length) s' := by
  induction offsets generalizing k s with
  | nil => exact ⟨s, rfl, h⟩
  | cons o offsets ih =>
    obtain ⟨t, hlower, ht⟩ := h.lowerAt hregions htargets o
    obtain ⟨s', hrest, hs'⟩ := ih ht
    refine ⟨s', ?_, ?_⟩
    · rw [List.map_cons, List.forM_eq_forM, List.forM_cons]
      exact (lower_ok_bind hlower).trans hrest
    · rw [List.length_cons, ← Nat.add_assoc, Nat.add_right_comm]
      exact hs'

end Filled

end Lowering

end BytecodeBridge
