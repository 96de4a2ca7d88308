/-
The marks of a lowered body.

Operations are lowered in their order. Each binds its own label, and in
front of it that of the handler whose first clause it starts. Nothing else
that is bound on the way is a mark: a step binds labels in their place
only (`Step.binds`), so a further mark would be one of these two again,
and code that binds a label twice is never assembled. The marks of the
whole code can thus be read off the offsets of the body
(`marks_of_lowerAll`).

Where the offsets ascend, so do the marks, by a key that puts the handler
at an offset right before the operation there (`place`).
-/
import BytecodeBridge.Proofs.Code.Ownership
import BytecodeBridge.Proofs.Lowering.Labels

namespace BytecodeBridge

namespace Lowering

open LowerM

variable {cx : Context} {s s' : LowerState}

-- ==== binding

/-- The labels bound since `old` are in their place. -/
def Binds (cx : Context) (old : List Label) (s : LowerState) : Prop :=
  ∃ new, boundLabels s.code.body = new ++ old ∧ ∀ label ∈ new, InPlace cx label

theorem Binds.of_eq {old : List Label} (h : boundLabels s.code.body = old) : Binds cx old s :=
  ⟨[], h, by simp⟩

theorem lasting_binds (old : List Label) : Lasting cx (Binds cx old) := by
  rintro s s' p p' hstep ⟨new, heq, hnew⟩
  obtain ⟨more, hmore, hplace⟩ := hstep.binds
  refine ⟨more ++ new, ?_, List.forall_mem_append.mpr ⟨hplace, hnew⟩⟩
  rw [List.append_assoc, ← heq]
  exact hmore

/-- Binding a label puts it on top of the labels that are bound. -/
theorem gives_bindLabel (label : Label) (old : List Label) :
    Gives cx (fun s => boundLabels s.code.body = old) (bindLabel label)
      fun _ s => boundLabels s.code.body = label :: old := by
  intro s a s' hold hrun
  -- a save leaves the code alone
  have hsaved : ∀ {t : LowerState}, save label cx s = .ok () t → boundLabels t.code.body = old := by
    intro t hsave
    rw [(save_ok hsave).mends.body]
    exact hold
  rcases bindLabel_ok hrun with ⟨t, frame, ⟨-, hsave⟩ | ⟨-, rfl⟩, -, rfl⟩ | ⟨-, -, t, hsave, rfl⟩
  · exact congrArg (label :: ·) (hsaved hsave)
  · exact congrArg (label :: ·) hold
  · exact congrArg (label :: ·) (hsaved hsave)

-- ==== one operation

/-- The marks of the operation at an offset: the handler in front of it, if there is
one, and its own label. -/
def marksOf (t : RegionTree) (offset : Nat) : List Label :=
  (t.handlerAt? offset).toList.map .handler ++ [.source offset]

theorem mem_marksOf {label : Label} (hmark : label.isMark = true) :
    label ∈ marksOf cx.regions cx.current ↔ InPlace cx label := by
  unfold marksOf
  rw [List.mem_append, List.mem_singleton, List.mem_map]
  cases label with
  | source o | handler r => simp [InPlace]
  | _ => cases hmark

/-- Entering an operation binds the handler in front of it and then its own label. -/
private theorem binds_enter (hprepared : Prepared cx) {a : Unit} (hback : Backed cx .all s)
    (h : enter cx.current cx s = .ok a s') :
    ∃ new, (∀ label ∈ new, InPlace cx label) ∧
      Binds cx (.source cx.current :: (new ++
        ((cx.regions.handlerAt? cx.current).toList.map .handler ++
          boundLabels s.code.body))) s' := by
  have harrive : ∀ {t : LowerState}, arrive cx cx t = .ok a s' →
      Binds cx (.source cx.current :: boundLabels t.code.body) s' := by
    intro t h
    obtain ⟨u, harrival, hsaves⟩ := arrive_ok h
    refine .of_eq ?_
    rw [hsaves.mends.body]
    exact harrival.binds.2
  rw [enter_eq] at h
  cases hhandler : cx.regions.handlerAt? cx.current with
  | none =>
    rw [hhandler] at h
    exact ⟨[], by simp, harrive h⟩
  | some r =>
    rw [hhandler] at h
    obtain ⟨_, t, hdispatch, h⟩ := lower_bind_ok h
    -- a handler binds its label first
    obtain ⟨-, -, new, heq, hplace⟩ := does_emitDispatch hprepared hhandler
      ((enters_all cx).handler r hhandler) (lasting_binds _)
      ((gives_bindLabel (.handler r) _).weaken (fun _ h => h) fun _ _ h => .of_eq h)
      s _ t [] hback rfl hdispatch
    have hbinds := harrive h
    rw [heq] at hbinds
    exact ⟨new, hplace, hbinds⟩

/-- Labels in their place are no marks where the marks of the operation are bound
elsewhere. -/
private theorem filter_isMark_eq_nil (front : List Label) {new back : List Label}
    (hplace : ∀ label ∈ new, InPlace cx label) (honce : (front ++ (new ++ back)).Nodup)
    (helse : ∀ label ∈ marksOf cx.regions cx.current, label ∈ front ∨ label ∈ back) :
    new.filter Label.isMark = [] := by
  rw [List.filter_eq_nil_iff]
  intro label hlabel hmark
  obtain ⟨-, hnew, hfront⟩ := List.nodup_append.mp honce
  obtain ⟨-, -, hback⟩ := List.nodup_append.mp hnew
  rcases helse label ((mem_marksOf hmark).mpr (hplace label hlabel)) with hin | hin
  · exact hfront label hin label (List.mem_append_left _ hlabel) rfl
  · exact hback label hlabel label hin rfl

/-- Lowering an operation binds its marks and no others. -/
private theorem marks_of_lowerAt (hprepared : Prepared cx) {o : Nat} {op : Op}
    (hop : (o, op) ∈ cx.body.code) {a : Unit} (hback : Backed cx .all s)
    (h : lowerAt o op cx s = .ok a s') (honce : (boundLabels s'.code.body).Nodup) :
    marks s'.code.body = (marksOf cx.regions o).reverse ++ marks s.code.body := by
  obtain ⟨t, henter, h⟩ := lowerAt_ok h
  have hback : Backed (cx.atOffset o) .all s := backed_atOffset.mpr hback
  obtain ⟨new, hnew, hbinds⟩ := binds_enter (hprepared.atOffset o) hback henter
  obtain ⟨⟨p, hsteps⟩, -⟩ :=
    runs_enter (hprepared.atOffset o) (enters_all _) s _ t [] hback trivial henter
  obtain ⟨-, -, more, heq, hmore⟩ := (runs_lowerOp (hprepared.atOffset o) hop
    (admits_all _ op)).during (lasting_binds _) t a s' p (hback.steps hsteps) hbinds h
  change _ = more ++ .source o :: (new ++ ((cx.regions.handlerAt? o).toList.map .handler ++
    boundLabels s.code.body)) at heq
  rw [heq] at honce
  have hmarks : ∀ label ∈ marksOf cx.regions o,
      label = .source o ∨ label ∈ (cx.regions.handlerAt? o).toList.map .handler := by
    intro label hlabel
    rcases List.mem_append.mp hlabel with hhandler | hsource
    · exact .inr hhandler
    · exact .inl (List.mem_singleton.mp hsource)
  -- no mark is bound behind the label of the operation, nor between it and the handler
  have hmore : more.filter Label.isMark = [] := by
    refine filter_isMark_eq_nil [] hmore honce fun label hlabel => .inr ?_
    rcases hmarks label hlabel with rfl | hhandler
    · exact List.mem_cons_self
    · exact List.mem_cons_of_mem _ (List.mem_append_right _ (List.mem_append_left _ hhandler))
  have hnew : new.filter Label.isMark = [] := by
    rw [List.append_cons] at honce
    refine filter_isMark_eq_nil (more ++ [.source o]) hnew honce fun label hlabel => ?_
    rcases hmarks label hlabel with rfl | hhandler
    · exact .inl (List.mem_append_right _ (List.mem_singleton_self _))
    · exact .inr (List.mem_append_left _ hhandler)
  unfold marks marksOf
  rw [heq]
  cases cx.regions.handlerAt? o with
  | none | some r => simp [List.filter_append, List.filter_cons, hmore, hnew, Label.isMark]

-- ==== all of them

private theorem marks_of_forM (hprepared : Prepared cx) {code : List (Nat × Op)}
    (hcode : ∀ e ∈ code, e ∈ cx.body.code) {a : Unit} (hback : Backed cx .all s)
    (h : (code.forM fun (o, op) => lowerAt o op) cx s = .ok a s')
    (honce : (boundLabels s'.code.body).Nodup) :
    marks s'.code.body
      = (code.flatMap fun e => marksOf cx.regions e.1).reverse ++ marks s.code.body := by
  induction code generalizing s with
  | nil =>
    cases h
    rfl
  | cons e code ih =>
    obtain ⟨o, op⟩ := e
    obtain ⟨_, t, hfirst, h⟩ := lower_bind_ok h
    have hrest : ∀ e ∈ code, e ∈ cx.body.code := fun e he => hcode e (.tail _ he)
    have hop := hcode _ (.head _)
    obtain ⟨p, hsteps⟩ := steps_of_lowerAt hprepared hop hback hfirst []
    have hback' : Backed cx .all t :=
      backed_atOffset.mp ((backed_atOffset.mpr hback).steps hsteps)
    obtain ⟨p', hlater⟩ := codeSteps_of_forM hprepared hrest hback' h p
    have honce' := honce.sublist (CodeSteps.boundLabels_suffix hlater).sublist
    rw [ih hrest hback' h, marks_of_lowerAt hprepared hop hback hfirst honce',
      List.flatMap_cons, List.reverse_append, List.append_assoc]

theorem marks_of_lowerAll {asm : Assembly} (hstarted : Started cx s) {a : Unit}
    (h : lowerAll cx.body.code cx s = .ok a s') (hasm : s'.code.assemble = .ok asm) :
    marks s'.code.items = cx.body.code.flatMap fun e => marksOf cx.regions e.1 := by
  obtain ⟨hcode, -⟩ := lowerAll_ok h
  have hmarks := marks_of_forM hstarted.prepared (fun e he => he) hstarted.backed hcode
    (nodup_of_assemble hasm)
  have hstart : marks s.code.body = [] := by rw [hstarted.code]; rfl
  rw [marks_items, hmarks, hstart, List.append_nil, List.reverse_reverse]

-- ==== the order

/-- Where a mark stands: the handler at an offset right before the operation there. -/
def place (t : RegionTree) : Label → Nat
  | .source o => 2 * o + 1
  | .handler r => 2 * (t.regions[r]?.elim 0 Region.handlerOffset)
  | _ => 0

theorem place_source (t : RegionTree) (offset : Nat) :
    place t (.source offset) = 2 * offset + 1 :=
  rfl

theorem place_handler {t : RegionTree} {offset r : Nat} (h : t.handlerAt? offset = some r) :
    place t (.handler r) = 2 * offset := by
  obtain ⟨hlt, hoffset, -⟩ := List.findIdx?_eq_some_iff_getElem.mp h
  show 2 * (t.regions[r]?.elim 0 Region.handlerOffset) = _
  rw [List.getElem?_eq_getElem hlt]
  exact congrArg (2 * ·) (eq_of_beq hoffset)

private theorem place_bounds {t : RegionTree} {offset : Nat} {label : Label}
    (h : label ∈ marksOf t offset) :
    2 * offset ≤ place t label ∧ place t label ≤ 2 * offset + 1 := by
  rcases List.mem_append.mp h with h | h
  · obtain ⟨r, hr, rfl⟩ := List.mem_map.mp h
    rw [place_handler (Option.mem_toList.mp hr)]
    omega
  · rw [List.mem_singleton.mp h, place_source]
    omega

private theorem pairwise_marksOf (t : RegionTree) (offset : Nat) :
    (marksOf t offset).Pairwise fun a b => place t a < place t b := by
  unfold marksOf
  cases hhandler : t.handlerAt? offset with
  | none => exact List.pairwise_singleton _ _
  | some r =>
    refine List.pairwise_pair.mpr ?_
    rw [place_handler hhandler, place_source]
    omega

theorem pairwise_place (t : RegionTree) {code : List (Nat × Op)}
    (hordered : code.Pairwise fun a b => a.1 < b.1) :
    (code.flatMap fun e => marksOf t e.1).Pairwise fun a b => place t a < place t b := by
  rw [List.pairwise_flatMap]
  refine ⟨fun e _ => pairwise_marksOf t e.1, hordered.imp fun {e f} hlt a ha b hb => ?_⟩
  have hfirst := place_bounds ha
  have hsecond := place_bounds hb
  omega

end Lowering

end BytecodeBridge
