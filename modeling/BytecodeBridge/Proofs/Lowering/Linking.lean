/-
Every operation adds to what is shared, and its code is linked.

The operations that are not routine transfer control, store what they pop
or end a clause. This file follows their code, and that of handlers, with
the rules of `Proper`.
-/
import BytecodeBridge.Proofs.Lowering.Exceptions

namespace BytecodeBridge.Lowering

open LowerM Pool

variable {cx : Context} {H : Prop} {p : Pool} {index : Nat}

-- ==== comparisons

/-- What is left of the code is linked as it was. -/
theorem proper_retractNull : Proper cx H p retractNull Any := by
  refine .read_bind_rfl (fun _ _ => rfl) (Proper.get.bind fun s q => ?_)
  dsimp only
  split
  · next hretract =>
    refine (Proper.modifyCode fun h _ _ hpart _ => ?_).next fun _ => .done
    exact (h.2.2.mono hpart).retract hretract
  · exact .done

/-- The test has no operand in the pool. -/
theorem proper_comparison (way : Comparison) (unsigned : Bool) :
    Proper cx H p (comparison way unsigned) fun i _ => i.operand? = none := by
  refine proper_popKind.next fun r => proper_popKind.next fun q => ?_
  obtain ⟨b, bKind⟩ := r
  obtain ⟨a, aKind⟩ := q
  dsimp only
  split
  · split
    · split
      · exact (routine_invokeStatic _).toProper.next fun _ => .pure fun _ _ _ => rfl
      · exact .pure fun _ _ _ => rfl
    · split
      · exact (routine_invokeStatic _).toProper.next fun _ => .pure fun _ _ _ => rfl
      · exact (proper_emit rfl).next fun _ => .pure fun _ _ _ => rfl
    · exact (proper_emit rfl).next fun _ => .pure fun _ _ _ => rfl
    · exact (proper_emit rfl).next fun _ => .pure fun _ _ _ => rfl
    · split
      · split
        · refine proper_retractNull.next fun taken => ?_
          split
          · exact .pure fun _ _ _ => rfl
          · exact .pure fun _ _ _ => rfl
        · exact .pure fun _ _ _ => rfl
      · exact .throw
  · exact .throw_bind

theorem proper_branchIf (truth : Bool) (target : Nat) :
    Proper cx H p (branchIf truth target) Any := by
  refine proper_popKind.next fun r => ?_
  obtain ⟨ty, kind⟩ := r
  dsimp only
  split
  · exact proper_branchTo (fun _ => rfl) _
  · refine (proper_emit rfl).next fun _ => (proper_emit rfl).next fun _ => ?_
    exact (proper_noteDepth _).next fun _ => proper_branchTo (fun _ => rfl) _
  · exact proper_branchTo (fun _ => rfl) _
  · exact .throw_bind

theorem proper_compare (way : Comparison) (unsigned : Bool) :
    Proper cx H p (compare way unsigned) Any := by
  refine (proper_comparison way unsigned).bind fun test q => ?_
  refine proper_freshLabel.next fun yes => proper_freshLabel.next fun done => ?_
  refine (proper_make (harmless (by nofun))).next fun int => ?_
  refine (proper_branchTo (fun h => h.2.2) _).next fun _ => ?_
  refine (proper_emit rfl).next fun _ => (proper_push int).next fun _ => ?_
  refine (proper_jump done).next fun _ => (proper_bindLabel yes).next fun _ => ?_
  exact (proper_emit rfl).next fun _ => (proper_push int).next fun _ => proper_bindLabel done

theorem proper_switch (offset : Nat) (targets : List Nat) :
    Proper cx H p (switch offset targets) Any := by
  refine .read_bind_rfl (fun _ _ => rfl) ?_
  split
  · split
    · exact routine_dropTop.toProper
    · exact proper_switchTo _ _ _
  · exact .throw

theorem proper_isInstance (ty : Ty) : Proper cx H p (isInstance ty) Any := by
  refine routine_popReference.toProper.next fun value => ?_
  split
  · exact (routine_testGeneric _).toProper.next fun _ => proper_push _
  · refine (proper_classIndex ty).bind fun index q => proper_freshLabel.next fun keep => ?_
    refine (routine_testedType ty).toProper.next fun result => (proper_push value).next fun _ => ?_
    refine (proper_emit rfl).next fun _ => (proper_use rfl fun h => h.2.2).next fun _ => ?_
    refine (proper_noteDepth _).next fun _ => (proper_branchTo (fun _ => rfl) _).next fun _ => ?_
    refine proper_pop.discard.next fun _ => (proper_emit rfl).next fun _ => ?_
    refine (proper_emit rfl).next fun _ => (proper_pushNew (harmless (by nofun))).next fun _ => ?_
    refine (proper_bindLabel keep).next fun _ => proper_pop.discard.next fun _ => ?_
    exact (proper_use rfl fun h => h.2.2).next fun _ => proper_push result

-- ==== calls

theorem proper_callConstructor (h : H → p.Holds .anyMethod index) (receiver : Ty) :
    Proper cx H p (callConstructor index receiver) Any := by
  refine (proper_use rfl h).next fun _ => ?_
  split
  · refine .read_bind_rfl (fun _ _ => rfl) ?_
    exact (proper_modifyFrames _).next fun _ => proper_noteLocalsChanged
  · exact .done

/-- The kind of call follows the kind of the method's owner. -/
theorem proper_call (method : MethodRef) (virtual : Bool) :
    Proper cx H p (call method virtual) Any := by
  refine .read_bind (fun T hT handlers => ?_) ?_
  · have hsuper : isSuperCall (recast cx T handlers) method virtual
        = isSuperCall cx method virtual := by
      unfold isSuperCall
      rw [hT.assignable]
    simp only [hT.isInterface, hsuper]
  refine (routine_methodDescriptor _ _).toProper.next fun descriptor => ?_
  refine (routine_popArguments _).discard.toProper.next fun _ => ?_
  refine (proper_className _).next fun owner => ?_
  refine (Proper.onPool (serves_callee _ _ _ _)).bind fun index q => ?_
  dsimp only
  split
  · exact (proper_use rfl fun h => h.2.2.1).next fun _ => (routine_pushReturned _).toProper
  · refine routine_popReference.toProper.next fun receiver => ?_
    split
    · exact (proper_callConstructor (fun h => h.2.2.1) receiver).next fun _ =>
        (routine_pushReturned _).toProper
    · split
      · next hface =>
        exact (routine_callInterface method fun h => h.2.2.2.1 hface).toProper.next fun _ =>
          (routine_pushReturned _).toProper
      · next hface =>
        split
        · exact (proper_use rfl fun h => h.2.2.1).next fun _ => (routine_pushReturned _).toProper
        · exact (proper_use rfl fun h => h.2.2.2.2 hface).next fun _ =>
            (routine_pushReturned _).toProper

-- ==== handlers

theorem proper_stash (slot : Nat) : Proper cx H p (stash slot) Any :=
  proper_peek.next fun ty => (proper_emit rfl).next fun _ => (proper_noteDepth _).next fun _ =>
    proper_store slot ty

theorem proper_stashIn? (slot : Option Nat) : Proper cx H p (stashIn? slot) Any := by
  cases slot with
  | some slot => exact proper_stash slot
  | none => exact .done

theorem proper_enterClause (slot? : Option Nat) (start : Nat) :
    Proper cx H p (enterClause slot? start) Any :=
  (proper_stashIn? slot?).next fun _ => proper_jump _

theorem proper_throwTop : Proper cx H p throwTop Any :=
  routine_popReference.discard.toProper.next fun _ =>
    (proper_emit rfl).next fun _ => proper_endBlock

/-- The class of the clause is in the pool before it is tested for. -/
theorem proper_tryTyped (clause : Clause) (ty : Ty) (next : Label) :
    Proper cx H p (tryTyped clause ty next) Any := by
  refine (routine_isUniversal ty).toProper.next fun universal => ?_
  split
  · exact proper_enterClause _ _
  · split
    · refine (proper_emit rfl).next fun _ => (routine_testGeneric _).toProper.next fun _ => ?_
      exact (proper_branchTo (fun _ => rfl) _).next fun _ => proper_enterClause _ _
    · refine (proper_classIndex ty).bind fun index q => (proper_emit rfl).next fun _ => ?_
      refine (proper_use rfl fun h => h.2.2).next fun _ => (proper_noteDepth _).next fun _ => ?_
      refine (proper_branchTo (fun _ => rfl) _).next fun _ => ?_
      refine (proper_use rfl fun h => h.2.2).next fun _ => ?_
      exact proper_pop.discard.next fun _ => (proper_push ty).next fun _ => proper_enterClause _ _

theorem proper_enterFinal (slot? : Option Nat) (start : Nat) :
    Proper cx H p (enterFinal slot? start) Any := by
  cases slot? with
  | none => exact proper_jump _
  | some slot => exact proper_pop.next fun ty => (proper_store _ ty).next fun _ => proper_jump _

theorem proper_tryClause (r : Nat) (region : Region) (k : Nat) (clause : Clause) :
    Proper cx H p (tryClause r region k clause) Any := by
  refine (proper_bindLabel _).next fun _ => ?_
  split
  · exact proper_tryTyped clause _ _
  · split
    · exact proper_enterClause _ _
    · exact .throw
  · exact proper_enterFinal _ _
  · exact proper_enterFinal _ _

theorem proper_mapException : Proper cx H p mapException Any := by
  refine .read_bind (fun T hT _ => by rw [hT.throwable]) ?_
  refine routine_popReference.discard.toProper.next fun _ => ?_
  exact (routine_invokeStatic _).toProper.next fun _ => proper_push _

theorem proper_emitTests (r : Nat) (region : Region) :
    Proper cx H p (emitTests r region) Any := by
  refine (Proper.forM fun k _ => proper_save _).next fun _ => ?_
  refine (Proper.forM fun p _ => proper_tryClause r region p.2 p.1).next fun _ => ?_
  split
  · exact (proper_bindLabel _).next fun _ => proper_throwTop
  · exact .done

theorem proper_emitDispatch (r : Nat) : Proper cx H p (emitDispatch r) Any := by
  refine .read_bind_rfl (fun _ _ => rfl) (Proper.get.next fun s => ?_)
  dsimp only
  split
  · exact .throw_bind
  · refine (Proper.lift _).next fun region => ?_
    refine (proper_bindLabel _).next fun _ => ?_
    split
    · exact proper_emitTests r region
    · exact proper_mapException.next fun _ => proper_emitTests r region

-- ==== leaves

theorem proper_leave (source target : Nat) : Proper cx H p (leave source target) Any := by
  refine .read_bind_rfl (fun _ _ => rfl) ((routine_dropDownTo 0).toProper.next fun _ => ?_)
  refine (Proper.lift _).next fun plan => ?_
  split
  · exact proper_jump _
  · refine (Proper.lift _).next fun region => ?_
    split
    · split
      · exact .throw_bind
      · refine (Proper.onPool (Instr.chooses_intConstant _).serves).bind fun _ _ => ?_
        refine (proper_emitResolved fun h => h.2.2).next fun _ => ?_
        refine (proper_noteDepth _).next fun _ => (routine_invokeStatic _).toProper.next fun _ => ?_
        exact (proper_pushNew (.inr (.inr rfl))).next fun _ => proper_jump _
    · exact .throw

theorem proper_switchOnSentinel (r count : Nat) {sentinel : Nat}
    (h : H → p.Holds .classRef sentinel) :
    Proper cx H p (switchOnSentinel r count sentinel) Any := by
  refine .read_bind_rfl (fun _ _ => rfl) ((proper_use rfl h).next fun _ => ?_)
  refine (proper_methodRef _ _ _).bind fun _ _ => (proper_use rfl fun h => h.2.2).next fun _ => ?_
  refine proper_pop.discard.next fun _ => (proper_pushPrim _).next fun _ => ?_
  exact proper_switchTo _ _ _

theorem proper_emitResumptions (r : Nat) (region : Region) (clause : Clause) :
    Proper cx H p (emitResumptions r region clause) Any := by
  rw [emitResumptions_eq]
  exact .forM fun _ _ => (proper_bindLabel _).next fun _ => proper_leave _ _

/-- The class of the sentinel is in the pool before it is tested for. -/
theorem proper_resumeLeaves (r : Nat) (region : Region) (clause : Clause) :
    Proper cx H p (resumeLeaves r region clause) Any := by
  refine .read_bind_rfl (fun _ _ => rfl) ?_
  refine (Proper.onPool (serves_classRef _)).bind fun sentinel q => ?_
  refine proper_freshLabel.next fun selected => (proper_emit rfl).next fun _ => ?_
  refine (proper_use rfl fun h => h.2.2).next fun _ => (proper_noteDepth _).next fun _ => ?_
  refine (proper_branchTo (fun _ => rfl) _).next fun _ => Proper.get.next fun s => ?_
  refine Proper.next (.modify (fun _ => rfl) (fun _ => rfl) fun _ => rfl) fun _ => ?_
  refine proper_throwTop.next fun _ => (proper_bindLabel _).next fun _ => ?_
  split
  · refine routine_dropTop.toProper.next fun _ => ?_
    split
    · exact proper_emitResumptions r region clause
    · exact proper_jump _
  · refine (proper_switchOnSentinel _ _ fun h => h.2.2).next fun _ => ?_
    split
    · exact proper_emitResumptions r region clause
    · exact .done

theorem proper_endFinally (offset : Nat) : Proper cx H p (endFinally offset) Any := by
  have hend : ∀ site : ClauseSite, Proper cx H p
      (if (site.clause.kind = .fault || site.region.leaveTargets.isEmpty) = true then throwTop
      else resumeLeaves site.regionIndex site.region site.clause) Any := by
    intro site
    split
    · exact proper_throwTop
    · exact proper_resumeLeaves _ _ _
  refine .read_bind_rfl (fun _ _ => rfl) ((Proper.lift _).next
    fun site => ?_)
  dsimp only
  split
  · exact (routine_dropDownTo 0).toProper.next fun _ => (proper_load _).next fun _ => hend site
  · exact (routine_dropDownTo 1).toProper.next fun _ => hend site

theorem proper_endFilter (offset : Nat) : Proper cx H p (endFilter offset) Any := by
  refine .read_bind_rfl (fun _ _ => rfl) ((Proper.lift _).next
    fun site => ?_)
  dsimp only
  split
  · refine proper_popKind.next fun r => ?_
    split
    · refine (proper_branchTo (fun _ => rfl) _).next fun _ => (proper_load _).next fun _ => ?_
      refine (proper_jump _).next fun _ => (proper_bindLabel _).next fun _ => ?_
      exact (proper_load _).next fun _ => proper_jump _
    · exact .throw_bind
  · exact .throw

theorem proper_rethrow (offset : Nat) : Proper cx H p (rethrow offset) Any :=
  .read_bind_rfl (fun _ _ => rfl) ((Proper.lift _).next fun _ =>
    (proper_load _).next fun _ => proper_throwTop)

-- ==== operations

theorem proper_enterFrame (offset : Nat) : Proper cx H p (enterFrame offset) Any := by
  refine Proper.get.next fun s => ?_
  split
  · split
    · exact (proper_save _).next fun _ => proper_loadFrame _
    · exact proper_loadFrame _
  · split
    · refine .read_bind_rfl (fun _ _ => rfl) ?_
      split
      · exact (proper_save _).next fun _ => proper_loadFrame _
      · exact .done
    · exact proper_widened.next fun _ => proper_modifyFrames _

theorem proper_enter (offset : Nat) : Proper cx H p (enter offset) Any := by
  have hbind : Proper cx H p (do
      enterFrame offset
      bindHere (.source offset)
      (cx.regions.startingAt offset).forM saveAtHandler) Any :=
    (proper_enterFrame offset).next fun _ => (proper_bindHere _).next fun _ =>
      .forM fun r _ => proper_saveAtHandler r
  refine .read_bind_rfl (fun _ _ => rfl) ?_
  dsimp only
  split
  · exact (proper_emitDispatch _).next fun _ => hbind
  · exact hbind

theorem proper_returnAs (returns : Option Ty) : Proper cx H p (returnAs returns) Any := by
  cases returns with
  | none => exact (proper_emit rfl).next fun _ => proper_endBlock
  | some ty =>
    refine proper_pop.next fun value => (proper_coerce _ _).discard.next fun _ => ?_
    refine (proper_stackKind _).next fun _ => ?_
    exact (proper_emit rfl).next fun _ => proper_endBlock

theorem proper_ret : Proper cx H p ret Any := by
  refine .read_bind_rfl (fun _ _ => rfl) ?_
  dsimp only
  split
  · refine Proper.get.next fun s => ?_
    split
    · exact .throw_bind
    · exact proper_returnAs _
  · exact proper_returnAs _

/-- An operation is routine, or one of those above. -/
theorem proper_lowerOp (offset : Nat) (op : Op) : Proper cx H p (lowerOp offset op) Any := by
  cases op with
  | storeArg i | storeLocal i =>
    exact Proper.get.next fun _ => (Proper.lift _).next fun _ => proper_storeDeclared _
  | compare way unsigned => exact proper_compare way unsigned
  | branch way unsigned target =>
    exact (proper_comparison way unsigned).bind fun _ _ => proper_branchTo (fun h => h.2.2) _
  | branchIf truth target => exact proper_branchIf truth target
  | jump target => exact proper_jump _
  | switch targets => exact proper_switch offset targets
  | ret => exact proper_ret
  | throw => exact proper_throwTop
  | rethrow => exact proper_rethrow offset
  | leave target => exact proper_leave offset target
  | endFinally => exact proper_endFinally offset
  | endFilter => exact proper_endFilter offset
  | call method virtual => exact proper_call method virtual
  | isInstance ty => exact proper_isInstance ty
  | _ => exact (routine_lowerOp rfl offset).toProper

/-- The handler and the label in front of an operation, and its own code. -/
theorem proper_lowerAt (offset : Nat) (op : Op) :
    Proper cx H p (lowerAt offset op) Any := by
  have hop : ∀ cx, Proper cx H p (enter offset >>= fun _ => lowerOp offset op) Any :=
    fun cx => (proper_enter offset).next fun _ => proper_lowerOp offset op
  have hop := hop { cx with current := offset }
  exact ⟨⟨hop.adds, fun hT handlers => hop.blind hT handlers⟩, hop.links⟩

end BytecodeBridge.Lowering
