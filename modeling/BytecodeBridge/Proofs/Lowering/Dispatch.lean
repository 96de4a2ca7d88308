/-
Dispatch takes the first clause that matches.

`Clause.takes` says which exceptions a clause takes, `Region.entered` in
which state it is then entered, and `Region.thrown` what the clauses see of
the exception that a handler was entered with. The code of a clause makes
its test and goes to the clause or to the next test (`Tries`); the code of
a handler is the mapping, the tests in order, and a throw behind the last
one if no final clause takes what is left (`Dispatching`). From there,
where an execution of the handler goes is an induction over the clauses
(`leads_dispatch`).

A handler stores the exception as what the top of its stack is known to
be. That is a reference in every frame that can be saved at a handler or a
test, as long as no type was declared with a primitive supertype (`ThrowsReferences`).
-/
import BytecodeBridge.Proofs.Lowering.Coverage
import BytecodeBridge.Proofs.Lowering.LeaveCode
import BytecodeBridge.Proofs.Region.Innermost

namespace BytecodeBridge

open Objects Clause Region

variable {Obj : Type}

-- ==== what clauses take

/-- Whether a clause that catches a type takes an exception. -/
def TypeTable.catches (T : TypeTable) (config : Config) (rt : Runtime Obj) (x : Obj) : Ty → Bool
  | .generic _ .resolved => true
  | .generic name .unresolved => (rt.asked x name).isSome
  | ty =>
    match T.className ty with
    | .ok name => config.isUniversalException name || rt.isInstance x name
    | .error _ => false

/-- Whether a clause takes an exception. -/
def Clause.takes (T : TypeTable) (config : Config) (rt : Runtime Obj) (x : Obj)
    (clause : Clause) : Bool :=
  match clause.kind with
  | .typed ty => T.catches config rt x ty
  | .filtered _ | .cleanup | .fault => true

/-- The calls that the test of a clause makes. -/
def Clause.inquiries (x : Obj) (clause : Clause) : List (Call Obj) :=
  match clause.kind with
  | .typed (.generic name .unresolved) => [.genericCatch x name]
  | _ => []

/-- The slot in which a clause finds the exception that it was entered with. -/
def Region.keptSlot? (region : Region) (clause : Clause) : Option Nat :=
  match clause.kind with
  | .typed _ => clause.rethrowSlot
  | .filtered _ => region.filterSlot
  | .cleanup | .fault => region.finallySlot

/-- The locals with an object in a slot, if there is one. -/
def keep (slot? : Option Nat) (x : Obj) (locals : Nat → Option (Value Obj)) :
    Nat → Option (Value Obj) :=
  match slot? with
  | some slot => putLocal Value.category locals slot (.object x)
  | none => locals

/-- The state in which a clause is entered with an exception. It is the only thing on
the stack, unless a final clause has it in a slot. -/
def Region.entered (region : Region) (clause : Clause) (x : Obj)
    (locals : Nat → Option (Value Obj)) (calls : List (Call Obj)) : State Obj where
  stack := if clause.isFinal && region.finallySlot.isSome then [] else [.object x]
  locals := keep (region.keptSlot? clause) x locals
  calls := calls

/-- Whether exceptions are mapped before the clauses see them. -/
def Region.maps (region : Region) : Bool :=
  !region.clauses.head?.any isFinal

/-- What the clauses see of an exception. -/
def Region.thrown (region : Region) (rt : Runtime Obj) (x : Obj) : Obj :=
  if region.maps then rt.mapped x else x

/-- The calls that are made before the clauses see an exception. -/
def Region.mapping (region : Region) (x : Obj) : List (Call Obj) :=
  if region.maps then [.mapper x] else []

namespace Lowering

open LowerM

-- ==== one test

section Tests

variable {rt : Runtime Obj} {cx : Context} {s t : LowerState} {a : Unit}

variable {slot r k : Nat} {ty : Ty} {q : Pool} {slot? : Option Nat} {region : Region}
  {clause : Clause} {name : String} {next : Label}

theorem store_reference (h : store slot ty cx s = .ok a t) (hty : ty.prim? = none) :
    Appends cx [.instr (.storeSlot .reference slot)] s t ∧
      t.frames.live.stack = s.frames.live.stack := by
  obtain ⟨kind, u, hlook, -⟩ := lower_bind_ok h
  obtain ⟨hkind, -⟩ := stackKind_ok hlook
  have href := TypeTable.eq_reference_of_prim? hty hkind
  exact store_appends h (href ▸ hkind)

/-- The code that copies an exception into a slot. -/
def stashCode : Option Nat → List Item
  | some slot => [.instr .dup, .instr (.storeSlot .reference slot)]
  | none => []

theorem exit?_stashCode {config : Config} {x : Obj} {stack : List (Value Obj)}
    {locals : Nat → Option (Value Obj)} {calls : List (Call Obj)} {rest : List Item} :
    exit? config rt q (stashCode slot? ++ rest) ⟨.object x :: stack, locals, calls⟩
      = exit? config rt q rest ⟨.object x :: stack, keep slot? x locals, calls⟩ := by
  cases slot? with
  | none => rfl
  | some slot => exact (exit?_instr exec_dup).trans (exit?_instr exec_store)

private theorem stash_appends (h : stash slot cx s = .ok a t) (hhead : Headed s.frames.live.stack) :
    Appends cx (stashCode (some slot)) s t := by
  obtain ⟨ty, u₁, hpeek, hrest⟩ := lower_bind_ok h
  obtain ⟨rfl, rest, hstack⟩ := peek_ok hpeek
  obtain ⟨u₂, happends₁, -, hrest⟩ := emit_bind hrest
  obtain ⟨u₃, happends₂, -, -, hstore⟩ := noteDepth_bind hrest
  exact (happends₁.trans happends₂).trans
    (store_reference hstore (hhead.prim?_eq_none hstack)).1

private theorem stashIn?_appends (h : stashIn? slot? cx s = .ok a t)
    (hhead : Headed s.frames.live.stack) : Appends cx (stashCode slot?) s t := by
  cases slot? with
  | none =>
    cases h
    exact .refl cx _
  | some slot => exact stash_appends h hhead

/-- The code of a test with the exception on the stack: it goes where the clause starts,
or on to the next test. -/
def Tries (cx : Context) (rt : Runtime Obj) (region : Region) (q : Pool) (next : Label)
    (clause : Clause) (block : List Item) : Prop :=
  ∀ x locals calls, exit? cx.config rt q block ⟨[.object x], locals, calls⟩ = some
    (if clause.takes cx.types cx.config rt x then
      .arrives (.source clause.start)
        (region.entered clause x locals (calls ++ clause.inquiries x))
    else .arrives next ⟨[.object x], locals, calls ++ clause.inquiries x⟩)

theorem enterClause_closes {start : Nat} (h : enterClause slot? start cx s = .ok a t)
    (hhead : Headed s.frames.live.stack) :
    Closes cx (stashCode slot? ++ [.branch (.goto 0) (.source start)]) s t := by
  obtain ⟨_, u, hstash, hjump⟩ := lower_bind_ok h
  exact (stashIn?_appends hstash hhead).closes (jump_closes hjump trivial)

theorem entered_typed (hkind : clause.kind = .typed ty) (x : Obj)
    (locals : Nat → Option (Value Obj)) (calls : List (Call Obj)) :
    region.entered clause x locals calls
      = ⟨[.object x], keep clause.rethrowSlot x locals, calls⟩ := by
  simp [entered, isFinal, keptSlot?, hkind]

/-- A type that is no generic parameter is caught by its class. -/
private theorem isUniversal_plain {b : Bool} (hty : ∀ name res, ty ≠ .generic name res)
    (h : isUniversal ty cx s = .ok b t) :
    t = s ∧ ∃ name, cx.types.className ty = .ok name ∧
      b = cx.config.isUniversalException name := by
  have hclass : isUniversal ty = do
      return (← read).config.isUniversalException (← className ty) := by
    cases ty with
    | generic name res => exact absurd rfl (hty name res)
    | _ => rfl
  rw [hclass] at h
  obtain ⟨name, u, hname, hrest⟩ := lower_bind_ok (read_bind_ok h)
  obtain ⟨hname, rfl⟩ := className_look hname
  cases hrest
  exact ⟨rfl, name, ‹_›, rfl⟩

private theorem catches_plain (rt : Runtime Obj) {T : TypeTable} {config : Config}
    (hty : ∀ name res, ty ≠ .generic name res) (hname : T.className ty = .ok name) (x : Obj) :
    T.catches config rt x ty = (config.isUniversalException name || rt.isInstance x name) := by
  unfold TypeTable.catches
  split
  · next n => exact absurd rfl (hty n .resolved)
  · next n => exact absurd rfl (hty n .unresolved)
  · rw [hname]

theorem takes_typed {T : TypeTable} {config : Config} (hkind : clause.kind = .typed ty) (x : Obj) :
    clause.takes T config rt x = T.catches config rt x ty := by
  rw [takes, hkind]

private theorem tries_all (hkind : clause.kind = .typed ty)
    (htakes : ∀ x, cx.types.catches cx.config rt x ty = true)
    (hasks : ∀ x : Obj, clause.inquiries x = []) :
    Tries cx rt region q next clause
      (stashCode clause.rethrowSlot ++ [.branch (.goto 0) (.source clause.start)]) := by
  intro x locals calls
  rw [takes_typed hkind, htakes, hasks, entered_typed hkind, List.append_nil, exit?_stashCode]
  rfl

/-- The test of a clause that catches a generic parameter which the helper has to decide. -/
private theorem tryGeneric_closes (hkind : clause.kind = .typed (.generic name .unresolved))
    (h : tryGeneric clause name (.dispatch r k) cx s = .ok a t) (hpool : s.pool.Indexed)
    (hhead : Headed s.frames.live.stack) :
    ∃ block, Closes cx block s t ∧
      ∀ q, t.pool.PartOf q → Tries cx rt region q (.dispatch r k) clause block := by
  obtain ⟨u₁, happends₁, hframes₁, hrest⟩ := emit_bind h
  obtain ⟨_, u₂, htest, hrest⟩ := lower_bind_ok hrest
  obtain ⟨_, u₃, hbranch, hrest⟩ := lower_bind_ok hrest
  obtain ⟨text, index, happends₂, hlive₂, hfound⟩ :=
    testGeneric_appends htest (happends₁.indexed hpool)
  have hhead₂ : Headed u₂.frames.live.stack := by rwa [hlive₂, hframes₁]
  obtain ⟨happends₃, hstack₃⟩ := branchTo_appends hbranch fun _ => hhead₂
  have hback := happends₃.closes (enterClause_closes hrest (hstack₃ ▸ hhead₂))
  have hfront := happends₁.trans happends₂
  refine ⟨_, hfront.closes hback, fun q hq x locals calls => ?_⟩
  obtain ⟨htext, hmethod⟩ := hfound q (hback.partOf (hfront.indexed hpool) hq)
  have htakes : clause.takes cx.types cx.config rt x = (rt.asked x name).isSome :=
    takes_typed hkind x
  have hasks : clause.inquiries x = [.genericCatch x name] := by rw [inquiries, hkind]
  rw [htakes, hasks, entered_typed hkind]
  refine (exit?_unless_asked htext hmethod).trans ?_
  split
  · exact exit?_stashCode
  · rfl

/-- The test of a clause that catches the instances of a class. -/
private theorem tryClass_closes (hkind : clause.kind = .typed ty)
    (htakes : ∀ x name, cx.types.className ty = .ok name →
      cx.types.catches cx.config rt x ty = rt.isInstance x name)
    (hasks : ∀ x : Obj, clause.inquiries x = [])
    (h : tryClass clause ty (.dispatch r k) cx s = .ok a t) (hpool : s.pool.Indexed)
    (hhead : Headed s.frames.live.stack) :
    ∃ block, Closes cx block s t ∧
      ∀ q, t.pool.PartOf q → Tries cx rt region q (.dispatch r k) clause block := by
  obtain ⟨index, u₁, hindex, hrest⟩ := lower_bind_ok h
  obtain ⟨name, hname, happends₁, hframes₁, hclass⟩ := classIndex_appends hindex hpool
  obtain ⟨u₂, happends₂, hframes₂, hrest⟩ := emit_bind hrest
  obtain ⟨u₃, happends₃, hframes₃, hrest⟩ := emit_bind hrest
  obtain ⟨u₄, happends₄, hlive₄, -, hrest⟩ := noteDepth_bind hrest
  obtain ⟨_, u₅, hbranch, hrest⟩ := lower_bind_ok hrest
  obtain ⟨u₆, happends₆, -, hrest⟩ := emit_bind hrest
  obtain ⟨_, u₇, hpop, hrest⟩ := lower_bind_ok hrest
  obtain ⟨_, u₈, hpush, hrest⟩ := lower_bind_ok hrest
  have hhead₄ : Headed u₄.frames.live.stack := by rwa [hlive₄, hframes₃, hframes₂, hframes₁]
  obtain ⟨happends₅, -⟩ := branchTo_appends hbranch fun _ => hhead₄
  obtain ⟨_, hpop⟩ := discard_ok hpop
  obtain ⟨happends₈, hstack₈⟩ := push_appends hpush
  have htests := ((happends₂.trans happends₃).trans happends₄).trans happends₅
  have hcasts := (happends₆.trans (pop_pops hpop).appends).trans happends₈
  -- behind the cast the exception is known by the type of the clause
  have hback := (htests.trans hcasts).closes
    (enterClause_closes hrest ⟨ty, _, hstack₈, prim?_of_className hname⟩)
  refine ⟨_, happends₁.closes hback, fun q hq x locals calls => ?_⟩
  have hfound := hclass q (hback.partOf (happends₁.indexed hpool) hq)
  rw [takes_typed hkind, htakes x name hname, hasks, entered_typed hkind, List.append_nil calls]
  refine (exit?_unless_instance hfound).trans ?_
  split
  · next hyes => exact (exit?_instr (exec_checkCast hfound hyes)).trans exit?_stashCode
  · rfl

private theorem tryTyped_closes (hkind : clause.kind = .typed ty)
    (h : tryTyped clause ty (.dispatch r k) cx s = .ok a t) (hpool : s.pool.Indexed)
    (hhead : Headed s.frames.live.stack) :
    ∃ block, Closes cx block s t ∧
      ∀ q, t.pool.PartOf q → Tries cx rt region q (.dispatch r k) clause block := by
  obtain ⟨universal, u, huniversal, hrest⟩ := lower_bind_ok h
  have hplain : (∀ name res, ty ≠ .generic name res) → ∃ block, Closes cx block s t ∧
      ∀ q, t.pool.PartOf q → Tries cx rt region q (.dispatch r k) clause block := by
    intro hty
    obtain ⟨rfl, name, hname, rfl⟩ := isUniversal_plain hty huniversal
    have hcatches : ∀ x, cx.types.catches cx.config rt x ty = _ := catches_plain rt hty hname
    have hasks : ∀ x : Obj, clause.inquiries x = [] := by
      intro x
      rw [inquiries, hkind]
      cases ty with
      | generic name res => exact absurd rfl (hty name res)
      | _ => rfl
    cases hall : cx.config.isUniversalException name with
    | true =>
      rw [hall] at hrest
      refine ⟨_, enterClause_closes hrest hhead, fun q _ => tries_all hkind (fun x => ?_) hasks⟩
      rw [hcatches, hall, Bool.true_or]
    | false =>
      rw [hall] at hrest
      refine tryClass_closes (a := a) hkind (fun x name' hname' => ?_) hasks ?_ hpool hhead
      · cases hname.symm.trans hname'
        rw [hcatches, hall, Bool.false_or]
      · cases ty with
        | generic name res => exact absurd rfl (hty name res)
        | _ => exact hrest
  cases ty with
  | generic name res =>
    cases res with
    | resolved =>
      cases huniversal
      refine ⟨_, enterClause_closes hrest hhead,
        fun q _ => tries_all hkind (fun x => rfl) fun x => ?_⟩
      rw [inquiries, hkind]
    | unresolved =>
      cases huniversal
      exact tryGeneric_closes hkind hrest hpool hhead
  | _ => exact hplain nofun

/-- A filter keeps the exception in the slot of its region. -/
private theorem tries_filter {n : Nat} (hkind : clause.kind = .filtered n)
    (hslot : region.filterSlot = some slot) :
    Tries cx rt region q next clause
      (stashCode (some slot) ++ [.branch (.goto 0) (.source clause.start)]) := by
  intro x locals calls
  have hentered : ∀ calls, region.entered clause x locals calls
      = ⟨[.object x], keep (some slot) x locals, calls⟩ := by
    simp [entered, isFinal, keptSlot?, hkind, hslot]
  have htakes : clause.takes cx.types cx.config rt x = true := by rw [takes, hkind]
  have hasks : clause.inquiries x = [] := by rw [inquiries, hkind]
  rw [htakes, hasks, hentered, List.append_nil, exit?_stashCode]
  rfl

theorem kind_of_isFinal (h : clause.isFinal = true) :
    clause.kind = .cleanup ∨ clause.kind = .fault := by
  unfold isFinal at h
  cases hkind : clause.kind with
  | cleanup | fault => simp
  | typed ty | filtered n => simp [hkind] at h

theorem takes_of_isFinal {T : TypeTable} {config : Config} {x : Obj} (h : clause.isFinal = true) :
    clause.takes T config rt x = true := by
  rcases kind_of_isFinal h with hkind | hkind <;> rw [takes, hkind]

/-- A final clause has the exception on the stack or in the slot of its region. -/
private theorem tries_final (hfinal : clause.isFinal = true) :
    Tries cx rt region q next clause
      ((region.finallySlot.toList.map fun slot => .instr (.storeSlot .reference slot))
        ++ [.branch (.goto 0) (.source clause.start)]) := by
  intro x locals calls
  obtain ⟨hasks, hkept⟩ : clause.inquiries x = [] ∧
      region.keptSlot? clause = region.finallySlot := by
    unfold inquiries keptSlot?
    rcases kind_of_isFinal hfinal with hkind | hkind <;> rw [hkind] <;> exact ⟨rfl, rfl⟩
  rw [takes_of_isFinal hfinal, hasks, List.append_nil, entered, hkept, hfinal]
  cases region.finallySlot with
  | none => rfl
  | some slot => exact exit?_instr exec_store

private theorem enterFinal_closes {start : Nat} (h : enterFinal slot? start cx s = .ok a t)
    (hhead : Headed s.frames.live.stack) :
    Closes cx ((slot?.toList.map fun slot => .instr (.storeSlot .reference slot))
      ++ [.branch (.goto 0) (.source start)]) s t := by
  cases slot? with
  | none => exact jump_closes h trivial
  | some slot =>
    obtain ⟨ty, u₁, hpop, hrest⟩ := lower_bind_ok h
    obtain ⟨_, u₂, hstore, hjump⟩ := lower_bind_ok hrest
    have hpops := pop_pops hpop
    obtain ⟨hstores, -⟩ := store_reference hstore (hhead.prim?_eq_none hpops.stack)
    exact (hpops.appends.trans hstores).closes (jump_closes hjump trivial)

/-- What the tests of a region rely on while they are emitted. -/
structure Testing (cx : Context) (r : Nat) (s : LowerState) : Prop where
  entry : ∀ k, Entry cx (.dispatch r k) s.frames
  headed : s.reachable = true → Headed s.frames.live.stack

private theorem tryClause_emits (rt : Runtime Obj) (hfirm : ThrowsReferences cx.types)
    (h : tryClause r region k clause cx s = .ok a t) (hpool : s.pool.Indexed)
    (htesting : Testing cx r s) :
    ∃ block, Emits cx (.bind (.dispatch r k) :: block) s t ∧
      ((∀ k, Entry cx (.dispatch r k) t.frames) ∧ t.reachable = false ∧ Sealed t.code.body) ∧
      ∀ q, t.pool.PartOf q → Tries cx rt region q (.dispatch r (k + 1)) clause block := by
  obtain ⟨_, u, hbind, hrest⟩ := lower_bind_ok h
  obtain ⟨hbinds, -, -, hhead, -⟩ := bindLabel_emits hbind (htesting.entry k) fun hgoes _ =>
    htesting.headed hgoes
  replace hhead : Headed u.frames.live.stack := hhead hfirm
  -- what is left to do is a block that closes and makes the test
  obtain ⟨block, hcloses, htries⟩ : ∃ block, Closes cx block u t ∧
      ∀ q, t.pool.PartOf q → Tries cx rt region q (.dispatch r (k + 1)) clause block := by
    have hindexed := hbinds.indexed hpool
    cases hkind : clause.kind with
    | typed ty =>
      rw [hkind] at hrest
      exact tryTyped_closes hkind hrest hindexed hhead
    | filtered n =>
      rw [hkind] at hrest
      cases hslot : region.filterSlot with
      | none =>
        rw [hslot] at hrest
        cases hrest
      | some slot =>
        rw [hslot] at hrest
        exact ⟨_, enterClause_closes hrest hhead, fun q _ => tries_filter hkind hslot⟩
    | cleanup | fault =>
      rw [hkind] at hrest
      refine ⟨_, enterFinal_closes hrest hhead, fun q _ => tries_final ?_⟩
      rw [isFinal, hkind]
  refine ⟨block, hbinds.trans hcloses.toEmits, ⟨fun k => ?_, hcloses.reachable, hcloses.isSealed⟩,
    htries⟩
  exact hcloses.entries _ (hbinds.entries _ (htesting.entry k))

end Tests

-- ==== a handler

section Handlers

variable {rt : Runtime Obj} {cx : Context} {s t : LowerState} {a : Unit}

private theorem mapException_appends (h : mapException cx s = .ok a t) (hpool : s.pool.Indexed) :
    ∃ index, Appends cx [.instr (.invokeStatic index)] s t ∧
      (∃ rest, t.frames.live.stack = cx.types.throwable :: rest) ∧
      ∀ q, t.pool.PartOf q → q.method? index = some cx.config.exceptionMapper := by
  obtain ⟨_, u₁, hpop, hrest⟩ := lower_bind_ok (read_bind_ok h)
  obtain ⟨_, u₂, hcall, hpush⟩ := lower_bind_ok hrest
  obtain ⟨_, hpop⟩ := discard_ok hpop
  have hpops := (popReference_pops hpop).1.appends
  obtain ⟨index, hcalls, -, hmethod⟩ := invokeStatic_appends hcall (hpops.indexed hpool)
  obtain ⟨hpushes, hstack⟩ := push_appends hpush
  refine ⟨index, (hpops.trans hcalls).trans hpushes, ⟨_, hstack⟩, fun q hq => ?_⟩
  exact hmethod q (hpushes.partOf ((hpops.trans hcalls).indexed hpool) hq)

/-- The code that maps the exception on the stack, if it is mapped. -/
def Mapping (cx : Context) (rt : Runtime Obj) (region : Region) (q : Pool)
    (block : List Item) : Prop :=
  ∀ x locals calls rest, exit? cx.config rt q (block ++ rest) ⟨[.object x], locals, calls⟩
    = exit? cx.config rt q rest ⟨[.object (region.thrown rt x)], locals, calls ++ region.mapping x⟩

/-- The code of a handler: the mapping, the tests in order, and a throw behind the last one
unless a final clause takes what is left. -/
structure Dispatching (cx : Context) (rt : Runtime Obj) (r : Nat) (region : Region) (q : Pool)
    (mapping tests tail : List Item) : Prop where
  maps : Mapping cx rt region q mapping
  tests : Labelled (fun e => .dispatch r e.2)
    (fun e => Tries cx rt region q (.dispatch r (e.2 + 1)) e.1) region.clauses.zipIdx tests
  throws : region.finalClause? = none →
    tail = [.bind (.dispatch r region.clauses.length), .instr .athrow]

/-- The tests of a region, one after the other, and what is behind the last one. -/
private theorem emitTests_emits (rt : Runtime Obj) {r : Nat} {region : Region}
    (hfirm : ThrowsReferences cx.types)
    (h : emitTests r region cx s = .ok a t)
    (hpool : s.pool.Indexed) (hne : region.clauses ≠ []) (hhead : Headed s.frames.live.stack)
    (hentry : ∀ k, Entry cx (.dispatch r k) s.frames) :
    ∃ tests tail, Emits cx (tests ++ tail) s t ∧ Sealed t.code.body ∧
      (region.finalClause? = none →
        tail = [.bind (.dispatch r region.clauses.length), .instr .athrow]) ∧
      ∀ q, t.pool.PartOf q → Labelled (fun e => .dispatch r e.2)
        (fun e => Tries cx rt region q (.dispatch r (e.2 + 1)) e.1) region.clauses.zipIdx
        tests := by
  obtain ⟨_, u₁, hsave, hrest⟩ := lower_bind_ok h
  obtain ⟨_, u₂, htests, hrest⟩ := lower_bind_ok hrest
  obtain ⟨hsaves, hstack⟩ := forM_save_appends hsave fun k _ _ => hhead
  have hround : ∀ e ∈ region.clauses.zipIdx, ∀ s t u, Testing cx r s → s.pool.Indexed →
      tryClause r region e.2 e.1 cx s = .ok u t →
      ∃ block, Emits cx (.bind (.dispatch r e.2) :: block) s t ∧
        ((∀ k, Entry cx (.dispatch r k) t.frames) ∧ t.reachable = false ∧ Sealed t.code.body) ∧
        ∀ q, t.pool.PartOf q → Tries cx rt region q (.dispatch r (e.2 + 1)) e.1 block :=
    fun e _ s t u htesting hpool hrun => tryClause_emits rt hfirm hrun hpool htesting
  obtain ⟨tests, hemits, hend, hlabelled⟩ := forM_emits hround
    (fun t ht => ⟨ht.1, fun hgoes => by cases hgoes.symm.trans ht.2.1⟩)
    ⟨fun k => hsaves.entries _ (hentry k), fun _ => hstack ▸ hhead⟩ (hsaves.indexed hpool) htests
  obtain ⟨hentry₂, hreach₂, hsealed₂⟩ := hend (List.zipIdx_eq_nil_iff.not.mpr hne)
  have hall := hsaves.toEmits.trans hemits
  have hpos := List.length_pos_of_ne_nil hne
  cases hfinal : region.finalClause? with
  | some found =>
    rw [lastTest, hfinal, Option.isSome_some, if_pos rfl, if_neg (by omega)] at hrest
    cases hrest
    refine ⟨tests, [], ?_, hsealed₂, fun hnone => ?_, hlabelled⟩
    · rw [List.append_nil]
      exact hall
    · cases hnone
  | none =>
    rw [lastTest, hfinal, Option.isSome_none, if_neg Bool.false_ne_true, if_pos rfl] at hrest
    obtain ⟨_, u₃, hbind, hthrow⟩ := lower_bind_ok hrest
    obtain ⟨hbinds, -⟩ := bindLabel_emits hbind (hentry₂ _) fun hgoes => by
      cases hgoes.symm.trans hreach₂
    obtain ⟨hthrows, -⟩ := throwTop_closes hthrow
    have htail := hbinds.trans hthrows.toEmits
    refine ⟨tests, _, hall.trans htail, hthrows.isSealed, fun _ => rfl, fun q hq => ?_⟩
    exact hlabelled q (htail.partOf (hall.indexed hpool) hq)

private theorem emitDispatch_emits (rt : Runtime Obj) {r : Nat} {region : Region}
    (hfirm : ThrowsReferences cx.types)
    (h : emitDispatch r cx s = .ok a t) (hpool : s.pool.Indexed)
    (hget : cx.regions.regions[r]? = some region) (hne : region.clauses ≠ [])
    (hhandler : Entry cx (.handler r) s.frames) (htests : ∀ k, Entry cx (.dispatch r k) s.frames) :
    ∃ mapping tests tail, Emits cx (.bind (.handler r) :: (mapping ++ tests ++ tail)) s t ∧
      Sealed t.code.body ∧
      ∀ q, t.pool.PartOf q → Dispatching cx rt r region q mapping tests tail := by
  have hrest := get_bind_ok (read_bind_ok h)
  split at hrest
  · cases hrest
  · next hreach =>
    obtain ⟨region', hregion', hrest⟩ := lift_bind_ok hrest
    cases hget.symm.trans (RegionTree.getElem?_of_get hregion')
    obtain ⟨_, u₁, hbind, hrest⟩ := lower_bind_ok hrest
    obtain ⟨hbinds, hreach₁, -, hhead₁, -⟩ := bindLabel_emits hbind hhandler fun hgoes =>
      absurd hgoes hreach
    have hentry₁ := fun k => hbinds.entries _ (htests k)
    have hindexed₁ := hbinds.indexed hpool
    cases hmaps : region.clauses.head?.any isFinal with
    | true =>
      rw [hmaps] at hrest
      obtain ⟨tests, tail, hemits, hsealed, htail, hlabelled⟩ := emitTests_emits rt hfirm
        hrest hindexed₁ hne (hhead₁ hfirm) hentry₁
      refine ⟨[], tests, tail, hbinds.trans hemits, hsealed, fun q hq =>
        ⟨fun x locals calls rest => ?_, hlabelled q hq, htail⟩⟩
      simp [thrown, mapping, maps, hmaps]
    | false =>
      rw [hmaps] at hrest
      obtain ⟨_, u₂, hmap, hrest⟩ := lower_bind_ok hrest
      obtain ⟨index, hmapping, ⟨below, hstack⟩, hmethod⟩ := mapException_appends hmap hindexed₁
      have hindexed₂ := hmapping.indexed hindexed₁
      obtain ⟨tests, tail, hemits, hsealed, htail, hlabelled⟩ := emitTests_emits rt hfirm
        hrest hindexed₂ hne ⟨_, _, hstack, hfirm.throwable⟩
        fun k => hmapping.entries _ (hentry₁ k)
      refine ⟨[.instr (.invokeStatic index)], tests, tail,
        hbinds.trans (hmapping.toEmits.trans hemits), hsealed, fun q hq =>
        ⟨fun x locals calls rest => ?_, hlabelled q hq, htail⟩⟩
      have hmapper := hmethod q (hemits.partOf hindexed₂ hq)
      simp only [thrown, mapping, maps, hmaps]
      exact exit?_instr (exec_mapper hmapper)

end Handlers

-- ==== its executions

section Executions

variable {rt : Runtime Obj} {cx : Context} {r : Nat} {region : Region} {q : Pool}
  {mapping tests tail front back : List Item} {code : CodeBuffer} {asm : Assembly} {k : Nat}
  {clause : Clause} (h : Dispatching cx rt r region q mapping tests tail)
  (hasm : code.assemble = .ok asm)
  (hitems : code.items = front ++ (.bind (.handler r) :: (mapping ++ tests ++ tail)) ++ back)
  (x : Obj) (locals : Nat → Option (Value Obj)) (calls : List (Call Obj))
include h hasm hitems

/-- The test of each clause goes where the clause says. -/
theorem Dispatching.leads_test (hclause : region.clauses[k]? = some clause) :
    LeadsTo cx.config rt q asm (.dispatch r k) ⟨[.object x], locals, calls⟩
      (if clause.takes cx.types cx.config rt x then
        .arrives (.source clause.start)
          (region.entered clause x locals (calls ++ clause.inquiries x))
      else .arrives (.dispatch r (k + 1)) ⟨[.object x], locals, calls ++ clause.inquiries x⟩) := by
  have hmem : (clause, k) ∈ region.clauses.zipIdx := List.mk_mem_zipIdx_iff_getElem?.mpr hclause
  obtain ⟨pre, block, post, rfl, hblock⟩ := h.tests.exists_block hmem
  have hplace : code.items = (front ++ .bind (.handler r) :: (mapping ++ pre))
      ++ (.bind (.dispatch r k) :: block ++ (post ++ tail ++ back)) := by
    rw [hitems]
    simp only [List.append_assoc, List.cons_append]
  exact leads_of_exit hasm hplace (hblock x locals calls)

/-- A handler comes to a test once the clauses before it have not taken the exception. -/
theorem Dispatching.leads_to (hne : region.clauses ≠ []) (hk : k ≤ region.clauses.length)
    (hpassed : ∀ c ∈ region.clauses.take k,
      c.takes cx.types cx.config rt (region.thrown rt x) = false) :
    LeadsTo cx.config rt q asm (.handler r) ⟨[.object x], locals, calls⟩
      (.arrives (.dispatch r k) ⟨[.object (region.thrown rt x)], locals, calls ++
        (region.mapping x ++ (region.clauses.take k).flatMap
          (inquiries (region.thrown rt x)))⟩) := by
  induction k with
  | zero =>
    -- the first test is behind the mapping
    obtain ⟨rest, hrest⟩ : ∃ rest, tests = .bind (.dispatch r 0) :: rest := by
      have htests := h.tests
      obtain ⟨clause, clauses, hclauses⟩ := List.exists_cons_of_ne_nil hne
      rw [hclauses, List.zipIdx_cons] at htests
      cases htests
      exact ⟨_, rfl⟩
    have hmaps := h.maps x locals calls (.bind (.dispatch r 0) :: (rest ++ tail))
    rw [List.append_assoc] at hitems
    refine leads_of_exit hasm hitems ?_
    rw [List.append_assoc, hrest]
    refine hmaps.trans ?_
    rw [List.take_zero, List.flatMap_nil, List.append_nil]
    rfl
  | succ k ih =>
    have hlt : k < region.clauses.length := hk
    have htake : region.clauses.take (k + 1) = region.clauses.take k ++ [region.clauses[k]] :=
      List.take_succ_eq_append_getElem hlt
    have hleads := ih (Nat.le_of_lt hlt) fun c hc => hpassed c (htake ▸ List.mem_append_left _ hc)
    have htest := h.leads_test hasm hitems (region.thrown rt x) locals
      (calls ++ (region.mapping x ++ (region.clauses.take k).flatMap
        (inquiries (region.thrown rt x)))) (List.getElem?_eq_getElem hlt)
    have hnot := hpassed _ (htake ▸ List.mem_append_right _ (.head _))
    rw [if_neg (by rw [hnot]; decide)] at htest
    rw [htake, List.flatMap_append, List.flatMap_singleton]
    simpa only [List.append_assoc] using hleads.trans htest

/-- A handler goes to the first clause that takes the exception. -/
theorem Dispatching.leads_clause (hclause : region.clauses[k]? = some clause)
    (htakes : clause.takes cx.types cx.config rt (region.thrown rt x) = true)
    (hpassed : ∀ c ∈ region.clauses.take k,
      c.takes cx.types cx.config rt (region.thrown rt x) = false) :
    LeadsTo cx.config rt q asm (.handler r) ⟨[.object x], locals, calls⟩
      (.arrives (.source clause.start) (region.entered clause (region.thrown rt x) locals (calls ++
        (region.mapping x ++ (region.clauses.take (k + 1)).flatMap
          (inquiries (region.thrown rt x)))))) := by
  obtain ⟨hlt, hget⟩ := List.getElem?_eq_some_iff.mp hclause
  have hleads := h.leads_to hasm hitems x locals calls
    (List.ne_nil_of_length_pos (Nat.zero_lt_of_lt hlt)) (Nat.le_of_lt hlt) hpassed
  have htest := h.leads_test hasm hitems (region.thrown rt x) locals
    (calls ++ (region.mapping x ++ (region.clauses.take k).flatMap
      (inquiries (region.thrown rt x)))) hclause
  rw [if_pos htakes] at htest
  rw [List.take_succ_eq_append_getElem hlt, List.flatMap_append, List.flatMap_singleton, hget]
  simpa only [List.append_assoc] using hleads.trans htest

/-- A handler throws what no clause takes. -/
theorem Dispatching.leads_throw (hne : region.clauses ≠ [])
    (hpassed : ∀ c ∈ region.clauses,
      c.takes cx.types cx.config rt (region.thrown rt x) = false) :
    LeadsTo cx.config rt q asm (.handler r) ⟨[.object x], locals, calls⟩
      (.throws (region.thrown rt x) (calls ++ (region.mapping x ++ region.clauses.flatMap
          (inquiries (region.thrown rt x))))) := by
  have hleads := h.leads_to hasm hitems x locals calls hne (Nat.le_refl _)
    fun c hc => hpassed c (List.mem_of_mem_take hc)
  rw [List.take_length] at hleads
  have hfinal : region.finalClause? = none := by
    unfold finalClause?
    split
    · next c hlast =>
      rw [if_neg]
      intro hfinal
      cases (takes_of_isFinal hfinal).symm.trans (hpassed c (List.mem_of_getLast? hlast))
    · rfl
  have htail := h.throws hfinal
  have hplace : code.items = (front ++ .bind (.handler r) :: (mapping ++ tests))
      ++ (.bind (.dispatch r region.clauses.length) :: [.instr .athrow] ++ back) := by
    rw [hitems, htail]
    simp only [List.append_assoc, List.cons_append, List.nil_append]
  exact hleads.trans (leads_of_exit hasm hplace exit?_athrow)

end Executions

-- ==== in a run

/-- A label of the handler of a region. -/
def HandlerLabel (r : Nat) : Label → Prop
  | .handler q | .dispatch q _ => q = r
  | .source _ | .filterReject _ _ | .resume _ _ | .synthetic _ => False

/-- The scope that leaves out the saves at a label. -/
def Scope.besides (label : Label) : Scope :=
  { Scope.all with saves := (· ≠ label) }

section Runs

variable {cx : Context} {s t : LowerState} {r : Nat} {label : Label} {a : Unit}

theorem HandlerLabel.source_ne (h : HandlerLabel r label) (o : Nat) : .source o ≠ label := by
  rintro rfl
  exact h

theorem Backed.besides (h : Backed cx .all s) (hlabel : HandlerLabel r label) :
    Backed cx (.besides label) s := by
  refine ⟨h.kept, h.fits, h.made, h.thin, h.slender, ?_, fun _ _ _ => trivial⟩
  rintro - other hnumbered rfl
  cases other with
  | resume _ _ | synthetic _ => exact hlabel
  | _ => cases hnumbered

/-- Only the handler of a region is entered with saves at its labels. -/
theorem Entry.enter (hprepared : Prepared cx) (hback : Backed cx .all s)
    (hlabel : HandlerLabel r label)
    (hother : ∀ q, cx.regions.handlerAt? cx.current = some q → q ≠ r)
    (h : enter cx.current cx s = .ok a t) (hentry : Entry cx label s.frames) :
    Entry cx label t.frames := by
  have hsource := hlabel.source_ne
  have hdispatches : ∀ q, cx.regions.handlerAt? cx.current = some q →
      Dispatches cx (.besides label) q := by
    intro q hq
    refine ⟨⟨?_, trivial⟩, fun k => ⟨?_, trivial⟩, fun _ _ _ _ => hsource _, trivial⟩
    · rintro rfl
      exact hother q hq hlabel
    · rintro rfl
      exact hother q hq hlabel
  obtain ⟨s₁, s₂, p, hsteps, hhandler, harrival, hsaves⟩ :=
    enter_ok hprepared (hback.besides hlabel) hdispatches [] h
  obtain ⟨p', hsteps'⟩ : ∃ p', StepsIn cx (.besides label) (s₁, p) (s₂, p') :=
    harrival.stepsIn hhandler ⟨hsource _, trivial⟩ p
  have harrived := (hentry.steps hsteps fun hne => hne rfl).steps hsteps' fun hne => hne rfl
  exact harrived.handlerSaves hsaves

/-- An operation in front of the handler of a region saves at its labels what they are
entered with. -/
theorem Entry.lowerOp (hprepared : Prepared cx) {op : Op} (hop : (cx.current, op) ∈ cx.body.code)
    (hstanding : Standing cx s) (hlabel : HandlerLabel r label)
    (hfilter : ∀ site, cx.regions.filterAt cx.current = .ok site → site.regionIndex ≠ r)
    (h : lowerOp cx.current op cx s = .ok a t) (hentry : Entry cx label s.frames) :
    Entry cx label t.frames := by
  have hsource := hlabel.source_ne
  by_cases hleave : ∃ target, op = .leave target
  · obtain ⟨target, rfl⟩ := hleave
    obtain ⟨_, hcloses, -⟩ := leave_closes (default : Runtime Unit) h
      hstanding.linked.indexed
    exact hcloses.entries label hentry
  · by_cases hfinal : op = .endFinally
    · subst hfinal
      obtain ⟨_, _, _, -, hemits, -⟩ := endFinally_emits (default : Runtime Unit) h hstanding
      exact hemits.entries label hentry
    · have hadmits : Admits cx (.besides label) op := by
        refine ⟨fun _ _ => trivial, fun _ _ _ _ => trivial, fun _ _ => hsource _,
          fun _ _ _ _ => hsource _, fun target heq => absurd ⟨target, heq⟩ hleave,
          fun heq => absurd heq hfinal,
          fun _ site hsite => ⟨hsource _, ?_, ⟨?_, trivial⟩, trivial⟩, fun _ => trivial⟩
        · rintro rfl
          exact hfilter site hsite hlabel
        · rintro rfl
          exact hlabel
      obtain ⟨⟨p, hsteps⟩, -⟩ := runs_lowerOp hprepared hop hadmits s a t []
        (hstanding.backed.besides hlabel) trivial h
      exact hentry.steps hsteps fun hne => hne rfl

/-- The condition of a filter is behind the handler of its region. -/
private theorem handlerOffset_le_of_filterAt {tree : RegionTree} (hlam : Laminar tree.regions)
    (hfilters : ∀ r ∈ tree.regions, ∀ c ∈ r.clauses, ∀ condition,
      c.kind = .filtered condition → c.start = condition)
    {o : Nat} {site : ClauseSite} (h : tree.filterAt o = .ok site) :
    tree.regions[site.regionIndex]? = some site.region ∧ site.region.handlerOffset ≤ o := by
  have hfinds := RegionTree.finds_filterAt hlam hfilters o
  rw [h] at hfinds
  obtain ⟨⟨hhas, hclause⟩, hdecides, -⟩ := hfinds
  have hregion := List.mem_of_getElem? hhas
  have hmem := List.mem_of_getElem? hclause
  have hle := (hlam.sound _ hregion).handlerOffset_le hmem
  refine ⟨hhas, ?_⟩
  change site.clause.decides o = true at hdecides
  unfold decides at hdecides
  split at hdecides
  · next condition hkind =>
    have hstart := hfilters _ hregion _ hmem condition hkind
    simp only [Bool.and_eq_true, decide_eq_true_eq] at hdecides
    omega
  · cases hdecides

end Runs

section Visits

variable {config : Config} {T : TypeTable} {pool : Pool} {body : Body} {m : Method}
  {e : Nat × Op} {cx : Context} {start before entry after final s : LowerState} {r : Nat}
  {region : Region}

/-- When its handler is reached, the labels of a region have frames they are entered with. -/
theorem Visit.entryAtHandler (h : Visit config T pool body e cx start before entry after final)
    (hpool : pool.Indexed) (hordered : body.code.Pairwise fun a b => a.1 < b.1)
    (he : e ∈ body.code) (hregion : cx.regions.regions[r]? = some region)
    (hoffset : region.handlerOffset = e.1) {label : Label} (hlabel : HandlerLabel r label) :
    Entry cx label before.frames := by
  obtain ⟨-, rfl, hstarted⟩ := h.started
  obtain ⟨_, _, hbuild⟩ := build_of_prepare h.prepared
  refine h.reached_induction hordered he
    (I := fun o s => o ≤ region.handlerOffset → Entry cx label s.frames)
    (fun _ _ _ _ f hf => ?_) (fun d hd before entry after hvisit hbefore o hnext hle => ?_)
    (Nat.le_of_eq hoffset.symm)
  · cases (hstarted.frameOf_eq_none label).symm.trans hf
  -- neither the handler nor a filter of the region is at an operation in front
  have hlt : d.1 < region.handlerOffset :=
    Nat.lt_of_lt_of_le (Body.following_spec hordered hd hnext).1 hle
  have hother : ∀ q, cx.regions.handlerAt? d.1 = some q → q ≠ r := by
    rintro q hq rfl
    exact Nat.ne_of_gt hlt (RegionTree.handlerOffset_of_handlerAt? hq hregion)
  have hfilter : ∀ site, cx.regions.filterAt d.1 = .ok site → site.regionIndex ≠ r := by
    rintro site hsite rfl
    obtain ⟨hhas, hfilter⟩ := handlerOffset_le_of_filterAt hstarted.prepared.laminar
      (RegionTree.start_of_filtered_build hbuild) hsite
    cases hregion.symm.trans hhas
    exact Nat.not_lt.mpr hfilter hlt
  have hentered : Entry (cx.atOffset d.1) label entry.frames :=
    .enter hvisit.ready (backed_atOffset.mpr hvisit.backed) hlabel hother hvisit.enters
      (hbefore (Nat.le_of_lt hlt))
  have hlowered : Entry (cx.atOffset d.1) label after.frames :=
    .lowerOp hvisit.ready hd (standing_atOffset.mpr (hvisit.standingEntry hpool)) hlabel hfilter
      hvisit.lowers hentered
  exact hlowered

/-- The handler of a region is in the finished code. -/
theorem Visit.dispatching {Obj : Type} (rt : Runtime Obj)
    (h : Visit config T pool body e cx start before entry after final)
    (hfinish : finish body.targetName cx final = .ok m s) (hfirm : ThrowsReferences T)
    (hpool : pool.Indexed) (hordered : body.code.Pairwise fun a b => a.1 < b.1)
    (he : e ∈ body.code) (hregion : cx.regions.regions[r]? = some region)
    (hoffset : region.handlerOffset = e.1) :
    ∃ mapping tests tail front back,
      final.code.items = front ++ (.bind (.handler r) :: (mapping ++ tests ++ tail)) ++ back ∧
      ∀ q, (lowerMethod config T pool body).pool.PartOf q →
        Dispatching cx rt r region q mapping tests tail := by
  obtain ⟨rfl, hbody, hstarted⟩ := h.started
  have hstanding : Standing (cx.atOffset e.1) before := standing_atOffset.mpr (h.standing hpool)
  have hhandler : cx.regions.handlerAt? e.1 = some r :=
    hoffset ▸ hstarted.prepared.laminar.handlerAt? hregion
  have hne := (hstarted.prepared.laminar.sound region (List.mem_of_getElem? hregion)).nonempty
  have hentry : ∀ label, HandlerLabel r label → Entry (cx.atOffset e.1) label before.frames :=
    fun _ => h.entryAtHandler hpool hordered he hregion hoffset
  have hthrown : ThrowsReferences (cx.atOffset e.1).types := hfirm
  obtain ⟨u, hdispatch, harrive⟩ := h.handled hhandler
  obtain ⟨mapping, tests, tail, hemits, hsealed, hdispatching⟩ := emitDispatch_emits rt
    hthrown hdispatch hstanding.linked.indexed hregion hne (hentry (.handler r) rfl)
    fun k => hentry (.dispatch r k) rfl
  -- nothing of it is taken back while the operation is lowered
  have hdoes := does_emitDispatch (I := fun _ => True) h.ready hhandler
    ((enters_all _).handler r hhandler) lasting_true fun _ _ _ _ _ => trivial
  obtain ⟨hu, -⟩ := hstanding.runs hdoes.runs (proper_emitDispatch r) hdispatch
  obtain ⟨-, hreach, -⟩ := hdoes before _ u [] hstanding.backed trivial hdispatch
  obtain ⟨v, harrival, hsaves⟩ := arrive_ok harrive
  obtain ⟨p₁, hsteps₁⟩ := harrival.steps (.inr hreach) []
  obtain ⟨p₂, hsteps₂⟩ := hsaves.steps p₁
  obtain ⟨-, hpart₁, -⟩ := proper_arrive.links trivial u _ entry hu.linked (.refl _) harrive
  obtain ⟨p₃, _, hsteps₃, -⟩ := h.stepsLower he p₂
  obtain ⟨-, hpart₂⟩ := (h.standingEntry hpool).lowerOp hstarted.prepared (hbody ▸ he) h.lowers
  have hafter := suffix_of_steps hsealed List.suffix_rfl ((hsteps₁.trans hsteps₂).trans hsteps₃)
  obtain ⟨hfinal, hpart₃⟩ := h.stays hpool he hfinish hsealed hafter
  rw [hemits.body] at hfinal
  obtain ⟨front, back, hitems⟩ := items_of_suffix hfinal
  refine ⟨mapping, tests, tail, front, back, hitems, fun q hq => ?_⟩
  have hfound := hdispatching q ((hpart₁.trans hpart₂).trans (hpart₃.trans hq))
  exact ⟨hfound.maps, hfound.tests, hfound.throws⟩

/-- The handler of a region is in front of an operation. -/
theorem Tabled.exists_handled {asm : Assembly} {rows : List ExceptionEntry}
    (h : Tabled config T pool body m cx s asm rows)
    (hregion : cx.regions.regions[r]? = some region) :
    ∃ e ∈ body.code, region.handlerOffset = e.1 := by
  obtain ⟨start, hprepare, hlower⟩ := h.lowered
  obtain ⟨-, -, rfl, hstarted⟩ := prepare_ok hprepare
  obtain ⟨items, l, hwide, hassembled⟩ := CodeBuffer.assemble_ok h.assembled
  have hlt : r < rows.length := h.length ▸ (List.getElem?_eq_some_iff.mp hregion).1
  have hrow := h.row r region _ hregion (List.getElem?_eq_getElem hlt)
  have hmark := hassembled.mem_marks hrow.handler rfl
  rw [marks_widens hwide, marks_of_lowerAll hstarted hlower h.assembled, List.mem_flatMap] at hmark
  obtain ⟨e, he, hmark⟩ := hmark
  change _ ∈ marksOf (cx.atOffset e.1).regions (cx.atOffset e.1).current at hmark
  exact ⟨e, he, RegionTree.handlerOffset_of_handlerAt? ((mem_marksOf rfl).mp hmark) hregion⟩

end Visits

-- ==== the dispatch

/-- A handler takes the first clause that matches, if the offsets ascend. Entered with an
exception on the stack, it maps the exception once, unless its first clause is final, asks
the clauses in order, and goes to the first that takes the exception, with the exception
where that clause looks for it; what no clause takes is thrown. No other call is made on the
way. -/
theorem dispatch_takes_first {config : Config} {T : TypeTable} {pool p : Pool} {body : Body}
    {m : Method} (hT : T.Built config) (hproper : T.Proper) (hpool : pool.Indexed)
    (hordered : body.code.Pairwise fun a b => a.1 < b.1)
    (h : (lowerMethod config T pool body).result = .ok m)
    (hp : (lowerMethod config T pool body).pool.PartOf p) :
    ∃ cx s asm rows, Tabled config T pool body m cx s asm rows ∧
      ∀ r region, cx.regions.regions[r]? = some region →
      ∀ (Obj : Type) (rt : Runtime Obj) (x : Obj) (locals : Nat → Option (Value Obj))
        (calls : List (Call Obj)),
        (∀ k clause, region.clauses[k]? = some clause →
          clause.takes T config rt (region.thrown rt x) = true →
          (∀ c ∈ region.clauses.take k, c.takes T config rt (region.thrown rt x) = false) →
          LeadsTo config rt p asm (.handler r) ⟨[.object x], locals, calls⟩
            (.arrives (.source clause.start) (region.entered clause (region.thrown rt x) locals
              (calls ++ (region.mapping x ++ (region.clauses.take (k + 1)).flatMap
                (Clause.inquiries (region.thrown rt x))))))) ∧
        ((∀ c ∈ region.clauses, c.takes T config rt (region.thrown rt x) = false) →
          LeadsTo config rt p asm (.handler r) ⟨[.object x], locals, calls⟩
            (.throws (region.thrown rt x) (calls ++ (region.mapping x ++
              region.clauses.flatMap (Clause.inquiries (region.thrown rt x)))))) := by
  obtain ⟨cx, s, asm, rows, htabled⟩ := exists_tabled h
  have hfirm : ThrowsReferences T := ⟨hproper, by rw [hT.equipped.throwable]; rfl⟩
  refine ⟨cx, s, asm, rows, htabled, fun r region hregion Obj rt x locals calls => ?_⟩
  obtain ⟨e, he, hoffset⟩ := htabled.exists_handled hregion
  obtain ⟨start₀, hprepare, hlower⟩ := htabled.lowered
  obtain ⟨cx', start, before, entry, after, final, hvisit, u, hfinish⟩ := exists_visit h hordered he
  cases hprepare.symm.trans hvisit.prepared
  cases hlower.symm.trans hvisit.completed
  obtain ⟨mapping, tests, tail, front, back, hitems, hdispatching⟩ := hvisit.dispatching rt hfinish
    hfirm hpool hordered he hregion hoffset
  have hne := (htabled.laminar.sound region (List.mem_of_getElem? hregion)).nonempty
  obtain ⟨rfl, rfl, -⟩ := prepare_ok hprepare
  have hcode := hdispatching p hp
  exact ⟨fun k clause hclause htakes hpassed =>
      hcode.leads_clause htabled.assembled hitems x locals calls hclause htakes hpassed,
    hcode.leads_throw htabled.assembled hitems x locals calls hne⟩

theorem proper_shortNames : (TypeTable.ofConfig shortNames).Proper :=
  TypeTable.proper_of_classes (by decide)

/-- In `catchThenFinally` the catch clause takes what its handler is entered with, once it
is mapped. -/
theorem dispatch_takes_first_catchThenFinally :
    ∃ m cx s asm rows,
      (lowerMethod shortNames (.ofConfig shortNames) .empty catchThenFinally).result = .ok m ∧
      Tabled shortNames (.ofConfig shortNames) .empty catchThenFinally m cx s asm rows ∧
      ∀ (Obj : Type) (rt : Runtime Obj) (x : Obj) (locals : Nat → Option (Value Obj)),
        LeadsTo shortNames rt
          (lowerMethod shortNames (.ofConfig shortNames) .empty catchThenFinally).pool asm
          (.handler 0) ⟨[.object x], locals, []⟩
          (.arrives (.source 2) ⟨[.object (rt.mapped x)], locals, [.mapper x]⟩) := by
  obtain ⟨m, hm⟩ := exists_of_surveyed surveyed_catchThenFinally
  obtain ⟨cx, s, asm, rows, htabled, hdispatch⟩ := dispatch_takes_first .start proper_shortNames
    Pool.indexed_empty (by decide) hm (.refl _)
  obtain ⟨hregions, -⟩ := htabled.eq_of_surveyed surveyed_catchThenFinally
  refine ⟨m, cx, s, asm, rows, hm, htabled, fun Obj rt x locals => ?_⟩
  exact (hdispatch 0 _ (congrArg (·[0]?) hregions) Obj rt x locals []).1 0 _ rfl rfl nofun

-- ==== primitive supertypes

/-- Types in which exceptions and sentinels have a primitive supertype. -/
def mixedBases : TypeTable :=
  ((TypeTable.ofConfig shortNames).declareClass "T" (some (.prim .int32)) []).declareClass "L"
    (some (.prim .int32)) []

/-- A leave through a finally clause that has a protected range in it. -/
def leavesPastThrow : Body where
  owner := .ref "Guard"
  name := "run"
  kind := .static
  params := []
  locals := []
  returns := none
  code := [(0, .leave 4), (1, .loadNull), (2, .throw), (3, .endFinally), (4, .ret)]
  handlers :=
    [{ kind := .cleanup, tryStart := 0, tryStop := 1, handlerStart := 1, handlerStop := 4,
       catchType := none, filterStart := none },
     { kind := .fault, tryStart := 1, tryStop := 3, handlerStart := 3, handlerStop := 4,
       catchType := none, filterStart := none }]

/-- The regions of a body, and its code, if its lowering completes. -/
def drafted (config : Config) (T : TypeTable) (pool : Pool) (body : Body) :
    Option (List Region × List Item) :=
  (previewedFrom config T pool body).map fun p =>
    (p.context.regions.regions, p.state.code.items)

private theorem exists_of_drafted {config : Config} {T : TypeTable} {pool : Pool} {body : Body}
    {regions : List Region} {items : List Item}
    (h : drafted config T pool body = some (regions, items)) :
    ∃ m cx s asm rows, (lowerMethod config T pool body).result = .ok m ∧
      Tabled config T pool body m cx s asm rows ∧ cx.regions.regions = regions ∧
      s.code.items = items := by
  obtain ⟨p, hp, heq⟩ := Option.map_eq_some_iff.mp h
  obtain ⟨m, frames, hm, hprepare, hlower, hfinished, -⟩ := exists_of_previewedFrom hp
  obtain ⟨rows, htabled⟩ := tabled_of_finished hprepare hlower hfinished
  obtain ⟨hregions, hitems⟩ := Prod.mk.inj heq
  exact ⟨m, p.context, p.state, p.asm, rows, hm, htabled, hregions, hitems⟩

private theorem drafted_leavesPastThrow :
    drafted shortNames mixedBases .empty leavesPastThrow = some
      ([{ start := 1, stop := 3,
          clauses := [{ kind := .fault, start := 3, stop := 4, handlerStart := 3 }] },
        { start := 0, stop := 1,
          clauses := [{ kind := .cleanup, start := 1, stop := 4, handlerStart := 1 }],
          leaveTargets := [4], finallySlot := some 0 }],
       [.bind (.source 0), .instr (.const .int 0), .instr (.invokeStatic 6),
        .branch (.goto 0) (.dispatch 1 0), .bind (.handler 1), .bind (.dispatch 1 0),
        .instr (.store (.num .int) (.short 0)), .branch (.goto 0) (.source 1),
        .bind (.source 1), .instr .constNull, .bind (.source 2), .instr .athrow,
        .bind (.handler 0), .bind (.dispatch 0 0), .branch (.goto 0) (.source 3),
        .bind (.source 3), .instr .athrow, .bind (.source 4), .instr .returnVoid]) := by
  cbv

/-- Where exceptions and sentinels have a primitive supertype, the handler of a finally
clause stores what it was entered with as a number, and no exception gets past that. -/
theorem dispatch_stops_leavesPastThrow :
    ∃ m cx s asm rows region clause,
      (lowerMethod shortNames mixedBases .empty leavesPastThrow).result = .ok m ∧
      Tabled shortNames mixedBases .empty leavesPastThrow m cx s asm rows ∧
      cx.regions.regions[1]? = some region ∧ region.clauses = [clause] ∧
      clause.kind = .cleanup ∧
      ∀ (Obj : Type) (rt : Runtime Obj) (p : Pool) (x : Obj) (locals : Nat → Option (Value Obj))
        (calls : List (Call Obj)),
        ¬ LeadsTo shortNames rt p asm (.handler 1) ⟨[.object x], locals, calls⟩
          (.arrives (.source clause.start)
            (region.entered clause (region.thrown rt x) locals calls)) := by
  obtain ⟨m, cx, s, asm, rows, hm, htabled, hregions, hitems⟩ :=
    exists_of_drafted drafted_leavesPastThrow
  refine ⟨m, cx, s, asm, rows, _, _, hm, htabled, congrArg (·[1]?) hregions, rfl, rfl, ?_⟩
  intro Obj rt p x locals calls hleads
  change s.code.items = [_, _, _, _] ++ [_, _] ++ _ :: _ at hitems
  have hsame := eq_of_leads htabled.assembled hitems rfl hleads
  cases congrArg State.stack hsame

end Lowering

end BytecodeBridge
