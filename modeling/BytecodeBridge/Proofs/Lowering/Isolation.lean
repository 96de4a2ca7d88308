/-
A method that fails is as good as absent.

Methods are lowered one after the other, each with the pool and the table
that the one before it left. A method that fails gives the pool back as it
found it, wherever it failed: a lowering only adds to the pool, and what
was added is undone. The table is not given back. But what a lowering
leaves in it no later lowering can tell (`run_alike`), so leaving out a
method that fails leaves every other method as it was, and so does leaving
out any number of them.
-/
import BytecodeBridge.Lowering.Method
import BytecodeBridge.Proofs.Evaluation
import BytecodeBridge.Proofs.Lowering.Linking

namespace BytecodeBridge

open TypeTable Lowering RegionTree

-- ==== preparation

section Regions

variable {T T' : TypeTable} (h : Alike T T')
include h

private theorem regionsOf_alike (body : Body) (config : Config) :
    regionsOf body T' config = regionsOf body T config := by
  have hclause : Handler.clause body T' config = Handler.clause body T config := by
    funext handler
    unfold Handler.clause Handler.clauseKind Handler.checkCatchType
    rw [h.className]
  unfold regionsOf
  rw [hclause]

private theorem build_alike (body : Body) (config : Config) :
    build body T' config = build body T config := by
  have hslot : Region.throwableSlot T' = Region.throwableSlot T := by
    unfold Region.throwableSlot
    rw [h.throwable]
  have hslots : Region.withSlots T' = Region.withSlots T := by
    funext all r
    unfold Region.withSlots
    rw [hslot]
  have hrethrow : withRethrow T' = withRethrow T := by
    funext t entry
    unfold withRethrow
    rw [hslot]
  unfold build
  rw [regionsOf_alike h, hslots, hrethrow]

end Regions

namespace Lowering

open LowerM

-- ==== methods

section Run

variable {cx : Context} {H : Prop} {p : Pool}

theorem proper_backfill : Proper cx H p backfill Any := by
  refine Proper.get.next fun s => ?_
  refine (proper_setFrames _).next fun _ => ?_
  split
  · exact proper_report _
  · exact .done

private theorem catchType_of_exceptionEntry? {labels : LabelMap Nat} {catchType r : Nat}
    {region : Region} {row : ExceptionEntry}
    (h : exceptionEntry? labels catchType r region = .ok (some row)) :
    row.catchType = catchType := by
  obtain ⟨startPc, -, h⟩ := except_bind_ok h
  obtain ⟨stopPc, -, h⟩ := except_bind_ok h
  obtain ⟨handlerPc, -, h⟩ := except_bind_ok h
  replace h := except_pure_ok h
  split at h
  · cases h
    rfl
  · cases h

/-- All operands of a finished method are good in the pool it leaves. -/
theorem proper_finish (name : String) :
    Proper cx H p (finish name) fun m q => q.HoldsAll m.operands := by
  refine .read_bind (fun T hT _ => ?_) ?_
  · simp only [resolveMakes_alike hT, resolve_alike hT, ofFrame_alike hT, hT.descriptor]
  refine proper_backfill.next fun _ => Proper.get.bind fun s q₀ => ?_
  refine (Proper.lift _).bind fun asm q₁ => ?_
  refine Proper.next (.makes (fun _ => (s.frames.resolveMakes cx.types asm.labels).reverse)
    (fun _ => rfl) (fun _ => rfl) (fun _ => rfl) fun _ t ht => ?_) fun _ => ?_
  · exact s.frames.resolveMakes_harmless cx.config cx.types asm.labels t (List.mem_reverse.mp ht)
  refine (Proper.lift _).next fun frames => (Proper.lift _).next fun _ => ?_
  refine (Proper.onPool (Serves.mapM (fun _ _ _ hpart he => he.mono hpart)
    fun e _ => StackMapEntry.serves_ofFrame _ _ _)).bind fun stackMap q₂ => ?_
  refine (Proper.onPool (Pool.serves_classRef _)).bind fun catchType q₃ => ?_
  refine (Proper.mapM (φ := fun e => ∀ row, e = some row → row.catchType = catchType)
    fun e _ => (Proper.lift _).weaken fun entry _ hentry row hrow => ?_).bind
    fun exceptions q₄ => ?_
  · subst hrow
    exact catchType_of_exceptionEntry? hentry
  refine (Proper.mapM (φ := fun _ => True) fun e _ => (Proper.lift _).next
    fun _ => .done).next fun locals => .pure fun h q₅ hq₅ o ho => ?_
  obtain ⟨⟨⟨⟨⟨-, -, hcode⟩, hq₁, hasm⟩, hq₂, hstackMap⟩, hq₃, hcatch⟩, hq₄, hexceptions⟩ := h
  rcases List.mem_append.mp ho with ho | ho
  · rcases List.mem_append.mp ho with ho | ho
    · obtain ⟨e, he, ho⟩ := List.mem_filterMap.mp ho
      exact ((hcode.mono hq₁).assemble hasm e he o ho).mono
        (hq₂.trans (hq₃.trans (hq₄.trans hq₅)))
    · obtain ⟨e, he, ho⟩ := List.mem_flatMap.mp ho
      exact (hstackMap e he o ho).mono (hq₃.trans (hq₄.trans hq₅))
  · obtain ⟨e, he, rfl⟩ := List.mem_map.mp ho
    obtain ⟨_, hentry, rfl⟩ := List.mem_filterMap.mp he
    have hholds := hcatch.mono (hq₄.trans hq₅)
    rwa [← hexceptions _ hentry e rfl] at hholds

theorem proper_body (cx : Context) (body : Body) :
    Proper cx True .empty (lowerAll body.code >>= fun _ => finish body.targetName)
      fun m q => q.HoldsAll m.operands := by
  refine Proper.next (M := Any) ?_ fun _ => proper_finish _
  refine (Proper.forM fun e _ => proper_lowerAt e.1 e.2).next fun _ => Proper.get.next fun s => ?_
  split
  · exact .throw
  · exact .done

theorem shares_finish (name : String) : Shares cx (finish name) :=
  (proper_finish (H := True) (p := .empty) name).toShares

theorem shares_body (cx : Context) (body : Body) :
    Shares cx (lowerAll body.code >>= fun _ => finish body.targetName) :=
  (proper_body cx body).toShares

/-- A lowering, with its preparation written out. -/
theorem run_eq (config : Config) (T : TypeTable) (body : Body) :
    run config T body = (do
      let p ← LowerState.onSlots (layoutSlots config T body)
      modify fun s =>
        { s with
          frames := .start { locals := p.1 }
          events := .foundRegions p.2.size p.2.leaveCount :: s.events }
      let targets ← liftM (allTargets body)
      (lowerAll body.code >>= fun _ => finish body.targetName)
        { config, types := T, body, regions := p.2, targets }) := by
  unfold run prepare
  simp only [bind_assoc, pure_bind]
  rfl

theorem adding_run (config : Config) (T : TypeTable) (body : Body) :
    Adding config (run config T body) := by
  rw [run_eq]
  refine (Adding.onSlots _).bind fun p => .bind (fun s => .of_eq rfl rfl) fun _ => ?_
  exact (Adding.lift _).bind fun targets =>
    (shares_body { config, types := T, body, regions := p.2, targets } body).adds

private theorem run_alike {T T' : TypeTable} (h : Alike T T') (config : Config) (body : Body) :
    run config T' body = run config T body := by
  rw [run_eq, run_eq, layoutSlots, layoutSlots, build_alike h]
  congr 1
  funext p
  congr 1
  funext _
  congr 1
  funext targets
  exact (shares_body { config, types := T, body, regions := p.2, targets } body).blind h
    body.handlers

end Run

end Lowering

-- ==== failed methods

section Methods

variable {config : Config} {T : TypeTable}

theorem rollback_of_failed {pool : Pool} {body : Body} {cause : Cause} {s : LowerState}
    (h : run config T body (initial pool body) = .error cause s) :
    s.pool.rollback pool.checkpoint = pool := by
  have hadds := adding_run config T body (initial pool body)
  rw [h] at hadds
  exact Pool.rollback_of_grows hadds.pool

/-- A method that fails leaves the pool that its lowering came to, cut back. -/
theorem exists_failed {pool : Pool} {body : Body} {e : Error}
    (h : (lowerMethod config T pool body).result = .error e) :
    ∃ cause s, run config T body (initial pool body) = .error cause s ∧
      (lowerMethod config T pool body).pool = s.pool.rollback pool.checkpoint := by
  unfold lowerMethod at h ⊢
  cases hrun : run config T body (initial pool body) with
  | ok m s =>
    rw [hrun] at h
    cases h
  | error cause s => exact ⟨cause, s, rfl, rfl⟩

/-- A method that fails leaves the pool as it was: the entries and their indices, and
with them the count, and what the index answers for any constant. -/
theorem pool_of_error (config : Config) (T : TypeTable) (pool : Pool) (body : Body) {e : Error}
    (h : (lowerMethod config T pool body).result = .error e) :
    (lowerMethod config T pool body).pool = pool := by
  obtain ⟨cause, s, hrun, hpool⟩ := exists_failed h
  rw [hpool]
  exact rollback_of_failed hrun

/-- A pool with a number of constants, none of them a text or a string. -/
def Pool.ofNumbers : Nat → Pool
  | 0 => .empty
  | n + 1 => (ofNumbers n).push (.integer (Int32.ofNat n))

theorem Pool.count_ofNumbers (n : Nat) : (ofNumbers n).count = n + 1 := by
  induction n with
  | zero => rfl
  | succ n ih => exact congrArg (· + 1) ih

theorem Pool.lacks_ofNumbers (n : Nat) {c : Constant} (hc : ∀ v, c ≠ .integer v) :
    (ofNumbers n).index[c]? = none := by
  induction n with
  | zero => exact Std.ExtHashMap.getElem?_empty
  | succ n ih =>
    show ((ofNumbers n).index.insert _ _)[c]? = none
    rw [Std.ExtHashMap.getElem?_insert, if_neg (fun h => hc _ (eq_of_beq h).symm), ih]

/-- There is room for the text of the string, and then for nothing more. -/
theorem Pool.stringRef_overflow {pool : Pool} {text : String} (hcount : pool.count = 65534)
    (htext : pool.index[Constant.utf8 text]? = none)
    (hstring : pool.index[Constant.stringRef 65534]? = none) :
    stringRef text pool = .error (.internal .poolOverflow) (pool.push (.utf8 text)) := by
  have hfirst : utf8 text pool = .ok 65534 (pool.push (.utf8 text)) := by
    unfold utf8 intern
    rw [htext, hcount]
    rfl
  have hnew : (pool.push (.utf8 text)).index[Constant.stringRef 65534]? = none := by
    show (pool.index.insert _ _)[_]? = none
    rw [Std.ExtHashMap.getElem?_insert, if_neg (by simp), hstring]
  have hfull : (pool.push (.utf8 text)).count = 65535 := congrArg (· + 1) hcount
  refine (state_ok_bind hfirst).trans ?_
  unfold intern
  rw [hnew, hfull]
  rfl

/-- A method that mentions a string. -/
def mentionsString : Body where
  owner := .ref "Store"
  name := "mention"
  kind := .static
  params := []
  locals := []
  returns := none
  code := [(0, .loadString "mentioned"), (1, .pop), (2, .ret)]
  handlers := []

/-- Where the string does not fit into the pool, the method fails. -/
private theorem result_mentionsString {pool pool' : Pool} {cause : Cause}
    (h : Pool.stringRef "mentioned" pool = .error cause pool') :
    (lowerMethod {} (.ofConfig {}) pool mentionsString).result
      = .error ({ cause : Error }.inMethod "Store::mention") := by
  let s₁ : LowerState :=
    { initial pool mentionsString with
      frames := .start { locals := .ofList [] }
      events := .foundRegions 0 0 :: (initial pool mentionsString).events }
  let cx : Context :=
    { config := {}, types := .ofConfig {}, body := mentionsString, regions := ⟨[]⟩, targets := {} }
  let s₂ : LowerState :=
    { s₁ with
      frames := s₁.frames.markBound (.source 0)
      code := s₁.code.bind (.source 0) }
  have hprepare : prepare {} (.ofConfig {}) mentionsString
      (initial pool mentionsString) = .ok cx s₁ := by
    cbv
  have henter : LowerM.enter 0 cx s₁ = .ok () s₂ := by
    cbv
  have hpool : LowerState.onPool (Pool.stringRef "mentioned") s₂
      = .error cause { s₂ with pool := pool' } := by
    unfold LowerState.onPool
    dsimp only
    rw [show s₂.pool = pool from rfl, h]
  have hfirst : LowerM.lowerAt 0 (.loadString "mentioned") cx s₁
      = .error cause { s₂ with pool := pool' } :=
    (state_ok_bind (f := fun _ => LowerM.lowerOp 0 (.loadString "mentioned") cx) henter).trans
      (state_error_bind hpool)
  have hrun : run {} (.ofConfig {}) mentionsString
      (initial pool mentionsString) = .error cause { s₂ with pool := pool' } :=
    (state_ok_bind hprepare).trans (state_error_bind (state_error_bind (state_error_bind hfirst)))
  unfold lowerMethod
  rw [hrun]
  rfl

theorem pool_of_error_overflow :
    (lowerMethod {} (.ofConfig {}) (.ofNumbers 65533) mentionsString).result
        = .error ({ cause := .internal .poolOverflow : Error }.inMethod "Store::mention") ∧
      (lowerMethod {} (.ofConfig {}) (.ofNumbers 65533) mentionsString).pool
        = .ofNumbers 65533 := by
  have hresult : (lowerMethod {} (.ofConfig {}) (.ofNumbers 65533) mentionsString).result
      = .error ({ cause := .internal .poolOverflow : Error }.inMethod "Store::mention") :=
    result_mentionsString (Pool.stringRef_overflow (Pool.count_ofNumbers 65533)
      (Pool.lacks_ofNumbers 65533 nofun) (Pool.lacks_ofNumbers 65533 nofun))
  exact ⟨hresult, pool_of_error _ _ _ _ hresult⟩

/-- The types that are known afterwards have grown by harmless ones. -/
private theorem grown_lowerMethod {T' : TypeTable} (hT : Equipped config T) (hgrown : Grown T T')
    (pool : Pool) (body : Body) : Grown T (lowerMethod config T' pool body).types := by
  have hmade : ∀ t ∈ (finalState (run config T' body
      (initial pool body))).made, Harmless config t := by
    obtain ⟨new, hnew, hharmless⟩ :=
      (adding_run config T' body (initial pool body)).made
    rw [hnew]
    refine List.forall_mem_append.mpr ⟨hharmless, fun t ht => ?_⟩
    unfold initial at ht
    split at ht
    · exact .inl (List.mem_singleton.mp ht ▸ nofun)
    · cases ht
  unfold lowerMethod
  split
  · next hrun =>
    rw [hrun] at hmade
    exact hgrown.addAll hT hmade
  · next hrun =>
    rw [hrun] at hmade
    exact hgrown.addAll hT hmade

private theorem lowerMethod_alike (config : Config) {T' : TypeTable} (h : Alike T T') (pool : Pool)
    (body : Body) :
    (lowerMethod config T' pool body).result = (lowerMethod config T pool body).result ∧
      (lowerMethod config T' pool body).pool = (lowerMethod config T pool body).pool := by
  unfold lowerMethod
  rw [run_alike h]
  split <;> exact ⟨rfl, rfl⟩

/-- The methods of a class, each with its result and the pool after it. -/
def outcomes (config : Config) (T : TypeTable) (pool : Pool) (bodies : List Body) :
    List (Body × Except Error Method × Pool) :=
  bodies.zip ((lowerMethods config T pool bodies).map fun l => (l.result, l.pool))

/-- Some methods are left out that have failed. -/
inductive Omits : List (Body × Except Error Method × Pool) →
    List (Body × Except Error Method × Pool) → Prop where
  | nil : Omits [] []
  | keep {l kept : List (Body × Except Error Method × Pool)}
      (e : Body × Except Error Method × Pool) (h : Omits l kept) : Omits (e :: l) (e :: kept)
  | drop {l kept : List (Body × Except Error Method × Pool)} (body : Body) (e : Error)
      (pool : Pool) (h : Omits l kept) : Omits ((body, .error e, pool) :: l) kept

theorem outcomes_cons (pool : Pool) (body : Body) (bodies : List Body) :
    outcomes config T pool (body :: bodies)
      = (body, (lowerMethod config T pool body).result, (lowerMethod config T pool body).pool)
        :: outcomes config (lowerMethod config T pool body).types
          (lowerMethod config T pool body).pool bodies := rfl

/-- Leaving out failed methods, with any two tables that have grown from one. -/
private theorem outcomes_grown (hT : Equipped config T) {bodies : List Body}
    {kept : List (Body × Except Error Method × Pool)} {T₁ T₂ : TypeTable} {pool : Pool}
    (h₁ : Grown T T₁) (h₂ : Grown T T₂) (h : Omits (outcomes config T₁ pool bodies) kept) :
    outcomes config T₂ pool (kept.map Prod.fst) = kept := by
  induction bodies generalizing kept T₁ T₂ pool with
  | nil =>
    cases h
    rfl
  | cons body bodies ih =>
    have hgrown₁ := grown_lowerMethod hT h₁ pool body
    rw [outcomes_cons] at h
    generalize hresult : (lowerMethod config T₁ pool body).result = result at h
    cases h with
    | keep _ h =>
      -- both tables answer as the one that they have grown from
      have halike₁ := alike_of_grown hT.toRooted h₁
      have halike₂ := alike_of_grown hT.toRooted h₂
      obtain ⟨hresult₁, hpool₁⟩ := lowerMethod_alike config halike₁ pool body
      obtain ⟨hresult₂, hpool₂⟩ := lowerMethod_alike config halike₂ pool body
      rw [hpool₁] at h
      rw [List.map_cons, outcomes_cons, ← hresult, hresult₁, hpool₁, hresult₂, hpool₂,
        ih hgrown₁ (grown_lowerMethod hT h₂ pool body) h]
    | drop _ e _ h =>
      obtain ⟨cause, s, hrun, hpool⟩ := exists_failed hresult
      rw [hpool, rollback_of_failed hrun] at h
      exact ih hgrown₁ h₂ h

/-- Leaving methods out that fail changes nothing for the others: each comes to the
same result, a method or an error, and leaves the same pool. -/
theorem outcomes_of_omits (hT : Built config T) (pool : Pool) {bodies : List Body}
    {kept : List (Body × Except Error Method × Pool)}
    (h : Omits (outcomes config T pool bodies) kept) :
    outcomes config T pool (kept.map Prod.fst) = kept :=
  outcomes_grown hT.equipped (.refl T) (.refl T) h

/-- A method that makes an array and then adds null to it. -/
def addsToArray : Body where
  owner := .ref "Store"
  name := "add"
  kind := .static
  params := []
  locals := []
  returns := none
  code := [(0, .loadInt32 1), (1, .newArray (.prim .int32)), (2, .loadNull),
    (3, .arithmetic .add), (4, .pop), (5, .ret)]
  handlers := []

theorem outcomes_after_addsToArray :
    (lowerMethod {} (.ofConfig {}) .empty addsToArray).result
        = .error ({ cause := .malformed (.badOperand .add (.array (.prim .int32) 1))
            : Error }.inMethod "Store::add") ∧
      outcomes {} (.ofConfig {}) .empty [mentionsString]
        = (outcomes {} (.ofConfig {}) .empty [addsToArray, mentionsString]).tail := by
  have hresult : (lowerMethod {} (.ofConfig {}) .empty addsToArray).result
      = .error ({ cause := .malformed (.badOperand .add (.array (.prim .int32) 1))
          : Error }.inMethod "Store::add") := by
    cbv
  have homits : Omits (outcomes {} (.ofConfig {}) .empty [addsToArray, mentionsString])
      (outcomes {} (.ofConfig {}) .empty [addsToArray, mentionsString]).tail := by
    rw [outcomes_cons, hresult]
    exact .drop _ _ _ (.keep _ .nil)
  exact ⟨hresult, outcomes_of_omits .start .empty homits⟩

end Methods

end BytecodeBridge
