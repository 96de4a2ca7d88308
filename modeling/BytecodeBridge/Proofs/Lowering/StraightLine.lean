/-
Straight-line integer code keeps its meaning.

Between the operations of such code nothing happens but that labels are
bound, which no branch goes to. So the lowering can be followed from the
first operation to the return: the code that comes out, in front of it the
zeros of the variables that are read too early, returns what the source
does.
-/
import BytecodeBridge.Proofs.Lowering.Integers

namespace BytecodeBridge.Lowering

open LowerM Machine Source
open Source (Number)

variable {cx : Context} {start : List Number} {q : Moment}

variable {body : Body} {s : LowerState}

-- ==== entry

theorem Now.bind (h : Now body start q s) (o : Nat) :
    Now body start q { s with
      frames := s.frames.markBound (.source o)
      code := s.code.bind (.source o)
      reachable := true } := by
  refine { h with
    reachable := rfl
    code := h.code.carry [Item.bind (.source o)] (.refl _) rfl (fun _ hs => hs) ?_ }
  intro zeroed locals _ hagree
  exact ⟨locals, .bind _ _, hagree⟩

theorem means_enter (hregions : cx.regions.regions = [])
    (htarget : cx.targets.contains cx.current = false) :
    Brings cx start q (enter cx.current) q := by
  intro s a s' hnow hrun
  have hhandler := RegionTree.handlerAt?_of_nil hregions cx.current
  have hstarting := RegionTree.startingAt_of_nil hregions cx.current
  have hfresh : s.frames.has (.source cx.current) = false := by
    refine Bool.eq_false_iff.mpr fun hhas => ?_
    obtain ⟨n, hn, -⟩ := hnow.labels _ hhas
    cases hn
  have hframe : enterFrame cx.current cx s = .ok () s := by
    change (if s.frames.has (.source cx.current) = true then _ else _ : LowerM Unit) cx s = _
    rw [if_neg (Bool.eq_false_iff.mp hfresh), if_pos hnow.reachable]
    change (if cx.targets.contains cx.current = true then _ else _ : LowerM Unit) cx s = _
    rw [if_neg (Bool.eq_false_iff.mp htarget)]
    rfl
  rw [enter_eq, hhandler] at hrun
  obtain ⟨_, t, ht, hrun⟩ := lower_bind_ok hrun
  cases hframe.symm.trans ht
  obtain ⟨_, t, ht, hrun⟩ := lower_bind_ok hrun
  cases ht
  rw [hstarting] at hrun
  cases hrun
  exact hnow.bind _

-- ==== runs

private theorem run?_cons {o : Nat} {op : Op} (hop : op.isIntegral = true) (rest : List (Nat × Op))
    (s : Source.State) :
    run? body ((o, op) :: rest) s
      = (exec body op s).bind (run? body rest) := by
  cases op <;> first | rfl | cases hop

/-- The operations of straight-line code lead from one moment to another, from which the
source goes on with what follows them. -/
theorem means_code (hbody : cx.body.Straight) (hregions : cx.regions.regions = [])
    (htargets : ∀ o, cx.targets.contains o = false) (hstart : Starts cx.body start)
    {code : List (Nat × Op)} (hcode : ∀ e ∈ code, e.2.isIntegral = true) (hready : q.Ready) :
    Means cx start q (code.forM fun (o, op) => lowerAt o op) fun _ q' => q'.Ready ∧
      ∀ rest, run? cx.body (code ++ rest) (q.source cx.body)
        = run? cx.body rest (q'.source cx.body) := by
  induction code generalizing q with
  | nil => exact .pure ⟨hready, fun _ => rfl⟩
  | cons e code ih =>
    obtain ⟨o, op⟩ := e
    have hop : op.isIntegral = true := hcode _ (.head _)
    -- an operation is lowered in a context of its own, which differs in the offset only
    have hone : Means cx start q (lowerAt o op) fun _ q' => q.Follows cx.body op q' := by
      have hat : Means (cx.atOffset o) start q (enter o >>= fun _ => lowerOp o op) fun _ q' =>
          q.Follows cx.body op q' := by
        refine TracksTo.bind (means_enter hregions (htargets o)) fun _ => ?_
        have hbodyAt : (cx.atOffset o).body.Straight := hbody
        exact means_lowerOp hbodyAt hregions hstart hop hready o
      exact hat
    refine .bind hone ?_
    rintro _ q₁ ⟨hexec, hready₁⟩
    refine (ih (fun e he => hcode e (.tail _ he)) hready₁).weaken ?_
    rintro _ q' ⟨hready', hrun⟩
    refine ⟨hready', fun rest => ?_⟩
    rw [List.cons_append, run?_cons hop, hexec]
    exact hrun rest

-- ==== returns

/-- A state behind the code of a method that returns a number. -/
def Returned (body : Body) (start : List Number) (y : Number) (s : LowerState) : Prop :=
  ∃ t q rest, Now body start q t ∧ q.stack = y :: rest ∧ s = { t with
    code := t.code.emit (.returnValue (.num y.kind))
    reachable := false }

theorem Returned.indexed {y : Number} (h : Returned body start y s) : s.pool.Indexed := by
  obtain ⟨t, q, rest, hnow, -, rfl⟩ := h
  exact hnow.indexed

theorem gives_ret (hkind : cx.body.kind = .static) {ty : Ty} (hreturns : cx.body.returns = some ty)
    (hint : ty.isIntegral = true) (hready : q.Ready) (o : Nat) :
    Gives cx (Now cx.body start q) ret fun _ s => ∃ y,
      run? cx.body [(o, .ret)] (q.source cx.body) = some y ∧
        Returned cx.body start y s := by
  obtain ⟨cells, stack, live⟩ := q
  refine .bind .read fun cx' => .of_fact fun hcx => ?_
  subst hcx
  have hstatic : ¬ cx'.body.kind = .constructor := by
    rw [hkind]
    decide
  rw [if_neg hstatic, hreturns]
  dsimp only
  refine .bind tracks_pop fun value => ?_
  rintro s a s' ⟨_, ⟨types, rfl, rfl⟩, hnow⟩ hrun
  cases hready with
  | @cons x _ rest _ hx hrest =>
    obtain ⟨_, s₁, hdiscard, hrun⟩ := lower_bind_ok hrun
    obtain ⟨_, s₂, hcoerce, hpure⟩ :=
      lower_bind_ok (x := coerce value ty) (f := fun _ => pure ()) hdiscard
    cases hpure
    obtain ⟨q₁, ⟨-, y, hy, rfl⟩, hnow₁⟩ := means_coerce hx hint s _ s₁ hnow hcoerce
    obtain ⟨kind, s₂, hkind, hrun⟩ := lower_bind_ok hrun
    obtain ⟨_, ⟨hkind, rfl⟩, hnow₂⟩ := tracks_stackKind ty _ _ _ hnow₁ hkind
    cases (Number.isOf_of_store? hy).kind_eq hkind
    refine ⟨y, ?_, s₂, _, rest, hnow₂, rfl, ?_⟩
    · unfold run?
      rw [hreturns]
      exact hy
    · cases hrun
      rfl

/-- The lowering of straight-line code ends with the return of what the source returns. -/
theorem gives_straight (hbody : cx.body.Straight) (hregions : cx.regions.regions = [])
    (htargets : ∀ o, cx.targets.contains o = false) (hstart : Starts cx.body start)
    (hready : q.Ready) :
    Gives cx (Now cx.body start q) (cx.body.code.forM fun (o, op) => lowerAt o op) fun _ s =>
      ∃ y, run? cx.body cx.body.code (q.source cx.body) = some y ∧
        Returned cx.body start y s := by
  obtain ⟨ops, o, hcode, hops⟩ := hbody.code
  obtain ⟨ty, hreturns, hint⟩ := hbody.returns
  rw [hcode]
  intro s a s' hnow hrun
  change (forM (ops ++ [(o, Op.ret)]) fun (o, op) => lowerAt o op : LowerM Unit) cx s = _ at hrun
  rw [List.forM_append] at hrun
  obtain ⟨_, t, hrun₁, hrun⟩ := lower_bind_ok hrun
  obtain ⟨q₁, ⟨hready₁, hsource⟩, hnow₁⟩ :=
    means_code hbody hregions htargets hstart hops hready s _ t hnow hrun₁
  obtain ⟨_, u, hret, hrun⟩ := lower_bind_ok hrun
  cases hrun
  have hlast : Gives (cx.atOffset o) (Now cx.body start q₁) (enter o >>= fun _ => ret) fun _ s =>
      ∃ y, run? cx.body [(o, .ret)] (q₁.source cx.body) = some y ∧
        Returned cx.body start y s := by
    refine .bind (means_enter hregions (htargets o)) fun _ => ?_
    intro s a s' hnow hrun
    have hstatic : (cx.atOffset o).body.kind = .static := hbody.static
    exact gives_ret hstatic hreturns hint hready₁ o s a s' hnow hrun
  rw [hsource]
  exact hlast t _ s' hnow₁ hret

/-- The assembled code of a method that returns a number returns it. -/
private theorem returns_of_returned {y : Number} {asm : Assembly} {p : Pool} {state : Machine.State}
    (h : Returned body start y s) (hasm : s.code.assemble = .ok asm) (hpart : s.pool.PartOf p)
    (hstack : state.stack = [])
    (hagree : Agree body start (fun j => j < body.params.length) state.locals) :
    Returns asm.code p 0 state y.toValue := by
  obtain ⟨t, q, rest, hnow, hq, rfl⟩ := h
  obtain ⟨items, l, hwide, hassembled⟩ := CodeBuffer.assemble_ok hasm
  have hitems : (t.code.emit (.returnValue (.num y.kind))).items
      = (t.code.prologue.reverse.map .instr ++ t.code.body.reverse)
        ++ [.instr (.returnValue (.num y.kind))] := by
    unfold CodeBuffer.items CodeBuffer.emit CodeBuffer.push
    rw [List.reverse_cons, List.append_assoc]
  rw [hitems] at hwide
  obtain ⟨wide, last, rfl, hinit, hlast⟩ := widens_append hwide
  obtain ⟨_, rfl, hone⟩ := widens_singleton hlast
  cases hone
  -- the zeros in front of the code, and then the code
  obtain ⟨locals₁, hfront, hagree₁⟩ := hnow.front state.locals hagree
  obtain ⟨locals₂, hcode, -⟩ := hnow.code (fun slot => t.slots.isDefaulted slot = true) locals₁
    (fun _ hslot => hslot) hagree₁
  have hreach := (hfront.trans hcode) hpart hinit
    (show Assembled ([] ++ (wide ++ [Item.instr (.returnValue (.num y.kind))])) l asm
      from hassembled)
  have hstate : state = ⟨[], state.locals⟩ := by
    rw [← hstack]
  refine ⟨Layout.stop 0 wide, ⟨values q.stack, locals₂⟩, values rest, ?_, ?_, ?_⟩
  · rw [hstate]
    exact hreach
  · rw [Number.kind_toValue]
    exact hassembled.lookup rfl rfl
  · rw [hq]
    rfl

-- ==== the start

/-- Every variable has a zero. -/
private theorem exists_zeros {vars : List Variable} (h : ∀ v ∈ vars, v.ty.isIntegral = true) :
    ∃ zeros, (vars.mapM fun v => Number.zero? v.ty) = some zeros ∧
      List.Forall₂ (fun x (v : Variable) => Number.zero? v.ty = some x ∧ x.IsOf v.ty)
        zeros vars := by
  induction vars with
  | nil => exact ⟨[], rfl, .nil⟩
  | cons v vars ih =>
    obtain ⟨zeros, hzeros, hall⟩ := ih fun v hv => h v (.tail _ hv)
    obtain ⟨x, hx, hisOf⟩ := Number.exists_zero? (h v List.mem_cons_self)
    refine ⟨x :: zeros, ?_, .cons ⟨hx, hisOf⟩ hall⟩
    rw [List.mapM_cons, hx, hzeros]
    rfl

/-- Arguments of their types and zeros are what a method starts with. -/
private theorem starts_of_args {args zeros : List Number}
    (hargs : List.Forall₂ (fun x (v : Variable) => x.IsOf v.ty) args body.params)
    (hzeros : List.Forall₂ (fun x (v : Variable) => Number.zero? v.ty = some x ∧ x.IsOf v.ty)
      zeros body.locals) : Starts body (args ++ zeros) := by
  constructor
  case holds =>
    unfold cellTypes
    rw [List.forall₂_map_right_iff]
    exact List.rel_append hargs (hzeros.imp fun _ _ h => h.2)
  case zeros =>
    intro j t hj ht
    obtain ⟨i, rfl⟩ := Nat.exists_eq_add_of_le hj
    unfold cellTypes at ht
    rw [List.getElem?_map, List.getElem?_append_right hj, Nat.add_sub_cancel_left] at ht
    obtain ⟨v, hv, rfl⟩ := Option.map_eq_some_iff.mp ht
    obtain ⟨x, hx, hzero, -⟩ := forall₂_getElem?_left hzeros.flip hv
    rw [← hargs.length_eq, List.getElem?_append_right (Nat.le_add_right _ _),
      Nat.add_sub_cancel_left, hx, hzero]

/-- The lowering of straight-line code starts at the moment that the source starts at. -/
private theorem now_of_prepare {config : Config} {T : TypeTable} {pool : Pool}
    (hbody : body.Straight) (hindexed : pool.Indexed)
    (hholds : List.Forall₂ Number.IsOf start (cellTypes body))
    (h : prepare config T body (initial pool body) = .ok cx s) :
    Now body start ⟨start, [], []⟩ s := by
  obtain ⟨locals, regions, targets, slots, hlayout, -, -, rfl⟩ := prepare_parts h
  obtain ⟨hlaid, -⟩ := layoutSlots_ok hlayout
  obtain ⟨hcells, hlocals⟩ := cells_of_laidOut hlaid hbody.static
  have hset : ∀ {j t}, (cellTypes body)[j]? = some t →
      (locals.contains (cellSlot body j) = true ↔ j < body.params.length) := by
    intro j t ht
    rw [SlotMap.contains_iff]
    constructor
    · rintro ⟨u, hu⟩
      obtain ⟨i, v, hv, hslot, -⟩ := hlocals.mp hu
      rw [cellSlot_inj ht (getElem?_cellTypes_param hv) hslot]
      exact (List.getElem?_eq_some_iff.mp hv).1
    · intro hj
      exact ⟨_, hlocals.mpr ⟨j, _, List.getElem?_eq_getElem hj, rfl, rfl⟩⟩
  refine ⟨rfl, rfl, hindexed, hcells, fun slot t hslot => ?_, fun {j} hj => ?_, fun _ _ => rfl,
    hholds, fun label hlabel => ?_, rfl, fun locals hagree => ?_, fun zeroed locals _ hagree => ?_⟩
  · obtain ⟨i, v, hv, rfl, rfl⟩ := hlocals.mp hslot
    exact ⟨i, getElem?_cellTypes_param hv, rfl⟩
  · obtain ⟨t, ht⟩ := exists_cellType hj
    exact (hset ht).mpr hj
  · cases hlabel
  · refine ⟨locals, .refl _ _, hagree.mono fun j hj => hj.resolve_right fun hdefaulted => ?_⟩
    exact Bool.false_ne_true ((hlaid.fresh _).symm.trans hdefaulted)
  · refine ⟨locals, .refl _ _, fun j x hx hj => hagree hx ?_⟩
    obtain ⟨t, ht, -⟩ := forall₂_getElem?_left hholds hx
    exact hj.imp_left (hset ht).mp

private theorem targetsOf_of_straight (hbody : body.Straight) {e : Nat × Op} (he : e ∈ body.code) :
    targetsOf body e.1 e.2 = .ok [] := by
  obtain ⟨ops, o, hcode, hops⟩ := hbody.code
  rw [hcode, List.mem_append, List.mem_singleton] at he
  rcases he with he | rfl
  · have hop := hops e he
    obtain ⟨o, op⟩ := e
    cases op <;> first | rfl | cases hop
  · rfl

private theorem no_targets (hbody : body.Straight) {targets : Std.TreeSet Nat}
    (h : allTargets body = .ok targets) (o : Nat) : targets.contains o = false := by
  have hfold : ∀ (code : List (Nat × Op)) (first : Std.TreeSet Nat), (∀ e ∈ code, e ∈ body.code) →
      first.contains o = false → code.foldlM (withTargets body) first = .ok targets →
      targets.contains o = false := by
    intro code
    induction code with
    | nil =>
      intro first _ hfirst hrun
      cases hrun
      exact hfirst
    | cons e code ih =>
      intro first hcode hfirst hrun
      rw [List.foldlM_cons] at hrun
      obtain ⟨next, hnext, hrun⟩ := except_bind_ok hrun
      unfold withTargets at hnext
      rw [targetsOf_of_straight hbody (hcode e List.mem_cons_self)] at hnext
      cases hnext
      refine ih _ (fun e he => hcode e (.tail _ he)) ?_ hrun
      rw [Std.TreeSet.insertMany_nil]
      exact hfirst
  exact hfold body.code {} (fun _ he => he) Std.TreeSet.contains_emptyc h

-- ==== meaning

/-- Straight-line integer code keeps its meaning: whatever arguments of their types a method is
called with, the source has a value for them, and the code returns this value and no other. -/
theorem straight_code_returns {config : Config} {T : TypeTable} {pool : Pool} {body : Body}
    {m : Method} (hpool : Pool.empty.Grows pool) (hbody : body.Straight)
    (h : (lowerMethod config T pool body).result = .ok m) {args : List Number}
    (hargs : List.Forall₂ (fun x (v : Variable) => x.IsOf v.ty) args body.params) {p : Pool}
    (hp : (lowerMethod config T pool body).pool.PartOf p) {state : Machine.State}
    (hstack : state.stack = [])
    (hlocals : ∀ i x, args[i]? = some x → state.locals (argumentSlot body i) = some x.toValue) :
    ∃ x, Source.value? body args = some x ∧
      ∀ v, Returns m.code p 0 state v ↔ v = x.toValue := by
  obtain ⟨cx, s₁, s₂, s₃, hprepare, hlower, hfinish⟩ := run_ok h
  obtain ⟨hlowered, -⟩ := lowerMethod_of_parts hprepare hlower hfinish
  obtain ⟨⟨asm, frames, hfinished⟩, -⟩ := exists_finished hfinish
  obtain ⟨hcode, -⟩ := lowerAll_ok hlower
  obtain ⟨zeros, hzeros, hall⟩ := exists_zeros hbody.locals
  have hstart := starts_of_args hargs hall
  have hnow := now_of_prepare hbody (hpool.indexed Pool.indexed_empty).1 hstart.holds hprepare
  obtain ⟨-, -, rfl, hstarted⟩ := prepare_ok hprepare
  obtain ⟨_, _, targets, _, -, htargets, heq, -⟩ := prepare_parts hprepare
  have hnone : ∀ o, cx.targets.contains o = false := by
    rw [heq]
    exact no_targets hbody htargets
  have hready : Moment.Ready ⟨args ++ zeros, [], []⟩ := .nil
  obtain ⟨y, hvalue, hreturned⟩ := gives_straight hbody (hstarted.noRegions hbody.handlers) hnone
    hstart hready s₁ () s₂ hnow hcode
  have hpart : s₂.pool.PartOf p := by
    have hshares := (show Shares cx (finish cx.body.targetName) from shares_finish _).adds s₂
    rw [hfinish] at hshares
    refine (hshares.pool.indexed hreturned.indexed).2.trans ?_
    show s₃.pool.PartOf p
    rw [← hlowered]
    exact hp
  have hagree : Agree cx.body (args ++ zeros) (fun j => j < cx.body.params.length)
      state.locals := by
    intro j x hx hj
    rw [← argumentSlot_eq hbody.static (Nat.le_of_lt hj)]
    rw [← hargs.length_eq] at hj
    rw [List.getElem?_append_left hj] at hx
    exact hlocals j x hx
  have hreturns := returns_of_returned hreturned hfinished.assembled hpart hstack hagree
  refine ⟨y, ?_, fun v => ?_⟩
  · unfold Source.value?
    unfold Moment.source at hvalue
    rw [← hargs.length_eq, List.take_left, List.drop_left] at hvalue
    rw [hzeros]
    exact hvalue
  · rw [hfinished.code]
    constructor
    · exact fun hv => hv.unique hreturns
    · rintro rfl
      exact hreturns

/-- Adds an argument to a byte that is still zero, and returns the byte if it is less than
another argument. -/
def countsInBytes : Body where
  owner := .ref "Bytes"
  name := "count"
  kind := .static
  params := [⟨none, .prim .int8⟩, ⟨none, .prim .int32⟩]
  locals := [⟨none, .prim .uint8⟩]
  returns := some (.prim .int8)
  code := [(0, .loadLocal 0), (1, .loadArg 0), (2, .arithmetic .add), (3, .storeLocal 0),
    (4, .loadLocal 0), (5, .loadLocal 0), (6, .loadArg 1), (7, .compare .lt false),
    (8, .arithmetic .mul), (9, .ret)]
  handlers := []

theorem previewed_countsInBytes :
    (previewed {} (.ofConfig {}) countsInBytes).isSome = true := by
  cbv

private theorem straight_countsInBytes : countsInBytes.Straight where
  static := rfl
  handlers := rfl
  params := by decide
  locals := by decide
  returns := ⟨_, rfl, rfl⟩
  code := ⟨countsInBytes.code.dropLast, 9, rfl, by decide⟩

/-- The byte is 255, which is less than 300, and is returned as -1. -/
theorem straight_code_returns_countsInBytes :
    ∃ m, (lowerMethod {} (.ofConfig {}) .empty countsInBytes).result = .ok m ∧
      countsInBytes.Straight ∧
      Source.value? countsInBytes [.int (-1), .int 300] = some (.int (-1)) ∧
      ∀ v, Returns m.code (lowerMethod {} (.ofConfig {}) .empty countsInBytes).pool 0
        (entry [.int (-1), .int 300]) v ↔ v = .int (-1) := by
  obtain ⟨m, hm⟩ := exists_of_isSome previewed_countsInBytes
  have hargs : List.Forall₂ (fun (x : Number) (v : Variable) => x.IsOf v.ty)
      [.int (-1), .int 300] countsInBytes.params := .cons (by decide) (.cons (by decide) .nil)
  have hlocals : ∀ i x, ([.int (-1), .int 300] : List Number)[i]? = some x →
      (entry [.int (-1), .int 300]).locals (argumentSlot countsInBytes i) = some x.toValue := by
    intro i x hx
    match i, hx with
    | 0, rfl | 1, rfl => rfl
  obtain ⟨x, hvalue, hreturns⟩ :=
    straight_code_returns .refl straight_countsInBytes hm hargs (.refl _) rfl hlocals
  have heval : Source.value? countsInBytes [.int (-1), .int 300] = some (.int (-1)) := by
    decide
  cases heval.symm.trans hvalue
  exact ⟨m, hm, straight_countsInBytes, heval, hreturns⟩

end BytecodeBridge.Lowering
