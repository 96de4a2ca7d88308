/-
Branches and jump tables on integers.

In the source, a comparison decides by the values of two numbers of one
width, a truth test by whether a number is zero, and a switch by a number
without its sign (`Source.route?`). The code for each comes to a test or a
jump table, and behind a test lies the label of the next operation: a test
goes on, so the operation behind it is arrived at from above, and no
handler is put in between. What follows is that executions of the finished
code go from offset to offset as the source does (`branches_go_as_written`).
-/
import BytecodeBridge.Proofs.Lowering.Integers
import BytecodeBridge.Proofs.Lowering.Standing
import BytecodeBridge.Proofs.Machine.Departure

namespace BytecodeBridge

open Relation (ReflTransGen)

-- ==== source

namespace Source

/-- A number without its sign. -/
def Number.toNat : Number → Nat
  | int x => x.toNat
  | long x => x.toNat

/-- Whether a comparison of two numbers holds; they have one width. -/
def Number.holds? (way : Comparison) (unsigned : Bool) : Number → Number → Option Bool
  | int x, int y => some (compareBits way unsigned x y)
  | long x, long y => some (compareBits way unsigned x y)
  | _, _ => none

/-- Where an operation goes that decides by numbers, which it takes off the stack, the top
first: to an offset or, without one, on to the next operation. -/
def route? (op : Op) (xs : List Number) : Option (Option Nat) :=
  match op, xs with
  | .branch way unsigned target, [y, x] =>
    (x.holds? way unsigned y).map fun holds => if holds then some target else none
  | .branchIf truth target, [x] => some (if (x.toNat != 0) == truth then some target else none)
  | .switch targets, [x] => some targets[x.toNat]?
  | _, _ => none

end Source

namespace Lowering

open LowerM Machine
open Source (Number)

variable {cx : Context} {s t : LowerState} {x y : Number}

-- ==== tests

/-- The code of a comparison comes to a test for it. -/
private theorem comparison_tested {way : Comparison} {unsigned : Bool} {test : Instr} {a b : Ty}
    {rest : List Ty} (h : comparison way unsigned cx s = .ok test t) (hpool : s.pool.Indexed)
    (hstack : s.frames.live.stack = b :: a :: rest) (hb : b.stackKind? = some (.num y.kind))
    (ha : a.stackKind? = some (.num x.kind)) :
    ∃ code taken, x.holds? way unsigned y = some taken ∧ Appends cx code s t ∧
      Tested t.pool code test [y, x] taken := by
  obtain ⟨⟨b', bKind⟩, u, hpopb, hsecond⟩ := lower_bind_ok h
  obtain ⟨⟨a', aKind⟩, v, hpopa, htest⟩ := lower_bind_ok hsecond
  clear h hsecond
  obtain ⟨hpopsb, hbKind⟩ := popKind_pops hpopb
  obtain ⟨hpopsa, haKind⟩ := popKind_pops hpopa
  obtain ⟨rfl, hrest⟩ := List.cons.inj (hpopsb.stack.symm.trans hstack)
  obtain ⟨rfl, -⟩ := List.cons.inj (hpopsa.stack.symm.trans hrest)
  cases hbKind.symm.trans hb
  cases haKind.symm.trans ha
  have hpops : Appends cx [] s v := hpopsb.appends.trans hpopsa.appends
  have hv := hpops.indexed hpool
  dsimp only at htest
  split at htest
  case isFalse => cases htest
  next hsame =>
  cases hcall : unsigned && way.isRelational with
  | true =>
    obtain ⟨rfl, -⟩ := Bool.and_eq_true_iff.mp hcall
    rw [hcall] at htest
    cases x with
    | int x =>
      cases y with
      | long y => cases hsame
      | int y =>
        obtain ⟨_, w, hcalls, hpure⟩ := lower_bind_ok htest
        cases hpure
        obtain ⟨index, happends, -, hmethod⟩ := invokeStatic_appends hcalls hv
        exact ⟨_, _, rfl, hpops.trans happends, tested_result
          (replaces_compareUnsigned_int x y hmethod) (holds_sign_unsigned_int way x y)⟩
    | long x =>
      cases y with
      | int y => cases hsame
      | long y =>
        obtain ⟨_, w, hcalls, hpure⟩ := lower_bind_ok htest
        cases hpure
        obtain ⟨index, happends, -, hmethod⟩ := invokeStatic_appends hcalls hv
        exact ⟨_, _, rfl, hpops.trans happends, tested_result
          (replaces_compareUnsigned_long x y hmethod) (holds_sign_unsigned_long way x y)⟩
  | false =>
    rw [hcall] at htest
    cases x with
    | int x =>
      cases y with
      | long y => cases hsame
      | int y =>
        cases htest
        refine ⟨_, _, rfl, hpops, ?_⟩
        rw [← compareBits_of_not_byCall hcall]
        exact tested_ifInt
    | long x =>
      cases y with
      | int y => cases hsame
      | long y =>
        obtain ⟨_, w, hemit, hpure⟩ := lower_bind_ok htest
        cases hpure
        refine ⟨_, _, rfl, hpops.trans (emit_appends hemit).1, ?_⟩
        rw [← compareBits_of_not_byCall hcall]
        exact tested_result (replaces_lcmp x y) (holds_sign_long way x y)

/-- A truth test is a comparison with zero. -/
private theorem compareBits_truthTest {w : Nat} (truth : Bool) (x : BitVec w) :
    Source.compareBits (truthTest truth) false x 0 = ((x.toNat != 0) == truth) := by
  have hzero : (x == 0) = (x.toNat == 0) := by
    rw [Bool.eq_iff_iff, beq_iff_eq, beq_iff_eq, ← BitVec.toNat_inj]
    rfl
  cases truth with
  | true =>
    show (!(x == 0)) = _
    rw [hzero, beq_true]
    rfl
  | false =>
    show (x == 0) = _
    rw [hzero, beq_false, bne, Bool.not_not]

-- ==== routes

/-- What lowering an operation emits goes where the operation goes with some numbers:
behind code that goes on, the label of the next operation has to follow. -/
structure Routed (cx : Context) (s t : LowerState) (xs : List Number) (dest : Option Nat)
    (block : List Item) : Prop where
  emits : Emits cx block s t
  isSealed : Sealed t.code.body
  goes : t.reachable = true ∨ (cx.body.following cx.current).isSome = true
  departs : ∀ next back below locals, cx.body.following cx.current = some next →
    (t.reachable = true → ∃ rest, back = .bind (.source next) :: rest) →
    Departs t.pool (block ++ back) ⟨values xs ++ below, locals⟩ (.source (dest.getD next))
      ⟨below, locals⟩

section Routes

variable {xs : List Number} {ty : Ty} {rest : List Ty} {target : Nat} {targets : List Nat}

/-- A branch on a test goes to its target or on. -/
theorem routed_of_tested {code : List Item} {test : Instr} {taken : Bool} {u : LowerState}
    {a : Unit} (hcode : Appends cx code s u) (htested : Tested u.pool code test xs taken)
    (h : branchTo test (.source target) cx u = .ok a t) (hpool : s.pool.Indexed)
    (hreach : s.reachable = true) :
    Routed cx s t xs (if taken then some target else none)
      (code ++ [.branch test (.source target)]) := by
  obtain ⟨hbranch, -⟩ := branchTo_appends h trivial
  have happends := hcode.trans hbranch
  have hgoes : t.reachable = true := happends.reachable.trans hreach
  refine ⟨happends.toEmits, ⟨_, _, hbranch.body, rfl, nofun⟩, .inl hgoes, ?_⟩
  intro next back below locals _ hback
  obtain ⟨rest, rfl⟩ := hback hgoes
  have hpart := hbranch.partOf (hcode.indexed hpool) (.refl _)
  have hdeparts : Departs t.pool (code ++ .branch test (.source target) ::
      .bind (.source next) :: rest) ⟨values xs ++ below, locals⟩
      (if taken then .source target else .source next) ⟨below, locals⟩ :=
    (htested.grow hpart).departs below locals
  rw [List.append_assoc, List.singleton_append]
  cases taken <;> exact hdeparts

private theorem branchWhen_routed {way : Comparison} {unsigned : Bool} {a b : Ty} {u : Unit}
    (h : branchWhen way unsigned target cx s = .ok u t) (hpool : s.pool.Indexed)
    (hreach : s.reachable = true) (hstack : s.frames.live.stack = b :: a :: rest)
    (hb : b.stackKind? = some (.num y.kind)) (ha : a.stackKind? = some (.num x.kind)) :
    ∃ taken block, x.holds? way unsigned y = some taken ∧
      Routed cx s t [y, x] (if taken then some target else none) block := by
  obtain ⟨test, v, hcomparison, hbranch⟩ := lower_bind_ok h
  obtain ⟨code, taken, hholds, hcode, htested⟩ :=
    comparison_tested hcomparison hpool hstack hb ha
  exact ⟨taken, _, hholds, routed_of_tested hcode htested hbranch hpool hreach⟩

private theorem branchIf_routed {truth : Bool} {u : Unit} (h : branchIf truth target cx s = .ok u t)
    (hpool : s.pool.Indexed) (hreach : s.reachable = true)
    (hstack : s.frames.live.stack = ty :: rest) (hty : ty.stackKind? = some (.num x.kind)) :
    ∃ block, Routed cx s t [x] (if (x.toNat != 0) == truth then some target else none) block := by
  obtain ⟨⟨ty', kind⟩, v, hpop, hrest⟩ := lower_bind_ok h
  obtain ⟨hpops, hkind⟩ := popKind_pops hpop
  obtain ⟨rfl, -⟩ := List.cons.inj (hpops.stack.symm.trans hstack)
  cases hkind.symm.trans hty
  clear h
  cases x with
  | int x =>
    have hbranch : branchTo (.ifZero (truthTest truth) 0) (.source target) cx v = .ok u t := hrest
    refine ⟨_, routed_of_tested hpops.appends ?_ hbranch hpool hreach⟩
    show Tested _ _ _ _ ((x.toNat != 0) == truth)
    rw [← compareBits_truthTest]
    exact tested_ifZero
  | long x =>
    obtain ⟨v₁, hzero, -, hrest⟩ := emit_bind hrest
    obtain ⟨v₂, hcompare, -, hrest⟩ := emit_bind hrest
    obtain ⟨v₃, hdepth, -, -, hbranch⟩ := noteDepth_bind hrest
    have happends := ((hpops.appends.trans hzero).trans hcompare).trans hdepth
    refine ⟨_, routed_of_tested happends ?_ hbranch hpool hreach⟩
    show Tested _ [.instr (.const .long 0), .instr .lcmp] _ _ ((x.toNat != 0) == truth)
    rw [← compareBits_truthTest]
    exact (tested_result (replaces_lcmp x 0) (holds_sign_long _ x 0)).cons (replaces_zero _)

/-- A switch without targets drops the number, and any other is a jump table. -/
private theorem switch_routed {u : Unit} (h : switch cx.current targets cx s = .ok u t)
    (hreach : s.reachable = true)
    (hstack : s.frames.live.stack = ty :: rest) (hty : ty.stackKind? = some (.num x.kind)) :
    ∃ block, Routed cx s t [x] targets[x.toNat]? block := by
  have hswitch := read_bind_ok h
  clear h
  cases hnext : cx.body.following cx.current with
  | none =>
    rw [hnext] at hswitch
    cases hswitch
  | some next =>
  rw [hnext] at hswitch
  dsimp only at hswitch
  split at hswitch
  · next hempty =>
    cases List.isEmpty_iff.mp hempty
    obtain ⟨ty', hstack', happends⟩ := dropTop_appends hswitch
    obtain ⟨rfl, -⟩ := List.cons.inj (hstack'.symm.trans hstack)
    rw [Ty.category_of_stackKind? hty] at happends
    have hgoes : t.reachable = true := happends.reachable.trans hreach
    refine ⟨_, happends.toEmits, ⟨_, _, happends.body, rfl, ?_⟩, .inl hgoes, ?_⟩
    · unfold Instr.popOf
      split <;> nofun
    · intro next' back below locals _ hback
      obtain ⟨rest, rfl⟩ := hback hgoes
      exact ((replaces_popOf x).carries below locals).departs departs_bind
  · have hsource : ∀ label ∈ targets.map Label.source ++ [.source next],
        EntryStack cx label rest := by
      intro label hlabel
      rcases List.mem_append.mp hlabel with harm | hdefault
      · obtain ⟨o, -, rfl⟩ := List.mem_map.mp harm
        trivial
      · cases List.mem_singleton.mp hdefault
        trivial
    obtain ⟨hkind, hcloses⟩ := switchTo_closes hswitch hstack hsource
    cases x with
    | long x => cases hkind.symm.trans hty
    | int x =>
    refine ⟨_, hcloses.toEmits, hcloses.isSealed, .inr (by rw [hnext]; rfl), ?_⟩
    intro next' back below locals hnext' _
    cases hnext.symm.trans hnext'
    have harm : (targets.map Label.source).getD x.toNat (.source next)
        = .source (targets[(Number.int x).toNat]?.getD next) := by
      show _ = Label.source (targets[x.toNat]?.getD next)
      rw [List.getD_eq_getElem?_getD, List.getElem?_map]
      cases targets[x.toNat]? <;> rfl
    rw [← harm]
    exact departs_table rfl

/-- The code of every operation that decides by numbers goes where the operation goes. -/
private theorem lowerOp_routed {op : Op} {types : List Ty} {dest : Option Nat} {u : Unit}
    (h : lowerOp cx.current op cx s = .ok u t) (hpool : s.pool.Indexed)
    (hreach : s.reachable = true) (hstack : s.frames.live.stack = types ++ rest)
    (hkinds : List.Forall₂ (fun x ty => ty.stackKind? = some (.num x.kind)) xs types)
    (hroute : Source.route? op xs = some dest) : ∃ block, Routed cx s t xs dest block := by
  unfold Source.route? at hroute
  split at hroute
  · next way unsigned target y x =>
    cases hkinds with
    | cons hy hkinds =>
    cases hkinds with
    | cons hx hnil =>
    cases hnil
    obtain ⟨taken, block, hholds, hrouted⟩ := branchWhen_routed h hpool hreach hstack hy hx
    rw [hholds] at hroute
    cases hroute
    exact ⟨block, hrouted⟩
  · cases hkinds with
    | cons hx hnil =>
    cases hnil
    cases hroute
    exact branchIf_routed h hpool hreach hstack hx
  · cases hkinds with
    | cons hx hnil =>
    cases hnil
    cases hroute
    exact switch_routed h hreach hstack hx
  · cases hroute

end Routes

-- ==== what follows a test

section Visits

variable {config : Config} {T : TypeTable} {pool : Pool} {body : Body} {e : Nat × Op}
  {start before entry after final : LowerState}

private theorem handlerAt?_of_enter {o : Nat} {a : Unit} (h : enter o (cx.atOffset o) s = .ok a t)
    (hreach : s.reachable = true) : cx.regions.handlerAt? o = none := by
  cases hr : cx.regions.handlerAt? o with
  | none => rfl
  | some r =>
    have hhandler : (cx.atOffset o).regions.handlerAt? (cx.atOffset o).current = some r := hr
    obtain ⟨_, u, hdispatch, -⟩ := lower_bind_ok
      ((congrFun (enter_of_handler hhandler) s).symm.trans h)
    have hfirst := get_bind_ok (read_bind_ok hdispatch)
    rw [if_pos hreach] at hfirst
    cases hfirst

/-- Code that goes on goes on to the label of the next operation. -/
private theorem body_of_enter {o : Nat} {a : Unit} (h : enter o (cx.atOffset o) s = .ok a t)
    (hreach : s.reachable = true) : t.code.body = .bind (.source o) :: s.code.body := by
  have hhandler : (cx.atOffset o).regions.handlerAt? (cx.atOffset o).current = none :=
    handlerAt?_of_enter h hreach
  obtain ⟨u, harrival, hsaves⟩ := arrive_ok
    ((congrFun (enter_of_no_handler hhandler) s).symm.trans h)
  rw [hsaves.mends.body]
  cases harrival with
  | merged _ _ hsave => exact congrArg (_ :: ·) hsave.mends.body
  | pass => rfl
  | loaded hnot | defer _ hnot => cases hreach.symm.trans hnot

/-- Behind code that goes on, the finished code has the label of the next operation. -/
theorem Visit.followed (h : Visit config T pool body e cx start before entry after final)
    (hordered : body.code.Pairwise fun a b => a.1 < b.1) (he : e ∈ body.code)
    (hsealed : Sealed after.code.body) (hreach : after.reachable = true) :
    ∃ next, body.following e.1 = some next ∧
      .bind (.source next) :: after.code.body <:+ final.code.body := by
  obtain ⟨-, -, hbefore, -⟩ := Body.exists_after hordered he
  obtain ⟨post, hcode, -, hrest⟩ := h.behind hordered he
  have hfollowing := Body.following_eq hcode hbefore
  cases post with
  | nil =>
    -- the run would end in code that goes on
    cases hrest
    cases hreach.symm.trans (lowerAll_ok h.completed).2
  | cons d post =>
    have hd : d ∈ body.code := by
      rw [hcode]
      simp
    obtain ⟨before', entry', after', h'⟩ := h.exists_other hordered hd
    cases h.next hordered h' he hfollowing
    refine ⟨d.1, hfollowing, ?_⟩
    obtain ⟨p, hsteps⟩ := h'.stepsFinal hd []
    refine hsteps.keeps
      (I := fun b => [Item.bind (.source d.1)] ++ after.code.body <:+ b.1.code.body)
      (fun _ _ _ _ hb hstep => hstep.stays_labelled (by simp [Item.label?]) hsealed hb) ?_
    rw [body_of_enter h'.enters hreach]
    exact List.suffix_rfl

end Visits

-- ==== addresses

private theorem lookup_sourceOffsets {labels : LabelMap Nat} {o addr : Nat}
    (h : labels[Label.source o]? = some addr) : (sourceOffsets labels).lookup o = some addr :=
  lookup_of_mem (List.pairwise_map.mpr ((ascending_sourceOffsets labels).imp Nat.ne_of_lt))
    (mem_sourceOffsets_iff.mpr h)

-- ==== where they go

/-- Branches and switches on integers go where the source goes, in a body with ascending
offsets. Whatever numbers a branch, a truth test or a switch finds on the stack, and
whatever lies below them, the code at its address leads to the address of the target that
the source chooses or else of the next operation, with the numbers taken off the stack. Both
offsets have an address. -/
theorem branches_go_as_written {config : Config} {T : TypeTable} {pool p : Pool} {body : Body}
    {m : Method} (hpool : pool.Indexed) (hordered : body.code.Pairwise fun a b => a.1 < b.1)
    (h : (lowerMethod config T pool body).result = .ok m)
    (hp : (lowerMethod config T pool body).pool.PartOf p) {o : Nat} {op : Op}
    (he : (o, op) ∈ body.code) {entry : LowerState}
    (hentered : entered? config T pool body o = some entry) {xs : List Number}
    {types below : List Ty} {dest : Option Nat} (hstack : entry.frames.live.stack = types ++ below)
    (hkinds : List.Forall₂ (fun x ty => ty.stackKind? = some (.num x.kind)) xs types)
    (hroute : Source.route? op xs = some dest) :
    ∃ next a b, body.following o = some next ∧ m.sourceOffsets.lookup o = some a ∧
      m.sourceOffsets.lookup (dest.getD next) = some b ∧
      ∀ rest locals, ReflTransGen (Goes m.code p) (a, ⟨values xs ++ rest, locals⟩)
        (b, ⟨rest, locals⟩) := by
  obtain ⟨cx, start, before, entry', after, final, hvisit, s, hfinish⟩ :=
    exists_visit h hordered he
  cases hvisit.entered.symm.trans hentered
  obtain ⟨-, rfl, -⟩ := hvisit.started
  obtain ⟨⟨asm, frames, hfinished⟩, -⟩ := exists_finished hfinish
  have hlowers : lowerOp (cx.atOffset o).current op (cx.atOffset o) entry = .ok () after :=
    hvisit.lowers
  obtain ⟨block, hrouted⟩ := lowerOp_routed hlowers
    (hvisit.standingEntry hpool).linked.1 (hvisit.reachableEntry) hstack hkinds hroute
  obtain ⟨bound, hbound⟩ := hvisit.bound
  have hbody := hrouted.emits.body
  rw [hbound] at hbody
  obtain ⟨hstays, hpart⟩ := hvisit.stays hpool he hfinish hrouted.isSealed List.suffix_rfl
  -- the code of the operation, between its label and what is emitted later
  have hitems : ∀ more, more ++ after.code.body = final.code.body → final.code.items
      = (final.code.prologue.reverse.map .instr ++ bound.reverse)
        ++ .bind (.source o) :: (block ++ more.reverse) := by
    intro more hmore
    rw [CodeBuffer.items, ← hmore, hbody]
    simp
  obtain ⟨next, more, hnext, hmore, hback⟩ : ∃ next more, cx.body.following o = some next ∧
      more ++ after.code.body = final.code.body ∧
      (after.reachable = true → ∃ rest, more.reverse = .bind (.source next) :: rest) := by
    cases hreach : after.reachable with
    | true =>
      obtain ⟨next, hnext, more, hmore⟩ :=
        hvisit.followed hordered he hrouted.isSealed hreach
      refine ⟨next, more ++ [.bind (.source next)], hnext, ?_, fun _ => ⟨more.reverse, ?_⟩⟩
      · rw [List.append_assoc]
        exact hmore
      · simp
    | false =>
      obtain ⟨next, hnext⟩ := Option.isSome_iff_exists.mp
        (hrouted.goes.resolve_left (by rw [hreach]; exact Bool.false_ne_true))
      obtain ⟨more, hmore⟩ := hstays
      exact ⟨next, more, hnext, hmore, fun hfalse => absurd hfalse Bool.false_ne_true⟩
  have hgoes := fun rest locals => exists_goes_of_departs hfinished.assembled (hitems more hmore)
    (hrouted.departs next more.reverse rest locals hnext hback) (hpart.trans hp)
  obtain ⟨a, b, ha, hb, -⟩ := hgoes [] fun _ => none
  refine ⟨next, a, b, hnext, ?_, ?_, fun rest locals => ?_⟩
  · rw [hfinished.sourceOffsets]
    exact lookup_sourceOffsets ha
  · rw [hfinished.sourceOffsets]
    exact lookup_sourceOffsets hb
  · obtain ⟨a', b', ha', hb', hreach⟩ := hgoes rest locals
    cases ha.symm.trans ha'
    cases hb.symm.trans hb'
    rw [hfinished.code]
    exact hreach

/-- Goes by a number to one of two operations, the later one first. -/
def picks : Body where
  owner := .ref "Pick"
  name := "one"
  kind := .static
  params := [⟨none, .prim .int32⟩]
  locals := []
  returns := none
  code := [(0, .loadArg 0), (1, .switch [4, 3]), (2, .ret), (3, .ret), (4, .ret)]
  handlers := []

theorem previewed_picks : (previewed {} (.ofConfig {}) picks).isSome = true := by
  cbv

private theorem entered_picks :
    (entered? {} (.ofConfig {}) .empty picks 1).map (·.frames.live.stack)
      = some [.prim .int32] := by
  cbv

/-- The number 1 is the second arm, and -1 is beyond all arms. -/
theorem branches_go_as_written_picks :
    ∃ m, (lowerMethod {} (.ofConfig {}) .empty picks).result = .ok m ∧
      (∃ a b, m.sourceOffsets.lookup 1 = some a ∧ m.sourceOffsets.lookup 3 = some b ∧
        ∀ rest locals, ReflTransGen
          (Goes m.code (lowerMethod {} (.ofConfig {}) .empty picks).pool)
          (a, ⟨.int 1 :: rest, locals⟩) (b, ⟨rest, locals⟩)) ∧
      ∃ a b, m.sourceOffsets.lookup 1 = some a ∧ m.sourceOffsets.lookup 2 = some b ∧
        ∀ rest locals, ReflTransGen
          (Goes m.code (lowerMethod {} (.ofConfig {}) .empty picks).pool)
          (a, ⟨.int (-1) :: rest, locals⟩) (b, ⟨rest, locals⟩) := by
  obtain ⟨m, hm⟩ := exists_of_isSome previewed_picks
  obtain ⟨entry, hentered, hstack⟩ := Option.map_eq_some_iff.mp entered_picks
  have hop : (1, .switch [4, 3]) ∈ picks.code := by simp [picks]
  have hstack' : entry.frames.live.stack = [.prim .int32] ++ [] := hstack
  have hgo := fun x : BitVec 32 => branches_go_as_written Pool.indexed_empty (by decide) hm
    (.refl _) hop hentered hstack' (.cons (a := .int x) rfl .nil) rfl
  refine ⟨m, hm, ?_, ?_⟩
  · obtain ⟨next, a, b, -, ha, hb, hgoes⟩ := hgo 1
    exact ⟨a, b, ha, hb, hgoes⟩
  · obtain ⟨next, a, b, hnext, ha, hb, hgoes⟩ := hgo (-1)
    cases hnext
    exact ⟨a, b, ha, hb, hgoes⟩

end Lowering

end BytecodeBridge
