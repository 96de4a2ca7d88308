/-
The code of leaves, and of the ends of final clauses.

A leave goes to its target or, where a finally clause lies on the way, into
that clause with a sentinel that carries the index of the target
(`RegionTree.leaveExit?`). The end of a final clause finds what the clause
was entered with at the bottom of the stack or in a slot (`InFlight`),
throws it again, or goes where the sentinel says: to the label that resumes
the leave with its index. The first end of a clause also emits the code at
those labels, which is a leave from the start of the clause
(`Resuming`).
-/
import BytecodeBridge.Proofs.Lowering.Standing

namespace BytecodeBridge

open Objects

/-- Where a leave goes: to its target, or with a sentinel into the final clause of the
region that relays it. -/
def RegionTree.leaveExit? {Obj : Type} (t : RegionTree) (rt : Runtime Obj) (source target : Nat)
    (locals : Nat → Option (Value Obj)) (calls : List (Call Obj)) : Option (Exit Obj) :=
  match t.planLeave source target with
  | .ok .direct => some (.arrives (.source target) ⟨[], locals, calls⟩)
  | .ok (.relay r index) =>
    (t.regions[r]?.bind Region.finalClause?).map fun (k, _) =>
      .arrives (.dispatch r k) ⟨[.object (rt.sentinel (.ofNat index))], locals,
        calls ++ [.factory (.ofNat index)]⟩
  | .error _ => none

/-- The calls by which the end of a clause learns the index in a sentinel: with one leave
to resume it does not ask. -/
def Region.indexCalls {Obj : Type} (region : Region) (x : Obj) : List (Call Obj) :=
  if region.leaveTargets.length = 1 then [] else [.accessor x]

namespace Lowering

open LowerM

variable {Obj : Type}

/-- Values on the stack that take the slots of some types. -/
def Held (vs : List (Value Obj)) (types : List Ty) : Prop :=
  List.Forall₂ (fun v ty => v.category = ty.category) vs types

/-- What a final clause was entered with is where its end looks for it. -/
def InFlight (region : Region) (types : List Ty) (x : Obj) (vs : List (Value Obj))
    (locals : Nat → Option (Value Obj)) : Prop :=
  Held vs types ∧
    match region.finallySlot with
    | some slot => locals slot = some (.object x)
    | none => vs.getLast? = some (.object x)

section Leaves

variable {rt : Runtime Obj} {cx : Context} {s t : LowerState} {a : Unit}

variable {config : Config} {q : Pool} {vs : List (Value Obj)} {types : List Ty} {rest : List Item}
  {locals : Nat → Option (Value Obj)} {calls : List (Call Obj)} {r : Nat} {region : Region}
  {clause : Clause}

theorem exit?_dropCode {below : List (Value Obj)} (h : Held vs types) :
    exit? config rt q (dropCode types ++ rest) ⟨vs ++ below, locals, calls⟩
      = exit? config rt q rest ⟨below, locals, calls⟩ := by
  induction h with
  | nil => rfl
  | cons hone _ ih => exact (exit?_instr (exec_popOf hone)).trans ih

theorem exit?_dropAll (h : Held vs types) :
    exit? config rt q (dropCode types ++ rest) ⟨vs, locals, calls⟩
      = exit? config rt q rest ⟨[], locals, calls⟩ := by
  have hdropped : exit? config rt q (dropCode types ++ rest) ⟨vs ++ [], locals, calls⟩ = _ :=
    exit?_dropCode h
  rwa [List.append_nil] at hdropped

/-- A leave is code that goes where the leave goes. -/
theorem leave_closes (rt : Runtime Obj) {source target : Nat}
    (h : leave source target cx s = .ok a t) (hpool : s.pool.Indexed) :
    ∃ block, Closes cx block s t ∧
      ∀ q, t.pool.PartOf q → ∀ vs locals calls, Held vs s.frames.live.stack →
        ∃ e, cx.regions.leaveExit? rt source target locals calls = some e ∧
          exit? cx.config rt q block ⟨vs, locals, calls⟩ = some e := by
  obtain ⟨_, u, hdrop, hrest⟩ := lower_bind_ok (read_bind_ok h)
  obtain ⟨hstack, hdrops⟩ := dropDownTo_zero hdrop
  obtain ⟨plan, hplan, hrest⟩ := lift_bind_ok hrest
  cases plan with
  | direct =>
    refine ⟨_, hdrops.closes (jump_closes hrest trivial), fun q _ vs locals calls hheld => ?_⟩
    refine ⟨_, ?_, exit?_dropAll hheld⟩
    unfold RegionTree.leaveExit?
    rw [hplan]
  | relay r index =>
    obtain ⟨region, hget, hrest⟩ := lift_bind_ok hrest
    cases hfinal : region.finalClause? with
    | none =>
      rw [hfinal] at hrest
      cases hrest
    | some found =>
      obtain ⟨k, clause⟩ := found
      rw [hfinal] at hrest
      dsimp only at hrest
      split at hrest
      · cases hrest
      · obtain ⟨i, u₁, hconst, hrest⟩ := lower_bind_ok hrest
        obtain ⟨happends₁, hrun, -⟩ := onPool_appends (Instr.chooses_intConstant _).growing hconst
        obtain ⟨u₂, happends₂, -, hrest⟩ := emit_bind hrest
        obtain ⟨u₃, happends₃, -, -, hrest⟩ := noteDepth_bind hrest
        obtain ⟨_, u₄, hcall, hrest⟩ := lower_bind_ok hrest
        obtain ⟨_, u₅, hpush, hjump⟩ := lower_bind_ok hrest
        have hload := (hdrops.trans happends₁).trans (happends₂.trans happends₃)
        obtain ⟨m, happends₄, -, hmethod⟩ := invokeStatic_appends hcall (hload.indexed hpool)
        obtain ⟨happends₅, hstack₅⟩ := pushNew_appends hpush
        have hentered : EntryStack cx (.dispatch r k) u₅.frames.live.stack :=
          fun _ => ⟨_, _, hstack₅, rfl⟩
        have hjumps := happends₅.closes (jump_closes hjump hentered)
        have hcalls := happends₄.closes hjumps
        have hindexed₁ := (hdrops.trans happends₁).indexed hpool
        have hindexed₃ := hload.indexed hpool
        refine ⟨_, hload.closes hcalls, fun q hq vs locals calls hheld =>
          ⟨.arrives (.dispatch r k) ⟨[.object (rt.sentinel (.ofNat index))], locals,
            calls ++ [.factory (.ofNat index)]⟩, ?_, ?_⟩⟩
        · unfold RegionTree.leaveExit?
          rw [hplan]
          dsimp only
          rw [RegionTree.getElem?_of_get hget, Option.bind_some, hfinal]
          rfl
        · have hpart₁ := ((happends₂.trans happends₃).closes hcalls).partOf hindexed₁ hq
          have hpart₄ := hjumps.partOf (happends₄.indexed hindexed₃) hq
          simp only [List.append_assoc, List.nil_append, List.cons_append]
          rw [exit?_dropAll hheld,
            exit?_instr (exec_intConstant (hdrops.indexed hpool) hrun hpart₁),
            exit?_instr (exec_factory (hmethod q hpart₄)), exit?_goto]

-- ==== resumptions

/-- The code of a resumed leave: entered with nothing on the stack, it goes where the
leave from the start of the clause goes. -/
def Resumes (cx : Context) (rt : Runtime Obj) (clause : Clause) (q : Pool) (entry : Nat × Nat)
    (block : List Item) : Prop :=
  ∀ locals calls, ∃ e,
    cx.regions.leaveExit? rt clause.start entry.1 locals calls = some e ∧
      exit? cx.config rt q block ⟨[], locals, calls⟩ = some e

private theorem emitResumptions_emits (rt : Runtime Obj)
    (h : emitResumptions r region clause cx s = .ok a t) (hpool : s.pool.Indexed)
    (hentry : ∀ i, Entry cx (.resume r i) s.frames)
    (hstack : s.reachable = true → s.frames.live.stack = []) (hne : region.leaveTargets ≠ []) :
    ∃ code, Emits cx code s t ∧ t.reachable = false ∧ Sealed t.code.body ∧
      ∀ q, t.pool.PartOf q →
        Labelled (fun e => .resume r e.2) (Resumes cx rt clause q) region.leaveTargets.zipIdx
          code := by
  have hround : ∀ e ∈ region.leaveTargets.zipIdx, ∀ s t u,
      ((∀ i, Entry cx (.resume r i) s.frames) ∧
        (s.reachable = true → s.frames.live.stack = [])) → s.pool.Indexed →
      (bindLabel (.resume r e.2) >>= fun _ => leave clause.start e.1) cx s = .ok u t →
      ∃ block, Emits cx (.bind (.resume r e.2) :: block) s t ∧
        ((∀ i, Entry cx (.resume r i) t.frames) ∧ t.reachable = false ∧ Sealed t.code.body) ∧
        ∀ q, t.pool.PartOf q → Resumes cx rt clause q e block := by
    rintro ⟨target, i⟩ - s t u ⟨hentry, hstack⟩ hpool hrun
    obtain ⟨_, v, hbind, hleave⟩ := lower_bind_ok hrun
    obtain ⟨hbinds, hreach, -, hempty, -⟩ := bindLabel_emits hbind (hentry i) hstack
    obtain ⟨block, hcloses, hexit⟩ := leave_closes rt hleave (hbinds.indexed hpool)
    refine ⟨block, hbinds.trans hcloses.toEmits, ⟨fun j => ?_, hcloses.reachable,
      hcloses.isSealed⟩, fun q hq locals calls => ?_⟩
    · exact hcloses.entries _ (hbinds.entries _ (hentry j))
    · refine hexit q hq [] locals calls ?_
      rw [show v.frames.live.stack = [] from hempty]
      exact .nil
  rw [emitResumptions_eq] at h
  obtain ⟨code, hcode, hend, hlabelled⟩ := forM_emits hround
    (fun t ht => ⟨ht.1, fun hgoes => by cases hgoes.symm.trans ht.2.1⟩) ⟨hentry, hstack⟩ hpool h
  obtain ⟨-, hreach, hsealed⟩ := hend (List.zipIdx_eq_nil_iff.not.mpr hne)
  exact ⟨code, hcode, hreach, hsealed, hlabelled⟩

-- ==== ends of clauses

private theorem tableLabel_resume {i n : Nat} (hi : i < n) :
    tableLabel (.resume r (n - 1)) 0 ((List.range n).map (.resume r)) i = .resume r i := by
  unfold tableLabel
  rw [if_neg (by omega), List.getD_eq_getElem?_getD, List.getElem?_map, Int.sub_zero,
    Int.toNat_natCast, List.getElem?_range hi]
  rfl

private theorem switchOnSentinel_closes {n sentinel : Nat} {ty : Ty}
    (h : switchOnSentinel r n sentinel cx s = .ok a t) (hpool : s.pool.Indexed)
    (hstack : s.frames.live.stack = [ty]) :
    ∃ accessor, Closes cx [.instr (.checkCast sentinel), .instr (.invokeVirtual accessor),
        .table 0 ((List.range n).map (.resume r)) (.resume r (n - 1))] s t ∧
      ∀ q, t.pool.PartOf q → q.method? accessor = some cx.config.sentinelAccessor := by
  obtain ⟨u₁, happends₁, hframes₁, hrest⟩ := emit_bind (read_bind_ok h)
  obtain ⟨accessor, u₂, hindex, hrest⟩ := lower_bind_ok hrest
  obtain ⟨happends₂, hrun, hframes₂, -⟩ := onPool_appends (Pool.growing_methodRef _ _ _ _) hindex
  obtain ⟨u₃, happends₃, hframes₃, hrest⟩ := emit_bind hrest
  obtain ⟨_, u₄, hdiscard, hrest⟩ := lower_bind_ok hrest
  obtain ⟨_, u₅, hpush, hswitch⟩ := lower_bind_ok hrest
  obtain ⟨ty', hpop⟩ := discard_ok hdiscard
  have hpops := pop_pops hpop
  obtain ⟨happends₅, hstack₅⟩ := pushNew_appends hpush
  have hbelow : u₄.frames.live.stack = [] := by
    have hpopped := hpops.stack
    rw [hframes₃, hframes₂, hframes₁, hstack] at hpopped
    exact (List.cons.inj hpopped).2.symm
  rw [hbelow] at hstack₅
  obtain ⟨-, hswitches⟩ := switchTo_closes hswitch hstack₅ fun label hlabel => by
    rcases List.mem_append.mp hlabel with hlabel | hlabel
    · obtain ⟨i, -, rfl⟩ := List.mem_map.mp hlabel
      exact rfl
    · cases List.mem_singleton.mp hlabel
      exact rfl
  have hback := (happends₃.trans (hpops.appends.trans happends₅)).closes hswitches
  have hindexed := (happends₁.trans happends₂).indexed hpool
  refine ⟨accessor, (happends₁.trans happends₂).closes hback, fun q hq => ?_⟩
  exact Pool.method?_of_methodRef (happends₁.indexed hpool) hrun (hback.partOf hindexed hq)

/-- The end of a clause once it has found a sentinel: it goes to the label that resumes
the leave, and the code there is part of the first end. -/
structure Selecting (cx : Context) (rt : Runtime Obj) (r : Nat) (region : Region)
    (clause : Clause) (first : Bool) (q : Pool) (block : List Item) : Prop where
  selects : ∀ x locals calls i, rt.isInstance x cx.config.leaveSentinel.owner = true →
    i < region.leaveTargets.length → (rt.index x).toInt = i →
    exit? cx.config rt q block ⟨[.object x], locals, calls⟩
      = some (.arrives (.resume r i) ⟨[], locals, calls ++ region.indexCalls x⟩)
  resumes : first = true → ∀ e ∈ region.leaveTargets.zipIdx, ∃ pre code post,
    block = pre ++ (.bind (.resume r e.2) :: code ++ post) ∧ Resumes cx rt clause q e code

private theorem selecting_emits (rt : Runtime Obj) {sentinel : Nat} {first : Bool} {ty : Ty}
    (h : (if region.leaveTargets.length = 1 then do
        dropTop
        if first = true then
          emitResumptions r region clause
        else
          jump (.resume r 0)
      else do
        switchOnSentinel r region.leaveTargets.length sentinel
        if first = true then
          emitResumptions r region clause
      : LowerM Unit) cx s = .ok a t) (hpool : s.pool.Indexed) (hstack : s.frames.live.stack = [ty])
    (hty : ty.category = 1) (hne : region.leaveTargets ≠ [])
    (hentry : first = true → ∀ i, Entry cx (.resume r i) s.frames) :
    ∃ block, Emits cx block s t ∧ t.reachable = false ∧ Sealed t.code.body ∧
      ∀ q, t.pool.PartOf q → q.class? sentinel = some cx.config.leaveSentinel.owner →
        Selecting cx rt r region clause first q block := by
  split at h
  · next hone =>
    obtain ⟨target, htargets⟩ := List.length_eq_one_iff.mp hone
    obtain ⟨_, u, hdrop, hrest⟩ := lower_bind_ok h
    obtain ⟨ty', hdropped, hdrops⟩ := dropTop_appends hdrop
    rw [hstack] at hdropped
    obtain ⟨rfl, hbelow⟩ := List.cons.inj hdropped
    have hcalls : ∀ x : Obj, region.indexCalls x = [] := fun x => if_pos hone
    -- with one leave to resume, the index can only be the first
    have hfirst : ∀ {i}, i < region.leaveTargets.length → i = 0 := by
      intro i hi
      omega
    split at hrest
    · next hnew =>
      obtain ⟨code, hcode, hreach, hsealed, hlabelled⟩ := emitResumptions_emits rt hrest
        (hdrops.indexed hpool) (fun i => hdrops.entries _ (hentry hnew i)) (fun _ => hbelow.symm)
        hne
      refine ⟨_, hdrops.toEmits.trans hcode, hreach, hsealed, fun q hq _ => ⟨?_, fun _ e he => ?_⟩⟩
      · intro x locals calls i _ hi _
        cases hfirst hi
        have hhead := hlabelled q hq
        rw [htargets] at hhead
        cases hhead
        rw [hcalls, List.append_nil]
        exact exit?_instr (exec_popOf (v := .object x) hty.symm)
      · obtain ⟨pre, block, post, rfl, hblock⟩ := (hlabelled q hq).exists_block he
        exact ⟨_ :: pre, block, post, rfl, hblock⟩
    · next hold =>
      have hjumps := jump_closes hrest hbelow.symm
      have hall := hdrops.closes hjumps
      refine ⟨_, hall.toEmits, hall.reachable, hall.isSealed, fun q hq _ =>
        ⟨?_, fun hnew => absurd hnew hold⟩⟩
      intro x locals calls i _ hi _
      cases hfirst hi
      rw [hcalls, List.append_nil]
      exact exit?_instr (exec_popOf (v := .object x) hty.symm)
  · next hmany =>
    obtain ⟨_, u, hswitch, hrest⟩ := lower_bind_ok h
    obtain ⟨accessor, hcloses, hmethod⟩ := switchOnSentinel_closes hswitch hpool hstack
    have hselects : ∀ q, u.pool.PartOf q →
        q.class? sentinel = some cx.config.leaveSentinel.owner → ∀ x locals calls i rest,
        rt.isInstance x cx.config.leaveSentinel.owner = true →
        i < region.leaveTargets.length → (rt.index x).toInt = i →
        exit? cx.config rt q (.instr (.checkCast sentinel) :: .instr (.invokeVirtual accessor) ::
            .table 0 ((List.range region.leaveTargets.length).map (.resume r))
              (.resume r (region.leaveTargets.length - 1)) :: rest)
            ⟨[.object x], locals, calls⟩
          = some (.arrives (.resume r i) ⟨[], locals, calls ++ region.indexCalls x⟩) := by
      intro q hq hclass x locals calls i rest hinstance hi hindex
      rw [exit?_instr (exec_checkCast hclass hinstance), exit?_instr (exec_accessor (hmethod q hq))]
      show some (Exit.arrives (tableLabel _ 0 _ (rt.index x).toInt) _) = _
      rw [hindex, tableLabel_resume hi, Region.indexCalls, if_neg hmany]
    split at hrest
    · next hnew =>
      have hindexed := hcloses.indexed hpool
      obtain ⟨code, hcode, hreach, hsealed, hlabelled⟩ := emitResumptions_emits rt hrest
        hindexed (fun i => hcloses.entries _ (hentry hnew i))
        (fun hgoes => by cases hgoes.symm.trans hcloses.reachable) hne
      refine ⟨_, hcloses.toEmits.trans hcode, hreach, hsealed, fun q hq hclass =>
        ⟨fun x locals calls i => ?_, fun _ e he => ?_⟩⟩
      · exact hselects q (hcode.partOf hindexed hq) hclass x locals calls i _
      · obtain ⟨pre, block, post, rfl, hblock⟩ := (hlabelled q hq).exists_block he
        exact ⟨_ ++ pre, block, post, (List.append_assoc _ _ _).symm, hblock⟩
    · next hold =>
      cases hrest
      exact ⟨_, hcloses.toEmits, hcloses.reachable, hcloses.isSealed, fun q hq hclass =>
        ⟨fun x locals calls i => hselects q hq hclass x locals calls i [],
          fun hnew => absurd hnew hold⟩⟩

/-- The end of a finally clause that leaves are relayed through, with what the clause was
entered with on the stack: it is thrown on unless it is a sentinel. -/
def Resuming (cx : Context) (rt : Runtime Obj) (r : Nat) (region : Region) (clause : Clause)
    (first : Bool) (q : Pool) (block : List Item) : Prop :=
  ∃ selected front back, block = front ++ .bind selected :: back ∧
    (∀ x locals calls, exit? cx.config rt q front ⟨[.object x], locals, calls⟩
      = some (if rt.isInstance x cx.config.leaveSentinel.owner then
          .arrives selected ⟨[.object x], locals, calls⟩ else .throws x calls)) ∧
    Selecting cx rt r region clause first q back

private theorem resumeLeaves_emits (rt : Runtime Obj)
    (h : resumeLeaves r region clause cx s = .ok a t) (hstanding : Standing cx s)
    (hstack : s.frames.live.stack.length ≤ 1) (hne : region.leaveTargets ≠ []) :
    ∃ block ty, Emits cx block s t ∧ t.reachable = false ∧ Sealed t.code.body ∧
      s.frames.live.stack = [ty] ∧ ty.stackKind? = some .reference ∧
      ∀ q, t.pool.PartOf q →
        Resuming cx rt r region clause (!s.resumed.contains r) q block := by
  have hpool := hstanding.linked.indexed
  obtain ⟨sentinel, u₁, hclass, hrest⟩ := lower_bind_ok (read_bind_ok h)
  obtain ⟨selected, u₂, hfresh, hrest⟩ := lower_bind_ok hrest
  obtain ⟨u₃, happends₃, hframes₃, hrest⟩ := emit_bind hrest
  obtain ⟨u₄, happends₄, hframes₄, hrest⟩ := emit_bind hrest
  obtain ⟨u₅, happends₅, hlive₅, hframes₅, hrest⟩ := noteDepth_bind hrest
  obtain ⟨_, u₆, hbranch, hrest⟩ := lower_bind_ok hrest
  obtain ⟨_, u₇, hmark, hrest⟩ := lower_bind_ok (get_bind_ok hrest)
  obtain ⟨_, u₈, hthrow, hrest⟩ := lower_bind_ok hrest
  obtain ⟨_, u₉, hbind, htail⟩ := lower_bind_ok hrest
  obtain ⟨happends₁, hrun, hframes₁, hnext₁⟩ := onPool_appends (Pool.growing_classRef _) hclass
  obtain ⟨rfl, happends₂, hframes₂⟩ := freshLabel_appends hfresh
  have hfront := (happends₂.trans happends₃).trans (happends₄.trans happends₅)
  have hstack₅ : u₅.frames.live.stack = s.frames.live.stack := by
    rw [hlive₅, hframes₄, hframes₃, hframes₂, hframes₁]
  have hnone : u₅.frames.frameOf (.synthetic u₁.nextLabel) = none := by
    rw [hframes₅, hframes₄, hframes₃, hframes₂, hframes₁]
    exact hstanding.frameOf_eq_none fun hmade => Nat.lt_irrefl _ (hnext₁ ▸ hmade)
  obtain ⟨happends₆, hstack₆⟩ := branchTo_appends hbranch trivial
  obtain ⟨f, hf, hfstack⟩ := frame_of_branchTo hbranch hnone
  have hall₆ := hfront.trans happends₆
  -- noting the resumption concerns nothing else
  have hmarks : Emits cx [] u₆ u₇ ∧ u₇.frames = u₆.frames := by
    cases hmark
    exact ⟨⟨rfl, .refl, fun _ hl => hl⟩, rfl⟩
  obtain ⟨hmarks, hframes₇⟩ := hmarks
  obtain ⟨hthrows, hframes₈, ty, rest, hthrown, hkind⟩ := throwTop_closes hthrow
  -- what is thrown on is all there is on the stack
  rw [hframes₇, hstack₆, hstack₅] at hthrown
  obtain rfl : rest = [] := by simpa [hthrown] using hstack
  obtain ⟨hbinds, -, -, -, hstack₉⟩ := bindLabel_emits hbind (fun _ _ => trivial) fun _ => trivial
  have hstack₉ : u₉.frames.live.stack = [ty] := by
    rw [hstack₉ f hthrows.reachable (by rw [hframes₈, hframes₇, hf]), hfstack, hstack₅, hthrown]
  have hall₈ := (hall₆.toEmits.trans hmarks).trans hthrows.toEmits
  have hall₉ := hall₈.trans hbinds
  rw [hall₆.resumed, happends₁.resumed] at htail
  have hindexed₁ := happends₁.indexed hpool
  have hcategory : ty.category = 1 := Ty.category_of_stackKind? hkind
  obtain ⟨back, hback, hreach, hsealed, hselecting⟩ := selecting_emits rt htail
    (hall₉.indexed hindexed₁) hstack₉ hcategory hne fun hnew i => by
      refine hall₉.entries _ (happends₁.entries _ fun f hf => ?_)
      have hmissing : r ∉ s.resumed := by simpa using hnew
      have hnone : s.frames.frameOf (.resume r i) = none := hstanding.frameOf_eq_none hmissing
      cases hnone.symm.trans hf
  have hall := hall₉.trans hback
  refine ⟨_, ty, happends₁.toEmits.trans hall, hreach, hsealed, hthrown, hkind, fun q hq => ?_⟩
  have hclassOf : q.class? sentinel = some cx.config.leaveSentinel.owner :=
    Pool.class?_of_classRef hpool hrun (hall.partOf hindexed₁ hq)
  refine ⟨.synthetic u₁.nextLabel, [.instr .dup, .instr (.instanceOf sentinel),
    .branch (.ifZero .ne 0) (.synthetic u₁.nextLabel), .instr .athrow], back, rfl,
    fun x locals calls => ?_, hselecting q hq hclassOf⟩
  rw [exit?_if_instance hclassOf, exit?_athrow]
  split <;> rfl

/-- The end of a final clause, with what the clause was entered with on the stack. -/
def Ending (cx : Context) (rt : Runtime Obj) (site : ClauseSite) (first : Bool) (q : Pool)
    (block : List Item) : Prop :=
  if site.clause.kind = .fault ∨ site.region.leaveTargets = [] then block = [.instr .athrow]
  else Resuming cx rt site.regionIndex site.region site.clause first q block

private theorem ending_emits (rt : Runtime Obj) {site : ClauseSite}
    (h : (if (site.clause.kind = .fault || site.region.leaveTargets.isEmpty) = true then throwTop
      else resumeLeaves site.regionIndex site.region site.clause) cx s = .ok a t)
    (hstanding : Standing cx s) (hstack : s.frames.live.stack.length ≤ 1) :
    ∃ block ty, Emits cx block s t ∧ t.reachable = false ∧ Sealed t.code.body ∧
      s.frames.live.stack = [ty] ∧ ty.stackKind? = some .reference ∧
      ∀ q, t.pool.PartOf q →
        Ending cx rt site (!s.resumed.contains site.regionIndex) q block := by
  have hiff : (decide (site.clause.kind = .fault) || site.region.leaveTargets.isEmpty) = true ↔
      site.clause.kind = .fault ∨ site.region.leaveTargets = [] := by simp
  split at h
  · next hthrows =>
    obtain ⟨hcloses, -, ty, rest, hthrown, hkind⟩ := throwTop_closes h
    obtain rfl : rest = [] := by simpa [hthrown] using hstack
    refine ⟨_, ty, hcloses.toEmits, hcloses.reachable, hcloses.isSealed, hthrown, hkind,
      fun q _ => ?_⟩
    rw [Ending, if_pos (hiff.mp hthrows)]
  · next hresumes =>
    rw [hiff] at hresumes
    obtain ⟨block, ty, hemits, hreach, hsealed, hthrown, hkind, hresuming⟩ :=
      resumeLeaves_emits rt h hstanding hstack fun hnil => hresumes (.inr hnil)
    refine ⟨block, ty, hemits, hreach, hsealed, hthrown, hkind, fun q hq => ?_⟩
    rw [Ending, if_neg hresumes]
    exact hresuming q hq

/-- What a clause was entered with is the bottom of the stack, above which all is dropped. -/
private theorem exit?_dropToBottom {x : Obj} (hheld : Held vs types)
    (hlast : vs.getLast? = some (.object x)) :
    exit? config rt q (dropCode (types.take (types.length - 1)) ++ rest) ⟨vs, locals, calls⟩
      = exit? config rt q rest ⟨[.object x], locals, calls⟩ := by
  obtain ⟨front, rfl⟩ := List.getLast?_eq_some_iff.mp hlast
  have hlength : types.length - 1 = front.length := by
    rw [← hheld.length_eq, List.length_append, List.length_singleton, Nat.add_sub_cancel]
  have hfront : Held front (types.take (types.length - 1)) := by
    have htaken := List.forall₂_take (types.length - 1) hheld
    rwa [hlength, List.take_left, ← hlength] at htaken
  exact exit?_dropCode hfront

theorem endFinally_emits (rt : Runtime Obj) {o : Nat} (h : endFinally o cx s = .ok a t)
    (hstanding : Standing cx s) :
    ∃ site front block, cx.regions.finalClauseAt o = .ok site ∧ Emits cx (front ++ block) s t ∧
      t.reachable = false ∧ Sealed t.code.body ∧
      (∀ x vs locals calls q rest, InFlight site.region s.frames.live.stack x vs locals →
        exit? cx.config rt q (front ++ rest) ⟨vs, locals, calls⟩
          = exit? cx.config rt q rest ⟨[.object x], locals, calls⟩) ∧
      ∀ q, t.pool.PartOf q →
        Ending cx rt site (!s.resumed.contains site.regionIndex) q block := by
  obtain ⟨site, hsite, hrest⟩ := lift_bind_ok (read_bind_ok h)
  dsimp only at hrest
  cases hslot : site.region.finallySlot with
  | some slot =>
    rw [hslot] at hrest
    obtain ⟨_, u₁, hdrop, hrest⟩ := lower_bind_ok hrest
    obtain ⟨_, u₂, hload, hrest⟩ := lower_bind_ok hrest
    obtain ⟨hempty, hdrops⟩ := dropDownTo_zero hdrop
    obtain ⟨ty, kind, hkind, hloads, hstack⟩ := load_appends hload
    rw [hempty] at hstack
    have hfront := hdrops.trans hloads
    obtain ⟨hstanding₁, -⟩ :=
      hstanding.runs (routine_dropDownTo 0).runs (routine_dropDownTo 0).toProper hdrop
    obtain ⟨hstanding₂, -⟩ := hstanding₁.runs (runs_load slot) (proper_load slot) hload
    obtain ⟨block, ty', hblock, hreach, hsealed, hone, href, hending⟩ := ending_emits rt
      hrest hstanding₂ (by rw [hstack]; exact Nat.le_refl 1)
    obtain ⟨rfl, -⟩ := List.cons.inj (hstack.symm.trans hone)
    cases hkind.symm.trans href
    refine ⟨site, _, block, hsite, hfront.toEmits.trans hblock, hreach, hsealed, ?_, ?_⟩
    · rintro x vs locals calls q rest ⟨hheld, hslotOf⟩
      rw [hslot] at hslotOf
      rw [List.append_assoc, exit?_dropAll hheld]
      exact exit?_instr (exec_load hslotOf)
    · rwa [hfront.resumed] at hending
  | none =>
    rw [hslot] at hrest
    obtain ⟨_, u, hdrop, hrest⟩ := lower_bind_ok hrest
    obtain ⟨hstack, hdrops⟩ := dropDownTo_appends hdrop
    have hlength : u.frames.live.stack.length ≤ 1 := by
      rw [hstack, List.length_drop]
      omega
    obtain ⟨hstanding₁, -⟩ :=
      hstanding.runs (routine_dropDownTo 1).runs (routine_dropDownTo 1).toProper hdrop
    obtain ⟨block, -, hblock, hreach, hsealed, -, -, hending⟩ := ending_emits rt
      hrest hstanding₁ hlength
    refine ⟨site, _, block, hsite, hdrops.toEmits.trans hblock, hreach, hsealed, ?_, ?_⟩
    · rintro x vs locals calls q rest ⟨hheld, hlast⟩
      rw [hslot] at hlast
      exact exit?_dropToBottom hheld hlast
    · rwa [hdrops.resumed] at hending

end Leaves

end Lowering

end BytecodeBridge
