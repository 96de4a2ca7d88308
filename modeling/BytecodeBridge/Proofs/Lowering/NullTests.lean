/-
Comparisons with null.

A reference that is compared with a null just pushed is tested for null
instead, and the instruction that pushed the null is taken back. Between
that instruction and the test lie labels of operations that emit nothing.
Taking it back is safe if control comes to those labels in one way only,
through the instruction (`Trail.of_labels`). The labels have no frame and
are no targets when this is decided, and they get no frame later: what
transfers to a label saves a frame there first, and only to targets, to
labels with a frame, and to labels that are still to come.
-/
import BytecodeBridge.Proofs.Lowering.Integers
import BytecodeBridge.Proofs.Lowering.Publication
import BytecodeBridge.Proofs.Lowering.Standing

namespace BytecodeBridge

-- ==== trails

/-- The items that control has gone through on some way to a place in code, the latest
first: on from one to the next, along branches and tables, and to a handler from wherever
something may be thrown. -/
inductive Trail (items : List Item) : List Item → Nat → Prop where
  | start : Trail items [] 0
  | next {trail : List Item} {k : Nat} {item : Item} (h : Trail items trail k)
      (hitem : items[k]? = some item) (hgo : item.leaves = false) :
      Trail items (item :: trail) (k + 1)
  | jump {trail : List Item} {k dest : Nat} {item : Item} {label : Label} (h : Trail items trail k)
      (hitem : items[k]? = some item) (hlabel : label ∈ item.targets)
      (hdest : items[dest]? = some (.bind label)) : Trail items (item :: trail) dest
  | throw {trail : List Item} {k dest r : Nat} (h : Trail items trail k)
      (hdest : items[dest]? = some (.bind (.handler r))) : Trail items trail dest

/-- The labels of some operations, in order. -/
def bindSources (offsets : List Nat) : List Item :=
  offsets.map fun o => .bind (.source o)

@[simp] theorem length_bindSources (offsets : List Nat) :
    (bindSources offsets).length = offsets.length :=
  List.length_map _

/-- Control comes from the place in front, unless something transfers to the place. -/
theorem Trail.of_succ {items trail : List Item} {k : Nat} (h : Trail items trail (k + 1))
    (hplace : ∀ label, items[k + 1]? = some (.bind label) →
      (∀ r, label ≠ .handler r) ∧ ∀ item ∈ items, label ∉ item.targets) :
    ∃ item rest, trail = item :: rest ∧ items[k]? = some item ∧ Trail items rest k := by
  cases h with
  | next h hitem => exact ⟨_, _, rfl, hitem, h⟩
  | jump _ hitem hlabel hdest =>
    exact absurd hlabel ((hplace _ hdest).2 _ (List.mem_of_getElem? hitem))
  | throw _ hdest => exact absurd rfl ((hplace _ hdest).1 _)

/-- Control comes to the item behind labels that nothing transfers to by way of the item in
front of them. -/
theorem Trail.of_labels {front back : List Item} {first last : Item} {offsets : List Nat}
    (hlast : last.label? = none)
    (hnone : ∀ item ∈ front ++ first :: (bindSources offsets ++ last :: back), ∀ o ∈ offsets,
      Label.source o ∉ item.targets)
    {trail : List Item} {j : Nat} (hj : j ≤ offsets.length)
    (h : Trail (front ++ first :: (bindSources offsets ++ last :: back)) trail
      (front.length + j + 1)) :
    ∃ rest, trail = (bindSources (offsets.take j)).reverse ++ first :: rest := by
  generalize hitems : front ++ first :: (bindSources offsets ++ last :: back) = items at h hnone
  have hbehind : ∀ i, items[front.length + i]?
      = (first :: (bindSources offsets ++ last :: back))[i]? := by
    intro i
    rw [← hitems, List.getElem?_append_right (by omega), Nat.add_sub_cancel_left]
  have hlabels : ∀ i o, offsets[i]? = some o →
      items[front.length + i + 1]? = some (.bind (.source o)) := by
    intro i o hi
    have hlt := (List.getElem?_eq_some_iff.mp hi).1
    rw [Nat.add_assoc, hbehind, List.getElem?_cons_succ,
      List.getElem?_append_left (by simpa using hlt), bindSources, List.getElem?_map, hi]
    rfl
  -- nothing transfers to the places behind the first item, up to the last
  have hplace : ∀ i ≤ offsets.length, ∀ label, items[front.length + i + 1]? = some (.bind label) →
      (∀ r, label ≠ .handler r) ∧ ∀ item ∈ items, label ∉ item.targets := by
    intro i hi label hget
    rcases Nat.lt_or_eq_of_le hi with hlt | rfl
    · rw [hlabels i _ (List.getElem?_eq_getElem hlt)] at hget
      cases hget
      exact ⟨nofun, fun item hitem => hnone item hitem _ (List.getElem_mem hlt)⟩
    · rw [Nat.add_assoc, hbehind, List.getElem?_cons_succ,
        List.getElem?_append_right (by simp)] at hget
      simp only [length_bindSources, Nat.sub_self, List.getElem?_cons_zero,
        Option.some.injEq] at hget
      rw [hget] at hlast
      cases hlast
  induction j generalizing trail with
  | zero =>
    obtain ⟨item, rest, rfl, hitem, -⟩ := h.of_succ (hplace 0 hj)
    cases (hbehind 0).symm.trans hitem
    exact ⟨rest, rfl⟩
  | succ j ih =>
    obtain ⟨item, rest, rfl, hitem, hrest⟩ := h.of_succ (hplace (j + 1) hj)
    obtain ⟨rest, rfl⟩ := ih (Nat.le_of_succ_le hj) hrest
    cases (hlabels j _ (List.getElem?_eq_getElem hj)).symm.trans hitem
    refine ⟨rest, ?_⟩
    simp only [bindSources, List.take_succ_eq_append_getElem hj, List.map_append,
      List.map_cons, List.map_nil, List.reverse_append, List.reverse_cons, List.reverse_nil,
      List.nil_append, List.cons_append]

-- ==== references

/-- What a block that looks at references only makes of a stack of them, the top first, and
the label that it branches to; null is `none`. -/
def refRun? {Obj : Type} [DecidableEq Obj] :
    List Item → List (Option Obj) → Option (List (Option Obj) × Option Label)
  | [], stack => some (stack, none)
  | .bind _ :: rest, stack => refRun? rest stack
  | .instr .constNull :: rest, stack => refRun? rest (none :: stack)
  | .branch (.ifNull null _) label :: rest, v :: stack =>
    if v.isNone == null then some (stack, some label) else refRun? rest stack
  | .branch (.ifSame same _) label :: rest, w :: v :: stack =>
    if (v == w) == same then some (stack, some label) else refRun? rest stack
  | _, _ => none

private theorem refRun?_bindSources {Obj : Type} [DecidableEq Obj] (offsets : List Nat)
    (rest : List Item) (stack : List (Option Obj)) :
    refRun? (bindSources offsets ++ rest) stack = refRun? rest stack := by
  induction offsets with
  | nil => rfl
  | cons o offsets ih =>
    show refRun? (.bind (.source o) :: (bindSources offsets ++ rest)) stack = _
    rw [refRun?, ih]

/-- A test for null takes the branch for the same references as a comparison with a null
that is pushed in front of it. -/
private theorem refRun?_ifNull {Obj : Type} [DecidableEq Obj] (offsets : List Nat) (same : Bool)
    (label : Label) (v : Option Obj) (stack : List (Option Obj)) :
    refRun? (bindSources offsets ++ [.branch (.ifNull same 0) label]) (v :: stack)
        = some (stack, if v.isNone == same then some label else none) ∧
      refRun? (.instr .constNull :: (bindSources offsets ++ [.branch (.ifSame same 0) label]))
          (v :: stack)
        = some (stack, if v.isNone == same then some label else none) := by
  have hnull : (v == none) = v.isNone := by cases v <;> rfl
  constructor
  · rw [refRun?_bindSources]
    simp only [refRun?]
    split <;> rfl
  · rw [refRun?, refRun?_bindSources]
    simp only [refRun?, hnull]
    split <;> rfl

namespace Lowering

open LowerM

variable {cx : Context} {s t : LowerState}

-- ==== retractions

private theorem exists_bindSources {P : Nat → Prop} {mid : List Item}
    (h : ∀ x ∈ mid, ∃ o, x = .bind (.source o) ∧ P o) :
    ∃ offsets, mid = (bindSources offsets).reverse ∧ ∀ o ∈ offsets, P o := by
  induction mid with
  | nil => exact ⟨[], rfl, by simp⟩
  | cons x mid ih =>
    obtain ⟨⟨o, rfl, ho⟩, hmid⟩ := List.forall_mem_cons.mp h
    obtain ⟨offsets, rfl, hoffsets⟩ := ih hmid
    exact ⟨offsets ++ [o], by simp [bindSources],
      List.forall_mem_append.mpr ⟨hoffsets, List.forall_mem_singleton.mpr ho⟩⟩

private theorem getLast?_of_bindSources {offsets : List Nat} {i : Instr} {tail rest : List Item}
    {o : Nat} (h : (bindSources offsets).reverse ++ .instr i :: tail = .bind (.source o) :: rest) :
    offsets.getLast? = some o := by
  rcases List.eq_nil_or_concat offsets with rfl | ⟨init, k, rfl⟩
  · cases h
  · simp only [bindSources, List.concat_eq_append, List.map_append, List.map_cons, List.map_nil,
      List.reverse_append, List.reverse_cons, List.reverse_nil, List.nil_append,
      List.cons_append] at h
    cases (List.cons.inj h).1
    simp

/-- The null that was pushed last is taken back from under labels that have no frame and
are no targets. -/
structure Retracts (cx : Context) (offsets : List Nat) (s t : LowerState) : Prop where
  found : ∃ tail, s.code.body = (bindSources offsets).reverse ++ .instr .constNull :: tail ∧
    t.code.body = (bindSources offsets).reverse ++ tail
  passed : ∀ o ∈ offsets, cx.targets.contains o = false ∧ s.frames.has (.source o) = false

/-- A null is taken back from under labels, or nothing happens. -/
private theorem retractNull_ok {taken : Bool} (h : retractNull cx s = .ok taken t) :
    (taken = true ∧ ∃ offsets, Retracts cx offsets s t) ∨ taken = false ∧ t = s := by
  have hrest := get_bind_ok (read_bind_ok h)
  generalize hretract : s.code.retract? .constNull _ = found at hrest
  change s.code.retract? .constNull (passable cx s) = found at hretract
  cases found with
  | some code =>
    cases hrest
    obtain ⟨rest, hrest, rfl⟩ := Option.map_eq_some_iff.mp hretract
    obtain ⟨mid, tail, hmid, hbody, rfl⟩ := CodeBuffer.retractFrom_passable hrest
    obtain ⟨offsets, rfl, hoffsets⟩ := exists_bindSources
      (P := fun o => cx.targets.contains o = false ∧ s.frames.has (.source o) = false) <| by
        intro x hx
        obtain ⟨label, rfl, hpass⟩ := hmid x hx
        cases label with
        | source o =>
          rw [passable, Bool.and_eq_true, Bool.not_eq_true', Bool.not_eq_true'] at hpass
          exact ⟨o, rfl, hpass⟩
        | _ => cases hpass
    exact .inl ⟨rfl, offsets, ⟨tail, hbody, rfl⟩, hoffsets⟩
  | none =>
    cases hrest
    exact .inr ⟨rfl, rfl⟩

private theorem popKind_recorded {r : Ty × StackKind} (h : popKind cx s = .ok r t) :
    t.code = s.code ∧ t.frames.recorded = s.frames.recorded := by
  obtain ⟨frames, hpop, rfl⟩ := pop_ok (popKind_ok h).1
  obtain ⟨rest, -, rfl⟩ := FrameStore.pop_ok hpop
  exact ⟨rfl, rfl⟩

theorem Emits.suffix {block : List Item} (h : Emits cx block s t) : s.code.body <:+ t.code.body :=
  ⟨block.reverse, h.body.symm⟩

private theorem invokeStatic_suffix {m : MethodSpec} {a : Unit}
    (h : invokeStatic m cx s = .ok a t) : s.code.body <:+ t.code.body := by
  obtain ⟨index, u, hindex, hemit⟩ := lower_bind_ok h
  obtain ⟨happends, -⟩ := onPool_appends (Pool.growing_methodRef _ _ _ _) hindex
  exact (happends.trans (emit_appends hemit).1).suffix

/-- A comparison leaves the code that it finds as it is, or else it compares a reference
with a null that it takes back. -/
private theorem comparison_retracts {way : Comparison} {unsigned : Bool} {test : Instr}
    (h : comparison way unsigned cx s = .ok test t) :
    s.code.body <:+ t.code.body ∨ ∃ same offsets, identityTest? way unsigned = some same ∧
      test = .ifNull same 0 ∧ Retracts cx offsets s t := by
  obtain ⟨⟨b, bKind⟩, u, hpopb, hsecond⟩ := lower_bind_ok h
  obtain ⟨⟨a, aKind⟩, v, hpopa, htest⟩ := lower_bind_ok hsecond
  clear h hsecond
  obtain ⟨hcodeb, hrecordedb⟩ := popKind_recorded hpopb
  obtain ⟨hcodea, hrecordeda⟩ := popKind_recorded hpopa
  have hcode : v.code = s.code := hcodea.trans hcodeb
  have hhas : ∀ label, v.frames.has label = s.frames.has label := fun label => by
    unfold FrameStore.has
    rw [hrecordeda, hrecordedb]
  rw [← hcode]
  -- numbers are compared by code that is added
  have hadded : ∀ {m : LowerM Unit} {i : Instr}, (m >>= fun _ => pure i) cx v = .ok test t →
      (∀ w, m cx v = .ok () w → v.code.body <:+ w.code.body) → v.code.body <:+ t.code.body := by
    intro m i hrun hm
    obtain ⟨_, w, hfirst, hpure⟩ := lower_bind_ok hrun
    cases hpure
    exact hm _ hfirst
  dsimp only at htest
  split at htest
  case isFalse => cases htest
  cases aKind with
  | num kind =>
    refine .inl ?_
    cases kind with
    | int =>
      dsimp only at htest
      split at htest
      · exact hadded htest fun w hw => invokeStatic_suffix hw
      · cases htest
        exact List.suffix_rfl
    | long =>
      dsimp only at htest
      split at htest
      · exact hadded htest fun w hw => invokeStatic_suffix hw
      · exact hadded htest fun w hw => (emit_appends hw).1.suffix
    | float | double => exact hadded htest fun w hw => (emit_appends hw).1.suffix
  | reference =>
    cases hsame : identityTest? way unsigned with
    | none =>
      rw [hsame] at htest
      cases htest
    | some same =>
      rw [hsame] at htest
      dsimp only at htest
      split at htest
      · obtain ⟨taken, w, hretract, hpure⟩ := lower_bind_ok htest
        rcases retractNull_ok hretract with ⟨rfl, offsets, hfound, hpassed⟩ | ⟨rfl, rfl⟩
        · cases hpure
          refine .inr ⟨same, offsets, rfl, rfl, hcode ▸ hfound, fun o ho => ?_⟩
          rw [← hhas]
          exact hpassed o ho
        · cases hpure
          exact .inl List.suffix_rfl
      · cases htest
        exact .inl List.suffix_rfl

private theorem answer_emits {test : Instr} {a : Unit} (h : answer test cx s = .ok a t) :
    Emits cx (answerCode test s.nextLabel) s t := by
  obtain ⟨yes, s₁, hyes, h₁⟩ := lower_bind_ok h
  obtain ⟨done, s₂, hdone, h₂⟩ := lower_bind_ok h₁
  obtain ⟨int, s₃, hmake, h₃⟩ := lower_bind_ok h₂
  obtain ⟨_, s₄, hbranch, h₄⟩ := lower_bind_ok h₃
  obtain ⟨_, s₅, hzero, h₅⟩ := lower_bind_ok h₄
  obtain ⟨_, s₆, hpush, h₆⟩ := lower_bind_ok h₅
  obtain ⟨_, s₇, hjump, h₇⟩ := lower_bind_ok h₆
  obtain ⟨_, s₈, hbind, h₈⟩ := lower_bind_ok h₇
  obtain ⟨_, s₉, hone, h₉⟩ := lower_bind_ok h₈
  obtain ⟨_, s₁₀, hpush', hbind'⟩ := lower_bind_ok h₉
  have hnext : s₁.nextLabel = s.nextLabel + 1 := by
    cases hyes
    rfl
  have hmade : Appends cx [] s₂ s₃ := by
    cases hmake
    exact .of_live rfl rfl rfl rfl rfl rfl
  obtain ⟨rfl, hfirst, -⟩ := freshLabel_appends hyes
  obtain ⟨rfl, hsecond, -⟩ := freshLabel_appends hdone
  rw [hnext] at hjump hbind'
  have hfront := ((((hfirst.trans hsecond).trans hmade).trans
    (branchTo_appends hbranch trivial).1).trans (emit_appends hzero).1).trans (push_appends hpush).1
  have hjumps := (jump_closes hjump trivial).toEmits
  have hyes := (bindLabel_emits hbind (fun _ _ => trivial) fun _ => trivial).1
  have hback := ((emit_appends hone).1.trans (push_appends hpush').1).toEmits
  have hdone := (bindLabel_emits hbind' (fun _ _ => trivial) fun _ => trivial).1
  exact (((hfront.toEmits.trans hjumps).trans hyes).trans hback).trans hdone

/-- An operation that compares does so, and then branches by the outcome. -/
private theorem lowerOp_compares {op : Op} {way : Comparison} {unsigned : Bool} {o : Nat} {a : Unit}
    (hop : op = .compare way unsigned ∨ ∃ target, op = .branch way unsigned target)
    (h : lowerOp o op cx s = .ok a t) :
    ∃ test u label, comparison way unsigned cx s = .ok test u ∧
      .branch test label :: u.code.body <:+ t.code.body := by
  rcases hop with rfl | ⟨target, rfl⟩
  · change compare way unsigned cx s = _ at h
    rw [compare_eq_answer] at h
    obtain ⟨test, u, hcompares, hanswer⟩ := lower_bind_ok h
    obtain ⟨more, hmore⟩ : [Item.branch test (.synthetic u.nextLabel)]
        <+: answerCode test u.nextLabel := ⟨_, rfl⟩
    refine ⟨test, u, .synthetic u.nextLabel, hcompares, more.reverse, ?_⟩
    rw [(answer_emits hanswer).body, ← hmore]
    simp
  · obtain ⟨test, u, hcompares, hbranch⟩ := lower_bind_ok h
    refine ⟨test, u, .source target, hcompares, [], ?_⟩
    exact (branchTo_appends hbranch trivial).1.body.symm

-- ==== saved labels

/-- A label of an operation that is no target gets no frame, unless it lies ahead or the
scope keeps it from being saved to. -/
theorem StepIn.has_source {scope : Scope} {a b : Stage} (h : StepIn cx scope a b) {o : Nat}
    (htarget : cx.targets.contains o = false)
    (hscope : ¬ scope.saves (.source o) ∨ ¬ Ahead cx o)
    (ha : a.1.frames.has (.source o) = false) : b.1.frames.has (.source o) = false := by
  rw [← Bool.not_eq_true] at ha ⊢
  intro hb
  rcases h.has_cases (fun _ heq => by cases heq) hb with hhas | ⟨hsaves, hopen⟩
  · exact ha hhas
  · rcases hopen o rfl with hcontains | hhas | hahead
    · cases htarget.symm.trans hcontains
    · exact ha hhas
    · exact hscope.elim (absurd hsaves) (absurd hahead)

/-- The scope in which, of the labels of operations, only targets are saved to. -/
def Scope.aimed (targets : Std.TreeSet Nat) : Scope :=
  { Scope.all with saves := fun label => ∀ o, label = .source o → targets.contains o = true }

theorem Backed.aimed (h : Backed cx .all s) : Backed cx (.aimed cx.targets) s := by
  refine ⟨h.kept, h.fits, h.made, h.thin, h.slender, fun _ label hnumbered => ?_,
    fun _ _ _ => trivial⟩
  intro o ho
  subst ho
  cases hnumbered

private theorem admits_aimed (hprepared : Prepared cx) {op : Op}
    (hop : (cx.current, op) ∈ cx.body.code)
    (hcompares : ∃ way unsigned, op = .compare way unsigned ∨
      ∃ target, op = .branch way unsigned target) : Admits cx (.aimed cx.targets) op := by
  have htargets := hprepared.targets _ op hop
  obtain ⟨way, unsigned, rfl | ⟨target, rfl⟩⟩ := hcompares
  · exact ⟨fun _ _ => trivial, fun _ _ _ _ => trivial, nofun, nofun, nofun, nofun, nofun,
      fun _ => trivial⟩
  · refine ⟨fun _ _ => trivial, fun _ _ _ _ => trivial, fun t ht o ho => ?_, nofun, nofun, nofun,
      nofun, fun _ => trivial⟩
    cases ho
    exact htargets t ht

theorem CodeSteps.bound_source {code : List (Nat × Op)} {a b : Stage} (h : CodeSteps cx code a b)
    {o : Nat} (hbound : .source o ∈ boundLabels b.1.code.body) :
    .source o ∈ boundLabels a.1.code.body ∨ ∃ e ∈ code, e.1 = o := by
  refine h.keeps (I := fun c => .source o ∈ boundLabels c.1.code.body →
    .source o ∈ boundLabels a.1.code.body ∨ ∃ e ∈ code, e.1 = o) ?_ .inl hbound
  intro e he c d hc hstep hd
  obtain ⟨new, heq, hnew⟩ := hstep.binds
  rw [heq] at hd
  rcases List.mem_append.mp hd with hd | hd
  · exact .inr ⟨e, he, (hnew _ hd).symm⟩
  · exact hc hd

section Visits

variable {config : Config} {T : TypeTable} {pool : Pool} {body : Body}
  {e : Nat × Op} {start before entry after final : LowerState}

/-- The labels of operations that are bound when an operation is entered are its own and
those of operations in front of it. -/
theorem Visit.bound_le (h : Visit config T pool body e cx start before entry after final)
    (hordered : body.code.Pairwise fun a b => a.1 < b.1) (he : e ∈ body.code) {o : Nat}
    (hbound : .source o ∈ boundLabels entry.code.body) : o ≤ e.1 := by
  obtain ⟨p, hreached⟩ := h.stepsReached
  obtain ⟨q, henters⟩ := h.stepsEnter p
  have hsteps : CodeSteps cx (body.before e.1 ++ [e]) (start, []) (entry, q) :=
    (hreached.mono (List.subset_append_left _ _)).trans
      (CodeSteps.of_steps (List.mem_append_right _ List.mem_cons_self) henters)
  rcases hsteps.bound_source hbound with hstart | ⟨d, hd, rfl⟩
  · rw [h.started.2.2.code] at hstart
    cases hstart
  · obtain ⟨-, -, hbefore, -⟩ := Body.exists_after hordered he
    rcases List.mem_append.mp hd with hd | hd
    · exact Nat.le_of_lt (hbefore d hd)
    · cases List.mem_singleton.mp hd
      exact Nat.le_refl _

/-- A label that a comparison takes back a null from under has no frame in the end. -/
theorem Visit.has_passed (h : Visit config T pool body e cx start before entry after final)
    (hordered : body.code.Pairwise fun a b => a.1 < b.1) (he : e ∈ body.code)
    (hcompares : ∃ way unsigned, e.2 = .compare way unsigned ∨
      ∃ target, e.2 = .branch way unsigned target) {o : Nat} (hle : o ≤ e.1)
    (htarget : cx.targets.contains o = false) (hhas : entry.frames.has (.source o) = false) :
    final.frames.has (.source o) = false := by
  obtain ⟨post, q, hlater, hfinal⟩ := h.stepsBehind hordered he []
  have hready := h.ready
  obtain ⟨-, rfl, -⟩ := h.started
  obtain ⟨p, hsteps⟩ :=
    h.stepsLowerIn he (admits_aimed hready he hcompares) h.backedEntry.aimed []
  have hafter : after.frames.has (.source o) = false := by
    have hall : ∀ b, StepsIn (cx.atOffset e.1) (.aimed cx.targets) (entry, []) b →
        b.1.frames.has (.source o) = false := by
      intro b hb
      induction hb with
      | refl => exact hhas
      | tail _ hstep ih =>
        refine hstep.has_source htarget (.inl fun hsaves => ?_) ih
        cases htarget.symm.trans (hsaves o rfl)
    exact hall _ hsteps
  refine hfinal.keeps (I := fun c => c.1.frames.has (.source o) = false) ?_ hafter
  intro d hd a b ha hstep
  refine hstep.has_source htarget (.inr ?_) ha
  -- the operations behind are past the label
  have hlt := hlater d hd
  rintro ⟨-, hahead | ⟨hahead, -⟩⟩
  · change d.1 < o at hahead
    omega
  · change d.1 = o at hahead
    omega

end Visits

-- ==== comparisons

/-- The state in which an operation is entered, the test that a comparison there comes down
to, and the state in front of the test. -/
def compared? (config : Config) (T : TypeTable) (pool : Pool) (body : Body) (o : Nat)
    (way : Comparison) (unsigned : Bool) : Option (LowerState × Instr × LowerState) :=
  match prepare config T body (initial pool body), entered? config T pool body o with
  | .ok cx _, some entry =>
    match comparison way unsigned (cx.atOffset o) entry with
    | .ok test tested => some (entry, test, tested)
    | .error _ _ => none
  | _, _ => none

/-- A test for null in finished code stands for a comparison with a null: from the labels
`offsets` in front of the test, an instruction that pushes null can be left out. -/
structure Collapses (items front : List Item) (offsets : List Nat) (same : Bool) (label : Label)
    (back : List Item) : Prop where
  place : items = front ++ (bindSources offsets ++ .branch (.ifNull same 0) label :: back)
  /-- no branch and no table goes to a label in front of the test -/
  untargeted : ∀ item ∈ items, ∀ o ∈ offsets, Label.source o ∉ item.targets
  /-- with the null pushed, control comes to the comparison through that instruction and
  the labels behind it, whichever way it comes -/
  pushed : ∀ trail,
    Trail (front ++ .instr .constNull ::
        (bindSources offsets ++ .branch (.ifSame same 0) label :: back))
      trail (front.length + offsets.length + 1) →
    ∃ rest, trail = (bindSources offsets).reverse ++ .instr .constNull :: rest
  /-- both forms take the branch for the same references -/
  decides : ∀ (Obj : Type) [DecidableEq Obj] (v : Option Obj) stack,
    refRun? (bindSources offsets ++ [.branch (.ifNull same 0) label]) (v :: stack)
        = some (stack, if v.isNone == same then some label else none) ∧
      refRun? (.instr .constNull :: (bindSources offsets ++ [.branch (.ifSame same 0) label]))
          (v :: stack)
        = some (stack, if v.isNone == same then some label else none)

/-- A test for null with labels in front that nothing goes to. -/
theorem Collapses.of_untargeted {items front back : List Item} {offsets : List Nat} {same : Bool}
    {label : Label}
    (hplace : items = front ++ (bindSources offsets ++ .branch (.ifNull same 0) label :: back))
    (huntargeted : ∀ item ∈ items, ∀ o ∈ offsets, Label.source o ∉ item.targets) :
    Collapses items front offsets same label back where
  place := hplace
  untargeted := huntargeted
  pushed trail htrail := by
    have hlist : offsets = offsets.take offsets.length := List.take_length.symm
    rw [hlist]
    refine Trail.of_labels rfl (fun item hitem o ho => ?_) (Nat.le_refl _) htrail
    -- the items are those of the finished code but for the two that differ, and the
    -- comparison goes where the test goes
    have hbranch : Label.source o ∉ (Item.branch (.ifNull same 0) label).targets := by
      refine huntargeted _ ?_ o ho
      simp [hplace]
    simp only [List.mem_append, List.mem_cons] at hitem
    rcases hitem with hfront | rfl | hlabels | rfl | hback
    · exact huntargeted item (by simp [hplace, hfront]) o ho
    · nofun
    · exact huntargeted item (by simp [hplace, hlabels]) o ho
    · exact hbranch
    · exact huntargeted item (by simp [hplace, hback]) o ho
  decides _ _ v stack := refRun?_ifNull offsets same label v stack

/-- A comparison of references that takes back a null collapses safely, in a body with
ascending offsets. What it takes back is the null in front of its labels; nothing in the
finished code goes to one of these, so the null would be pushed on every way to the
comparison; and the test for null that is made instead takes the branch for the same
references. -/
theorem null_comparison_collapses {config : Config} {T : TypeTable} {pool : Pool} {body : Body}
    {m : Method} (hordered : body.code.Pairwise fun a b => a.1 < b.1)
    (h : (lowerMethod config T pool body).result = .ok m) {o : Nat} {op : Op}
    (he : (o, op) ∈ body.code) {way : Comparison} {unsigned : Bool}
    (hop : op = .compare way unsigned ∨ ∃ target, op = .branch way unsigned target) :
    ∃ entry test tested, compared? config T pool body o way unsigned = some (entry, test, tested) ∧
      (¬ entry.code.body <:+ tested.code.body →
        ∃ final asm same behind offsets label back,
          completed? config T pool body = some final ∧ final.code.assemble = .ok asm ∧
          m.code = asm.code ∧ identityTest? way unsigned = some same ∧ test = .ifNull same 0 ∧
          offsets.getLast? = some o ∧
          entry.code.body.reverse = behind ++ .instr .constNull :: bindSources offsets ∧
          tested.code.body.reverse = behind ++ bindSources offsets ∧
          Collapses final.code.items (final.code.prologue.reverse.map .instr ++ behind) offsets
            same label back) := by
  obtain ⟨cx, start, before, entry, after, final, hvisit, s, hfinish⟩ := exists_visit h hordered he
  obtain ⟨⟨asm, frames, hfinished⟩, -⟩ := exists_finished hfinish
  obtain ⟨test, tested, label, hcompares, hafter⟩ :=
    lowerOp_compares hop hvisit.lowers
  refine ⟨entry, test, tested, ?_, fun hgone => ?_⟩
  · simp only [compared?, hvisit.prepared, hvisit.entered, hcompares]
  obtain ⟨same, offsets, hsame, rfl, ⟨tail, hentry, htested⟩, hpassed⟩ :=
    (comparison_retracts hcompares).resolve_left hgone
  have hsealed : Sealed (.branch (.ifNull same 0) label :: tested.code.body) :=
    ⟨_, _, rfl, rfl, nofun⟩
  obtain ⟨more, hmore⟩ := hvisit.staysCode he hsealed hafter
  refine ⟨final, asm, same, tail.reverse, offsets, label, more.reverse, hvisit.completes,
    hfinished.assembled, hfinished.code, hsame, rfl, ?_, ?_, ?_, .of_untargeted ?_ ?_⟩
  · obtain ⟨rest, hbound⟩ := hvisit.bound
    exact getLast?_of_bindSources (hentry.symm.trans hbound)
  · simp [hentry]
  · simp [htested]
  · rw [CodeBuffer.items, ← hmore, htested]
    simp
  · intro item hitem k hk htarget
    have hbound : .source k ∈ boundLabels entry.code.body := by
      rw [hentry, boundLabels, List.mem_filterMap]
      exact ⟨.bind (.source k), by simp [bindSources, hk], rfl⟩
    have hhas := hvisit.has_passed hordered he ⟨way, unsigned, hop⟩
      (hvisit.bound_le hordered he hbound) (hpassed k hk).1 (hpassed k hk).2
    obtain ⟨p, hmapped⟩ := hvisit.mapped he
    rcases List.mem_append.mp hitem with hprologue | hbody
    · obtain ⟨i, -, rfl⟩ := List.mem_map.mp hprologue
      cases htarget
    · cases hhas.symm.trans (hmapped.named item (List.mem_reverse.mp hbody) _ htarget)

/-- Tells null from other references, with an operation that does nothing in between. -/
def isNull : Body where
  owner := .ref "Check"
  name := "isNull"
  kind := .static
  params := [⟨none, .ref "java/lang/Object"⟩]
  locals := []
  returns := none
  code := [(0, .loadArg 0), (1, .loadNull), (2, .nop), (3, .branch .eq false 5), (4, .ret),
    (5, .ret)]
  handlers := []

theorem previewed_isNull : (previewed {} (.ofConfig {}) isNull).isSome = true := by
  cbv

private theorem compared_isNull :
    (compared? {} (.ofConfig {}) .empty isNull 3 .eq false).map
      (fun c => (c.1.code.body.length, c.2.2.code.body.length)) = some (6, 5) := by
  cbv

/-- The null that `isNull` compares with is taken back. -/
theorem null_comparison_collapses_isNull :
    ∃ m final asm behind offsets label back,
      (lowerMethod {} (.ofConfig {}) .empty isNull).result = .ok m ∧
      completed? {} (.ofConfig {}) .empty isNull = some final ∧
      final.code.assemble = .ok asm ∧ m.code = asm.code ∧
      Collapses final.code.items (final.code.prologue.reverse.map .instr ++ behind) offsets true
        label back := by
  obtain ⟨m, hm⟩ := exists_of_isSome previewed_isNull
  obtain ⟨⟨entry, test, tested⟩, hcompared, hlengths⟩ :=
    Option.map_eq_some_iff.mp compared_isNull
  have hop : (3, .branch .eq false 5) ∈ isNull.code := by simp [isNull]
  obtain ⟨_, _, _, hcompared', hcollapses⟩ := null_comparison_collapses (by decide) hm hop
    (.inr ⟨5, rfl⟩)
  cases hcompared.symm.trans hcompared'
  obtain ⟨final, asm, same, behind, offsets, label, back, hcompletes, hasm, hcode, hsame, -, -,
    -, -, hsafe⟩ := hcollapses fun hsuffix => by
      have hle : entry.code.body.length ≤ tested.code.body.length := hsuffix.length_le
      obtain ⟨hsix, hfive⟩ := Prod.mk.inj hlengths
      rw [hsix, hfive] at hle
      cases Nat.not_succ_le_self 5 hle
  cases hsame
  exact ⟨m, final, asm, behind, offsets, label, back, hm, hcompletes, hasm, hcode, hsafe⟩

end Lowering

end BytecodeBridge
