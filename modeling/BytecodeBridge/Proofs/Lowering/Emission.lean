/-
The code that the parts of a lowering emit.

Around exceptions the code is fixed but for the operands that the pool
hands out and the kinds that types are held as, so each function that
emits it gets one statement: which block it appends (`Emits`), whether
control reaches its end (`Appends`, `Closes`), what it does to the live
stack, and what its operands name.

The kinds come from types that frames record for labels. What enters the
dispatch of a region is a reference as long as no join of references is a
primitive (`ThrowsReferences`), and where a leave is resumed the stack is empty. Once
a label has a frame of that form it keeps one, whatever is merged into it
later (`EntryStack.merge`), and `Emits` carries that along.
-/
import BytecodeBridge.Proofs.Lowering.Labels
import BytecodeBridge.Proofs.Machine.Objects

namespace BytecodeBridge

-- ==== what is thrown

/-- A join with something that is no primitive is none either. -/
theorem TypeTable.Proper.prim?_join {T : TypeTable} (hT : T.Proper) {x y : Ty}
    (hx : x.prim? = none) : (T.join x y).prim? = none := by
  rcases join_cases T x y with ⟨-, heq⟩ | heq | ⟨a, b, rfl, -⟩ | ⟨hx', hy', heq⟩
  · rw [heq]
    exact hx
  · rw [heq]
    rfl
  · cases hx
  · rw [heq]
    exact hT.upward.commonSupertype hx (prim?_of_isReference hy')

namespace Lowering

open LowerM

-- ==== frames of labels

/-- What is thrown is no primitive, and joins make none of it. -/
structure ThrowsReferences (T : TypeTable) : Prop where
  proper : T.Proper
  throwable : T.throwable.prim? = none

/-- The top of the stack is no primitive. -/
def Headed (stack : List Ty) : Prop :=
  ∃ t rest, stack = t :: rest ∧ t.prim? = none

theorem Headed.prim?_eq_none {stack rest : List Ty} {t : Ty} (h : Headed stack)
    (hstack : stack = t :: rest) : t.prim? = none := by
  obtain ⟨_, _, hstack', ht⟩ := h
  cases hstack.symm.trans hstack'
  exact ht

/-- What is known of the stack that a label is entered with. -/
def EntryStack (cx : Context) : Label → List Ty → Prop
  | .handler _, stack | .dispatch _ _, stack => ThrowsReferences cx.types → Headed stack
  | .resume _ _, stack => stack = []
  | .source _, _ | .filterReject _ _, _ | .synthetic _, _ => True

/-- A label has no frame, or one that it is entered with. -/
def Entry (cx : Context) (label : Label) (frames : FrameStore) : Prop :=
  ∀ f, frames.frameOf label = some f → EntryStack cx label f.stack

section Entry

variable {cx : Context} {s s' : LowerState} {label : Label}

theorem Headed.merge (hfirm : ThrowsReferences cx.types) {a b c : Frame} (ha : Headed a.stack)
    (h : a.merge cx.types b = .ok c) : Headed c.stack := by
  obtain ⟨x, xs, hx, hprim⟩ := ha
  obtain ⟨y, rest, hc⟩ := (Frame.merge_eq_ok_iff.mp h).1.head hx
  exact ⟨_, rest, hc, hfirm.proper.prim?_join hprim⟩

theorem EntryStack.merge {a b c : Frame} (ha : EntryStack cx label a.stack)
    (h : a.merge cx.types b = .ok c) : EntryStack cx label c.stack := by
  cases label with
  | handler _ | dispatch _ _ => exact fun hfirm => (ha hfirm).merge hfirm h
  | resume _ _ =>
    refine List.eq_nil_of_length_eq_zero ?_
    rw [(Frame.merge_ok h).1]
    exact List.length_eq_zero_iff.mpr ha
  | _ => trivial

theorem entryStack_throwable (r : Nat) (h : .handler r = label) :
    EntryStack cx label [cx.types.throwable] := by
  subst h
  exact fun hfirm => ⟨_, [], rfl, hfirm.throwable⟩

theorem Entry.handlerSaves (h : Entry cx label s.frames) {rs : List Nat}
    (hsaves : HandlerSaves cx rs s s') : Entry cx label s'.frames :=
  StackAt.handlerSaves EntryStack.merge h hsaves entryStack_throwable

theorem Entry.step {scope : Scope} {a b : Stage} (h : Entry cx label a.1.frames)
    (hstep : StepIn cx scope a b) (hscope : ¬ scope.saves label) : Entry cx label b.1.frames := by
  refine StackAt.step EntryStack.merge h hstep entryStack_throwable ?_
    fun _ hsaves => absurd hsaves hscope
  rintro o stack rfl
  trivial

theorem Entry.steps {scope : Scope} {a b : Stage} (h : Entry cx label a.1.frames)
    (hsteps : StepsIn cx scope a b) (hscope : ¬ scope.saves label) : Entry cx label b.1.frames := by
  induction hsteps with
  | refl => exact h
  | tail _ hstep ih => exact ih.step hstep hscope

end Entry

-- ==== emitted blocks

/-- A computation appends a block to the code. It only adds to the pool, and labels are
entered as before. -/
structure Emits (cx : Context) (block : List Item) (s t : LowerState) : Prop where
  body : t.code.body = block.reverse ++ s.code.body
  grows : s.pool.Grows t.pool
  entries : ∀ label, Entry cx label s.frames → Entry cx label t.frames

/-- A block whose end is reached if its start is, in which no leaves are resumed. -/
structure Appends (cx : Context) (block : List Item) (s t : LowerState) : Prop extends
    Emits cx block s t where
  reachable : t.reachable = s.reachable
  resumed : t.resumed = s.resumed

/-- Items, the latest first, that nothing is taken back from: the latest is neither a
label nor a null. -/
def Sealed (items : List Item) : Prop :=
  ∃ item rest, items = item :: rest ∧ item.label? = none ∧ item ≠ .instr .constNull

/-- A block whose end is not reached, in which no leaves are resumed. -/
structure Closes (cx : Context) (block : List Item) (s t : LowerState) : Prop extends
    Emits cx block s t where
  reachable : t.reachable = false
  resumed : t.resumed = s.resumed
  isSealed : Sealed t.code.body

section Blocks

variable {cx : Context} {s t u : LowerState} {a b : List Item}

theorem Emits.trans (ha : Emits cx a s t) (hb : Emits cx b t u) : Emits cx (a ++ b) s u := by
  refine ⟨?_, ha.grows.trans hb.grows, fun label h => hb.entries label (ha.entries label h)⟩
  rw [hb.body, ha.body, List.reverse_append, List.append_assoc]

theorem Appends.trans (ha : Appends cx a s t) (hb : Appends cx b t u) : Appends cx (a ++ b) s u :=
  ⟨ha.toEmits.trans hb.toEmits, hb.reachable.trans ha.reachable, hb.resumed.trans ha.resumed⟩

theorem Appends.closes (ha : Appends cx a s t) (hb : Closes cx b t u) : Closes cx (a ++ b) s u :=
  ⟨ha.toEmits.trans hb.toEmits, hb.reachable, hb.resumed.trans ha.resumed, hb.isSealed⟩

theorem Appends.refl (cx : Context) (s : LowerState) : Appends cx [] s s :=
  ⟨⟨rfl, .refl, fun _ h => h⟩, rfl, rfl⟩

theorem Appends.of_live (hcode : t.code.body = s.code.body) (hpool : t.pool = s.pool)
    (hrecorded : t.frames.recorded = s.frames.recorded)
    (hdeferred : t.frames.deferred = s.frames.deferred) (hreach : t.reachable = s.reachable)
    (hresumed : t.resumed = s.resumed) : Appends cx [] s t :=
  ⟨⟨hcode, hpool ▸ .refl, fun _ h => StackAt.congr h hrecorded hdeferred⟩, hreach, hresumed⟩

theorem Appends.of_mends (h : Mends s t)
    (hentries : ∀ label, Entry cx label s.frames → Entry cx label t.frames) : Appends cx [] s t :=
  ⟨⟨h.body, h.grows, hentries⟩, h.reachable, h.made.2⟩

theorem Appends.of_saves {label : Label} {frame : Frame} (h : Saves cx label frame s t)
    (hframe : EntryStack cx label frame.stack) : Appends cx [] s t :=
  .of_mends h.mends fun _ hl => StackAt.saves EntryStack.merge hl h fun heq => heq ▸ hframe

theorem Appends.of_repairs (h : Repairs s t) : Appends cx [] s t :=
  .of_mends h.mends fun l hl =>
    h.keeps (I := fun u => Entry cx l u.frames)
      (fun _ _ _ hu hrepair => StackAt.repair hu hrepair) hl

theorem Emits.partOf (h : Emits cx a s t) (hpool : s.pool.Indexed) {q : Pool}
    (hq : t.pool.PartOf q) : s.pool.PartOf q :=
  (h.grows.indexed hpool).2.trans hq

theorem Emits.indexed (h : Emits cx a s t) (hpool : s.pool.Indexed) : t.pool.Indexed :=
  (h.grows.indexed hpool).1

end Blocks

variable {cx : Context} {a b : Stage}

-- ==== blocks behind labels

/-- Blocks one after the other, each behind its label. -/
inductive Labelled {α : Type} (label : α → Label) (P : α → List Item → Prop) :
    List α → List Item → Prop where
  | nil : Labelled label P [] []
  | cons {a : α} {as : List α} {block rest : List Item} (hblock : P a block)
      (hrest : Labelled label P as rest) :
      Labelled label P (a :: as) (.bind (label a) :: (block ++ rest))

theorem Labelled.exists_block {α : Type} {label : α → Label} {P : α → List Item → Prop}
    {as : List α} {code : List Item} (h : Labelled label P as code) {a : α} (ha : a ∈ as) :
    ∃ pre block post, code = pre ++ (.bind (label a) :: block ++ post) ∧ P a block := by
  induction h with
  | nil => cases ha
  | @cons b bs block rest hblock _ ih =>
    rcases List.mem_cons.mp ha with rfl | ha
    · exact ⟨[], block, rest, rfl, hblock⟩
    · obtain ⟨pre, block', post, rfl, hblock'⟩ := ih ha
      exact ⟨.bind (label b) :: (block ++ pre), block', post, by simp, hblock'⟩

/-- A loop each round of which emits a block behind a label, and leaves a state from
which the next can start. -/
theorem forM_emits {α : Type} {g : α → LowerM Unit} {label : α → Label}
    {P : Pool → α → List Item → Prop} {I J : LowerState → Prop} {as : List α} {s t : LowerState}
    {u : Unit} (hstep : ∀ a ∈ as, ∀ s t u, I s → s.pool.Indexed → g a cx s = .ok u t →
      ∃ block, Emits cx (.bind (label a) :: block) s t ∧ J t ∧
        ∀ q, t.pool.PartOf q → P q a block) (hnext : ∀ t, J t → I t) (hs : I s)
    (hpool : s.pool.Indexed) (h : as.forM g cx s = .ok u t) :
    ∃ code, Emits cx code s t ∧ (as ≠ [] → J t) ∧
      ∀ q, t.pool.PartOf q → Labelled label (P q) as code := by
  induction as generalizing s with
  | nil =>
    cases h
    exact ⟨[], (Appends.refl cx _).toEmits, absurd rfl, fun _ _ => .nil⟩
  | cons a as ih =>
    obtain ⟨_, v, hfirst, hrest⟩ := lower_bind_ok (x := g a) (f := fun _ => as.forM g) h
    obtain ⟨block, hblock, hv, hP⟩ := hstep a (.head _) s v _ hs hpool hfirst
    have hindexed := hblock.indexed hpool
    obtain ⟨code, hcode, ht, hlabelled⟩ :=
      ih (fun b hb => hstep b (.tail _ hb)) (hnext v hv) hindexed hrest
    refine ⟨_, hblock.trans hcode, fun _ => ?_, fun q hq => ?_⟩
    · cases as with
      | nil =>
        cases hrest
        exact hv
      | cons b bs => exact ht (List.cons_ne_nil b bs)
    · exact .cons (hP q (hcode.partOf hindexed hq)) (hlabelled q hq)

-- ==== what stays

/-- What a step does to the body of the code: it adds to it, or takes back a null from
under labels. -/
theorem Step.body_cases (hstep : Step cx a b) :
    a.1.code.body <:+ b.1.code.body ∨
      ∃ mid tail, (∀ x ∈ mid, x.label? ≠ none) ∧
        a.1.code.body = mid ++ .instr .constNull :: tail ∧ b.1.code.body = mid ++ tail := by
  have hsame : ∀ {items : List Item}, items = a.1.code.body → a.1.code.body <:+ items :=
    fun heq => heq ▸ List.suffix_rfl
  cases hstep with
  | change hchange htold =>
    refine .inl ?_
    rw [htold.mends.body]
    cases hchange with
    | put => exact List.suffix_cons _ _
    | replace => exact List.suffix_rfl
  | repair hrepair => exact .inl (hsame hrepair.mends.body)
  | save _ _ hsave => exact .inl (hsame hsave.mends.body)
  | retract hretract =>
    obtain ⟨rest, hrest, rfl⟩ := Option.map_eq_some_iff.mp hretract
    exact .inr (CodeBuffer.retractFrom_ok hrest)
  | bindNew _ _ _ hsave =>
    exact .inl ((hsame hsave.mends.body).trans (List.suffix_cons _ _))
  | emit | fetch | branch | exit | jump | table | bindLoaded | pass | defer =>
    exact .inl (List.suffix_cons _ _)
  | _ => exact .inl List.suffix_rfl

/-- Later steps leave sealed code where it is, with the labels right behind it. -/
theorem Step.stays_labelled {labels base : List Item} (hlabels : ∀ x ∈ labels, x.label? ≠ none)
    (hsealed : Sealed base) (hstep : Step cx a b) (h : labels ++ base <:+ a.1.code.body) :
    labels ++ base <:+ b.1.code.body := by
  rcases hstep.body_cases with hadds | ⟨mid, tail, hmid, hitems, hrest⟩
  · exact h.trans hadds
  have hnull : .instr .constNull ∉ labels := fun hmem => hlabels _ hmem rfl
  obtain ⟨item, below, rfl, hitem, hne⟩ := hsealed
  obtain ⟨more, hmore⟩ := h
  rw [← List.append_assoc] at hmore
  -- what is taken back was added since
  rcases List.append_eq_append_iff.mp (hmore.trans hitems) with
    ⟨front, rfl, hfront⟩ | ⟨front, hfront, htail⟩
  · cases front with
    | nil =>
      cases hfront
      exact absurd rfl hne
    | cons first front =>
      cases hfront
      exact absurd hitem (hmid _ (List.mem_append_right _ (.head _)))
  · cases front with
    | nil =>
      cases htail
      exact absurd rfl hne
    | cons first front =>
      cases htail
      -- and it was added behind the labels
      rcases List.append_eq_append_iff.mp hfront with
        ⟨gap, rfl, rfl⟩ | ⟨gap, rfl, hgap⟩
      · exact absurd (List.mem_append_right _ (.head _)) hnull
      · cases gap with
        | nil =>
          cases hgap
          exact absurd (.head _) hnull
        | cons first gap =>
          cases hgap
          rw [hrest]
          exact ⟨mid ++ gap, by simp⟩

theorem Step.stays {base : List Item} (hsealed : Sealed base) (hstep : Step cx a b)
    (h : base <:+ a.1.code.body) : base <:+ b.1.code.body :=
  hstep.stays_labelled (List.forall_mem_nil _) hsealed h

-- ==== instructions

section Instructions

variable {cx : Context} {s t : LowerState} {a : Unit} {β : Type} {b : β}

theorem emit_appends {i : Instr} (h : emit i cx s = .ok a t) :
    Appends cx [.instr i] s t ∧ t.frames = s.frames := by
  cases h
  exact ⟨⟨⟨rfl, .refl, fun _ h => h⟩, rfl, rfl⟩, rfl⟩

theorem emit_bind {i : Instr} {f : Unit → LowerM β} (h : (emit i >>= f) cx s = .ok b t) :
    ∃ u, Appends cx [.instr i] s u ∧ u.frames = s.frames ∧ f () cx u = .ok b t := by
  obtain ⟨_, u, hemit, hrest⟩ := lower_bind_ok h
  obtain ⟨happends, hframes⟩ := emit_appends hemit
  exact ⟨u, happends, hframes, hrest⟩

theorem noteDepth_bind {extra : Nat} {f : Unit → LowerM β}
    (h : (noteDepth extra >>= f) cx s = .ok b t) :
    ∃ u, Appends cx [] s u ∧ u.frames.live = s.frames.live ∧
      (∀ label, u.frames.frameOf label = s.frames.frameOf label) ∧ f () cx u = .ok b t := by
  obtain ⟨_, u, hnote, hrest⟩ := lower_bind_ok h
  cases hnote
  refine ⟨_, ?_, ?_, ?_, hrest⟩
  exacts [.of_live rfl rfl rfl rfl rfl rfl, rfl, fun _ => rfl]

theorem freshLabel_appends {label : Label} (h : freshLabel cx s = .ok label t) :
    label = .synthetic s.nextLabel ∧ Appends cx [] s t ∧ t.frames = s.frames := by
  cases h
  exact ⟨rfl, .of_live rfl rfl rfl rfl rfl rfl, rfl⟩

end Instructions

-- ==== the stack

section Stack

variable {cx : Context} {s t : LowerState} {ty : Ty} {a : Unit}

theorem push_appends (h : push ty cx s = .ok a t) :
    Appends cx [] s t ∧ t.frames.live.stack = ty :: s.frames.live.stack := by
  obtain ⟨frames, hpush, rfl⟩ := push_ok h
  obtain ⟨-, rfl⟩ := FrameStore.push_ok hpush
  exact ⟨.of_live rfl rfl rfl rfl rfl rfl, rfl⟩

theorem pushNew_appends (h : pushNew ty cx s = .ok a t) :
    Appends cx [] s t ∧ t.frames.live.stack = ty :: s.frames.live.stack := by
  obtain ⟨_, u, hmake, hpush⟩ := lower_bind_ok h
  cases hmake
  obtain ⟨happends, hstack⟩ := push_appends hpush
  have hmade : Appends cx [] s { s with made := ty :: s.made } :=
    .of_live rfl rfl rfl rfl rfl rfl
  exact ⟨hmade.trans happends, hstack⟩

/-- What popping the live stack does: it concerns no label. -/
structure Pops (cx : Context) (ty : Ty) (s t : LowerState) : Prop where
  appends : Appends cx [] s t
  stack : s.frames.live.stack = ty :: t.frames.live.stack
  frames : ∀ label, t.frames.frameOf label = s.frames.frameOf label

theorem pop_pops (h : pop cx s = .ok ty t) : Pops cx ty s t := by
  obtain ⟨frames, hpop, rfl⟩ := pop_ok h
  obtain ⟨rest, hstack, rfl⟩ := FrameStore.pop_ok hpop
  exact ⟨.of_live rfl rfl rfl rfl rfl rfl, hstack, fun _ => rfl⟩

theorem popKind_pops {kind : StackKind} (h : popKind cx s = .ok (ty, kind) t) :
    Pops cx ty s t ∧ ty.stackKind? = some kind :=
  (popKind_ok h).imp_left pop_pops

theorem popReference_pops (h : popReference cx s = .ok ty t) :
    Pops cx ty s t ∧ ty.stackKind? = some .reference :=
  (popReference_ok h).imp_left pop_pops

theorem dropTop_appends (h : dropTop cx s = .ok a t) :
    ∃ ty, s.frames.live.stack = ty :: t.frames.live.stack ∧
      Appends cx [.instr (.popOf ty.category)] s t := by
  obtain ⟨ty, u, hpop, hemit⟩ := lower_bind_ok h
  have hpops := pop_pops hpop
  obtain ⟨happends, hframes⟩ := emit_appends hemit
  exact ⟨ty, hframes ▸ hpops.stack, hpops.appends.trans happends⟩

/-- The code that drops values of some types, the top first. -/
def dropCode (types : List Ty) : List Item :=
  types.map fun ty => .instr (.popOf ty.category)

private theorem forM_dropTop_appends {l : List Nat} (h : (l.forM fun _ => dropTop) cx s = .ok a t) :
    t.frames.live.stack = s.frames.live.stack.drop l.length ∧
      Appends cx (dropCode (s.frames.live.stack.take l.length)) s t := by
  induction l generalizing s with
  | nil =>
    cases h
    exact ⟨rfl, .refl cx _⟩
  | cons x l ih =>
    obtain ⟨_, u, hdrop, hrest⟩ :=
      lower_bind_ok (x := dropTop) (f := fun _ => l.forM fun _ => dropTop) h
    obtain ⟨ty, hstack, happends⟩ := dropTop_appends hdrop
    obtain ⟨hdropped, hothers⟩ := ih hrest
    rw [hstack]
    exact ⟨hdropped, happends.trans hothers⟩

theorem dropDownTo_appends {keep : Nat} (h : dropDownTo keep cx s = .ok a t) :
    t.frames.live.stack = s.frames.live.stack.drop (s.frames.live.stack.length - keep) ∧
      Appends cx (dropCode (s.frames.live.stack.take (s.frames.live.stack.length - keep))) s t := by
  have hforM := forM_dropTop_appends (get_bind_ok h)
  rwa [List.length_range] at hforM

theorem dropDownTo_zero (h : dropDownTo 0 cx s = .ok a t) :
    t.frames.live.stack = [] ∧ Appends cx (dropCode s.frames.live.stack) s t := by
  have hdrops := dropDownTo_appends h
  rwa [Nat.sub_zero, List.drop_length, List.take_length] at hdrops

end Stack

-- ==== the pool

section Pool

variable {cx : Context} {s t : LowerState}

theorem onPool_appends {α : Type} {act : PoolM α} (hact : Growing act) {a : α}
    (h : onPool act cx s = .ok a t) :
    Appends cx [] s t ∧ act s.pool = .ok a t.pool ∧ t.frames = s.frames ∧
      t.nextLabel = s.nextLabel := by
  have hgives : Gives cx (· = s) (onPool act)
      fun a u => act s.pool = .ok a u.pool ∧ u = { s with pool := u.pool } :=
    Gives.onPool (by rintro u b pool rfl hrun; exact ⟨hrun, rfl⟩)
  obtain ⟨hrun, heq⟩ := hgives s a t rfl h
  refine ⟨⟨⟨by rw [heq]; rfl, Pool.grows_of_ok hact hrun, fun _ hl => ?_⟩, by rw [heq],
    by rw [heq]⟩, hrun, by rw [heq], by rw [heq]⟩
  rw [heq]
  exact hl

theorem className_look {ty : Ty} {name : String} (h : className ty cx s = .ok name t) :
    cx.types.className ty = .ok name ∧ t = s :=
  state_lift_ok (x := cx.types.className ty) h

theorem classIndex_appends {ty : Ty} {index : Nat} (h : classIndex ty cx s = .ok index t)
    (hpool : s.pool.Indexed) :
    ∃ name, cx.types.className ty = .ok name ∧ Appends cx [] s t ∧ t.frames = s.frames ∧
      ∀ q, t.pool.PartOf q → q.class? index = some name := by
  obtain ⟨name, u, hname, hindex⟩ := lower_bind_ok h
  obtain ⟨hname, rfl⟩ := className_look hname
  obtain ⟨happends, hrun, hframes, -⟩ := onPool_appends (Pool.growing_classRef name) hindex
  exact ⟨name, ‹_›, happends, hframes, fun q hq => Pool.class?_of_classRef hpool hrun hq⟩

theorem invokeStatic_appends {m : MethodSpec} {a : Unit} (h : invokeStatic m cx s = .ok a t)
    (hpool : s.pool.Indexed) :
    ∃ index, Appends cx [.instr (.invokeStatic index)] s t ∧ t.frames = s.frames ∧
      ∀ q, t.pool.PartOf q → q.method? index = some m := by
  obtain ⟨index, u, hindex, hemit⟩ := lower_bind_ok h
  obtain ⟨happends, hrun, hframes, -⟩ := onPool_appends (Pool.growing_methodRef _ _ _ _) hindex
  obtain ⟨hemits, hsame⟩ := emit_appends hemit
  refine ⟨index, happends.trans hemits, hsame.trans hframes, fun q hq => ?_⟩
  exact Pool.method?_of_methodRef hpool hrun (hemits.partOf (happends.indexed hpool) hq)

theorem testGeneric_appends {name : String} {a : Unit} (h : testGeneric name cx s = .ok a t)
    (hpool : s.pool.Indexed) :
    ∃ text index, Appends cx [.instr (.ldcOf text), .instr (.invokeStatic index)] s t ∧
      t.frames.live = s.frames.live ∧
      ∀ q, t.pool.PartOf q → q.string? text = some name ∧
        q.method? index = some cx.config.genericCatch := by
  obtain ⟨text, u, htext, hrest⟩ := lower_bind_ok h
  obtain ⟨happends, hrun, hframes, -⟩ := onPool_appends (Pool.growing_stringRef _) htext
  obtain ⟨v, hemits, hsame, hrest⟩ := emit_bind hrest
  obtain ⟨w, hnotes, hlive, -, hrest⟩ := noteDepth_bind hrest
  have hfront := (happends.trans hemits).trans hnotes
  obtain ⟨index, hinvokes, hsame', hmethod⟩ :=
    invokeStatic_appends (m := cx.config.genericCatch) hrest (hfront.indexed hpool)
  refine ⟨text, index, hfront.trans hinvokes, ?_, fun q hq => ⟨?_, hmethod q hq⟩⟩
  · rw [hsame', hlive, hsame, hframes]
  · refine Pool.string?_of_stringRef hpool hrun ?_
    exact (hemits.trans (hnotes.trans hinvokes)).partOf (happends.indexed hpool) hq

end Pool

-- ==== transfers

section Transfers

variable {cx : Context} {s t : LowerState} {label : Label} {a : Unit}

/-- The frame of a label after the first save there. -/
theorem Saves.frame {frame : Frame} (h : Saves cx label frame s t)
    (hnone : s.frames.frameOf label = none) :
    ∃ f, t.frames.frameOf label = some f ∧ f.stack = frame.stack := by
  refine h.keeps (I := fun t => ∃ f, t.frames.frameOf label = some f ∧ f.stack = frame.stack)
    (fun hstored => ?_) fun u u' hu hrepair => ?_
  · rcases hstored.frame with ⟨-, hnew⟩ | ⟨old, new, hold, -⟩
    · exact ⟨frame, hnew, rfl⟩
    · cases hold.symm.trans hnone
  · obtain ⟨f, hf, hsame⟩ := hu
    cases hrepair with
    | @fill slot d =>
      refine ⟨f.fillLocal slot d.ty, ?_, hsame⟩
      rw [FrameStore.frameOf_materialize, hf]
      rfl
    | default => exact ⟨f, hf, hsame⟩

theorem save_appends (h : save label cx s = .ok a t)
    (hentered : EntryStack cx label s.frames.live.stack) :
    Appends cx [] s t ∧ t.frames.live.stack = s.frames.live.stack := by
  have hsaves := save_ok h
  exact ⟨.of_saves hsaves hentered, hsaves.mends.stack⟩

theorem forM_save_appends {α : Type} {label : α → Label} {xs : List α}
    (h : (xs.forM fun x => save (label x)) cx s = .ok a t)
    (hentered : ∀ x ∈ xs, EntryStack cx (label x) s.frames.live.stack) :
    Appends cx [] s t ∧ t.frames.live.stack = s.frames.live.stack := by
  induction xs generalizing s with
  | nil =>
    cases h
    exact ⟨.refl cx _, rfl⟩
  | cons x xs ih =>
    obtain ⟨_, u, hsave, hrest⟩ :=
      lower_bind_ok (x := save (label x)) (f := fun _ => xs.forM fun x => save (label x)) h
    obtain ⟨happends, hstack⟩ := save_appends hsave (hentered x (.head _))
    obtain ⟨hothers, hsame⟩ := ih hrest fun y hy =>
      hstack ▸ hentered y (.tail _ hy)
    exact ⟨happends.trans hothers, hsame.trans hstack⟩

theorem branchTo_appends {i : Instr} (h : branchTo i label cx s = .ok a t)
    (hentered : EntryStack cx label s.frames.live.stack) :
    Appends cx [.branch i label] s t ∧ t.frames.live.stack = s.frames.live.stack := by
  obtain ⟨_, u, hsave, hbranch⟩ := lower_bind_ok h
  obtain ⟨happends, hstack⟩ := save_appends hsave hentered
  cases hbranch
  exact ⟨happends.trans (b := [_]) ⟨⟨rfl, .refl, fun _ h => h⟩, rfl, rfl⟩, hstack⟩

theorem frame_of_branchTo {i : Instr} (h : branchTo i label cx s = .ok a t)
    (hnone : s.frames.frameOf label = none) :
    ∃ f, t.frames.frameOf label = some f ∧ f.stack = s.frames.live.stack := by
  obtain ⟨_, u, hsave, hbranch⟩ := lower_bind_ok h
  obtain ⟨f, hf, hstack⟩ := (save_ok hsave).frame hnone
  cases hbranch
  exact ⟨f, hf, hstack⟩

theorem jump_closes (h : jump label cx s = .ok a t)
    (hentered : EntryStack cx label s.frames.live.stack) :
    Closes cx [.branch (.goto 0) label] s t := by
  obtain ⟨_, u, hbranch, hend⟩ := lower_bind_ok h
  obtain ⟨happends, -⟩ := branchTo_appends hbranch hentered
  cases hend
  exact happends.closes (b := []) ⟨⟨rfl, .refl, fun _ h => h⟩, rfl, rfl,
    _, _, happends.body, rfl, nofun⟩

theorem throwTop_closes (h : throwTop cx s = .ok a t) :
    Closes cx [.instr .athrow] s t ∧
      (∀ label, t.frames.frameOf label = s.frames.frameOf label) ∧
      ∃ ty rest, s.frames.live.stack = ty :: rest ∧ ty.stackKind? = some .reference := by
  obtain ⟨_, u, hdiscard, hrest⟩ := lower_bind_ok h
  obtain ⟨ty, hpop⟩ := discard_ok hdiscard
  obtain ⟨hpops, hkind⟩ := popReference_pops hpop
  cases hrest
  exact ⟨hpops.appends.closes (b := [_]) ⟨⟨rfl, .refl, fun _ h => h⟩, rfl, rfl, _, _, rfl, rfl,
    nofun⟩, hpops.frames, ty, _, hpops.stack, hkind⟩

/-- Binding a label goes on with a stack that it is entered with, in code that goes on. -/
theorem bindLabel_emits (h : bindLabel label cx s = .ok a t) (hentry : Entry cx label s.frames)
    (hentered : s.reachable = true → EntryStack cx label s.frames.live.stack) :
    Emits cx [.bind label] s t ∧ t.reachable = true ∧ t.resumed = s.resumed ∧
      EntryStack cx label t.frames.live.stack ∧
      ∀ f, s.reachable = false → s.frames.frameOf label = some f →
        t.frames.live.stack = f.stack := by
  have hsave : s.reachable = true → ∀ {u : LowerState}, save label cx s = .ok () u →
      Appends cx [] s u ∧ u.frames.live.stack = s.frames.live.stack :=
    fun hreach u hrun => save_appends hrun (hentered hreach)
  have hnever : s.reachable = true → ∀ f, s.reachable = false →
      s.frames.frameOf label = some f → t.frames.live.stack = f.stack := by
    intro hreach f hnot
    cases hreach.symm.trans hnot
  rcases bindLabel_ok h with ⟨u, frame, hfrom, hframe, rfl⟩ | ⟨-, hreach, u, hu, rfl⟩
  · have hof := FrameStore.frameOf_of_recorded? hframe
    rcases hfrom with ⟨hreach, hu⟩ | ⟨-, rfl⟩
    · obtain ⟨happends, -⟩ := hsave hreach hu
      exact ⟨happends.toEmits.trans (b := [_]) ⟨rfl, .refl, fun _ hl => StackAt.congr hl rfl rfl⟩,
        rfl, happends.resumed, happends.entries label hentry frame hof, hnever hreach⟩
    · refine ⟨⟨rfl, .refl, fun _ hl => StackAt.congr hl rfl rfl⟩, rfl, rfl, hentry frame hof,
        fun f _ hf => ?_⟩
      cases hof.symm.trans hf
      rfl
  · obtain ⟨happends, hstack⟩ := hsave hreach hu
    exact ⟨happends.toEmits.trans (b := [_]) ⟨rfl, .refl, fun _ hl => StackAt.congr hl rfl rfl⟩,
      rfl, happends.resumed, hstack ▸ hentered hreach, hnever hreach⟩

/-- A jump table takes an `int`. -/
theorem switchTo_closes {low : Int} {targets : List Label} {default : Label} {ty : Ty}
    {rest : List Ty} (h : switchTo low targets default cx s = .ok a t)
    (hstack : s.frames.live.stack = ty :: rest)
    (hentered : ∀ label ∈ targets ++ [default], EntryStack cx label rest) :
    ty.stackKind? = some (.num .int) ∧ Closes cx [.table low targets default] s t := by
  obtain ⟨⟨ty', kind⟩, u, hpop, hrest⟩ := lower_bind_ok h
  obtain ⟨hpops, hkind⟩ := popKind_pops hpop
  obtain ⟨rfl, hbelow⟩ := List.cons.inj (hpops.stack.symm.trans hstack)
  dsimp only at hrest
  split at hrest
  · next hint =>
    obtain ⟨_, v, hsaves, hrest⟩ := lower_bind_ok hrest
    obtain ⟨happends, -⟩ := forM_save_appends hsaves fun l hl => hbelow ▸ hentered l hl
    cases hrest
    exact ⟨hint ▸ hkind, (hpops.appends.trans happends).closes (b := [_])
      ⟨⟨rfl, .refl, fun _ hl => hl⟩, rfl, rfl, _, _, rfl, rfl, nofun⟩⟩
  · cases hrest

end Transfers

-- ==== slots

section Slots

variable {cx : Context} {s t : LowerState} {slot : Nat} {ty : Ty} {a : Unit}

theorem store_appends {kind : StackKind} (h : store slot ty cx s = .ok a t)
    (hkind : ty.stackKind? = some kind) :
    Appends cx [.instr (.storeSlot kind slot)] s t ∧
      t.frames.live.stack = s.frames.live.stack := by
  obtain ⟨kind', u, hlook, hrest⟩ := lower_bind_ok h
  obtain ⟨hkind', rfl⟩ := stackKind_ok hlook
  cases hkind.symm.trans hkind'
  obtain ⟨v, hemits, hframes, hrest⟩ := emit_bind hrest
  obtain ⟨_, w, hset, hrest⟩ := lower_bind_ok hrest
  obtain ⟨_, x, hmark, hnote⟩ := lower_bind_ok hrest
  have hmarked : Appends cx [] v x ∧ x.frames.live.stack = v.frames.live.stack := by
    cases hset
    cases hmark
    exact ⟨.of_live rfl rfl rfl rfl rfl rfl, rfl⟩
  have hsaves := noteLocalsChanged_ok hnote
  have hsaved : Appends cx [] x t := .of_mends hsaves.mends fun _ hl => hl.handlerSaves hsaves
  refine ⟨(hemits.trans hmarked.1).trans hsaved, ?_⟩
  rw [hsaves.mends.stack, hmarked.2, hframes]

theorem load_appends (h : load slot cx s = .ok a t) :
    ∃ ty kind, ty.stackKind? = some kind ∧ Appends cx [.instr (.loadSlot kind slot)] s t ∧
      t.frames.live.stack = ty :: s.frames.live.stack := by
  -- once the slot is known to be set
  have hfetch : ∀ {u : LowerState} {ty : Ty}, Appends cx [] s u →
      u.frames.live.stack = s.frames.live.stack →
      (stackKind ty >>= fun kind => emit (.loadSlot kind slot) >>= fun _ => push ty) cx u
        = .ok a t →
      ∃ ty kind, ty.stackKind? = some kind ∧ Appends cx [.instr (.loadSlot kind slot)] s t ∧
        t.frames.live.stack = ty :: s.frames.live.stack := by
    intro u ty hu hstack hrun
    obtain ⟨kind, v, hlook, hrest⟩ := lower_bind_ok hrun
    obtain ⟨hkind, rfl⟩ := stackKind_ok hlook
    obtain ⟨w, hemits, hframes, hpush⟩ := emit_bind hrest
    obtain ⟨hpushes, hpushed⟩ := push_appends hpush
    refine ⟨ty, kind, hkind, hu.trans (hemits.trans hpushes), ?_⟩
    rw [hpushed, hframes, hstack]
  have hrest := get_bind_ok h
  cases hlocal : s.frames.local? slot with
  | some ty =>
    rw [hlocal] at hrest
    exact hfetch (.refl cx s) rfl hrest
  | none =>
    rw [hlocal] at hrest
    obtain ⟨ty, v, hfill, hrest⟩ := lower_bind_ok hrest
    have hrepairs := (materialize_ok hfill).1
    exact hfetch (.of_repairs hrepairs) (Repairs.mends hrepairs).stack hrest

end Slots

end Lowering

end BytecodeBridge
