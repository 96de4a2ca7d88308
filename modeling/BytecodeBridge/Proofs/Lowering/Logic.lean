/-
Computations that take steps.

`Does` says of a computation that every successful run is a sequence of
steps, and relates the state it starts in to its result and the state it
ends in. Most functions of the lowering need no relation on states at all,
only a fact about the result; for them there is `Runs`, whose rules are
easier to apply. The rules follow the ways in which the lowering is built
from smaller computations, and the rest of the file applies them to the
functions on the stack, the pool, the frames and the slots.
-/
import BytecodeBridge.Lowering.Local
import BytecodeBridge.Proofs.Lowering.Backed

namespace BytecodeBridge

theorem RegionTree.ne_nil_of_protecting {t : RegionTree} {offset r : Nat}
    (h : r ∈ t.protecting offset) : t.regions ≠ [] := by
  rintro hnil
  rw [RegionTree.protecting, hnil] at h
  cases h

theorem RegionTree.ne_nil_of_startingAt {t : RegionTree} {offset r : Nat}
    (h : r ∈ t.startingAt offset) : t.regions ≠ [] := by
  rintro hnil
  rw [RegionTree.startingAt, hnil] at h
  cases h

namespace Lowering

open LowerM

-- ==== logic

/-- Every successful run of a computation from a backed state with `P` is a sequence
of steps to a result and a state that satisfy `Q`. -/
def Does (cx : Context) (scope : Scope) {α : Type} (P : LowerState → Prop) (m : LowerM α)
    (Q : α → LowerState → Prop) : Prop :=
  ∀ s a s' p, Backed cx scope s → P s → m cx s = .ok a s' →
    (∃ p', StepsIn cx scope (s, p) (s', p')) ∧ Q a s'

/-- Every successful run of a computation is a sequence of steps, to a result that
satisfies `φ`. -/
def Runs (cx : Context) (scope : Scope) {α : Type} (m : LowerM α) (φ : α → Prop) : Prop :=
  Does cx scope (fun _ => True) m fun a _ => φ a

section Rules

variable {cx : Context} {scope : Scope} {α β : Type} {P : LowerState → Prop}

variable {x : LowerM α} {Q : α → LowerState → Prop}

theorem Does.bind {f : α → LowerM β} {M : α → LowerState → Prop} {Q : β → LowerState → Prop}
    (hx : Does cx scope P x M) (hf : ∀ a, Does cx scope (M a) (f a) Q) :
    Does cx scope P (x >>= f) Q := by
  intro s b s' p hback hP h
  obtain ⟨a, t, ha, hb⟩ := lower_bind_ok h
  obtain ⟨⟨p₁, hsteps₁⟩, hM⟩ := hx s a t p hback hP ha
  obtain ⟨⟨p₂, hsteps₂⟩, hQ⟩ := hf a t b s' p₁ (hback.steps hsteps₁) hM hb
  exact ⟨⟨p₂, hsteps₁.trans hsteps₂⟩, hQ⟩

theorem Does.weaken {P' : LowerState → Prop} {Q' : α → LowerState → Prop} (h : Does cx scope P x Q)
    (hP : ∀ s, P' s → P s) (hQ : ∀ a s, Q a s → Q' a s) :
    Does cx scope P' x Q' := by
  intro s a s' p hback hP' hrun
  obtain ⟨hsteps, hq⟩ := h s a s' p hback (hP s hP') hrun
  exact ⟨hsteps, hQ a s' hq⟩

theorem Does.look (h : ∀ s a s', P s → x cx s = .ok a s' → s' = s ∧ Q a s) :
    Does cx scope P x Q := by
  intro s a s' p _ hP hrun
  obtain ⟨rfl, hq⟩ := h s a s' hP hrun
  exact ⟨⟨p, .refl⟩, hq⟩

theorem Does.step (h : ∀ s a s' p, Backed cx scope s → P s → x cx s = .ok a s' →
      (∃ p', StepIn cx scope (s, p) (s', p')) ∧ Q a s') : Does cx scope P x Q := by
  intro s a s' p hback hP hrun
  obtain ⟨⟨p', hstep⟩, hq⟩ := h s a s' p hback hP hrun
  exact ⟨⟨p', .single hstep⟩, hq⟩

theorem Does.pure {a : α} (h : ∀ s, P s → Q a s) :
    Does cx scope P (pure a) Q := by
  refine .look fun s b s' hP hrun => ?_
  cases hrun
  exact ⟨rfl, h s hP⟩

theorem Does.throw {e : Cause} :
    Does cx scope P (throw e) Q := by
  intro s a s' p _ _ hrun
  cases hrun

theorem Does.get : Does cx scope P get fun a s => a = s ∧ P s := by
  refine .look fun s a s' hP hrun => ?_
  cases hrun
  exact ⟨rfl, rfl, hP⟩

theorem Does.lift {y : Except Cause α} :
    Does cx scope P (liftM y) fun a s => y = .ok a ∧ P s := by
  refine .look fun s a s' hP hrun => ?_
  obtain ⟨hy, rfl⟩ := state_lift_ok (x := y) hrun
  exact ⟨rfl, hy, hP⟩

theorem Does.read_bind {f : Context → LowerM β} {Q : β → LowerState → Prop}
    (h : Does cx scope P (f cx) Q) : Does cx scope P (read >>= f) Q :=
  fun s b s' p hback hP hrun => h s b s' p hback hP hrun

theorem Does.lift_bind {y : Except Cause α} {f : α → LowerM β} {Q : β → LowerState → Prop}
    (h : ∀ a, y = .ok a → Does cx scope P (f a) Q) : Does cx scope P (liftM y >>= f) Q :=
  .bind .lift fun a s b s' p hback ha hrun => h a ha.1 s b s' p hback ha.2 hrun

variable {x : LowerM α} {f : α → LowerM β} {φ : α → Prop} {ψ : β → Prop}

variable {e : Cause} {Q : α → LowerState → Prop} {I : LowerState → Prop} {l : List α}

theorem Runs.does (h : Runs cx scope x φ) : Does cx scope P x fun a _ => φ a :=
  h.weaken (fun _ _ => trivial) fun _ _ ha => ha

theorem Does.runs (h : Does cx scope (fun _ => True) x Q) : Runs cx scope x fun _ => True :=
  h.weaken (fun _ h => h) fun _ _ _ => trivial

theorem Runs.bind (hx : Runs cx scope x φ) (hf : ∀ a, φ a → Runs cx scope (f a) ψ) :
    Runs cx scope (x >>= f) ψ := by
  refine Does.bind (M := fun a _ => φ a) hx fun a s b s' p hback ha hrun => ?_
  exact hf a ha s b s' p hback trivial hrun

theorem Runs.pure {a : α} (h : φ a) : Runs cx scope (pure a) φ :=
  Does.pure fun _ _ => h

theorem Runs.throw : Runs cx scope (throw e : LowerM α) φ :=
  Does.throw

theorem Does.throw_bind {Q : β → LowerState → Prop} :
    Does cx scope P ((MonadExcept.throw e : LowerM α) >>= f) Q := by
  intro s b s' p _ _ hrun
  cases hrun

theorem Runs.throw_bind : Runs cx scope ((MonadExcept.throw e : LowerM α) >>= f) ψ :=
  Does.throw_bind

theorem Runs.lift {y : Except Cause α} : Runs cx scope (liftM y) fun a => y = .ok a :=
  Does.lift.weaken (fun _ h => h) fun _ _ h => h.1

theorem Runs.get : Runs cx scope get fun _ => True :=
  Does.get.weaken (fun _ h => h) fun _ _ _ => trivial

theorem Runs.read : Runs cx scope read fun a => a = cx := by
  refine .look fun s a s' _ hrun => ?_
  cases hrun
  exact ⟨rfl, rfl⟩

theorem Runs.discard (h : Runs cx scope x φ) : Runs cx scope (discard x) fun _ => True := by
  intro s a s' p hback _ hrun
  obtain ⟨b, hb⟩ := discard_ok hrun
  exact ⟨(h s b s' p hback trivial hb).1, trivial⟩

theorem Does.forM {g : α → LowerM Unit} (h : ∀ a ∈ l, Does cx scope I (g a) fun _ => I) :
    Does cx scope I (l.forM g) fun _ => I := by
  induction l with
  | nil => exact .pure fun _ hI => hI
  | cons a l ih =>
    exact (h a (.head _)).bind fun _ => ih fun b hb => h b (.tail _ hb)

/-- Rounds that each leave `J` leave it at the end of a loop that is not empty. -/
theorem Does.forM_ne {J : LowerState → Prop} {g : α → LowerM Unit} (hne : l ≠ [])
    (hJ : ∀ s, J s → I s) (h : ∀ a ∈ l, Does cx scope I (g a) fun _ => J) :
    Does cx scope I (l.forM g) fun _ => J := by
  induction l with
  | nil => exact absurd rfl hne
  | cons a l ih =>
    cases l with
    | nil => exact (h a (.head _)).bind fun _ => .pure fun _ hs => hs
    | cons b l =>
      refine (h a (.head _)).bind fun _ => ?_
      exact (ih (List.cons_ne_nil b l) fun c hc => h c (.tail _ hc)).weaken hJ fun _ _ hs => hs

theorem Runs.forM {g : α → LowerM Unit} (h : ∀ a ∈ l, Runs cx scope (g a) fun _ => True) :
    Runs cx scope (l.forM g) fun _ => True :=
  Does.forM (I := fun _ => True) h

theorem Runs.mapM (h : ∀ a ∈ l, Runs cx scope (f a) ψ) :
    Runs cx scope (l.mapM f) fun bs => ∀ b ∈ bs, ψ b := by
  induction l with
  | nil =>
    rw [List.mapM_nil]
    exact .pure (by simp)
  | cons a l ih =>
    rw [List.mapM_cons]
    refine (h a (.head _)).bind fun b hb => ?_
    refine (ih fun a' ha' => h a' (.tail _ ha')).bind fun bs hbs => ?_
    exact .pure (List.forall_mem_cons.mpr ⟨hb, hbs⟩)

theorem Does.backed (h : Does cx scope (fun s => Backed cx scope s ∧ P s) x Q) :
    Does cx scope P x Q :=
  fun s a s' p hback hP hrun => h s a s' p hback ⟨hback, hP⟩ hrun

theorem Does.gives {R : α → LowerState → Prop} (h : Does cx scope P x Q) (hgives : Gives cx P x R) :
    Does cx scope P x fun a s => Q a s ∧ R a s := by
  intro s a s' p hback hP hrun
  obtain ⟨hsteps, hQ⟩ := h s a s' p hback hP hrun
  exact ⟨hsteps, hQ, hgives s a s' hP hrun⟩

theorem Does.of_fact {p : Prop} (h : p → Does cx scope P x Q) :
    Does cx scope (fun s => p ∧ P s) x Q :=
  fun s a s' labels hback hP hrun => h hP.1 s a s' labels hback hP.2 hrun

/-- A condition that every step keeps. -/
def Lasting (cx : Context) (I : LowerState → Prop) : Prop :=
  ∀ ⦃s s' : LowerState⦄ ⦃p p' : List Label⦄, Step cx (s, p) (s', p') → I s → I s'

theorem Lasting.steps (hI : Lasting cx I) {a b : Stage} (h : StepsIn cx scope a b) (ha : I a.1) :
    I b.1 := by
  induction h with
  | refl => exact ha
  | tail _ hstep ih => exact hI hstep.step ih

theorem lasting_made (label : Label) : Lasting cx fun s => Made s label :=
  fun _ _ _ _ hstep h => hstep.made h

private theorem lasting_declared (declared : Std.TreeMap Nat Declared) :
    Lasting cx fun s => s.slots.declared = declared :=
  fun _ _ _ _ hstep h => hstep.declared.trans h

theorem lasting_true : Lasting cx fun _ => True :=
  fun _ _ _ _ _ h => h

theorem Lasting.and {J : LowerState → Prop} (hI : Lasting cx I) (hJ : Lasting cx J) :
    Lasting cx fun s => I s ∧ J s :=
  fun _ _ _ _ hstep h => ⟨hI hstep h.1, hJ hstep h.2⟩

theorem Does.during (h : Does cx scope P x Q) (hI : Lasting cx I) :
    Does cx scope (fun s => P s ∧ I s) x fun a s => Q a s ∧ I s := by
  intro s a s' p hback hs hrun
  obtain ⟨⟨p', hsteps⟩, hQ⟩ := h s a s' p hback hs.1 hrun
  exact ⟨⟨p', hsteps⟩, hQ, hI.steps hsteps hs.2⟩

theorem Runs.during (h : Runs cx scope x φ) (hI : Lasting cx I) :
    Does cx scope I x fun a s => φ a ∧ I s :=
  (Does.during h hI).weaken (fun _ hs => ⟨trivial, hs⟩) fun _ _ h => h

theorem Runs.during_bind {Q : β → LowerState → Prop} (hx : Runs cx scope x φ) (hI : Lasting cx I)
    (hf : ∀ a, φ a → Does cx scope I (f a) Q) :
    Does cx scope I (x >>= f) Q :=
  (hx.during hI).bind fun a s b s' p hback ha hrun => hf a ha.1 s b s' p hback ha.2 hrun

end Rules

-- ==== the stack and the pool

section Primitives

variable {cx : Context} {scope : Scope}

theorem runs_emit {i : Instr} (h : i.Plain) : Runs cx scope (emit i) fun _ => True := by
  refine .step fun s a s' p _ _ hrun => ?_
  cases hrun
  exact ⟨⟨[], .emit h⟩, trivial⟩

/-- An instruction that leaves the method ends the code in front of it. -/
theorem does_exit {i : Instr} {P : LowerState → Prop} (hturns : scope.turns) (h : i.Exit) :
    Does cx scope P (emit i >>= fun _ => endBlock) fun _ s => s.reachable = false := by
  refine .step fun s a s' p _ _ hrun => ?_
  cases hrun
  exact ⟨⟨[], .exit h hturns⟩, rfl⟩

theorem runs_noteDepth (extra : Nat) : Runs cx scope (noteDepth extra) fun _ => True := by
  refine .step fun s a s' p _ _ hrun => ?_
  cases hrun
  exact ⟨⟨[], .note extra⟩, trivial⟩

-- what the functions on the stack do to a state

section Stack

variable {s s' : LowerState} {ty : Ty}

theorem push_ok {a : Unit} (h : push ty cx s = .ok a s') :
    ∃ frames, s.frames.push ty = .ok frames ∧ s' = { s with frames } := by
  obtain ⟨frames, hpush, hset⟩ := lift_bind_ok (get_bind_ok h)
  cases hset
  exact ⟨frames, hpush, rfl⟩

theorem pop_ok (h : pop cx s = .ok ty s') :
    ∃ frames, s.frames.pop = .ok (ty, frames) ∧ s' = { s with frames } := by
  obtain ⟨⟨t, frames⟩, hpop, hset⟩ := lift_bind_ok (get_bind_ok h)
  cases hset
  exact ⟨frames, hpop, rfl⟩

theorem peek_ok (h : peek cx s = .ok ty s') :
    s' = s ∧ ∃ rest, s.frames.live.stack = ty :: rest := by
  obtain ⟨hpeek, rfl⟩ := state_lift_ok (x := s.frames.peek) h
  refine ⟨rfl, ?_⟩
  unfold FrameStore.peek at hpeek
  split at hpeek
  · next t rest hstack =>
    cases hpeek
    exact ⟨rest, hstack⟩
  · cases hpeek

theorem stackKind_ok {kind : StackKind} (h : stackKind ty cx s = .ok kind s') :
    ty.stackKind? = some kind ∧ s' = s := by
  unfold stackKind at h
  cases hk : ty.stackKind? with
  | none =>
    rw [hk] at h
    cases h
  | some k =>
    rw [hk] at h
    cases h
    exact ⟨rfl, rfl⟩

theorem popKind_ok {r : Ty × StackKind} (h : popKind cx s = .ok r s') :
    pop cx s = .ok r.1 s' ∧ r.1.stackKind? = some r.2 := by
  obtain ⟨ty, t, hpop, hrest⟩ := lower_bind_ok h
  obtain ⟨kind, u, hstackKind, hpure⟩ := lower_bind_ok hrest
  obtain ⟨hkind, rfl⟩ := stackKind_ok hstackKind
  cases hpure
  exact ⟨hpop, hkind⟩

theorem popReference_ok (h : popReference cx s = .ok ty s') :
    pop cx s = .ok ty s' ∧ ty.stackKind? = some .reference := by
  obtain ⟨⟨ty', kind⟩, t, hpop, h⟩ := lower_bind_ok h
  dsimp only at h
  split at h
  · next href =>
    cases h
    exact href ▸ popKind_ok hpop
  · cases h

end Stack

theorem does_push {P : LowerState → Prop} (ty : Ty) :
    Does cx scope P (push ty) fun _ s => ∃ rest, s.frames.live.stack = ty :: rest := by
  refine Does.step fun s a s' p _ _ hrun => ?_
  obtain ⟨frames, hpush, rfl⟩ := push_ok hrun
  refine ⟨⟨[], .push hpush⟩, ?_⟩
  obtain ⟨-, rfl⟩ := FrameStore.push_ok hpush
  exact ⟨_, rfl⟩

theorem runs_push (ty : Ty) : Runs cx scope (push ty) fun _ => True :=
  (does_push ty).weaken (fun _ h => h) fun _ _ _ => trivial

theorem runs_make (ty : Ty) : Runs cx scope (make ty) fun a => a = ty := by
  refine .step fun s a s' p _ _ hrun => ?_
  cases hrun
  exact ⟨⟨[], .make _⟩, rfl⟩

theorem runs_pushNew (ty : Ty) : Runs cx scope (pushNew ty) fun _ => True :=
  .bind (runs_make ty) fun a _ => runs_push a

theorem runs_pop : Runs cx scope pop fun _ => True := by
  refine .step fun s a s' p _ _ hrun => ?_
  obtain ⟨frames, hpop, rfl⟩ := pop_ok hrun
  exact ⟨⟨[], .pop hpop⟩, trivial⟩

theorem runs_stackKind (ty : Ty) :
    Runs cx scope (stackKind ty) fun k => ty.stackKind? = some k := by
  unfold stackKind
  split
  · next k hk => exact .pure hk
  · exact .throw

theorem runs_popKind : Runs cx scope popKind fun r => r.1.stackKind? = some r.2 := by
  refine .bind runs_pop fun ty _ => ?_
  exact .bind (runs_stackKind ty) fun k hk => .pure hk

theorem runs_onPool {α : Type} {act : PoolM α} {φ : α → Prop}
    (h : ∀ pool a pool', act pool = .ok a pool' → φ a) : Runs cx scope (onPool act) φ := by
  refine .step fun s a s' p _ _ hrun => ?_
  obtain ⟨pool, hact, rfl⟩ := onPool_ok hrun
  exact ⟨⟨[], .pool pool⟩, h _ _ _ hact⟩

theorem runs_onPool_any {α : Type} {act : PoolM α} : Runs cx scope (onPool act) fun _ => True :=
  runs_onPool fun _ _ _ _ => trivial

theorem runs_className (ty : Ty) :
    Runs cx scope (className ty) fun name => cx.types.className ty = .ok name := by
  refine .bind .read fun cx' hcx => ?_
  subst hcx
  exact .lift

theorem runs_classIndex (ty : Ty) :
    Runs cx scope (classIndex ty) fun _ => ∃ name, cx.types.className ty = .ok name :=
  .bind (runs_className ty) fun name hname => runs_onPool fun _ _ _ _ => ⟨name, hname⟩

/-- A label that is made now is one the scope lets be used. -/
theorem does_freshLabel {I : LowerState → Prop} (hturns : scope.turns) (hI : Lasting cx I) :
    Does cx scope I freshLabel fun label s =>
      (∃ n, label = .synthetic n ∧ scope.saves label ∧ scope.binds label) ∧
        Made s label ∧ I s := by
  refine .bind .get fun s₀ => ?_
  refine .step fun s a s' p hback hP hrun => ?_
  obtain ⟨rfl, hs⟩ := hP
  cases hrun
  have hstep : StepIn cx scope (s₀, p) ({ s₀ with nextLabel := s₀.nextLabel + 1 }, []) := .fresh
  refine ⟨⟨[], hstep⟩, ⟨_, rfl, hback.saves hturns _ rfl, hback.binds hturns _ ?_⟩,
    Nat.lt_succ_self _, hI hstep.step hs⟩
  exact Nat.lt_irrefl _

end Primitives

-- ==== default values

section Flow

variable {cx : Context} {scope : Scope} {s s' : LowerState}

variable {label : Label}

/-- Only the pool is needed for a default value. -/
private theorem defaultValue_ok {ty : Ty} {kind : StackKind} {r : List Instr × Nat}
    (h : defaultValue ty kind cx s = .ok r s') :
    DefaultCode ty kind r.1 ∧ ∃ pool, s.pool.Grows pool ∧ s' = { s with pool } := by
  unfold defaultValue at h
  split at h
  · next hvalue =>
    obtain ⟨name, t, hname, hrest⟩ := lower_bind_ok h
    obtain ⟨-, rfl⟩ := state_lift_ok (x := cx.types.className ty) hname
    obtain ⟨index, u, hclass, hrest⟩ := lower_bind_ok hrest
    obtain ⟨pool₁, hrun₁, rfl⟩ := onPool_ok hclass
    obtain ⟨init, u, hinit, hrest⟩ := lower_bind_ok hrest
    obtain ⟨pool₂, hrun₂, rfl⟩ := onPool_ok hinit
    cases hrest
    exact ⟨.object hvalue, pool₂, (Pool.grows_of_ok (Pool.growing_classRef name) hrun₁).trans
      (Pool.grows_of_ok (Pool.growing_methodRef name _ _ _) hrun₂), rfl⟩
  · split at h
    · cases h
      exact ⟨.zero, _, .refl, rfl⟩
    · cases h
      exact ⟨.null, _, .refl, rfl⟩

theorem gives_stackKind (P : LowerState → Prop) (ty : Ty) :
    Gives cx P (stackKind ty) fun k s => ty.stackKind? = some k ∧ P s := by
  intro s k s' hs hrun
  obtain ⟨hkind, rfl⟩ := stackKind_ok hrun
  exact ⟨hkind, hs⟩

/-- The default value is stored in the prologue. -/
theorem emitDefault_ok {slot : Nat} {ty : Ty} {a : Unit} (h : emitDefault slot ty cx s = .ok a s') :
    ∃ kind instrs depth pool, ty.stackKind? = some kind ∧ DefaultCode ty kind instrs ∧
      s.pool.Grows pool ∧ s' = { s with
        code := (instrs ++ [Instr.storeSlot kind slot]).foldl CodeBuffer.emitPrologue s.code
        prologueStack := max s.prologueStack depth
        slots := s.slots.markWritten slot
        pool } := by
  obtain ⟨kind, t, hlook, hrest⟩ := lower_bind_ok h
  obtain ⟨hkind, rfl⟩ := stackKind_ok hlook
  obtain ⟨⟨instrs, depth⟩, u, hvalue, hrest⟩ := lower_bind_ok hrest
  obtain ⟨hcode, pool, hgrows, rfl⟩ := defaultValue_ok hvalue
  cases hrest
  exact ⟨kind, instrs, depth, pool, hkind, hcode, hgrows, rfl⟩

/-- Giving a slot its declared type is a sequence of repairs. -/
theorem materialize_ok {slot : Nat} {ty : Ty} (h : materialize slot cx s = .ok ty s') :
    Repairs s s' ∧
      (∀ k t, s'.frames.live.locals.get? k = some t →
        k = slot ∨ s.frames.live.locals.get? k = some t) ∧
      ∃ d, s'.slots.declared? slot = some d ∧ ty = d.ty ∧
        (d.kind = .argument ∨ d.kind = .variable ∧ s'.slots.isDefaulted slot = true) := by
  -- up to the end, where the slot is an argument or has a default value
  obtain ⟨d, t, hrepairs, hframes, hd, hset, hend⟩ : ∃ d t, Repairs s t ∧ t.frames = s.frames ∧
      t.slots.declared? slot = some d ∧
      (d.kind = .argument ∨ d.kind = .variable ∧ t.slots.isDefaulted slot = true) ∧
      (modifyFrames (·.materialize slot d.ty) >>= fun _ => pure d.ty) cx t = .ok ty s' := by
    have h := get_bind_ok h
    cases hd : s.slots.declared? slot with
    | none =>
      rw [hd] at h
      cases h
    | some d =>
      rw [hd] at h
      dsimp only at h
      cases hkind : d.kind with
      | argument =>
        rw [hkind] at h
        exact ⟨d, s, .refl, rfl, hd, .inl hkind, h⟩
      | synthetic =>
        rw [hkind] at h
        cases h
      | «variable» =>
        rw [hkind] at h
        have h := get_bind_ok h
        split at h
        · next hset => exact ⟨d, s, .refl, rfl, hd, .inr ⟨hkind, hset⟩, h⟩
        · next hnew =>
          obtain ⟨_, _, hmark, h⟩ := lower_bind_ok h
          cases hmark
          obtain ⟨_, _, hreport, h⟩ := lower_bind_ok h
          cases hreport
          obtain ⟨_, _, hdefault, h⟩ := lower_bind_ok h
          obtain ⟨kind, instrs, depth, pool, htype, hcode, hgrows, rfl⟩ := emitDefault_ok hdefault
          exact ⟨d, _, .single (.default hd hkind (Bool.eq_false_iff.mpr hnew) htype hcode hgrows),
            rfl, hd, .inr ⟨hkind, Std.TreeSet.contains_insert_self⟩, h⟩
  cases hend
  refine ⟨hrepairs.tail (.fill hd hset), fun k u hu => ?_, d, hd, rfl, hset⟩
  rw [← hframes]
  exact (SlotMap.get?_of_fill hu).imp_left And.left

-- ==== saving frames

/-- The variables among some slots are repaired: they have a default value, and so does
whatever the live frame has gained. -/
structure Repaired (locals : List Nat) (s s' : LowerState) : Prop where
  repairs : Repairs s s'
  defaulted : ∀ slot ∈ locals, s.slots.isVariable slot = true → s'.slots.isDefaulted slot = true
  filled : ∀ slot t, s'.frames.live.locals.get? slot = some t →
    s.frames.live.locals.get? slot = some t ∨ s'.slots.isDefaulted slot = true

theorem Repaired.append {locals more : List Nat} {s t s' : LowerState} (h : Repaired locals s t)
    (h' : Repaired more t s') : Repaired (locals ++ more) s s' := by
  have hmends := Repairs.mends h'.repairs
  refine ⟨h.repairs.trans h'.repairs, List.forall_mem_append.mpr
    ⟨fun slot hslot hvar => hmends.defaulted (h.defaulted slot hslot hvar),
      fun slot hslot hvar => ?_⟩, fun slot ty hty => ?_⟩
  · have hsame := Slots.isVariable_congr h.repairs.mends.declared slot
    exact h'.defaulted slot hslot (hsame.trans hvar)
  · rcases h'.filled slot ty hty with hold | hdefault
    · exact (h.filled slot ty hold).imp_right hmends.defaulted
    · exact .inr hdefault

private theorem repair_ok {slot : Nat} {a : Unit} (h : (do
      if (← get).slots.isVariable slot then
        discard (materialize slot) : LowerM Unit) cx s = .ok a s') : Repaired [slot] s s' := by
  have h := get_bind_ok h
  split at h
  · next hvar =>
    obtain ⟨ty, hmat⟩ := discard_ok h
    obtain ⟨hrepairs, hfilled, d, hd, -, hset⟩ := materialize_ok hmat
    have hdefault : s'.slots.isDefaulted slot = true := by
      rcases hset with harg | hset
      · -- an argument is no variable
        rw [← Slots.isVariable_congr hrepairs.mends.declared] at hvar
        unfold Slots.isVariable at hvar
        rw [hd] at hvar
        dsimp only at hvar
        rw [harg] at hvar
        cases hvar
      · exact hset.2
    refine ⟨hrepairs, fun other hother _ => ?_, fun other u hu => ?_⟩
    · rw [List.mem_singleton.mp hother]
      exact hdefault
    · rcases hfilled other u hu with rfl | hold
      · exact .inr hdefault
      · exact .inl hold
  · next hvar =>
    cases h
    refine ⟨.refl, fun other hother h => ?_, fun _ _ h => .inl h⟩
    rw [List.mem_singleton.mp hother] at h
    exact absurd h hvar

/-- Going through the changed slots repairs the variables among them. -/
private theorem repairs_ok {locals : List Nat} {a : Unit} (h : (locals.forM fun slot => do
      if (← get).slots.isVariable slot then
        discard (materialize slot) : LowerM Unit) cx s = .ok a s') : Repaired locals s s' := by
  induction locals generalizing s with
  | nil =>
    cases h
    exact ⟨.refl, by simp, fun _ _ h => .inl h⟩
  | cons slot locals ih =>
    obtain ⟨_, t, hfirst, hrest⟩ := lower_bind_ok h
    exact (repair_ok hfirst).append (ih hrest)

/-- A frame is saved, and what it invalidates is repaired. -/
theorem saveFrame_ok {frame : Frame} {a : Unit} (h : saveFrame label frame cx s = .ok a s') :
    Saves cx label frame s s' := by
  have h := get_bind_ok (read_bind_ok h)
  generalize hsave : FrameStore.save _ _ _ _ _ _ = r at h
  obtain ⟨frames, result⟩ := r
  obtain ⟨_, _, hset, h⟩ := state_bind_ok
    (x := (modify fun s : LowerState => { s with frames, made := _ } : LowerM Unit) cx)
    (f := fun _ => (liftM result >>= settleSaved label : LowerM Unit) cx) h
  cases hset
  obtain ⟨saved, rfl, h⟩ := lift_bind_ok h
  cases saved with
  | invalidated locals stack =>
    obtain ⟨_, _, hreport, h⟩ := lower_bind_ok h
    cases hreport
    obtain ⟨hrepairs, hdefaulted, hfilled⟩ := repairs_ok h
    refine .changed hsave hrepairs hdefaulted fun slot ty hty => ?_
    rw [← (FrameStore.save_ok hsave).live]
    exact hfilled slot ty hty
  | _ =>
    cases h
    exact .kept hsave fun _ _ h => by cases h

theorem save_ok {a : Unit} (h : save label cx s = .ok a s') :
    Saves cx label (widen cx.types s.slots s.frames.live) s s' := by
  obtain ⟨_, _, hframe, h⟩ := lower_bind_ok h
  cases hframe
  exact saveFrame_ok h

/-- A label that may be saved to from any state. -/
structure Aim (cx : Context) (scope : Scope) (label : Label) : Prop where
  ahead : ∀ o, label = .source o → cx.targets.contains o = true ∨ Ahead cx o
  saves : scope.saves label

theorem Aim.isOpen (h : Aim cx scope label) (s : LowerState) : Open cx s label :=
  fun o ho => (h.ahead o ho).imp_right .inr

theorem aim_of_ne (h : ∀ o, label ≠ .source o) (hsaves : scope.saves label) :
    Aim cx scope label :=
  ⟨fun o ho => absurd ho (h o), hsaves⟩

/-- A state whose live frame may be saved at a label. -/
structure Fit (cx : Context) (label : Label) (s : LowerState) : Prop where
  made : Made s label
  topped : Thin cx → label.isEntry = true → Topped s.frames.live.stack

theorem fit_source (o : Nat) (s : LowerState) : Fit cx (.source o) s :=
  ⟨trivial, fun _ h => by cases h⟩

theorem fit_of_made (hlabel : label.isEntry = false) (hmade : Made s label) :
    Fit cx label s :=
  ⟨hmade, fun _ h => by rw [hlabel] at h; cases h⟩

theorem Fit.saves {saved : Label} {frame : Frame} (h : Fit cx label s)
    (hsave : Saves cx saved frame s s') : Fit cx label s' := by
  refine ⟨h.made.mono (Nat.le_of_eq hsave.mends.made.1.symm) fun _ hr => hsave.mends.made.2 ▸ hr,
    fun hthin hentry => ?_⟩
  rw [hsave.mends.stack]
  exact h.topped hthin hentry

theorem step_of_save {s s' : LowerState} {a : Unit} (hopen : Open cx s label)
    (hscope : scope.saves label) (hfit : Fit cx label s) (h : save label cx s = .ok a s')
    (p : List Label) :
    StepIn cx scope (s, p) (s', label :: p) :=
  .save rfl hopen (save_ok h) (.inl rfl) hscope hfit.made hfit.topped

/-- All labels of a switch are saved to before it. -/
private theorem steps_of_saves {labels : List Label} {s s' : LowerState} {a : Unit}
    (haim : ∀ label ∈ labels, Aim cx scope label) (hfit : ∀ label ∈ labels, Fit cx label s)
    (h : labels.forM save cx s = .ok a s') (p : List Label) :
    ∃ p', StepsIn cx scope (s, p) (s', p') ∧ (∀ label ∈ p, label ∈ p') ∧
      ∀ label ∈ labels, label ∈ p' := by
  induction labels generalizing s p with
  | nil =>
    cases h
    exact ⟨p, .refl, fun _ h => h, by simp⟩
  | cons label labels ih =>
    obtain ⟨_, t, hsave, h⟩ := lower_bind_ok h
    have hfirst := haim label (.head _)
    have hstep := step_of_save (hfirst.isOpen s) hfirst.saves (hfit label (.head _))
      hsave p
    have hsaves := save_ok hsave
    obtain ⟨p', hsteps, hkeep, hall⟩ := ih (fun l hl => haim l (.tail _ hl))
      (fun l hl => (hfit l (.tail _ hl)).saves hsaves) h (label :: p)
    refine ⟨p', .head hstep hsteps, fun l hl => hkeep l (.tail _ hl), ?_⟩
    exact List.forall_mem_cons.mpr ⟨hkeep label (.head _), hall⟩

/-- A state that fits a label still does once it is saved there. -/
theorem does_save (haim : Aim cx scope label) :
    Does cx scope (Fit cx label) (save label) fun _ => Fit cx label := by
  refine .step fun s a s' p _ hfit hrun => ?_
  exact ⟨⟨_, step_of_save (haim.isOpen s) haim.saves hfit hrun p⟩,
    hfit.saves (save_ok hrun)⟩

private theorem saveAtHandler_ok {r : Nat} {a : Unit} (h : saveAtHandler r cx s = .ok a s') :
    Saves cx (.handler r)
      { widen cx.types s.slots s.frames.live with stack := [cx.types.throwable] } s s' := by
  obtain ⟨_, _, hframe, h⟩ := lower_bind_ok h
  cases hframe
  exact saveFrame_ok (read_bind_ok h)

theorem handlerSaves_ok {handlers : List Nat} {a : Unit}
    (h : handlers.forM saveAtHandler cx s = .ok a s') : HandlerSaves cx handlers s s' := by
  induction handlers generalizing s with
  | nil =>
    cases h
    exact .nil
  | cons r handlers ih =>
    obtain ⟨_, t, hsave, hrest⟩ := lower_bind_ok h
    exact .cons (saveAtHandler_ok hsave) (ih hrest)

theorem noteLocalsChanged_ok {a : Unit} (h : noteLocalsChanged cx s = .ok a s') :
    HandlerSaves cx (cx.regions.protecting cx.current) s s' :=
  handlerSaves_ok (read_bind_ok h)

/-- Telling handlers what the live locals are is a sequence of steps. -/
theorem HandlerSaves.stepsIn {handlers : List Nat} (h : HandlerSaves cx handlers s s')
    (hregions : ∀ r ∈ handlers, cx.regions.regions ≠ [] ∧ scope.saves (.handler r))
    (p : List Label) : ∃ p', StepsIn cx scope (s, p) (s', p') := by
  induction h generalizing p with
  | nil => exact ⟨p, .refl⟩
  | @cons r rs s t s' hsave _ ih =>
    obtain ⟨hne, hscope⟩ := hregions r (.head _)
    have hstep : StepIn cx scope (s, p) (t, .handler r :: p) := by
      refine .save ?_ (fun o ho => by cases ho) hsave (.inr ⟨hne, rfl⟩) hscope trivial
        fun hthin _ => ⟨_, [], rfl, hthin.throwable⟩
      rfl
    obtain ⟨p', hsteps⟩ := ih (fun r hr => hregions r (.tail _ hr)) (.handler r :: p)
    exact ⟨p', .head hstep hsteps⟩

-- ==== transfers

theorem does_branchTo {i : Instr} (hi : i.isConditional = true) (haim : Aim cx scope label) :
    Does cx scope (Fit cx label) (branchTo i label) fun _ => Fit cx label := by
  intro s a s' p _ hfit hrun
  obtain ⟨_, t, hsave, hrun⟩ := lower_bind_ok hrun
  cases hrun
  have hstep := step_of_save (haim.isOpen s) haim.saves hfit hsave p
  have hfit' := hfit.saves (save_ok hsave)
  exact ⟨⟨[], .tail (.single hstep) (.branch hi (.head _))⟩, hfit'.made, hfit'.topped⟩

theorem jump_ok {a : Unit} (h : jump label cx s = .ok a s') :
    ∃ t, save label cx s = .ok () t ∧
      s' = { t with code := t.code.branch (.goto 0) label, reachable := false } := by
  obtain ⟨_, u, hbranch, hend⟩ := lower_bind_ok h
  obtain ⟨_, t, hsave, hbranch⟩ := lower_bind_ok hbranch
  cases hbranch
  cases hend
  exact ⟨t, hsave, rfl⟩

theorem does_jump (hturns : scope.turns) (haim : Aim cx scope label) :
    Does cx scope (Fit cx label) (jump label) fun _ s => s.reachable = false := by
  intro s a s' p _ hfit hrun
  obtain ⟨t, hsave, rfl⟩ := jump_ok hrun
  have hstep := step_of_save (haim.isOpen s) haim.saves hfit hsave p
  exact ⟨⟨[], .tail (.single hstep) (.jump (.head _) hturns)⟩, rfl⟩

theorem runs_branchTo {i : Instr} {o : Nat} (hi : i.isConditional = true)
    (haim : Aim cx scope (.source o)) : Runs cx scope (branchTo i (.source o)) fun _ => True :=
  (does_branchTo hi haim).weaken (fun s _ => fit_source o s) fun _ _ _ => trivial

theorem does_jump_source {P : LowerState → Prop} {o : Nat} (hturns : scope.turns)
    (haim : Aim cx scope (.source o)) :
    Does cx scope P (jump (.source o)) fun _ s => s.reachable = false :=
  (does_jump hturns haim).weaken (fun s _ => fit_source o s) fun _ _ h => h

theorem runs_jump {o : Nat} (hturns : scope.turns) (haim : Aim cx scope (.source o)) :
    Runs cx scope (jump (.source o)) fun _ => True :=
  (does_jump_source hturns haim).runs

section Made

variable {I : LowerState → Prop} {label : Label}

theorem does_branchTo_made {i : Instr} (hi : i.isConditional = true) (haim : Aim cx scope label)
    (hlabel : label.isEntry = false) (hI : Lasting cx I) (hmade : ∀ s, I s → Made s label) :
    Does cx scope I (branchTo i label) fun _ => I :=
  ((does_branchTo hi haim).during hI).weaken
    (fun s hs => ⟨fit_of_made hlabel (hmade s hs), hs⟩) fun _ _ h => h.2

theorem does_jump_made (hturns : scope.turns) (haim : Aim cx scope label)
    (hlabel : label.isEntry = false) (hI : Lasting cx I) (hmade : ∀ s, I s → Made s label) :
    Does cx scope I (jump label) fun _ => I :=
  ((does_jump hturns haim).during hI).weaken
    (fun s hs => ⟨fit_of_made hlabel (hmade s hs), hs⟩) fun _ _ h => h.2

end Made

/-- A table goes to labels that were made before. -/
theorem does_switchTo {low : Int} {targets : List Label} {default : Label}
    (hturns : scope.turns)
    (haim : ∀ label ∈ targets ++ [default], Aim cx scope label ∧ label.isEntry = false) :
    Does cx scope (fun s => ∀ label ∈ targets ++ [default], Made s label)
      (switchTo low targets default) fun _ _ => True := by
  have hlasting : Lasting cx fun s => ∀ label ∈ targets ++ [default], Made s label :=
    fun _ _ _ _ hstep h label hlabel => hstep.made (h label hlabel)
  refine Runs.during_bind runs_popKind hlasting fun r _ => ?_
  obtain ⟨ty, kind⟩ := r
  dsimp only
  split
  · intro s a s' p _ hmade hrun
    obtain ⟨_, t, hsaves, hrun⟩ := lower_bind_ok hrun
    cases hrun
    obtain ⟨p', hsteps, -, hall⟩ := steps_of_saves (fun label hlabel => (haim label hlabel).1)
      (fun label hlabel => fit_of_made (haim label hlabel).2 (hmade label hlabel)) hsaves p
    exact ⟨⟨[], .tail hsteps (.table hall hturns)⟩, trivial⟩
  · exact Does.throw_bind

theorem loadFrame_ok {a : Unit} (h : loadFrame label cx s = .ok a s') :
    ∃ frame, s.frames.recorded? label = some frame ∧
      s' = { s with frames := { s.frames with live := frame } } := by
  obtain ⟨frames, hload, hset⟩ := lift_bind_ok (get_bind_ok h)
  cases hset
  unfold FrameStore.load at hload
  split at hload
  · next frame hframe =>
    cases hload
    exact ⟨frame, hframe, rfl⟩
  · cases hload

/-- A label is bound with the frame it has, after what is live is merged into that where
control gets there, or else with the live frame. -/
theorem bindLabel_ok {label : Label} {a : Unit} (h : bindLabel label cx s = .ok a s') :
    (∃ t frame, (s.reachable = true ∧ save label cx s = .ok () t ∨ s.reachable = false ∧ t = s) ∧
      t.frames.recorded? label = some frame ∧
      s' = { t with
        frames := { t.frames with live := frame }.markBound label
        code := t.code.bind label
        reachable := true }) ∨
    s.frames.has label = false ∧ s.reachable = true ∧ ∃ t, save label cx s = .ok () t ∧
      s' = { t with
        frames := t.frames.markBound label
        code := t.code.bind label
        reachable := true } := by
  change (if s.frames.has label = true then _ else _ : LowerM Unit) cx s = _ at h
  have hload : ∀ {t : LowerState}, (loadFrame label >>= fun _ => bindHere label) cx t = .ok a s' →
      ∃ frame, t.frames.recorded? label = some frame ∧
        s' = { t with
          frames := { t.frames with live := frame }.markBound label
          code := t.code.bind label
          reachable := true } := by
    intro t hrun
    obtain ⟨_, u, hload, hrun⟩ := lower_bind_ok hrun
    obtain ⟨frame, hframe, rfl⟩ := loadFrame_ok hload
    cases hrun
    exact ⟨frame, hframe, rfl⟩
  split at h
  · split at h
    · next hreach =>
      obtain ⟨_, t, hsave, h⟩ := lower_bind_ok h
      obtain ⟨frame, hframe, heq⟩ := hload h
      exact .inl ⟨t, frame, .inl ⟨hreach, hsave⟩, hframe, heq⟩
    · next hreach =>
      obtain ⟨frame, hframe, heq⟩ := hload h
      exact .inl ⟨s, frame, .inr ⟨Bool.eq_false_iff.mpr hreach, rfl⟩, hframe, heq⟩
  · next hhas =>
    split at h
    · next hreach =>
      obtain ⟨_, t, hsave, h⟩ := lower_bind_ok h
      cases h
      exact .inr ⟨Bool.eq_false_iff.mpr hhas, hreach, t, hsave, rfl⟩
    · cases h

/-- Binding a label, from a state that fits it unless control does not get there. -/
theorem does_bindLabel {label : Label} (hturns : scope.turns) (hlabel : ∀ o, label ≠ .source o)
    (hplace : InPlace cx label) (hsaves : scope.saves label) (hbinds : scope.binds label) :
    Does cx scope (fun s => s.reachable = true → Fit cx label s) (bindLabel label)
      fun _ => Fit cx label := by
  have haim : Aim cx scope label := aim_of_ne hlabel hsaves
  -- what is known of the frame of the label
  have hloaded : ∀ {s : LowerState} {frame : Frame}, Backed cx scope s →
      s.frames.recorded? label = some frame → Made s label ∧
        (Thin cx → label.isEntry = true → Topped frame.stack) := fun hback hframe =>
    ⟨hback.made label (FrameStore.has_of_recorded? hframe), fun hthin hentry =>
      (hback.slender hturns hthin).entries label _ hentry (FrameStore.frameOf_of_recorded? hframe)⟩
  intro s a s' p hback hfit hrun
  rcases bindLabel_ok hrun with ⟨t, frame, ⟨hreach, hsave⟩ | ⟨hreach, rfl⟩, hframe, rfl⟩ |
    ⟨hhas, hreach, t, hsave, rfl⟩
  · -- the live frame is merged into the recorded one
    have hstep := step_of_save (haim.isOpen s) hsaves (hfit hreach) hsave p
    obtain ⟨hmade, htop⟩ := hloaded (hback.step hstep) hframe
    exact ⟨⟨[], .tail (.single hstep) (.bindLoaded hplace (fun _ => .head _)
      hframe hbinds)⟩, hmade, htop⟩
  · obtain ⟨hmade, htop⟩ := hloaded hback hframe
    exact ⟨⟨[], .single (.bindLoaded hplace (fun h => absurd h (Bool.eq_false_iff.mp hreach))
      hframe hbinds)⟩, hmade, htop⟩
  · have hfit := hfit hreach
    have hsaved := save_ok hsave
    have hfit' := hfit.saves hsaved
    exact ⟨⟨[], .single (.bindNew ⟨hplace, hlabel⟩ hhas hreach hsaved ⟨hsaves, hbinds⟩ hfit.made
      hfit.topped)⟩, hfit'.made, hfit'.topped⟩

theorem does_bindLabel_made {I : LowerState → Prop} {label : Label} (hturns : scope.turns)
    (hlabel : ∀ o, label ≠ .source o) (hplace : InPlace cx label) (hsaves : scope.saves label)
    (hbinds : scope.binds label) (hentry : label.isEntry = false) (hI : Lasting cx I)
    (hmade : ∀ s, I s → Made s label) : Does cx scope I (bindLabel label) fun _ => I :=
  ((does_bindLabel hturns hlabel hplace hsaves hbinds).during hI).weaken
    (fun s hs => ⟨fun _ => fit_of_made hentry (hmade s hs), hs⟩) fun _ _ h => h.2

end Flow

-- ==== loads and stores

section Local

variable {cx : Context} {scope : Scope}

/-- Pushing a slot that holds a value of a type. -/
theorem does_fetch (slot : Nat) (ty : Ty) :
    Does cx scope (fun s => ∀ kind, ty.stackKind? = some kind → Readable s kind slot)
      (stackKind ty >>= fun kind => emit (.loadSlot kind slot) >>= fun _ => push ty)
      fun _ s => ∃ rest, s.frames.live.stack = ty :: rest := by
  refine .bind (M := fun kind s => Readable s kind slot) ?_ fun kind => ?_
  · unfold stackKind
    split
    · next kind hkind => exact .pure fun s hP => hP kind hkind
    · exact .throw
  · refine .bind (M := fun _ _ => True) ?_ fun _ => does_push ty
    refine .step fun s a s' p _ hP hrun => ?_
    cases hrun
    exact ⟨⟨[], .fetch hP⟩, trivial⟩

private theorem steps_of_repairs {s s' : LowerState} (h : Repairs s s') (p : List Label) :
    ∃ p', StepsIn cx scope (s, p) (s', p') := by
  induction h with
  | refl => exact ⟨p, .refl⟩
  | tail _ hstep ih =>
    obtain ⟨p', hsteps⟩ := ih
    exact ⟨[], hsteps.tail (.repair hstep)⟩

theorem runs_load (slot : Nat) : Runs cx scope (load slot) fun _ => True := by
  refine Does.bind Does.get fun s₀ => ?_
  split
  · next ty hty =>
    refine (does_fetch slot ty).weaken ?_ fun _ _ _ => trivial
    rintro s ⟨rfl, -⟩ kind hkind
    exact .inl ⟨ty, hty, hkind⟩
  · refine Does.bind ?_ fun ty =>
      (does_fetch slot ty).weaken (fun _ h => h) fun _ _ _ => trivial
    intro s ty s' p _ hP hrun
    obtain ⟨hrepairs, -, d, hd, rfl, hset⟩ := materialize_ok hrun
    exact ⟨steps_of_repairs hrepairs p, fun kind hkind => .inr ⟨d, hd, hkind, hset⟩⟩

/-- A slot that a value of a type may be stored in. -/
structure Storable (cx : Context) (scope : Scope) (slot : Nat) (ty : Ty) (s : LowerState) :
    Prop where
  stores : Takes cx scope s.slots slot
  writable : ∀ kind, ty.stackKind? = some kind → Writable s kind slot
  thin : Thin cx → ∀ d, s.slots.declared? slot = some d → d.kind = .synthetic → ty.category = 1

/-- Storing a popped value in a slot that takes it. -/
theorem does_store (slot : Nat) (ty : Ty) :
    Does cx scope (Storable cx scope slot ty) (store slot ty) fun _ _ => True := by
  refine .bind (M := fun kind s => ty.stackKind? = some kind ∧ Storable cx scope slot ty s) ?_
    fun kind => ?_
  · unfold stackKind
    split
    · next kind hkind => exact .pure fun s hP => ⟨hkind, hP⟩
    · exact .throw
  · -- the instruction, the frame, the mark on the slot and the handlers are one step
    refine .step fun s a s' p _ hP hrun => ?_
    obtain ⟨hkind, hstorable⟩ := hP
    have htold := noteLocalsChanged_ok hrun
    exact ⟨⟨[], .change (.put hkind (hstorable.writable kind hkind) hstorable.thin) htold
      (.inr ⟨slot, ty, hstorable.stores, rfl⟩)⟩, trivial⟩

theorem runs_narrow (k : Prim) : Runs cx scope (narrow k) fun _ => True := by
  cases k with
  | uint8 =>
    refine .bind (runs_emit ⟨rfl, rfl, rfl⟩) fun _ _ => ?_
    exact .bind (runs_emit ⟨rfl, rfl, rfl⟩) fun _ _ => runs_noteDepth 2
  | int8 | int16 | char | uint16 => exact runs_emit ⟨rfl, rfl, rfl⟩
  | _ => exact .pure trivial

/-- A value is recorded with a type of the kind it has to fit. -/
theorem runs_coerce (value target : Ty) :
    Runs cx scope (coerce value target) fun ty => ty.stackKind? = target.stackKind? := by
  refine .bind (runs_stackKind value) fun valueKind hvalue => ?_
  refine .bind (runs_stackKind target) fun targetKind htarget => ?_
  cases target with
  | prim k =>
    dsimp only
    split
    · split
      · exact .pure rfl
      · exact .bind (runs_narrow k) fun _ _ => .pure rfl
    · exact .throw_bind
  | _ =>
    dsimp only
    split
    · next heq =>
      refine .pure ?_
      split
      · rw [hvalue, htarget, heq]
      · rfl
    · exact .throw_bind

/-- A value is converted to the type that its slot is declared with. -/
theorem runs_storeDeclared (hscope : scope.changes) (slot : Nat) :
    Runs cx scope (storeDeclared slot) fun _ => True := by
  refine Runs.bind runs_pop fun value _ => ?_
  refine Does.bind Does.get fun s₀ => ?_
  split
  · next declared hdeclared =>
    refine Does.bind (M := fun ty s => ty.stackKind? = declared.stackKind? ∧
      s.slots.declared = s₀.slots.declared) ?_ fun ty => ?_
    · refine ((runs_coerce value declared).during (lasting_declared s₀.slots.declared)).weaken ?_
        fun _ _ h => h
      rintro s ⟨rfl, -⟩
      rfl
    · refine Does.backed ((does_store slot ty).weaken ?_ fun _ _ _ => trivial)
      rintro s ⟨hback, hty, hslots⟩
      obtain ⟨d, hd, rfl⟩ := Option.map_eq_some_iff.mp hdeclared
      rw [← Slots.declared?_congr hslots] at hd
      refine ⟨.inl hscope, fun kind hkind => .inl ⟨d, hd, .inr (hty ▸ hkind)⟩,
        fun hthin e he hsynthetic => ?_⟩
      cases hd.symm.trans he
      exact (Ty.category_congr hty).trans (hback.thin hthin slot d hd hsynthetic)
  · exact Does.throw

end Local

end Lowering

end BytecodeBridge
