/-
Computations that keep the code and the frame in step.

`Tracks` says of a computation where it leads from a point, and `TracksTo`
is the case in which there is just one place to go. The rules follow the ways
in which the lowering is built from smaller computations, and the rest of
the file applies them to the functions that lower arithmetic, conversions,
comparisons, branches, loads and stores.

Each of these starts where the code and the live frame agree on the stack,
and ends so that whatever the code leaves there may go by the types of the
frame (`Ready`). In between an operation pops types from the frame, emits
instructions that take the values, and pushes the type of the result.
-/
import BytecodeBridge.Proofs.Lowering.Tracking

namespace BytecodeBridge.Lowering

open LowerM Machine

-- ==== rules

section Rules

variable {P α β : Type} {cx : Context} {I : P → LowerState → Prop} {p p' : P} {x : LowerM α}
  {f : α → LowerM β} {R : α → P → Prop} {Q : β → P → Prop}

/-- Every successful run of a computation from a state at a point comes to a state at a
point, and the result and the point satisfy `Q`. What it is for a state to be at a point is
up to `I`. -/
def Tracks (cx : Context) (I : P → LowerState → Prop) (p : P) (m : LowerM α)
    (Q : α → P → Prop) : Prop :=
  Gives cx (I p) m fun a s => ∃ p', Q a p' ∧ I p' s

/-- Every successful run of a computation leads from one point to another. -/
def TracksTo (cx : Context) (I : P → LowerState → Prop) (p : P) (m : LowerM α) (p' : P) : Prop :=
  Gives cx (I p) m fun _ => I p'

theorem Tracks.bind (hx : Tracks cx I p x R) (hf : ∀ a p', R a p' → Tracks cx I p' (f a) Q) :
    Tracks cx I p (x >>= f) Q := by
  refine Gives.bind hx fun a => ?_
  rintro s b s' ⟨p', hR, h⟩ hrun
  exact hf a p' hR s b s' h hrun

theorem TracksTo.bind (hx : TracksTo cx I p x p') (hf : ∀ a, Tracks cx I p' (f a) Q) :
    Tracks cx I p (x >>= f) Q :=
  Gives.bind hx hf

theorem TracksTo.trans {p'' : P} (hx : TracksTo cx I p x p')
    (hf : ∀ a, TracksTo cx I p' (f a) p'') : TracksTo cx I p (x >>= f) p'' :=
  Gives.bind hx hf

theorem TracksTo.moves (h : TracksTo cx I p x p') (hR : ∀ a, R a p') : Tracks cx I p x R :=
  .weaken h (fun _ hs => hs) fun a _ hs => ⟨p', hR a, hs⟩

theorem Tracks.weaken {R' : α → P → Prop} (h : Tracks cx I p x R) (hR : ∀ a q, R a q → R' a q) :
    Tracks cx I p x R' := by
  refine Gives.weaken h (fun _ hs => hs) ?_
  rintro a s ⟨q, hq, hs⟩
  exact ⟨q, hR a q hq, hs⟩

theorem Tracks.pure {a : α} (h : R a p) : Tracks cx I p (pure a) R :=
  Gives.pure fun _ hs => ⟨p, h, hs⟩

theorem Tracks.throw {e : Cause} : Tracks cx I p (throw e : LowerM α) R :=
  Gives.throw

theorem Tracks.throw_bind {e : Cause} : Tracks cx I p ((MonadExcept.throw e : LowerM α) >>= f) Q :=
  .bind (R := fun _ _ => False) .throw fun _ _ h => h.elim

theorem Tracks.read : Tracks cx I p read fun a q => a = cx ∧ q = p :=
  Gives.read.weaken (fun _ h => h) fun _ _ h => ⟨p, ⟨h.1, rfl⟩, h.2⟩

theorem Tracks.get : Tracks cx I p get fun _ q => q = p :=
  Gives.get.weaken (fun _ h => h) fun _ _ h => ⟨p, rfl, h.2⟩

theorem Tracks.lift {y : Except Cause α} : Tracks cx I p (liftM y) fun a q => y = .ok a ∧ q = p :=
  Gives.lift.weaken (fun _ h => h) fun _ _ h => ⟨p, ⟨h.1, rfl⟩, h.2⟩

theorem tracks_stackKind (ty : Ty) :
    Tracks cx I p (stackKind ty) fun k q => ty.stackKind? = some k ∧ q = p :=
  (gives_stackKind _ ty).weaken (fun _ h => h) fun _ _ h => ⟨p, ⟨h.1, rfl⟩, h.2⟩

theorem tracks_noteLocalsChanged (hregions : cx.regions.regions = []) :
    TracksTo cx I p noteLocalsChanged p := by
  refine Gives.bind Gives.read fun cx' => Gives.of_fact fun hcx => ?_
  have hnone : cx.regions.protecting cx.current = [] := by
    refine List.eq_nil_iff_forall_not_mem.mpr fun r hr => ?_
    exact RegionTree.ne_nil_of_protecting hr hregions
  rw [hcx, hnone]
  exact Gives.pure fun _ hs => hs

end Rules

-- ==== the live stack

/-- Points that know the live stack, where any change of it leads to another point. -/
class Stacked {P : Type} (I : P → LowerState → Prop) where
  stack : P → List Ty
  restack : P → List Ty → P
  same : ∀ p, restack p (stack p) = p
  live : ∀ {p s}, I p s → s.frames.live.stack = stack p
  restacked : ∀ {p s}, I p s → ∀ stack depth made, I (restack p stack)
    { s with
      frames := { s.frames with live := { s.frames.live with stack }, maxStack := depth }
      made }

section Stacked

open Stacked

variable {P : Type} {cx : Context} {I : P → LowerState → Prop} [Stacked I] {p : P}

theorem tracks_push (ty : Ty) : TracksTo cx I p (push ty) (restack I p (ty :: stack I p)) := by
  intro s a s' h hrun
  obtain ⟨frames, hpush, rfl⟩ := push_ok hrun
  obtain ⟨-, rfl⟩ := FrameStore.push_ok hpush
  rw [← live h]
  exact restacked h _ _ s.made

theorem stays {s : LowerState} (h : I p s) (depth : Nat) (made : List Ty) :
    I p { s with frames := { s.frames with maxStack := depth }, made } := by
  have hpoint : restack I p s.frames.live.stack = p := by
    rw [live h, same]
  rw [← hpoint]
  exact restacked h s.frames.live.stack depth made

theorem tracks_make (ty : Ty) : Tracks cx I p (make ty) fun a q => a = ty ∧ q = p := by
  intro s a s' h hrun
  cases hrun
  exact ⟨p, ⟨rfl, rfl⟩, stays h s.frames.maxStack _⟩

theorem tracks_pushNew (ty : Ty) :
    TracksTo cx I p (pushNew ty) (restack I p (ty :: stack I p)) := by
  refine Gives.bind (tracks_make ty) fun a => ?_
  rintro s b s' ⟨_, ⟨rfl, rfl⟩, h⟩ hrun
  exact tracks_push a s b s' h hrun

theorem tracks_noteDepth (extra : Nat) : TracksTo cx I p (noteDepth extra) p := by
  intro s a s' h hrun
  cases hrun
  exact stays h _ s.made

theorem tracks_pop :
    Tracks cx I p pop fun ty q => ∃ rest, stack I p = ty :: rest ∧ q = restack I p rest := by
  intro s a s' h hrun
  obtain ⟨frames, hpop, rfl⟩ := pop_ok hrun
  obtain ⟨rest, hstack, rfl⟩ := FrameStore.pop_ok hpop
  exact ⟨_, ⟨rest, (live h).symm.trans hstack, rfl⟩, restacked h rest s.frames.maxStack s.made⟩

theorem tracks_peek : Tracks cx I p peek fun ty q => ∃ rest, stack I p = ty :: rest ∧ q = p := by
  intro s ty s' h hrun
  obtain ⟨rfl, rest, hstack⟩ := peek_ok hrun
  exact ⟨_, ⟨rest, (live h).symm.trans hstack, rfl⟩, h⟩

theorem tracks_popKind : Tracks cx I p popKind fun r q =>
    ∃ rest, stack I p = r.1 :: rest ∧ r.1.stackKind? = some r.2 ∧ q = restack I p rest := by
  refine .bind tracks_pop ?_
  rintro ty _ ⟨rest, hstack, rfl⟩
  refine .bind (tracks_stackKind ty) ?_
  rintro kind _ ⟨hkind, rfl⟩
  exact .pure ⟨rest, hstack, hkind, rfl⟩

end Stacked

-- ==== points

/-- `Tracks` for the points at which the code and the frame are in step. -/
abbrev Moves (cx : Context) {α : Type} (pt : Point) (m : LowerM α) (Q : α → Point → Prop) : Prop :=
  Tracks cx (At cx.targets) pt m Q

abbrev Leads (cx : Context) {α : Type} (pt : Point) (m : LowerM α) (pt' : Point) : Prop :=
  TracksTo cx (At cx.targets) pt m pt'

instance (targets : Std.TreeSet Nat) : Stacked (At targets) where
  stack := Point.live
  restack pt live := { pt with live }
  same _ := rfl
  live h := h.live
  restacked h := h.restack

section Primitives

variable {cx : Context} {pt : Point} {known : Option (List Ty)} {types types' live : List Ty}
  {unbound : List Label} {label : Label}

theorem leads_emit {i : Instr} (h : ∀ p declared, Sound p declared i types types')
    (hnull : i ≠ .constNull) :
    Leads cx ⟨some types, live, unbound⟩ (emit i) ⟨some types', live, unbound⟩ := by
  intro s a s' hat hrun
  cases hrun
  exact hat.append (.instr (h _ _)) hat.reachable rfl fun heq => hnull (Item.instr.inj heq)

theorem leads_exit {i : Instr} (h : ∀ p c s out, exec p c i s = some out → out = .leave)
    (hnull : i ≠ .constNull) :
    Leads cx ⟨some types, live, unbound⟩ (emit i >>= fun _ => endBlock)
      ⟨none, live, unbound⟩ := by
  intro s a s' hat hrun
  cases hrun
  exact hat.append (.exit h) rfl rfl fun heq => hnull (Item.instr.inj heq)

/-- An instruction that an addition to the pool has given. -/
theorem leads_emitOf {α : Type} {act : PoolM α} (f : α → Instr) (hgrow : Growing act)
    (h : ∀ p a p', p.Indexed → act p = .ok a p' → f a ≠ .constNull ∧
      ∀ declared, Sound p' declared (f a) types types') :
    Leads cx ⟨some types, live, unbound⟩ (onPool act >>= fun a => emit (f a))
      ⟨some types', live, unbound⟩ := by
  refine Gives.bind (M := fun a s => At cx.targets ⟨some types, live, unbound⟩ s ∧
    f a ≠ .constNull ∧ ∀ declared, Sound s.pool declared (f a) types types') ?_ fun a => ?_
  · refine Gives.onPool fun s a pool hat hact => ?_
    exact ⟨hat.grow (Pool.grows_of_ok hgrow hact), h s.pool a pool hat.indexed hact⟩
  · rintro s b s' ⟨hat, hnull, hsound⟩ hrun
    cases hrun
    exact hat.append (.instr (hsound _)) hat.reachable rfl
      fun heq => hnull (Item.instr.inj heq)

theorem leads_constant {act : PoolM Instr} {k : NumKind} (h : Instr.Chooses k act) :
    Leads cx ⟨some types, live, unbound⟩ (onPool act >>= emit)
      ⟨some (.prim k.prim :: types), live, unbound⟩ := by
  refine leads_emitOf id h.growing fun p i p' hp hact => ?_
  obtain ⟨hnull, hsound⟩ := sound_of_chooses h hp hact
  exact ⟨hnull, fun declared => hsound declared types⟩

theorem leads_invokeStatic {m : MethodSpec} {k : NumKind} (hm : Answers m k) (a b : Ty) :
    Leads cx ⟨some (b :: a :: types), live, unbound⟩ (invokeStatic m)
      ⟨some (.prim k.prim :: types), live, unbound⟩ := by
  refine leads_emitOf .invokeStatic (Pool.growing_methodRef _ _ _ _) fun p index p' hp hact => ?_
  exact ⟨nofun, fun declared =>
    sound_call (fun q hq => Pool.method?_of_methodRef hp hact hq) hm a b types⟩

theorem moves_dropTop : Moves cx ⟨some live, live, unbound⟩ dropTop fun _ q =>
    ∃ ty rest, live = ty :: rest ∧ q = ⟨some rest, rest, unbound⟩ := by
  refine .bind tracks_pop ?_
  rintro ty _ ⟨rest, rfl, rfl⟩
  refine (leads_emit (fun p declared => sound_popOf ty rest) ?_).moves
    fun _ => ⟨ty, rest, rfl, rfl⟩
  unfold Instr.popOf
  split <;> exact nofun

theorem moves_freshLabel : Moves cx ⟨known, live, unbound⟩ freshLabel fun label q =>
    label ∉ unbound ∧ q = ⟨known, live, label :: unbound⟩ := by
  intro s label s' hat hrun
  cases hrun
  refine ⟨_, ⟨fun hmem => ?_, rfl⟩, hat.freshLabel⟩
  obtain ⟨n, hn, hlt, -⟩ := hat.unbound _ hmem
  cases hn
  exact Nat.lt_irrefl _ hlt

-- ==== transfers

/-- A label that the lowering of an operation may transfer to. -/
def Aimed (cx : Context) (unbound : List Label) (label : Label) : Prop :=
  (∃ o, label = .source o ∧ cx.targets.contains o = true) ∨ label ∈ unbound

/-- Saving the live frame at a label stays at the point, and the label takes what is on
the live stack. -/
theorem At.save {s s' : LowerState} {a : Unit} (h : At cx.targets pt s) (hT : cx.types.Slim)
    (haim : Aimed cx pt.unbound label) (hrun : save label cx s = .ok a s') :
    At cx.targets pt s' ∧ (∀ l, Below (stackOf s.frames l) (stackOf s'.frames l)) ∧
      Below (some pt.live) (stackOf s'.frames label) := by
  have hsave := save_ok hrun
  have hopen : stackOf s.frames label = none → label ∉ boundLabels s.code.body := by
    intro hnone hmem
    rcases haim with ⟨o, rfl, htarget⟩ | hunbound
    · obtain ⟨o', ho, hno⟩ := h.settled.framed _ hmem (Option.map_eq_none_iff.mp hnone)
      cases ho
      cases htarget.symm.trans hno
    · obtain ⟨n, -, -, hfree⟩ := h.unbound label hunbound
      cases (h.settled.bound label hmem).symm.trans hfree
  have hlabel : (∃ o, label = .source o) ∨ label ∈ pt.unbound :=
    haim.imp_left fun ⟨o, ho, _⟩ => ⟨o, ho⟩
  obtain ⟨-, types, htypes, hsub, -⟩ := hsave.stackOf hT
  refine ⟨h.saves hT hopen hlabel hsave, (h.extends_saves hT hopen hsave).recorded, ?_⟩
  rw [htypes, ← h.live]
  exact hsub.below

theorem At.saveAll {labels : List Label} {s s' : LowerState} {a : Unit} (h : At cx.targets pt s)
    (hT : cx.types.Slim) (haim : ∀ label ∈ labels, Aimed cx pt.unbound label)
    (hrun : labels.forM LowerM.save cx s = .ok a s') :
    At cx.targets pt s' ∧ (∀ l, Below (stackOf s.frames l) (stackOf s'.frames l)) ∧
      ∀ label ∈ labels, Below (some pt.live) (stackOf s'.frames label) := by
  induction labels generalizing s with
  | nil =>
    cases hrun
    exact ⟨h, fun _ => .refl _, by simp⟩
  | cons label labels ih =>
    obtain ⟨_, t, hsave, hrun⟩ := lower_bind_ok hrun
    obtain ⟨hfirst, haims⟩ := List.forall_mem_cons.mp haim
    obtain ⟨ht, hgrows, hown⟩ := h.save hT hfirst hsave
    obtain ⟨hs', hgrows', hall⟩ := ih ht haims hrun
    exact ⟨hs', fun l => (hgrows l).trans (hgrows' l),
      List.forall_mem_cons.mpr ⟨hown.trans (hgrows' label), hall⟩⟩

theorem leads_branchTo {i : Instr} (hT : cx.types.Slim) (haim : Aimed cx unbound label)
    (hsub : Subsumes (types.drop i.tested) live) :
    Leads cx ⟨some types, live, unbound⟩ (branchTo i label)
      ⟨some (types.drop i.tested), live, unbound⟩ := by
  intro s a s' hat hrun
  obtain ⟨_, t, hsave, hrun⟩ := lower_bind_ok hrun
  cases hrun
  obtain ⟨ht, -, hown⟩ := hat.save hT haim hsave
  exact ht.append (.branch (hsub.below.trans hown)) ht.reachable rfl nofun

theorem leads_jump (hT : cx.types.Slim) (haim : Aimed cx unbound label)
    (hsub : Subsumes types live) :
    Leads cx ⟨some types, live, unbound⟩ (jump label) ⟨none, live, unbound⟩ := by
  intro s a s' hat hrun
  obtain ⟨t, hsave, rfl⟩ := jump_ok hrun
  obtain ⟨ht, -, hown⟩ := hat.save hT haim hsave
  exact ht.append (.jump rfl (hsub.below.trans hown)) rfl rfl nofun

theorem moves_switchTo {low : Int} {targets : List Label} {default : Label} (hT : cx.types.Slim)
    (haim : ∀ label ∈ targets ++ [default], Aimed cx unbound label) :
    Moves cx ⟨some live, live, unbound⟩ (switchTo low targets default) fun _ q =>
      ∃ rest, q = ⟨none, rest, unbound⟩ := by
  refine .bind tracks_popKind ?_
  rintro ⟨ty, kind⟩ _ ⟨rest, hlive, -, rfl⟩
  dsimp only at hlive ⊢
  subst hlive
  split
  · intro s a s' hat hrun
    obtain ⟨_, t, hsaves, hrun⟩ := lower_bind_ok hrun
    cases hrun
    obtain ⟨ht, -, hall⟩ := hat.saveAll hT haim hsaves
    exact ⟨_, ⟨rest, rfl⟩, ht.append (.table hall) rfl rfl nofun⟩
  · exact .throw_bind

/-- A label inside an operation is bound, and the code goes on with the types of its
frame. -/
theorem moves_bindLabel (hT : cx.types.Slim) (unbound' : List Label) (hlabel : label ∈ unbound)
    (hrest : ∀ l ∈ unbound', l ∈ unbound ∧ l ≠ label) (hready : Below known (some live)) :
    Moves cx ⟨known, live, unbound⟩ (bindLabel label) fun _ q =>
      ∃ types, q = ⟨some types, types, unbound'⟩ := by
  intro s a s' hat hrun
  rcases bindLabel_ok hrun with ⟨t, frame, hfrom, hframe, rfl⟩ | ⟨hhas, -, t, hsave, rfl⟩
  · -- the recorded frame takes what comes from above, if anything does
    have hrecorded : stackOf t.frames label = some frame.stack :=
      congrArg (Option.map _) (FrameStore.frameOf_of_recorded? hframe)
    rcases hfrom with ⟨-, hsave⟩ | ⟨hreach, rfl⟩
    · obtain ⟨ht, -, hown⟩ := hat.save hT (.inr hlabel) hsave
      exact ⟨_, ⟨_, rfl⟩, ht.bindLoaded hframe (hrecorded ▸ hready.trans hown) (.inr hlabel) hrest⟩
    · have hnone : known = none := by
        rw [← Option.not_isSome_iff_eq_none]
        exact fun hsome => Bool.eq_false_iff.mp hreach (hat.reachable.trans hsome)
      exact ⟨_, ⟨_, rfl⟩, hat.bindLoaded hframe (hnone ▸ .none _) (.inr hlabel) hrest⟩
  · obtain ⟨ht, -, hown⟩ := hat.save hT (.inr hlabel) hsave
    -- nothing was recorded, so the label has just what is live
    obtain ⟨n, rfl, -, hfree⟩ := hat.unbound label hlabel
    have hnew : .synthetic n ∉ boundLabels s.code.body := fun hmem => by
      cases (hat.settled.bound _ hmem).symm.trans hfree
    have hnone : stackOf s.frames (.synthetic n) = none :=
      congrArg (Option.map _) (hat.settled.frameOf_eq_none hnew hhas)
    obtain ⟨-, types, htypes, -, hfirst, -⟩ := (save_ok hsave).stackOf hT
    have hstack : stackOf t.frames (.synthetic n) = some live := by
      rw [htypes, hfirst hnone]
      exact congrArg some hat.live
    have hlive := ht.live
    refine ⟨_, ⟨live, rfl⟩, ?_⟩
    have hmark : (t.frames.markBound (.synthetic n)).bound = t.frames.bound.insert (.synthetic n) :=
      rfl
    have hbind := ht.bind (t.frames.markBound (.synthetic n)) hmark
      (fun _ _ => ⟨rfl, rfl⟩) (fun hno => ?_) (fun hhas => ?_) (.inr hlabel) hrest
      ⟨ht.typed.live, ht.typed.frames⟩ ?_ fun _ => ⟨.refl _, ?_⟩
    · change At cx.targets ⟨some t.frames.live.stack, t.frames.live.stack, unbound'⟩ _ at hbind
      rw [hlive] at hbind
      exact hbind
    · rw [stackOf, show t.frames.frameOf (.synthetic n) = none from hno] at hstack
      cases hstack
    · cases hhas.symm.trans (save_ok hsave).has.1
    · show Below known (some t.frames.live.stack)
      rw [hlive]
      exact hready
    · show Below (stackOf t.frames _) (some t.frames.live.stack)
      rw [hstack, hlive]
      exact .refl _

end Primitives

end BytecodeBridge.Lowering
