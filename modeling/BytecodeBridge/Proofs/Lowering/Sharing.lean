/-
What the lowering of a method hands on to the methods after it.

The methods of a class share a constant pool, and the table of the types
that the program knows. The lowering of one method adds to both, and the
next one is lowered against what it finds. `Proper` says of a computation
all that this comes to, whatever its outcome.

- It only adds to the pool.
- The types it makes are no classes that the table could lack.
- It asks the table only questions that a grown table answers alike.
- What its code refers to is in the pool: the operand of every instruction
  emitted so far names a constant of the kind the instruction needs
  (`Linked`). `Links` carries that through a computation, from a pool `p`
  that the pool of the state has grown from: an index that is good in `p`
  is good for the rest of the computation, whatever is put in meanwhile.

The rules follow the ways in which the lowering is built, and the rest of
the file applies them to every function of the lowering. Unlike `Runs`,
which is about success, they say something about a computation that fails
half way through: that is the case that matters for the methods after it.
-/
import BytecodeBridge.Lowering.Operation
import BytecodeBridge.Proofs.Frame.Growth
import BytecodeBridge.Proofs.Instr.Operand

namespace BytecodeBridge

open Pool TypeTable FrameStore

namespace Lowering

open LowerM FrameStore Slots

/-- Widening asks of the table only what such tables answer alike. -/
private theorem widen_alike {T T' : TypeTable} (h : Alike T T') (slots : Slots) (frame : Frame) :
    LowerM.widen T' slots frame = LowerM.widen T slots frame := by
  unfold LowerM.widen
  rw [h.assignable]

-- ==== logic

/-- The context with another table of types, and with other handlers in the header. -/
abbrev recast (cx : Context) (T : TypeTable) (handlers : List Handler) : Context :=
  { cx with types := T, body := { cx.body with handlers } }

/-- A later state of a lowering has the pool and the types of the earlier one, and
more. -/
structure Extends (c : Config) (s s' : LowerState) : Prop where
  pool : s.pool.Grows s'.pool
  made : ∃ new, s'.made = new ++ s.made ∧ ∀ t ∈ new, Harmless c t

namespace Extends

variable {c : Config} {s t u : LowerState}

theorem of_eq (hpool : t.pool = s.pool) (hmade : t.made = s.made) : Extends c s t :=
  ⟨hpool ▸ .refl, [], hmade, by simp⟩

theorem refl (s : LowerState) : Extends c s s :=
  of_eq rfl rfl

theorem trans (h : Extends c s t) (h' : Extends c t u) : Extends c s u := by
  obtain ⟨new, hnew, hharmless⟩ := h.made
  obtain ⟨more, hmore, hharmless'⟩ := h'.made
  refine ⟨h.pool.trans h'.pool, more ++ new, ?_, List.forall_mem_append.mpr
    ⟨hharmless', hharmless⟩⟩
  rw [hmore, hnew, List.append_assoc]

end Extends

/-- Whatever comes of it, a computation adds to the pool and to the types that are
made. -/
def Adding (c : Config) {α : Type} (x : EStateM Cause LowerState α) : Prop :=
  ∀ s, Extends c s (finalState (x s))

theorem Adding.bind {c : Config} {α β : Type} {x : EStateM Cause LowerState α}
    {f : α → EStateM Cause LowerState β} (hx : Adding c x) (hf : ∀ a, Adding c (f a)) :
    Adding c (x >>= f) := by
  intro s
  have hfirst := hx s
  show Extends c s (finalState (EStateM.bind x f s))
  unfold EStateM.bind
  cases hrun : x s with
  | ok a t =>
    rw [hrun] at hfirst
    exact hfirst.trans (hf a t)
  | error e t =>
    rw [hrun] at hfirst
    exact hfirst

theorem Adding.lift {c : Config} {α : Type} (y : Except Cause α) :
    Adding c (liftM y : EStateM Cause LowerState α) := by
  intro s
  cases y with
  | ok a | error e => exact .refl s

theorem Adding.onSlots {c : Config} {α : Type} (act : SlotM α) :
    Adding c (LowerState.onSlots act) := by
  intro s
  unfold LowerState.onSlots
  dsimp only
  split
  · exact .of_eq rfl rfl
  · exact .of_eq rfl rfl

/-- The pool has grown from the empty one, and all code emitted so far is good in it. -/
structure Linked (s : LowerState) : Prop where
  indexed : s.pool.Indexed
  code : s.code.Resolved s.pool

/-- From linked states whose pool has `p` in it, a computation succeeds only with linked
states whose pool has what was there before, and with such a result in that pool. -/
def Links (cx : Context) (p : Pool) {α : Type} (m : LowerM α) (M : α → Pool → Prop) : Prop :=
  ∀ s a s', Linked s → p.PartOf s.pool → m cx s = .ok a s' →
    Linked s' ∧ s.pool.PartOf s'.pool ∧ M a s'.pool

/-- Nothing is said of a result. -/
abbrev Any {α : Type} : α → Pool → Prop :=
  fun _ _ => True

/-- A computation adds to what is shared, and tables that answer alike are alike to
it. The handlers of the header it does not look at: the regions are made of them
before. -/
structure Shares (cx : Context) {α : Type} (m : LowerM α) : Prop where
  adds : Adding cx.config (m cx)
  blind : ∀ {T}, Alike cx.types T → ∀ handlers, m (recast cx T handlers) = m cx

/-- Besides, the code that a computation emits is linked if `H` holds of its operands. -/
structure Proper (cx : Context) (H : Prop) (p : Pool) {α : Type}
    (m : LowerM α) (M : α → Pool → Prop) : Prop extends Shares cx m where
  links : H → Links cx p m M

namespace Proper

variable {cx : Context} {H : Prop} {p : Pool} {α β : Type}
  {x : LowerM α} {f : α → LowerM β} {M : α → Pool → Prop} {N : β → Pool → Prop}

/-- What the first computation says of its result goes on to hold, as the rest starts
from a pool that has it. -/
theorem bind (hx : Proper cx H p x M)
    (hf : ∀ a q, Proper cx (H ∧ p.PartOf q ∧ M a q) q (f a) N) :
    Proper cx H p (x >>= f) N where
  adds := .bind (f := fun a => f a cx) hx.adds fun a => (hf a p).adds
  blind {T} hT handlers := by
    show EStateM.bind (x (recast cx T handlers)) (fun a => f a (recast cx T handlers))
      = EStateM.bind (x cx) (fun a => f a cx)
    rw [hx.blind hT, funext fun a => (hf a p).blind hT handlers]
  links h s b s' hs hp hrun := by
    obtain ⟨a, t, ha, hb⟩ := lower_bind_ok hrun
    obtain ⟨ht, hst, hM⟩ := hx.links h s a t hs hp ha
    obtain ⟨hs', hts', hN⟩ := (hf a t.pool).links ⟨h, hp.trans hst, hM⟩ t b s' ht (.refl _) hb
    exact ⟨hs', hst.trans hts', hN⟩

/-- A stronger condition, and a pool that has grown by then. -/
theorem later {H' : Prop} {q : Pool} (h : Proper cx H p x M) (hH : H' → H)
    (hq : H' → p.PartOf q) : Proper cx H' q x M :=
  ⟨h.toShares, fun hH' s a s' hs hp hrun =>
    h.links (hH hH') s a s' hs ((hq hH').trans hp) hrun⟩

theorem weaken {N : α → Pool → Prop} (h : Proper cx H p x M)
    (hN : ∀ a q, M a q → N a q) : Proper cx H p x N :=
  ⟨h.toShares, fun hH s a s' hs hp hrun =>
    (h.links hH s a s' hs hp hrun).imp_right (And.imp_right (hN a s'.pool))⟩

theorem any (h : Proper cx H p x M) : Proper cx H p x Any :=
  h.weaken fun _ _ _ => trivial

/-- A second computation that needs nothing of the first result. -/
theorem next (hx : Proper cx H p x M) (hf : ∀ a, Proper cx H p (f a) N) :
    Proper cx H p (x >>= f) N :=
  hx.bind fun a _ => (hf a).later And.left fun h => h.2.1

theorem pure {a : α} (h : H → ∀ q, p.PartOf q → M a q) : Proper cx H p (pure a) M where
  adds := .refl
  blind _ _ := rfl
  links hH s b s' hs hp hrun := by
    cases hrun
    exact ⟨hs, .refl _, h hH _ hp⟩

theorem done {a : α} : Proper cx H p (Pure.pure a) Any :=
  pure fun _ _ _ => trivial

theorem throw {e : Cause} : Proper cx H p (throw e : LowerM α) M where
  adds := .refl
  blind _ _ := rfl
  links _ s a s' _ _ hrun := by cases hrun

theorem throw_bind {e : Cause} :
    Proper cx H p ((MonadExcept.throw e : LowerM α) >>= f) N where
  adds := .refl
  blind _ _ := rfl
  links _ s a s' _ _ hrun := by cases hrun

/-- All code that the state has by now is linked. -/
theorem get : Proper cx H p get fun s q => s.code.Resolved q where
  adds := .refl
  blind _ _ := rfl
  links _ s a s' hs hp hrun := by
    cases hrun
    exact ⟨hs, .refl _, hs.code⟩

theorem lift (y : Except Cause α) :
    Proper cx H p (liftM y) fun a _ => y = .ok a where
  adds := .lift y
  blind _ _ := rfl
  links _ s a s' hs hp hrun := by
    obtain ⟨hy, rfl⟩ := state_lift_ok (x := y) hrun
    exact ⟨hs, .refl _, hy⟩

/-- Making types that the table may come to know. -/
theorem makes {g : LowerState → LowerState} (new : LowerState → List Ty)
    (hcode : ∀ s, (g s).code = s.code) (hpool : ∀ s, (g s).pool = s.pool)
    (hmade : ∀ s, (g s).made = new s ++ s.made)
    (hnew : ∀ s, ∀ t ∈ new s, Harmless cx.config t) : Proper cx H p (modify g) Any where
  adds s := ⟨(hpool s).symm ▸ .refl, new s, hmade s, hnew s⟩
  blind _ _ := rfl
  links _ s a s' hs hp hrun := by
    cases hrun
    have hsame := hpool s
    refine ⟨⟨?_, ?_⟩, ?_, trivial⟩
    · exact hsame.symm ▸ hs.indexed
    · rw [hsame, hcode]
      exact hs.code
    · exact hsame.symm ▸ .refl _

/-- A change to parts of the state that are not shared. -/
theorem modify {g : LowerState → LowerState} (hcode : ∀ s, (g s).code = s.code)
    (hpool : ∀ s, (g s).pool = s.pool) (hmade : ∀ s, (g s).made = s.made) :
    Proper cx H p (modify g) Any :=
  makes (fun _ => []) hcode hpool hmade fun _ _ => nofun

/-- What a computation reads is the same for tables that answer alike, or it goes on
in the same way. -/
theorem read_bind {k : Context → LowerM β}
    (hblind : ∀ T, Alike cx.types T → ∀ handlers, k (recast cx T handlers) = k cx)
    (h : Proper cx H p (k cx) N) : Proper cx H p (read >>= k) N where
  adds := h.adds
  blind {T} hT handlers := by
    show k (recast cx T handlers) (recast cx T handlers) = k cx cx
    rw [hblind T hT]
    exact h.blind hT handlers
  links := h.links

/-- Reading neither the types nor the handlers. -/
theorem read_bind_rfl {k : Context → LowerM β}
    (hblind : ∀ T handlers, k (recast cx T handlers) = k cx)
    (h : Proper cx H p (k cx) N) : Proper cx H p (read >>= k) N :=
  read_bind (fun T _ => hblind T) h

theorem discard (h : Proper cx H p x M) : Proper cx H p (discard x) Any :=
  h.next fun _ => done

theorem forM {g : α → LowerM Unit} {l : List α} (h : ∀ a ∈ l, Proper cx H p (g a) Any) :
    Proper cx H p (l.forM g) Any := by
  induction l with
  | nil => exact done
  | cons a l ih =>
    exact (h a (.head _)).next fun _ => ih fun b hb => h b (.tail _ hb)

/-- Results along a list, of which something is said that goes on to hold. -/
theorem mapM {l : List α} {φ : β → Prop}
    (h : ∀ a ∈ l, Proper cx H p (f a) fun b _ => φ b) :
    Proper cx H p (l.mapM f) fun bs _ => ∀ b ∈ bs, φ b := by
  induction l with
  | nil =>
    rw [List.mapM_nil]
    exact pure fun _ _ _ => nofun
  | cons a l ih =>
    rw [List.mapM_cons]
    refine (h a (.head _)).bind fun b q => ?_
    refine (((ih fun a' ha' => h a' (.tail _ ha')).later And.left
      fun hq => hq.2.1).bind fun bs r => pure fun hr _ _ => ?_)
    exact List.forall_mem_cons.mpr ⟨hr.1.2.2, hr.2.2⟩

/-- What an action serves is in the pool for the rest of the computation. -/
theorem onPool {act : PoolM α} (h : Serves act M) : Proper cx H p (onPool act) M where
  adds s := by
    have hgrows := h.growing s.pool
    show Extends _ s (finalState (LowerState.onPool act s))
    unfold LowerState.onPool
    dsimp only
    split
    · next hact =>
      rw [hact] at hgrows
      exact ⟨hgrows, [], rfl, by simp⟩
    · next hact =>
      rw [hact] at hgrows
      exact ⟨hgrows, [], rfl, by simp⟩
  blind _ _ := rfl
  links _ s a s' hs hp hrun := by
    change LowerM.onPool act cx s = _ at hrun
    obtain ⟨pool, hact, rfl⟩ := onPool_ok hrun
    obtain ⟨hindexed, hpart⟩ := (grows_of_ok h.growing hact).indexed hs.indexed
    exact ⟨⟨hindexed, hs.code.mono hpart⟩, hpart, h.serves _ _ _ hs.indexed hact⟩

theorem onSlots (act : SlotM α) :
    Proper cx H p (onSlots act) Any where
  adds := .onSlots act
  blind _ _ := rfl
  links _ s a s' hs hp hrun := by
    obtain ⟨slots, -, rfl⟩ := onSlots_eq_ok.mp hrun
    exact ⟨⟨hs.indexed, hs.code⟩, .refl _, trivial⟩

/-- A change to the code that keeps it linked. -/
theorem modifyCode {g : CodeBuffer → CodeBuffer}
    (h : H → ∀ b q, p.PartOf q → b.Resolved q → (g b).Resolved q) :
    Proper cx H p (modifyCode g) Any where
  adds s := .of_eq rfl rfl
  blind _ _ := rfl
  links hH s a s' hs hp hrun := by
    cases hrun
    exact ⟨⟨hs.indexed, h hH _ _ hp hs.code⟩, .refl _, trivial⟩

end Proper

section Walk

variable {cx : Context} {H : Prop} {p : Pool}

variable {i : Instr} {index : Nat} {ty : Ty}

-- ==== the stack and the pool

theorem proper_modifyFrames (g : FrameStore → FrameStore) :
    Proper cx H p (modifyFrames g) Any :=
  .modify (fun _ => rfl) (fun _ => rfl) fun _ => rfl

theorem proper_setFrames (frames : FrameStore) : Proper cx H p (setFrames frames) Any :=
  .modify (fun _ => rfl) (fun _ => rfl) fun _ => rfl

theorem proper_modifySlots (g : Slots → Slots) : Proper cx H p (modifySlots g) Any :=
  .modify (fun _ => rfl) (fun _ => rfl) fun _ => rfl

theorem proper_emitResolved (h : H → i.Resolved p) :
    Proper cx H p (emit i) Any :=
  .modifyCode fun hH _ _ hpart hb => hb.push (.instr i) ((h hH).mono hpart)

theorem proper_emit (h : i.operand? = none) : Proper cx H p (emit i) Any :=
  proper_emitResolved fun _ => Instr.resolved_of_none h

/-- An index from the pool is the operand of an instruction that needs its kind. -/
theorem proper_use {need : Need} (h : i.operand? = some (need, index))
    (hH : H → p.Holds need index) : Proper cx H p (emit i) Any :=
  proper_emitResolved fun h' => Instr.resolved_of_some h (hH h')

theorem proper_report (e : Event) : Proper cx H p (report e) Any :=
  .modify (fun _ => rfl) (fun _ => rfl) fun _ => rfl

theorem proper_freshLabel : Proper cx H p freshLabel Any :=
  Proper.get.next fun _ =>
    .next (.modify (fun _ => rfl) (fun _ => rfl) fun _ => rfl) fun _ => .done

theorem proper_endBlock : Proper cx H p endBlock Any :=
  .modify (fun _ => rfl) (fun _ => rfl) fun _ => rfl

theorem proper_noteDepth (depth : Nat) : Proper cx H p (noteDepth depth) Any :=
  proper_modifyFrames _

theorem proper_push (ty : Ty) : Proper cx H p (push ty) Any :=
  Proper.get.next fun _ => (Proper.lift _).next fun _ => proper_setFrames _

theorem proper_make (h : Harmless cx.config ty) : Proper cx H p (make ty) Any :=
  .next (.makes (fun _ => [ty]) (fun _ => rfl) (fun _ => rfl) (fun _ => rfl)
    fun _ _ ht => List.mem_singleton.mp ht ▸ h) fun _ => .done

theorem proper_pushNew (h : Harmless cx.config ty) :
    Proper cx H p (pushNew ty) Any :=
  (proper_make h).next fun _ => proper_push _

/-- Only the name of a class could be missing from the table. -/
theorem harmless {c : Config} (h : ∀ name, ty ≠ .ref name) : Harmless c ty :=
  .inl h

theorem proper_pushPrim (k : Prim) : Proper cx H p (pushNew (.prim k)) Any :=
  proper_pushNew (harmless (by nofun))

theorem proper_pop : Proper cx H p pop Any :=
  Proper.get.next fun _ => (Proper.lift _).next fun _ => (proper_setFrames _).next fun _ => .done

theorem proper_peek : Proper cx H p peek Any :=
  Proper.get.next fun _ => (Proper.lift _).any

theorem proper_stackKind (ty : Ty) : Proper cx H p (stackKind ty) Any := by
  unfold stackKind
  split
  · exact .done
  · exact .throw

theorem proper_popKind : Proper cx H p popKind Any :=
  proper_pop.next fun ty => (proper_stackKind ty).next fun _ => .done

/-- The name of a type is the same in tables that answer alike. -/
theorem proper_className (ty : Ty) : Proper cx H p (className ty) Any :=
  .read_bind (fun T hT _ => by rw [hT.className]) (Proper.lift _).any

theorem proper_classIndex (ty : Ty) :
    Proper cx H p (classIndex ty) fun i q => q.Holds .classRef i :=
  (proper_className ty).next fun _ => .onPool (serves_classRef _)

theorem proper_methodRef (owner name descriptor : String) :
    Proper cx H p (onPool (Pool.methodRef owner name descriptor false))
      fun i q => q.Holds .method i :=
  .onPool (serves_methodRef owner name descriptor false)

/-- A method of a class will do where any method does. -/
theorem holds_anyMethod {q : Pool} {i : Nat} (h : q.Holds .method i) : q.Holds .anyMethod i :=
  .anyMethod (show q.Holds (if false then .interfaceMethod else .method) i from h)

-- ==== default values

/-- A value object is made by its constructor, both of them in the pool. -/
theorem proper_defaultValue (ty : Ty) (kind : StackKind) :
    Proper cx H p (defaultValue ty kind) fun r q => ∀ i ∈ r.1, i.Resolved q := by
  have hone : ∀ {i : Instr} (q : Pool), i.operand? = none → ∀ j ∈ [i], j.Resolved q :=
    fun q hi j hj => List.mem_singleton.mp hj ▸ Instr.resolved_of_none hi
  unfold defaultValue
  split
  · refine (proper_className ty).next fun name => ?_
    refine (Proper.onPool (serves_classRef name)).bind fun index q => ?_
    refine (proper_methodRef _ _ _).bind fun init q' => .pure fun h r hr => ?_
    obtain ⟨⟨-, -, hindex⟩, hq, hinit⟩ := h
    refine List.forall_mem_cons.mpr ⟨Instr.resolved_of_some rfl (hindex.mono (hq.trans hr)), ?_⟩
    refine List.forall_mem_cons.mpr ⟨Instr.resolved_of_none rfl, ?_⟩
    exact List.forall_mem_singleton.mpr
      (Instr.resolved_of_some rfl ((holds_anyMethod hinit).mono hr))
  · split
    · exact .pure fun _ q _ => hone q rfl
    · exact .pure fun _ q _ => hone q rfl

theorem proper_emitDefault (slot : Nat) (ty : Ty) :
    Proper cx H p (emitDefault slot ty) Any := by
  refine (proper_stackKind ty).next fun kind => (proper_defaultValue ty kind).bind fun r q => ?_
  refine (Proper.modifyCode fun h b q' hq hb => ?_).next fun _ => ?_
  · refine hb.emitPrologue (List.forall_mem_append.mpr ⟨fun i hi => (h.2.2 i hi).mono hq, ?_⟩)
    exact List.forall_mem_singleton.mpr (Instr.resolved_of_none rfl)
  · exact Proper.next (.modify (fun _ => rfl) (fun _ => rfl) fun _ => rfl) fun _ =>
      proper_modifySlots _

/-- The default value is set up in the prologue, once for each slot. -/
theorem proper_materialize (slot : Nat) : Proper cx H p (materialize slot) Any := by
  have hfill : ∀ d : Declared, Proper cx H p
      (modifyFrames (·.materialize slot d.ty) >>= fun _ => (pure d.ty : LowerM Ty)) Any :=
    fun d => (proper_modifyFrames _).next fun _ => .done
  refine Proper.get.next fun s => ?_
  split
  · next d _ =>
    split
    · exact hfill d
    · exact .throw_bind
    · refine Proper.get.next fun s => ?_
      split
      · exact hfill d
      · refine (proper_modifySlots _).next fun _ => (proper_report _).next fun _ => ?_
        exact (proper_emitDefault slot d.ty).next fun _ => hfill d
  · exact .throw

-- ==== saving frames

theorem proper_widened : Proper cx H p widened Any :=
  Proper.get.next fun s => .read_bind (fun T hT _ => by rw [widen_alike hT]) .done

theorem proper_settleSaved (label : Label) (saved : Saved) :
    Proper cx H p (settleSaved label saved) Any := by
  cases saved with
  | invalidated locals stack =>
    refine (proper_report _).next fun _ => Proper.forM fun slot _ => Proper.get.next fun s => ?_
    split
    · exact (proper_materialize slot).discard
    · exact .done
  | _ => exact .done

/-- The types that merging makes are harmless. -/
theorem proper_saveFrame (label : Label) (frame : Frame) :
    Proper cx H p (saveFrame label frame) Any := by
  refine .read_bind (fun T hT _ => ?_) (Proper.get.next fun s => ?_)
  · simp only [save_alike hT, saveMakes_alike hT]
  · refine Proper.next (.makes (fun _ => (s.frames.saveMakes cx.types label frame).reverse)
      (fun _ => rfl) (fun _ => rfl) (fun _ => rfl) fun _ t ht => ?_) fun _ => ?_
    · exact s.frames.saveMakes_harmless cx.config cx.types label frame t (List.mem_reverse.mp ht)
    · exact (Proper.lift _).next fun saved => proper_settleSaved label saved

theorem proper_save (label : Label) : Proper cx H p (save label) Any :=
  proper_widened.next fun _ => proper_saveFrame label _

theorem proper_saveAtHandler (region : Nat) : Proper cx H p (saveAtHandler region) Any :=
  proper_widened.next fun _ =>
    .read_bind (fun T hT _ => by rw [hT.throwable]) (proper_saveFrame _ _)

/-- The handlers that are told are those of the regions, which are fixed. -/
theorem proper_noteLocalsChanged : Proper cx H p noteLocalsChanged Any :=
  .read_bind_rfl (fun _ _ => rfl) (.forM fun r _ => proper_saveAtHandler r)

-- ==== transfers

theorem proper_branchTo (h : H → i.operand? = none) (label : Label) :
    Proper cx H p (branchTo i label) Any :=
  (proper_save label).next fun _ => .modifyCode fun hH _ _ _ hb =>
    hb.push (.branch i label) (Instr.resolved_of_none (h hH))

theorem proper_jump (label : Label) : Proper cx H p (jump label) Any :=
  (proper_branchTo (fun _ => rfl) label).next fun _ => proper_endBlock

theorem proper_switchTo (low : Int) (targets : List Label) (default : Label) :
    Proper cx H p (switchTo low targets default) Any := by
  refine proper_popKind.next fun r => ?_
  dsimp only
  split
  · refine (Proper.forM fun label _ => proper_save label).next fun _ => ?_
    exact (Proper.modifyCode fun _ _ _ _ hb => hb.push (.table low targets default)
      trivial).next fun _ => proper_endBlock
  · exact .throw_bind

theorem proper_bindHere (label : Label) : Proper cx H p (bindHere label) Any :=
  (proper_modifyFrames _).next fun _ =>
    (Proper.modifyCode fun _ _ _ _ hb => hb.push (.bind label) trivial).next fun _ =>
      .modify (fun _ => rfl) (fun _ => rfl) fun _ => rfl

theorem proper_loadFrame (label : Label) : Proper cx H p (loadFrame label) Any :=
  Proper.get.next fun _ => (Proper.lift _).next fun _ =>
    proper_setFrames _

theorem proper_bindLabel (label : Label) : Proper cx H p (bindLabel label) Any := by
  have hload : Proper cx H p (loadFrame label >>= fun _ => bindHere label) Any :=
    (proper_loadFrame label).next fun _ => proper_bindHere label
  refine Proper.get.next fun s => ?_
  split
  · split
    · exact (proper_save label).next fun _ => hload
    · exact hload
  · split
    · exact (proper_save label).next fun _ => proper_bindHere label
    · exact .throw_bind

-- ==== loads and stores

theorem proper_fetch (slot : Nat) (ty : Ty) :
    Proper cx H p
      (stackKind ty >>= fun kind => emit (.loadSlot kind slot) >>= fun _ => push ty) Any :=
  (proper_stackKind ty).next fun _ => (proper_emit rfl).next fun _ => proper_push ty

theorem proper_load (slot : Nat) : Proper cx H p (load slot) Any := by
  refine Proper.get.next fun s => ?_
  split
  · exact proper_fetch slot _
  · exact (proper_materialize slot).next (proper_fetch slot)

theorem proper_store (slot : Nat) (ty : Ty) : Proper cx H p (store slot ty) Any := by
  refine (proper_stackKind ty).next fun kind => (proper_emit rfl).next fun _ => ?_
  refine (proper_modifyFrames _).next fun _ => (proper_modifySlots _).next fun _ => ?_
  exact proper_noteLocalsChanged

theorem proper_narrow (k : Prim) : Proper cx H p (narrow k) Any := by
  cases k with
  | uint8 =>
    exact (proper_emit rfl).next fun _ => (proper_emit rfl).next fun _ => proper_noteDepth 2
  | int8 | int16 | char | uint16 => exact proper_emit rfl
  | _ => exact .done

theorem proper_coerce (value target : Ty) : Proper cx H p (coerce value target) Any := by
  refine (proper_stackKind value).next fun _ => (proper_stackKind target).next fun _ => ?_
  dsimp only
  split
  · split
    · split
      · exact .done
      · exact (proper_narrow _).next fun _ => .done
    · exact .done
  · exact .throw_bind

theorem proper_storeDeclared (slot : Nat) : Proper cx H p (storeDeclared slot) Any := by
  refine proper_pop.next fun value => Proper.get.next fun s => ?_
  split
  · exact (proper_coerce value _).next fun ty => proper_store slot ty
  · exact .throw

end Walk

end Lowering

end BytecodeBridge
