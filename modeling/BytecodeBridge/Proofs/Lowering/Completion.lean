/-
When a lowering completes.

The end of a run can fail for reasons of its own: the code may not
assemble, the frames may not merge, and the constant pool may overflow.
The first two are computed from the code and the frames alone. For the
pool it is enough that there is room: `Pool.Room` bounds the entries that a
computation adds. `previewedFrom` runs a lowering up to its end, checks these
conditions and gives the code and the frames, without touching the pool;
whenever it gives some, the lowering completes with these
(`exists_of_previewedFrom`).
-/
import BytecodeBridge.Proofs.Evaluation
import BytecodeBridge.Proofs.Lowering.Execution

namespace BytecodeBridge

-- ==== room in the pool

namespace Pool

variable {α β : Type}

/-- With room for `n` more entries the computation succeeds, and takes no more. -/
def Room (n : Nat) (x : PoolM α) : Prop :=
  ∀ p : Pool, p.count + n ≤ maxIndex → ∃ a p', x p = .ok a p' ∧ p'.count ≤ p.count + n

namespace Room

theorem pure (n : Nat) (a : α) : Room n (pure a : PoolM α) :=
  fun p _ => ⟨a, p, rfl, Nat.le_add_right _ _⟩

theorem bind {n k : Nat} {x : PoolM α} {f : α → PoolM β} (hx : Room n x)
    (hf : ∀ a, Room k (f a)) : Room (n + k) (x >>= f) := by
  intro p hp
  obtain ⟨a, q, ha, hq⟩ := hx p (by omega)
  obtain ⟨b, r, hb, hr⟩ := hf a q (by omega)
  refine ⟨b, r, ?_, by omega⟩
  rw [state_ok_bind ha, hb]

theorem lift {y : Except Cause α} {a : α} (h : y = .ok a) (n : Nat) :
    Room n (liftM y : PoolM α) := by
  subst h
  exact pure n a

theorem mono {n k : Nat} {x : PoolM α} (h : Room n x) (hle : n ≤ k) : Room k x := by
  intro p hp
  obtain ⟨a, q, ha, hq⟩ := h p (by omega)
  exact ⟨a, q, ha, by omega⟩

theorem mapM {f : α → PoolM β} (cost : α → Nat) {l : List α} (h : ∀ a ∈ l, Room (cost a) (f a)) :
    Room (l.map cost).sum (l.mapM f) := by
  induction l with
  | nil =>
    rw [List.mapM_nil]
    exact pure _ _
  | cons a l ih =>
    rw [List.mapM_cons, List.map_cons, List.sum_cons]
    refine bind (h a (.head _)) fun b => ?_
    exact bind (k := 0) (ih fun a' ha' => h a' (.tail _ ha')) fun bs => pure 0 _

end Room

private theorem room_intern (c : Constant) : Room c.size (intern c) := by
  intro p hp
  unfold intern
  cases p.index[c]? with
  | some i => exact ⟨i, p, rfl, Nat.le_add_right _ _⟩
  | none =>
    rw [if_neg (Nat.not_lt.mpr hp)]
    exact ⟨_, _, rfl, Nat.le_refl _⟩

theorem room_classRef (name : String) : Room 2 (classRef name) :=
  .bind (n := 1) (k := 1) (room_intern (.utf8 name)) fun n => room_intern (.classRef n)

end Pool

open Pool (Room maxIndex)

-- ==== stack-map entries

/-- Whether the verifier has a type for it, or a class that can be named. -/
def TypeTable.nameable (T : TypeTable) : Ty → Bool
  | .top | .null | .uninitThis | .prim _ => true
  | t => (T.className t).toBool

theorem VType.room_ofTy {T : TypeTable} {t : Ty} (h : T.nameable t = true) :
    Room 2 (VType.ofTy T t) := by
  have hclass : ∀ t, (T.className t).toBool = true →
      Room 2 (do
        let name ← T.className t
        return .object (← Pool.classRef name) : PoolM VType) := by
    intro t ht
    cases hname : T.className t with
    | error e =>
      rw [hname] at ht
      cases ht
    | ok name =>
      refine Room.mono (n := 0 + (2 + 0)) ?_ (Nat.le_refl 2)
      refine Room.bind (Room.lift rfl 0) fun name' => ?_
      exact Room.bind (Pool.room_classRef name') fun i => Room.pure 0 _
  cases t with
  | top | null | uninitThis | prim k => exact Room.pure 2 _
  | _ => exact hclass _ h

/-- Whether a stack map can have an entry for the frame at the address. -/
def StackMapEntry.writable (T : TypeTable) (addr : Nat) (frame : Frame) : Bool :=
  addr ≤ 65535 && frame.locals.entries.all (fun e => T.nameable e.2) && frame.stack.all T.nameable

/-- The entries that the frame needs of the pool, at most. -/
def Frame.cost (frame : Frame) : Nat :=
  2 * (frame.locals.entries.length + frame.stack.length)

theorem StackMapEntry.room_layoutFrom {T : TypeTable} {entries : List (Nat × Ty)}
    (h : ∀ e ∈ entries, T.nameable e.2 = true) (start : Nat) :
    Room (2 * entries.length) (layoutFrom T start entries) := by
  induction entries generalizing start with
  | nil => exact .pure _ _
  | cons e entries ih =>
    have hrest := ih fun e' he' => h e' (.tail _ he')
    obtain ⟨slot, t⟩ := e
    unfold layoutFrom
    split
    · refine (hrest start).mono ?_
      rw [List.length_cons]
      omega
    · have hroom := Room.bind (VType.room_ofTy (h _ List.mem_cons_self)) fun v =>
        .bind (k := 0) (hrest (slot + t.category)) fun others =>
          .pure 0 (List.replicate (slot - start) .top ++ v :: others)
      refine hroom.mono ?_
      rw [List.length_cons]
      omega

theorem StackMapEntry.room_ofFrame {T : TypeTable} {addr : Nat} {frame : Frame}
    (h : writable T addr frame = true) : Room frame.cost (ofFrame T addr frame) := by
  unfold writable at h
  simp only [Bool.and_eq_true, decide_eq_true_eq, List.all_eq_true] at h
  obtain ⟨⟨haddr, hlocals⟩, hstack⟩ := h
  unfold ofFrame
  rw [if_neg (Nat.not_lt.mpr haddr)]
  have hroom := Room.bind (room_layoutFrom hlocals 0) fun locals =>
    Room.bind (k := 0) (Room.mapM (fun _ => 2) fun t ht =>
      VType.room_ofTy (hstack t (List.mem_reverse.mp ht))) fun stack =>
        Room.pure 0 ({ offset := addr, locals, stack } : StackMapEntry)
  have hsum : (frame.stack.reverse.map fun _ => 2).sum = 2 * frame.stack.length := by
    simp [Nat.mul_comm]
  refine hroom.mono ?_
  unfold Frame.cost
  omega

-- ==== completion

namespace Lowering

variable {cx : Context} {s : LowerState} {α β : Type}

/-- From the state the computation succeeds, with such a result and such a state. -/
def Reaches (cx : Context) (s : LowerState) (m : LowerM α) (Q : α → LowerState → Prop) : Prop :=
  ∃ a s', m cx s = .ok a s' ∧ Q a s'

namespace Reaches

theorem bind {x : LowerM α} {f : α → LowerM β} {M : α → LowerState → Prop}
    {Q : β → LowerState → Prop} (hx : Reaches cx s x M)
    (hf : ∀ a t, M a t → Reaches cx t (f a) Q) : Reaches cx s (x >>= f) Q := by
  obtain ⟨a, t, ha, hM⟩ := hx
  obtain ⟨b, s', hb, hQ⟩ := hf a t hM
  exact ⟨b, s', (state_ok_bind (f := fun a => f a cx) ha).trans hb, hQ⟩

theorem pure {Q : α → LowerState → Prop} {a : α} (h : Q a s) : Reaches cx s (pure a) Q :=
  ⟨a, s, rfl, h⟩

theorem read : Reaches cx s read fun a t => a = cx ∧ t = s :=
  ⟨cx, s, rfl, rfl, rfl⟩

theorem get : Reaches cx s get fun a t => a = s ∧ t = s :=
  ⟨s, s, rfl, rfl, rfl⟩

theorem modify (g : LowerState → LowerState) : Reaches cx s (modify g) fun _ t => t = g s :=
  ⟨(), g s, rfl, rfl⟩

theorem lift {y : Except Cause α} {a : α} (h : y = .ok a) :
    Reaches cx s (liftM y) fun b t => b = a ∧ t = s := by
  subst h
  exact ⟨a, s, rfl, rfl, rfl⟩

theorem onPool {n : Nat} {act : PoolM α} (h : Room n act) (hroom : s.pool.count + n ≤ maxIndex) :
    Reaches cx s (LowerM.onPool act) fun _ t => t.pool.count ≤ s.pool.count + n := by
  obtain ⟨a, pool, ha, hcount⟩ := h s.pool hroom
  refine ⟨a, { s with pool }, ?_, hcount⟩
  show LowerState.onPool act s = _
  unfold LowerState.onPool
  dsimp only
  rw [ha]

theorem mapM {f : α → LowerM β} {l : List α} (h : ∀ a ∈ l, Reaches cx s (f a) fun _ t => t = s) :
    Reaches cx s (l.mapM f) fun _ t => t = s := by
  induction l with
  | nil =>
    rw [List.mapM_nil]
    exact pure rfl
  | cons a l ih =>
    rw [List.mapM_cons]
    refine bind (h a (.head _)) ?_
    rintro b t rfl
    refine bind (ih fun a' ha' => h a' (.tail _ ha')) ?_
    rintro bs t rfl
    exact pure rfl

end Reaches

variable {config : Config} {T : TypeTable} {body : Body}

private theorem reaches_backfill :
    Reaches cx s backfill fun _ t =>
      t.frames = s.frames.backfill.1 ∧ t.code = s.code ∧ t.pool = s.pool ∧ t.slots = s.slots := by
  show ∃ a s', (if 0 < _ then _ else _ : LowerM Unit) cx _ = _ ∧ _
  split
  · exact ⟨_, _, rfl, rfl, rfl, rfl, rfl⟩
  · exact ⟨_, _, rfl, rfl, rfl, rfl, rfl⟩

/-- Nothing is in the way of listing the frames and the locals of a method. -/
def listable (T : TypeTable) (s : LowerState) (listed : List (Nat × Frame)) : Bool :=
  listed.all (fun e => StackMapEntry.writable T e.1 e.2) &&
    s.slots.named.all (fun e => (T.descriptor e.2.2).toBool) &&
    s.pool.count + (listed.map fun e => e.2.cost).sum + 2 ≤ maxIndex

/-- Every region has a row in the exception table, or needs none. -/
def placeable (labels : LabelMap Nat) (regions : List Region) : Bool :=
  regions.zipIdx.all fun e => ( exceptionEntry? labels 0 e.2 e.1).toBool

private theorem reaches_exceptionRow {labels : LabelMap Nat} {regions : List Region}
    (h : placeable labels regions = true) (catchType : Nat) {e : Region × Nat}
    (he : e ∈ regions.zipIdx) :
    Reaches cx s (liftM ( exceptionEntry? labels catchType e.2 e.1)) fun _ t => t = s := by
  have hone := List.all_eq_true.mp h e he
  -- the class that is caught has no part in whether there is a row
  have hsame : ( exceptionEntry? labels catchType e.2 e.1).toBool
      = ( exceptionEntry? labels 0 e.2 e.1).toBool := by
    unfold exceptionEntry?
    cases address labels (.source e.1.start) with
    | error _ => rfl
    | ok _ =>
      cases address labels (if e.1.stop = e.1.handlerOffset then .handler e.2
        else .source e.1.stop) with
      | error _ => rfl
      | ok _ => cases address labels (.handler e.2) <;> rfl
  cases hrow : exceptionEntry? labels catchType e.2 e.1 with
  | ok row => exact ⟨row, s, rfl, rfl⟩
  | error _ =>
    rw [← hsame, hrow] at hone
    cases hone

/-- A run comes to its end if the code assembles and the frames are listable. -/
private theorem reaches_finish (name : String) {asm : Assembly} {frames : Std.TreeMap Nat Frame}
    (hregions : placeable asm.labels cx.regions.regions = true)
    (hasm : s.code.assemble = .ok asm)
    (hframes : s.frames.backfill.1.resolve cx.types asm.labels = .ok frames)
    (hcheck : checkFrames frames asm.code = .ok ())
    (hlist : listable cx.types s (frames.toList.filter fun e => e.1 < asm.length) = true) :
    Reaches cx s (finish name) fun _ _ => True := by
  unfold listable at hlist
  simp only [Bool.and_eq_true, decide_eq_true_eq, List.all_eq_true] at hlist
  obtain ⟨⟨hwritable, hnamed⟩, hroom⟩ := hlist
  refine Reaches.bind Reaches.read ?_
  rintro cx s ⟨rfl, rfl⟩
  refine Reaches.bind reaches_backfill ?_
  rintro _ t ⟨htframes, htcode, htpool, htslots⟩
  refine Reaches.bind Reaches.get ?_
  rintro _ _ ⟨rfl, rfl⟩
  refine Reaches.bind (Reaches.lift (htcode ▸ hasm)) ?_
  rintro _ _ ⟨rfl, rfl⟩
  refine Reaches.bind (Reaches.modify _) ?_
  rintro _ _ rfl
  refine Reaches.bind (Reaches.lift (htframes ▸ hframes)) ?_
  rintro _ _ ⟨rfl, rfl⟩
  refine Reaches.bind (Reaches.lift hcheck) ?_
  rintro _ _ ⟨-, rfl⟩
  refine Reaches.bind (Reaches.onPool (Room.mapM (fun e => e.2.cost) fun e he =>
    StackMapEntry.room_ofFrame (hwritable e he)) ?_) ?_
  · rw [htpool]
    omega
  rintro stackMap s₁ hcount
  refine Reaches.bind (Reaches.onPool (Pool.room_classRef _) ?_) ?_
  · rw [htpool] at hcount
    omega
  rintro catchType s₂ -
  refine Reaches.bind (Reaches.mapM fun e he => reaches_exceptionRow hregions catchType he) ?_
  rintro exceptions _ rfl
  rw [htslots]
  refine Reaches.bind (Reaches.mapM fun e he => ?_) ?_
  · have hdescriptor := hnamed e he
    cases hok : cx.types.descriptor e.2.2 with
    | error c =>
      rw [hok] at hdescriptor
      cases hdescriptor
    | ok text =>
      refine Reaches.bind (Reaches.lift hok) ?_
      rintro _ _ ⟨-, rfl⟩
      exact Reaches.pure rfl
  rintro locals _ rfl
  exact Reaches.pure trivial

/-- What a lowering comes to: its preparation, the state before its end, the code, and the
frames that the stack map lists. -/
structure Preview where
  context : Context
  start : LowerState
  state : LowerState
  asm : Assembly
  listed : List (Nat × Frame)

/-- What the lowering of a body comes to, if nothing is in the way. -/
def previewedFrom (config : Config) (T : TypeTable) (pool : Pool) (body : Body) :
    Option Preview :=
  match prepare config T body (initial pool body) with
  | .error _ _ => none
  | .ok cx s₁ =>
    match lowerAll body.code cx s₁ with
    | .error _ _ => none
    | .ok _ s₂ =>
      match s₂.code.assemble with
      | .error _ => none
      | .ok asm =>
        match s₂.frames.backfill.1.resolve cx.types asm.labels with
        | .error _ => none
        | .ok frames =>
          let listed := frames.toList.filter fun e => e.1 < asm.length
          if placeable asm.labels cx.regions.regions && (checkFrames frames asm.code).toBool &&
              listable cx.types s₂ listed then
            some { context := cx, start := s₁, state := s₂, asm, listed }
          else none

/-- What the lowering of the first body of a class comes to. -/
def previewed (config : Config) (T : TypeTable) (body : Body) : Option Preview :=
  previewedFrom config T .empty body

/-- What is previewed is what a lowering comes to. -/
theorem exists_of_previewedFrom {pool : Pool} {p : Preview}
    (h : previewedFrom config T pool body = some p) :
    ∃ m frames, (lowerMethod config T pool body).result = .ok m ∧
      prepare config T body (initial pool body) = .ok p.context p.start ∧
      lowerAll body.code p.context p.start = .ok () p.state ∧
      Finished p.context p.state p.asm frames m ∧
      p.listed = frames.toList.filter fun e => e.1 < p.asm.length := by
  unfold previewedFrom at h
  split at h
  · cases h
  next cx s₁ hprepare =>
  split at h
  · cases h
  next s₂ hlower =>
  split at h
  · cases h
  next asm hasm =>
  split at h
  · cases h
  next frames hframes =>
  dsimp only at h
  split at h
  · next hif =>
    cases h
    simp only [Bool.and_eq_true] at hif
    obtain ⟨⟨hregions, hcheck⟩, hlist⟩ := hif
    have hcheck : checkFrames frames asm.code = .ok () := by
      cases hresult : checkFrames frames asm.code with
      | ok _ => rfl
      | error e =>
        rw [hresult] at hcheck
        cases hcheck
    obtain ⟨m, s₃, hfinish, -⟩ :=
      reaches_finish body.targetName hregions hasm hframes hcheck hlist
    obtain ⟨⟨asm', frames', hfinished⟩, -⟩ := exists_finished hfinish
    cases hasm.symm.trans hfinished.assembled
    cases hframes.symm.trans hfinished.resolved
    refine ⟨m, frames, ?_, hprepare, hlower, hfinished, rfl⟩
    have hrun : run config T body (initial pool body) = .ok m s₃ := by
      refine (state_ok_bind hprepare).trans ?_
      refine (state_ok_bind (f := fun _ => finish body.targetName cx) hlower).trans ?_
      exact hfinish
    unfold lowerMethod
    rw [hrun]
  · cases h

/-- The code that a body comes to, if nothing is in the way. -/
def preview (config : Config) (T : TypeTable) (body : Body) : Option (List (Nat × Instr)) :=
  (previewed config T body).map fun p => p.asm.code

theorem exists_of_preview {code : List (Nat × Instr)} (h : preview config T body = some code) :
    ∃ m, (lowerMethod config T .empty body).result = .ok m ∧ m.code = code := by
  obtain ⟨p, hp, rfl⟩ := Option.map_eq_some_iff.mp h
  obtain ⟨m, _, hm, -, -, hfinished, -⟩ := exists_of_previewedFrom hp
  exact ⟨m, hm, hfinished.code⟩

theorem exists_of_isSome (h : (previewed config T body).isSome = true) :
    ∃ m, (lowerMethod config T .empty body).result = .ok m := by
  obtain ⟨p, hp⟩ := Option.isSome_iff_exists.mp h
  obtain ⟨m, _, hm, -⟩ := exists_of_previewedFrom hp
  exact ⟨m, hm⟩

-- ==== a loop

/-- A loop whose test stands behind its body. The body is first met as code that
nothing reaches, and the variable it reads is never written. -/
def testLast : Body where
  owner := .ref "Loop"
  name := "spin"
  kind := .static
  params := [⟨some "more", .prim .int32⟩]
  locals := [⟨some "unset", .prim .int32⟩]
  returns := none
  code := [(0, .jump 3), (1, .loadLocal 0), (2, .pop), (3, .loadArg 0), (4, .branchIf true 1),
    (5, .ret)]
  handlers := []

theorem preview_testLast :
    preview {} (.ofConfig {}) testLast
      = some [(0, .const .int 0), (1, .store (.num .int) (.short 1)), (2, .goto 5),
          (5, .load (.num .int) (.short 1)), (6, .pop), (7, .load (.num .int) (.short 0)),
          (8, .ifZero .ne (-3)), (11, .returnVoid)] := by
  cbv

end Lowering

end BytecodeBridge
