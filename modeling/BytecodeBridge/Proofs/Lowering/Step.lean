/-
What lowering can do to its state, step by step.

The lowering of one operation is a long computation in `LowerM`, made from
some sixty functions. What its theory needs is much less: that the whole
computation is a sequence of steps of a few kinds (`Step`), each with the
facts that held when it was taken. Every invariant of a lowering is then
proved once per kind of step, and every function of the lowering is looked
at once, to see that it takes such steps (`Does`).

# Labels that were saved

Whatever transfers to a label saves the live frame there first. That the
two belong together is part of what a step says: the states are paired
with the labels at which the live frame was saved since the last item of
code (`Stage`), and a branch may only name one of those.

# Saving and repairing

A save that changes the frame of code already emitted is repaired at once,
by giving default values to the variables that lost their type. Between
the two the state is not consistent, so they are one step: `Saves`.

# Changing a local

A change of the live locals is told to the handlers of the regions around
it, which may be entered from here on. Until they all know, the frames of
the handlers do not describe what they are entered with, so the change and
the saves that follow it are one step: `Change` and `HandlerSaves`.

# Binding

A label is bound in four ways. `bindLoaded` goes on with the frame
recorded for the label; `bindNew` records the live frame at a label that
has none; `pass` goes through a source label that no operation transfers
to; and `defer` goes on in code that nothing reaches, with the frame put
aside.

# Scopes

Which labels a computation saves to and binds, whether it changes what the
slots of the source hold and whether its code may turn elsewhere depends on
the operation it belongs to. A `Scope` bounds all that, and steps are taken
within a scope (`StepIn`).
Most of the theory does not look at scopes, and uses steps in the one that
allows everything (`Step`).
-/
import BytecodeBridge.Lowering.Flow
import BytecodeBridge.Proofs.Frame.Store
import BytecodeBridge.Proofs.Instr.Control
import BytecodeBridge.Proofs.Pool
import BytecodeBridge.Proofs.Slots
import BytecodeBridge.Proofs.TypeTable.Join

namespace BytecodeBridge

open FrameStore

theorem CodeBuffer.foldl_emitPrologue (b : CodeBuffer) (instrs : List Instr) :
    instrs.foldl CodeBuffer.emitPrologue b
      = { b with prologue := instrs.reverse ++ b.prologue } := by
  induction instrs generalizing b with
  | nil => rfl
  | cons i instrs ih =>
    rw [List.foldl_cons, ih, List.reverse_cons, List.append_assoc]
    rfl

/-- Whether the label is entered with something thrown on top of the stack. -/
def Label.isEntry : Label → Bool
  | .handler _ | .dispatch _ _ => true
  | .source _ | .filterReject _ _ | .resume _ _ | .synthetic _ => false

namespace Lowering

open LowerM (widen)

variable {cx : Context} {scope : Scope} {a b : Stage}

/-- A state, and the labels at which its live frame was saved since the last item
of code. -/
abbrev Stage := LowerState × List Label

-- ==== repairs

/-- Code that pushes the default value of a type. -/
inductive DefaultCode (ty : Ty) : StackKind → List Instr → Prop where
  | object {kind : StackKind} {index init : Nat} (hvalue : ty.isValue = true) :
      DefaultCode ty kind [.newObject index, .dup, .invokeSpecial init]
  | zero {k : NumKind} : DefaultCode ty (.num k) [.const k 0]
  | null : DefaultCode ty .reference [.constNull]

theorem DefaultCode.plain {ty : Ty} {kind : StackKind} {instrs : List Instr}
    (h : DefaultCode ty kind instrs) : ∀ i ∈ instrs, i.Plain := by
  intro i hi
  cases h with
  | object =>
    simp only [List.mem_cons, List.not_mem_nil, or_false] at hi
    rcases hi with rfl | rfl | rfl <;> exact ⟨rfl, rfl, rfl⟩
  | zero | null =>
    cases List.mem_singleton.mp hi
    exact ⟨rfl, rfl, rfl⟩

/-- A step that gives a declared slot a value wherever it is unset. -/
inductive Repair : LowerState → LowerState → Prop where
  /-- an argument, or a variable with a default value, gets its type in all frames -/
  | fill {s : LowerState} {slot : Nat} {d : Declared}
      (hdeclared : s.slots.declared? slot = some d)
      (hset : d.kind = .argument ∨ d.kind = .variable ∧ s.slots.isDefaulted slot = true) :
      Repair s { s with frames := s.frames.materialize slot d.ty }
  /-- a variable gets a default value before the method starts -/
  | default {s : LowerState} {slot : Nat} {d : Declared} {kind : StackKind}
      {instrs : List Instr} {depth : Nat} {pool : Pool}
      (hdeclared : s.slots.declared? slot = some d) (hvariable : d.kind = .variable)
      (hnew : s.slots.isDefaulted slot = false) (hkind : d.ty.stackKind? = some kind)
      (hcode : DefaultCode d.ty kind instrs) (hpool : s.pool.Grows pool) :
      Repair s
        { s with
          slots := (s.slots.markDefaulted slot).markWritten slot
          events := .defaulted slot d.ty :: s.events
          code := (instrs ++ [Instr.storeSlot kind slot]).foldl CodeBuffer.emitPrologue s.code
          prologueStack := max s.prologueStack depth
          pool }

abbrev Repairs : LowerState → LowerState → Prop :=
  Relation.ReflTransGen Repair

/-- Saving a frame at a label, with the repairs that follow from it. -/
inductive Saves (cx : Context) (label : Label) (frame : Frame) :
    LowerState → LowerState → Prop where
  | kept {s : LowerState} {frames : FrameStore} {saved : Saved} {made : List Ty}
      (hsave : s.frames.save cx.types label frame true false = (frames, .ok saved))
      (hkept : ∀ locals stack, saved ≠ .invalidated locals stack) :
      Saves cx label frame s { s with frames, made }
  /-- the frame of code already emitted has changed -/
  | changed {s s' : LowerState} {frames : FrameStore} {locals : List Nat} {stack : Bool}
      {made : List Ty}
      (hsave : s.frames.save cx.types label frame true false
        = (frames, .ok (.invalidated locals stack)))
      (hrepairs : Repairs
        { s with frames, made, events := .frameChanged label locals stack :: s.events } s')
      (hdefaulted : ∀ slot ∈ locals, s.slots.isVariable slot = true →
        s'.slots.isDefaulted slot = true)
      (hfilled : ∀ slot t, s'.frames.live.locals.get? slot = some t →
        s.frames.live.locals.get? slot = some t ∨ s'.slots.isDefaulted slot = true) :
      Saves cx label frame s s'

/-- The handlers of some regions are told what the live locals are, one after the
other. -/
inductive HandlerSaves (cx : Context) : List Nat → LowerState → LowerState → Prop where
  | nil {s : LowerState} : HandlerSaves cx [] s s
  | cons {r : Nat} {rs : List Nat} {s t s' : LowerState}
      (hsave : Saves cx (.handler r)
        { widen cx.types s.slots s.frames.live with stack := [cx.types.throwable] } s t)
      (hrest : HandlerSaves cx rs t s') : HandlerSaves cx (r :: rs) s s'

-- ==== changes

/-- A slot that can be read as a value of a kind: it is set, or an argument, or a
variable with a default value. -/
def Readable (s : LowerState) (kind : StackKind) (slot : Nat) : Prop :=
  (∃ ty, s.frames.local? slot = some ty ∧ ty.stackKind? = some kind) ∨
  ∃ d, s.slots.declared? slot = some d ∧ d.ty.stackKind? = some kind ∧
    (d.kind = .argument ∨ d.kind = .variable ∧ s.slots.isDefaulted slot = true)

/-- A slot that a value may be stored in: a declared slot of its kind, a slot kept
for exceptions, or a temporary in use. -/
def Writable (s : LowerState) (kind : StackKind) (slot : Nat) : Prop :=
  (∃ d, s.slots.declared? slot = some d ∧
    (d.kind = .synthetic ∨ d.ty.stackKind? = some kind)) ∨
  ∃ t ∈ s.slots.temps, t.slot = slot ∧ t.category = kind.category

/-- What is thrown or joined takes one slot, and so does the receiver. -/
structure Thin (cx : Context) : Prop where
  slim : cx.types.Slim
  throwable : cx.types.throwable.category = 1
  owner : cx.body.owner.category = 1

/-- The top of the stack takes one slot. -/
def Topped (stack : List Ty) : Prop :=
  ∃ t rest, stack = t :: rest ∧ t.category = 1

/-- A change of the live locals. -/
inductive Change (cx : Context) (s : LowerState) : LowerState → Prop where
  | put {kind : StackKind} {slot : Nat} {ty : Ty} (hkind : ty.stackKind? = some kind)
      (h : Writable s kind slot)
      (hthin : Thin cx → ∀ d, s.slots.declared? slot = some d → d.kind = .synthetic →
        ty.category = 1) :
      Change cx s
        { s with
          code := s.code.emit (.storeSlot kind slot)
          frames := s.frames.setLocal slot ty
          slots := s.slots.markWritten slot }
  | replace : Change cx s { s with frames := s.frames.replace .uninitThis cx.body.owner }

-- ==== steps

/-- Which labels a computation may save to, which it may bind, whether it may change the
slots of the source, for which regions it may resume leaves, and whether its code may turn
elsewhere. -/
structure Scope where
  saves : Label → Prop
  binds : Label → Prop
  changes : Prop
  resumes : Nat → Prop
  turns : Prop

/-- The scope that allows everything. -/
def Scope.all : Scope :=
  ⟨fun _ => True, fun _ => True, True, fun _ => True, True⟩

/-- A slot that a scope lets values be stored in. Temporaries always are, and so are the
slots that regions keep. -/
def Takes (cx : Context) (scope : Scope) (slots : Slots) (slot : Nat) : Prop :=
  scope.changes ∨ cx.regions.regions ≠ [] ∨ slots.declared? slot = none

/-- A change of the live locals that a scope allows. -/
def Allows (cx : Context) (scope : Scope) (s t : LowerState) : Prop :=
  scope.changes ∨ ∃ slot ty, Takes cx scope s.slots slot ∧ t.frames = s.frames.setLocal slot ty

/-- Where there are regions, an offset that is still to come: behind the operation
being lowered or, if a handler goes in front of that, the operation itself. -/
def Ahead (cx : Context) (o : Nat) : Prop :=
  cx.regions.regions ≠ [] ∧
    (cx.current < o ∨ cx.current = o ∧ (cx.regions.handlerAt? o).isSome = true)

/-- A source label that may be saved to: a target of an operation, a label that has
a frame already, or one that is still to come. -/
def Open (cx : Context) (s : LowerState) (label : Label) : Prop :=
  ∀ o, label = .source o → cx.targets.contains o = true ∨ s.frames.has label = true ∨ Ahead cx o

/-- A source label that a null may be taken back from under: nothing transfers to it. -/
def passable (cx : Context) (s : LowerState) : Label → Bool
  | .source o => !cx.targets.contains o && !s.frames.has (.source o)
  | _ => false

/-- A label that may be bound while an operation is lowered: of the source labels its
own, of the handlers the one in front of it, with its tests. -/
def InPlace (cx : Context) : Label → Prop
  | .source o => o = cx.current
  | .handler r | .dispatch r _ => cx.regions.handlerAt? cx.current = some r
  | _ => True

/-- A label that was made before it is used: the numbers of labels are handed out, and
a leave is resumed where that is noted. -/
def Made (s : LowerState) : Label → Prop
  | .synthetic n => n < s.nextLabel
  | .resume r _ => r ∈ s.resumed
  | _ => True

/-- One step of a lowering, within a scope. -/
inductive StepIn (cx : Context) (scope : Scope) : Stage → Stage → Prop where
  -- the constant pool, the slots and the types
  | pool {s p} (pool : Pool) : StepIn cx scope (s, p) ({ s with pool }, [])
  | borrow {s p} {ty : Ty} {slot : Nat} {slots : Slots}
      (h : Slots.borrow ty s.slots = .ok slot slots) :
      StepIn cx scope (s, p) ({ s with slots }, [])
  | release {s p} {slot : Nat} {slots : Slots} (h : Slots.release slot s.slots = .ok () slots) :
      StepIn cx scope (s, p) ({ s with slots, frames := s.frames.clearLocal slot }, [])
  | fresh {s p} : StepIn cx scope (s, p) ({ s with nextLabel := s.nextLabel + 1 }, [])
  | make {s p} (made : List Ty) : StepIn cx scope (s, p) ({ s with made }, [])
  | resumed {s p} (r : Nat) (h : scope.resumes r) :
      StepIn cx scope (s, p) ({ s with resumed := r :: s.resumed }, [])
  -- the live frame
  | push {s p} {ty : Ty} {frames : FrameStore} (h : s.frames.push ty = .ok frames) :
      StepIn cx scope (s, p) ({ s with frames }, [])
  | pop {s p} {ty : Ty} {frames : FrameStore} (h : s.frames.pop = .ok (ty, frames)) :
      StepIn cx scope (s, p) ({ s with frames }, [])
  | note {s p} (extra : Nat) :
      StepIn cx scope (s, p) ({ s with frames := s.frames.noteDepth extra }, [])
  | change {s t s' p} (h : Change cx s t)
      (htold : HandlerSaves cx (cx.regions.protecting cx.current) t s')
      (hscope : Allows cx scope s t) :
      StepIn cx scope (s, p) (s', [])
  | repair {s s' p} (h : Repair s s') : StepIn cx scope (s, p) (s', [])
  | save {s s' p} {label : Label} {frame : Frame}
      (hlocals : frame.locals = (widen cx.types s.slots s.frames.live).locals)
      (hopen : Open cx s label) (h : Saves cx label frame s s')
      (hstack : frame.stack = s.frames.live.stack ∨
        cx.regions.regions ≠ [] ∧ frame.stack = [cx.types.throwable])
      (hscope : scope.saves label) (hmade : Made s label)
      (htop : Thin cx → label.isEntry = true → Topped frame.stack) :
      StepIn cx scope (s, p) (s', label :: p)
  -- code that goes on
  | emit {s p} {i : Instr} (h : i.Plain) :
      StepIn cx scope (s, p) ({ s with code := s.code.emit i }, [])
  | fetch {s p} {kind : StackKind} {slot : Nat} (h : Readable s kind slot) :
      StepIn cx scope (s, p) ({ s with code := s.code.emit (.loadSlot kind slot) }, [])
  | retract {s p} {code : CodeBuffer}
      (h : s.code.retract? .constNull (passable cx s) = some code) :
      StepIn cx scope (s, p) ({ s with code }, [])
  | branch {s p} {i : Instr} {label : Label} (hi : i.isConditional = true) (h : label ∈ p) :
      StepIn cx scope (s, p) ({ s with code := s.code.branch i label }, [])
  -- code that does not go on
  | exit {s p} {i : Instr} (h : i.Exit) (hturns : scope.turns) :
      StepIn cx scope (s, p) ({ s with code := s.code.emit i, reachable := false }, [])
  | jump {s p} {label : Label} (h : label ∈ p) (hturns : scope.turns) :
      StepIn cx scope (s, p)
        ({ s with code := s.code.branch (.goto 0) label, reachable := false }, [])
  | table {s p} {low : Int} {targets : List Label} {default : Label}
      (h : ∀ label ∈ targets ++ [default], label ∈ p) (hturns : scope.turns) :
      StepIn cx scope (s, p)
        ({ s with code := s.code.table low targets default, reachable := false }, [])
  -- labels
  | bindLoaded {s p} {label : Label} {frame : Frame}
      (hplace : InPlace cx label)
      (hreach : s.reachable = true → label ∈ p)
      (hframe : s.frames.recorded? label = some frame) (hscope : scope.binds label) :
      StepIn cx scope (s, p)
        ({ s with
            frames := { s.frames with live := frame }.markBound label
            code := s.code.bind label
            reachable := true }, [])
  | bindNew {s s' p} {label : Label} (hlabel : InPlace cx label ∧ ∀ o, label ≠ .source o)
      (hhas : s.frames.has label = false) (hreach : s.reachable = true)
      (hsave : Saves cx label (widen cx.types s.slots s.frames.live) s s')
      (hscope : scope.saves label ∧ scope.binds label) (hmade : Made s label)
      (htop : Thin cx → label.isEntry = true → Topped s.frames.live.stack) :
      StepIn cx scope (s, p)
        ({ s' with
            frames := s'.frames.markBound label
            code := s'.code.bind label
            reachable := true }, [])
  | pass {s p} (hhas : s.frames.has (.source cx.current) = false) (hreach : s.reachable = true)
      (htarget : cx.targets.contains cx.current = false)
      (hhandler : cx.regions.handlerAt? cx.current = none)
      (hscope : scope.binds (.source cx.current)) :
      StepIn cx scope (s, p)
        ({ s with
            frames := s.frames.markBound (.source cx.current)
            code := s.code.bind (.source cx.current)
            reachable := true }, [])
  | defer {s p} (hhas : s.frames.has (.source cx.current) = false)
      (hreach : s.reachable = false) (hscope : scope.binds (.source cx.current)) :
      StepIn cx scope (s, p)
        ({ s with
            frames := (s.frames.defer (.source cx.current)
              (widen cx.types s.slots s.frames.live)).markBound (.source cx.current)
            code := s.code.bind (.source cx.current)
            reachable := true }, [])

/-- One step of a lowering, in any scope. -/
abbrev Step (cx : Context) : Stage → Stage → Prop :=
  StepIn cx .all

abbrev StepsIn (cx : Context) (scope : Scope) : Stage → Stage → Prop :=
  Relation.ReflTransGen (StepIn cx scope)

abbrev Steps (cx : Context) : Stage → Stage → Prop :=
  Relation.ReflTransGen (Step cx)

/-- Steps can be taken in a wider scope. -/
theorem StepIn.mono {wider : Scope} (h : StepIn cx scope a b)
    (hsaves : ∀ label, scope.saves label → wider.saves label)
    (hbinds : ∀ label, scope.binds label → wider.binds label)
    (hchanges : scope.changes → wider.changes) (hresumes : ∀ r, scope.resumes r → wider.resumes r)
    (hturns : scope.turns → wider.turns) :
    StepIn cx wider a b := by
  cases h with
  | pool pool => exact .pool pool
  | borrow h => exact .borrow h
  | release h => exact .release h
  | fresh => exact .fresh
  | make made => exact .make made
  | resumed r h => exact .resumed r (hresumes r h)
  | push h => exact .push h
  | pop h => exact .pop h
  | note extra => exact .note extra
  | change h htold hscope =>
    refine .change h htold (hscope.imp hchanges ?_)
    rintro ⟨slot, ty, hslot, hframes⟩
    exact ⟨slot, ty, hslot.imp_left hchanges, hframes⟩
  | repair h => exact .repair h
  | save hlocals hopen h hstack hscope hmade htop =>
    exact .save hlocals hopen h hstack (hsaves _ hscope) hmade htop
  | emit h => exact .emit h
  | fetch h => exact .fetch h
  | retract h => exact .retract h
  | branch hi h => exact .branch hi h
  | exit h hscope => exact .exit h (hturns hscope)
  | jump h hscope => exact .jump h (hturns hscope)
  | table h hscope => exact .table h (hturns hscope)
  | bindLoaded hplace hreach hframe hscope =>
    exact .bindLoaded hplace hreach hframe (hbinds _ hscope)
  | bindNew hlabel hhas hreach hsave hscope hmade htop =>
    exact .bindNew hlabel hhas hreach hsave ⟨hsaves _ hscope.1, hbinds _ hscope.2⟩ hmade htop
  | pass hhas hreach htarget hhandler hscope =>
    exact .pass hhas hreach htarget hhandler (hbinds _ hscope)
  | defer hhas hreach hscope => exact .defer hhas hreach (hbinds _ hscope)

theorem StepIn.step (h : StepIn cx scope a b) :
    Step cx a b :=
  h.mono (fun _ _ => trivial) (fun _ _ => trivial) (fun _ => trivial) (fun _ _ => trivial)
    fun _ => trivial

theorem StepsIn.steps (h : StepsIn cx scope a b) :
    Steps cx a b :=
  Relation.ReflTransGen.mono (fun _ _ hstep => hstep.step) _ _ h

-- ==== what steps keep

section Keeps

variable {cx : Context} {s s' : LowerState}

/-- What saves and repairs leave as it is, and what they only add to. -/
structure Mends (s s' : LowerState) : Prop where
  declared : s'.slots.declared = s.slots.declared
  /-- a variable that has a default value keeps it -/
  defaulted : ∀ {v}, s.slots.isDefaulted v = true → s'.slots.isDefaulted v = true
  /-- the layout of the slots is kept -/
  fits : ∀ {base}, s.slots.Fits base → s'.slots.Fits base
  body : s'.code.body = s.code.body
  reachable : s'.reachable = s.reachable
  made : s'.nextLabel = s.nextLabel ∧ s'.resumed = s.resumed
  grows : s.pool.Grows s'.pool
  stack : s'.frames.live.stack = s.frames.live.stack
  maxStack : s'.frames.maxStack = s.frames.maxStack
  bound : s'.frames.bound = s.frames.bound
  events : s.events ⊆ s'.events

theorem Mends.refl (s : LowerState) : Mends s s :=
  ⟨rfl, id, id, rfl, rfl, ⟨rfl, rfl⟩, .refl, rfl, rfl, rfl, List.Subset.refl _⟩

theorem Mends.trans {t : LowerState} (h : Mends s t) (h' : Mends t s') : Mends s s' where
  declared := h'.declared.trans h.declared
  defaulted hv := h'.defaulted (h.defaulted hv)
  fits hs := h'.fits (h.fits hs)
  body := h'.body.trans h.body
  reachable := h'.reachable.trans h.reachable
  made := ⟨h'.made.1.trans h.made.1, h'.made.2.trans h.made.2⟩
  grows := h.grows.trans h'.grows
  stack := h'.stack.trans h.stack
  maxStack := h'.maxStack.trans h.maxStack
  bound := h'.bound.trans h.bound
  events := List.Subset.trans h.events h'.events

theorem Mends.isBound (h : Mends s s') (l : Label) : s'.frames.isBound l = s.frames.isBound l := by
  unfold FrameStore.isBound
  rw [h.bound]

theorem Repair.mends (h : Repair s s') : Mends s s' := by
  cases h with
  | fill => exact ⟨rfl, id, id, rfl, rfl, ⟨rfl, rfl⟩, .refl, rfl, rfl, rfl, List.Subset.refl _⟩
  | default _ _ _ _ _ hpool =>
    refine ⟨rfl, fun {v} hv => ?_, fun hs => (hs.markDefaulted _).markWritten _, ?_, rfl,
      ⟨rfl, rfl⟩, hpool, rfl, rfl, rfl, List.subset_cons_self _ _⟩
    · show (s.slots.defaulted.insert _).contains v = true
      rw [Std.TreeSet.contains_insert, Bool.or_eq_true]
      exact .inr hv
    · rw [CodeBuffer.foldl_emitPrologue]

theorem Repair.has (h : Repair s s') (l : Label) : s'.frames.has l = s.frames.has l := by
  cases h with
  | fill => exact s.frames.has_materialize _ _ l
  | default => rfl

theorem Repairs.mends (h : Repairs s s') : Mends s s' := by
  induction h with
  | refl => exact .refl s
  | tail _ hlast ih => exact ih.trans hlast.mends

theorem Repairs.keeps {I : LowerState → Prop} (h : Repairs s s')
    (hrepair : ∀ t t', Mends s t → I t → Repair t t' → I t') (hs : I s) : I s' := by
  induction h with
  | refl => exact hs
  | tail hbefore hlast ih => exact hrepair _ _ (Repairs.mends hbefore) ih hlast

theorem Repairs.has (h : Repairs s s') (l : Label) : s'.frames.has l = s.frames.has l :=
  h.keeps (I := fun t => t.frames.has l = s.frames.has l)
    (fun _ _ _ ht hrepair => (hrepair.has l).trans ht) rfl

-- ==== saves

section Saves

variable {label : Label} {frame : Frame}

/-- The state after a save and before its repairs. -/
theorem Saves.exists_save (h : Saves cx label frame s s') : ∃ frames saved events made,
    s.frames.save cx.types label frame true false = (frames, .ok saved) ∧
      s.events ⊆ events ∧ Repairs { s with frames, events, made } s' ∧
      ∀ locals stack, saved = .invalidated locals stack →
        .frameChanged label locals stack ∈ s'.events ∧
        ∀ slot ∈ locals, s.slots.isVariable slot = true → s'.slots.isDefaulted slot = true := by
  cases h with
  | @kept frames saved made hsave hkept =>
    exact ⟨frames, saved, s.events, made, hsave, List.Subset.refl _, .refl,
      fun locals stack heq => absurd heq (hkept locals stack)⟩
  | @changed _ frames locals stack made hsave hrepairs hdefaulted =>
    refine ⟨frames, _, _, made, hsave, List.subset_cons_self _ _, hrepairs, ?_⟩
    rintro _ _ ⟨⟩
    exact ⟨hrepairs.mends.events (.head _), hdefaulted⟩

theorem Saves.keeps {I : LowerState → Prop} (h : Saves cx label frame s s')
    (hsave : ∀ {frames saved events made},
      FrameStore.Stored cx.types label frame saved s.frames frames →
      I { s with frames, events, made })
    (hrepair : ∀ t t', I t → Repair t t' → I t') : I s' := by
  obtain ⟨frames, saved, events, made, hok, -, hrepairs, -⟩ := h.exists_save
  exact hrepairs.keeps (fun t t' _ => hrepair t t') (hsave (save_ok hok))

/-- A save concerns the frames of labels, besides what repairs do. -/
theorem Saves.mends (h : Saves cx label frame s s') : Mends s s' := by
  obtain ⟨frames, saved, events, made, hsave, hevents, hrepairs, -⟩ := h.exists_save
  have hmax := maxStack_save s.frames cx.types label frame true false
  rw [hsave] at hmax
  have hsaved : Mends s { s with frames, events, made } :=
    ⟨rfl, id, id, rfl, rfl, ⟨rfl, rfl⟩, .refl,
      congrArg Frame.stack (save_ok hsave).live, hmax, (save_ok hsave).bound,
      hevents⟩
  exact hsaved.trans hrepairs.mends

theorem Saves.has (h : Saves cx label frame s s') :
    s'.frames.has label = true ∧ ∀ l, s.frames.has l = true → s'.frames.has l = true := by
  obtain ⟨frames, saved, events, made, hsave, -, hrepairs, -⟩ := h.exists_save
  have hstored := save_ok hsave
  exact ⟨(hrepairs.has label).trans hstored.has,
    fun l hl => (hrepairs.has l).trans (hstored.has_mono hl)⟩

theorem Saves.has_of_ne (h : Saves cx label frame s s') {l : Label} (hl : l ≠ label) :
    s'.frames.has l = s.frames.has l := by
  obtain ⟨frames, saved, events, made, hsave, -, hrepairs, -⟩ := h.exists_save
  exact (hrepairs.has l).trans ((save_ok hsave).others l hl).2

end Saves

theorem HandlerSaves.keeps {I : LowerState → Prop} {rs : List Nat}
    (h : HandlerSaves cx rs s s')
    (hsave : ∀ r ∈ rs, ∀ t t', Mends s t → I t → Saves cx (.handler r)
      { widen cx.types t.slots t.frames.live with stack := [cx.types.throwable] } t t' → I t')
    (hs : I s) : I s' := by
  induction h with
  | nil => exact hs
  | cons hfirst _ ih =>
    exact ih (fun r hr t t' ht => hsave r (.tail _ hr) t t' (hfirst.mends.trans ht))
      (hsave _ (.head _) _ _ (.refl _) hs hfirst)

theorem HandlerSaves.mends {rs : List Nat} (h : HandlerSaves cx rs s s') : Mends s s' :=
  h.keeps (I := Mends s) (fun _ _ _ _ _ ht hsave => ht.trans hsave.mends) (.refl s)

theorem HandlerSaves.has {rs : List Nat} (h : HandlerSaves cx rs s s') {l : Label}
    (hl : ∀ r, l ≠ .handler r) : s'.frames.has l = s.frames.has l :=
  h.keeps (I := fun t => t.frames.has l = s.frames.has l)
    (fun r _ _ _ _ ht hsave => (hsave.has_of_ne (hl r)).trans ht) rfl

-- ==== all frames

section Each

variable {P : Option Label → Frame → Prop}

theorem Repair.each (h : Repair s s')
    (hfill : ∀ {slot d}, s.slots.declared? slot = some d → d.kind ≠ .synthetic →
      ∀ {l f}, P l f → P l (f.fillLocal slot d.ty))
    (hs : s.frames.Each P) : s'.frames.Each P := by
  cases h with
  | fill hd hset =>
    refine hs.materialize (hfill hd ?_)
    rcases hset with harg | ⟨hvar, -⟩
    · rw [harg]
      exact nofun
    · rw [hvar]
      exact nofun
  | default => exact hs

/-- What merging and filling keep, a save with its repairs keeps. -/
theorem Saves.each {label : Label} {frame : Frame} (h : Saves cx label frame s s')
    (hfill : ∀ {slot d}, s.slots.declared? slot = some d → d.kind ≠ .synthetic →
      ∀ {l f}, P l f → P l (f.fillLocal slot d.ty))
    (hmerge : ∀ {old new}, P (some label) old → old.merge cx.types frame = .ok new →
      P (some label) new)
    (hframe : P (some label) frame) (hs : s.frames.Each P) : s'.frames.Each P := by
  obtain ⟨frames, saved, events, made, hsave, -, hrepairs, -⟩ := h.exists_save
  refine hrepairs.keeps (I := fun t => t.frames.Each P) (fun t t' hmends ht hrepair => ?_)
    (hs.stored (save_ok hsave) hframe hmerge)
  exact hrepair.each (fun hd => hfill ((Slots.declared?_congr hmends.declared _).symm.trans hd)) ht

end Each

theorem Change.outline {t : LowerState} (h : Change cx s t) :
    t.slots.declared = s.slots.declared ∧ t.slots.defaulted = s.slots.defaulted ∧
      t.frames.recorded = s.frames.recorded ∧ t.frames.deferred = s.frames.deferred ∧
      t.frames.bound = s.frames.bound ∧ t.events = s.events ∧ t.reachable = s.reachable := by
  cases h with
  | put | replace => exact ⟨rfl, rfl, rfl, rfl, rfl, rfl, rfl⟩

theorem Change.has {t : LowerState} (h : Change cx s t) (l : Label) :
    t.frames.has l = s.frames.has l := by
  cases h with
  | put | replace => rfl

theorem Change.frameOf {t : LowerState} (h : Change cx s t) (l : Label) :
    t.frames.frameOf l = s.frames.frameOf l := by
  cases h with
  | put | replace => rfl

theorem Change.fits {t : LowerState} {base : Nat} (h : Change cx s t) (hs : s.slots.Fits base) :
    t.slots.Fits base := by
  cases h with
  | put => exact hs.markWritten _
  | replace => exact hs

-- ==== steps

/-- The meaning of the declared slots never changes. -/
theorem Step.declared {p p' : List Label} (h : Step cx (s, p) (s', p')) :
    s'.slots.declared = s.slots.declared := by
  cases h with
  | borrow h =>
    obtain ⟨_, _, _, _, rfl⟩ := Slots.borrow_ok h
    rfl
  | release h =>
    obtain ⟨_, _, _, rfl⟩ := Slots.release_ok h
    rfl
  | change h htold => exact htold.mends.declared.trans h.outline.1
  | repair h | save _ _ h | bindNew _ _ _ h => exact h.mends.declared
  | _ => rfl

theorem Step.fits {base : Nat} {p p' : List Label} (h : Step cx (s, p) (s', p'))
    (hs : s.slots.Fits base) : s'.slots.Fits base := by
  cases h with
  | borrow h => exact hs.borrow h
  | release h => exact hs.release h
  | change h htold => exact htold.mends.fits (h.fits hs)
  | repair h | save _ _ h | bindNew _ _ _ h => exact h.mends.fits hs
  | _ => exact hs

theorem Step.defaulted {p p' : List Label} (h : Step cx (s, p) (s', p')) {v : Nat}
    (hv : s.slots.isDefaulted v = true) : s'.slots.isDefaulted v = true := by
  cases h with
  | borrow h =>
    obtain ⟨_, _, _, _, rfl⟩ := Slots.borrow_ok h
    exact hv
  | release h =>
    obtain ⟨_, _, _, rfl⟩ := Slots.release_ok h
    exact hv
  | change h htold =>
    refine htold.mends.defaulted ?_
    unfold Slots.isDefaulted
    rw [h.outline.2.1]
    exact hv
  | repair h | save _ _ h | bindNew _ _ _ h => exact h.mends.defaulted hv
  | _ => exact hv

theorem Step.events {p p' : List Label} (h : Step cx (s, p) (s', p')) : s.events ⊆ s'.events := by
  cases h with
  | change h htold =>
    have hsame := h.outline.2.2.2.2.2.1
    exact hsame ▸ htold.mends.events
  | repair h | save _ _ h | bindNew _ _ _ h => exact h.mends.events
  | _ => exact List.Subset.refl _

end Keeps

end Lowering

end BytecodeBridge
