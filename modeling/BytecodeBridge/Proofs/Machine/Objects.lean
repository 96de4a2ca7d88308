/-
The machine around exceptions.

What a handler does turns on which object it was entered with, so here an
object is followed through stack and slots, and of numbers only the `int`s
are exact. What objects are is left open: a `Runtime` answers for them,
whether one is an instance of a class, what the exception mapper makes of
it, what the helper for generic parameters finds in it. Every call of the
run-time support is noted in the order of the calls, so that a statement
can say which were made and that no other was.

The instructions are those that dispatch and leaves are made of. An
instruction that finds a value of another kind than it works on has no
outcome; neither has a cast that would fail.

Before the addresses are known, a block of code is said to be left by one
of its branches, by throwing, or at the next label (`exit?`).
`leads_of_exit` says that the assembled code then does so, from the
address of the label in front of the block.
-/
import BytecodeBridge.Proofs.Code.Assembly
import BytecodeBridge.Proofs.Machine.Return

namespace BytecodeBridge

open Layout

/-- The method that gives back the index in a sentinel. -/
def Config.sentinelAccessor (c : Config) : MethodSpec :=
  ⟨c.leaveSentinel.owner, c.leaveSentinel.accessor, "()I"⟩

namespace Objects

open Relation (ReflTransGen)

-- ==== values

/-- A value on the operand stack or in a slot. -/
inductive Value (Obj : Type) where
  | int (n : Int32)
  /-- a number that is no `int` -/
  | number (kind : NumKind)
  | object (o : Obj)
  | null
  /-- a string constant -/
  | text (s : String)

/-- The run-time support, as far as control depends on it. -/
structure Runtime (Obj : Type) where
  /-- whether an object is an instance of a class -/
  isInstance : Obj → String → Bool
  /-- what the exception mapper makes of an exception -/
  mapped : Obj → Obj
  /-- what the helper finds in an exception for the name of a generic parameter -/
  asked : Obj → String → Option Obj
  /-- the sentinel that carries an index -/
  sentinel : Int32 → Obj
  /-- the index that an object carries -/
  index : Obj → Int32
deriving Inhabited

/-- A call of the run-time support. -/
inductive Call (Obj : Type) where
  | mapper (o : Obj)
  | genericCatch (o : Obj) (name : String)
  | factory (n : Int32)
  | accessor (o : Obj)
deriving DecidableEq

/-- One invocation of a method. -/
structure State (Obj : Type) where
  /-- the top first -/
  stack : List (Value Obj)
  /-- an absent slot is unset -/
  locals : Nat → Option (Value Obj)
  /-- the calls made so far, in order -/
  calls : List (Call Obj)

variable {Obj : Type}

namespace Value

def kind : Value Obj → StackKind
  | int _ => .num .int
  | number k => .num k
  | object _ | null | text _ => .reference

/-- Slots that the value takes. -/
def category (v : Value Obj) : Nat :=
  v.kind.category

/-- What was found, or null. -/
def ofOption : Option Obj → Value Obj
  | some o => object o
  | none => null

/-- Whether a reference is null. -/
def isNull? : Value Obj → Option Bool
  | null => some true
  | object _ | text _ => some false
  | int _ | number _ => none

end Value

-- ==== instructions

section Instructions

variable (config : Config) (rt : Runtime Obj) (p : Pool)

/-- A call of a static method of the run-time support. The values on the stack tell its
methods apart. -/
def callStatic? (m : MethodSpec) (s : State Obj) : Option (State Obj) :=
  match s.stack with
  | .text name :: .object o :: rest =>
    if m = config.genericCatch then
      some { s with stack := .ofOption (rt.asked o name) :: rest
                    calls := s.calls ++ [.genericCatch o name] }
    else none
  | .object o :: rest =>
    if m = config.exceptionMapper then
      some { s with stack := .object (rt.mapped o) :: rest, calls := s.calls ++ [.mapper o] }
    else none
  | .int n :: rest =>
    if m = config.sentinelFactory then
      some { s with stack := .object (rt.sentinel n) :: rest, calls := s.calls ++ [.factory n] }
    else none
  | _ => none

/-- A call of the accessor of a sentinel. -/
def callVirtual? (m : MethodSpec) (s : State Obj) : Option (State Obj) :=
  match s.stack with
  | .object o :: rest =>
    if m = config.sentinelAccessor then
      some { s with stack := .int (rt.index o) :: rest, calls := s.calls ++ [.accessor o] }
    else none
  | _ => none

/-- The value of a constant that can be loaded. -/
def constant? (i : Nat) : Option (Value Obj) :=
  match p.get? i with
  | some (.integer n) => some (.int n)
  | _ => (p.string? i).map .text

/-- Whether a reference is an instance of a class; null is none. -/
def isInstance? (name : String) : Value Obj → Option Bool
  | .object o => some (rt.isInstance o name)
  | .null => some false
  | _ => none

/-- The state after an instruction that goes on. -/
def effect? (i : Instr) (s : State Obj) : Option (State Obj) :=
  match i, s.stack with
  | .const .int n, stack | .bipush n, stack | .sipush n, stack =>
    some { s with stack := .int (.ofInt n) :: stack }
  | .ldc i, stack | .ldcW i, stack => (constant? p i).map fun v => { s with stack := v :: stack }
  | .pop, v :: rest => if v.category = 1 then some { s with stack := rest } else none
  | .pop2, v :: rest => if v.category = 2 then some { s with stack := rest } else none
  | .dup, v :: rest => if v.category = 1 then some { s with stack := v :: v :: rest } else none
  | .load kind form, stack => do
    let v ← s.locals form.slot
    if v.kind = kind then some { s with stack := v :: stack } else none
  | .store kind form, v :: rest =>
    if v.kind = kind then
      some { s with stack := rest, locals := putLocal Value.category s.locals form.slot v }
    else none
  | .instanceOf i, v :: rest => do
    let yes ← isInstance? rt (← p.class? i) v
    return { s with stack := .int (if yes then 1 else 0) :: rest }
  | .checkCast i, .object o :: _ => do
    if rt.isInstance o (← p.class? i) then some s else none
  | .invokeStatic i, _ => (p.method? i).bind (callStatic? config rt · s)
  | .invokeVirtual i, _ => (p.method? i).bind (callVirtual? config rt · s)
  | _, _ => none

/-- Whether a branch is taken, and the stack behind it. -/
def test? (i : Instr) (stack : List (Value Obj)) : Option (Bool × List (Value Obj)) :=
  match i, stack with
  | .ifZero way _, .int n :: rest => some (way.holds n.toInt 0, rest)
  | .ifNull null _, v :: rest => v.isNull?.map fun isNull => (isNull == null, rest)
  | .goto _, stack | .gotoW _, stack => some (true, stack)
  | _, _ => none

/-- What comes of executing an instruction. -/
inductive Outcome (Obj : Type) where
  | next (s : State Obj)
  | jump (offset : Int) (s : State Obj)
  | throw (o : Obj)

/-- Executes one instruction. -/
def exec (i : Instr) (s : State Obj) : Option (Outcome Obj) :=
  match i with
  | .ifZero _ o | .ifNull _ o | .goto o | .gotoW o =>
    (test? i s.stack).map fun r =>
      if r.1 then .jump o { s with stack := r.2 } else .next { s with stack := r.2 }
  | .tableSwitch default low _ offsets =>
    match s.stack with
    | .int n :: stack =>
      some (.jump (Machine.tableOffset default low offsets n.toInt) { s with stack })
    | _ => none
  | .athrow =>
    match s.stack with
    | .object o :: _ => some (.throw o)
    | _ => none
  | i => (effect? config rt p i s).map .next

-- ==== execution

/-- A step of an execution of code. -/
def Goes (code : List (Nat × Instr)) (a b : Nat × State Obj) : Prop :=
  ∃ i, code.lookup a.1 = some i ∧
    (exec config rt p i a.2 = some (.next b.2) ∧ b.1 = a.1 + i.size a.1 ∨
      ∃ o : Int, exec config rt p i a.2 = some (.jump o b.2) ∧ (a.1 : Int) + o = b.1)

/-- How control leaves a block of code. -/
inductive Exit (Obj : Type) where
  | arrives (label : Label) (s : State Obj)
  /-- an object is thrown after these calls -/
  | throws (o : Obj) (calls : List (Call Obj))

/-- How an execution of assembled code goes on from an address. -/
def LeadsFrom (asm : Assembly) (a : Nat) (s : State Obj) : Exit Obj → Prop
  | .arrives label t => ∃ b, asm.labels[label]? = some b ∧
      ReflTransGen (Goes config rt p asm.code) (a, s) (b, t)
  | .throws o calls => ∃ b t i, ReflTransGen (Goes config rt p asm.code) (a, s) (b, t) ∧
      asm.code.lookup b = some i ∧ exec config rt p i t = some (.throw o) ∧ t.calls = calls

/-- How an execution of assembled code goes on from a label. -/
def LeadsTo (asm : Assembly) (label : Label) (s : State Obj) (e : Exit Obj) : Prop :=
  ∃ a, asm.labels[label]? = some a ∧ LeadsFrom config rt p asm a s e

/-- The label that a jump table has for a number. -/
def tableLabel (default : Label) (low : Int) (targets : List Label) (n : Int) : Label :=
  if n < low then default else targets.getD (n - low).toNat default

/-- How control leaves a block that is entered at its start. A label ends the block. -/
def exit? : List Item → State Obj → Option (Exit Obj)
  | [], _ => none
  | .bind label :: _, s => some (.arrives label s)
  | .instr i :: rest, s =>
    match exec config rt p i s with
    | some (.next t) => exit? rest t
    | some (.throw o) => some (.throws o s.calls)
    | _ => none
  | .branch i label :: rest, s =>
    match test? i s.stack with
    | some (true, stack) => some (.arrives label { s with stack })
    | some (false, stack) => exit? rest { s with stack }
    | none => none
  | .table low targets default :: _, s =>
    match s.stack with
    | .int n :: stack => some (.arrives (tableLabel default low targets n.toInt) { s with stack })
    | _ => none

end Instructions

-- ==== constants

section Constants

variable {config : Config} {rt : Runtime Obj} {p q : Pool} {s : State Obj} {i : Nat}

attribute [local simp] exec effect?

theorem exec_ldcOf {v : Value Obj} (h : constant? q i = some v) :
    exec config rt q (.ldcOf i) s = some (.next { s with stack := v :: s.stack }) := by
  rcases Instr.ldcOf_eq i with hi | hi <;> simp [hi, h]

private theorem constant?_of_string? {text : String} (h : q.string? i = some text) :
    constant? q i = some (.text text : Value Obj) := by
  unfold constant?
  rw [h]
  unfold Pool.string? at h
  split at h
  · next heq =>
    rw [heq]
    rfl
  · cases h

/-- Loading an `int` constant pushes it. -/
theorem exec_intConstant {n : Int32} {p' : Pool} {j : Instr} (hp : p.Indexed)
    (h : Instr.intConstant n p = .ok j p') (hq : p'.PartOf q) :
    exec config rt q j s = some (.next { s with stack := .int n :: s.stack }) := by
  have hof : Int32.ofInt n.toInt = n := Int32.ofInt_toInt n
  unfold Instr.intConstant at h
  split at h
  · cases h
    simp [hof]
  · split at h
    · cases h
      simp [hof]
    · split at h
      · cases h
        simp [hof]
      · obtain ⟨index, p₁, hintern, hpure⟩ := state_bind_ok h
        cases hpure
        refine exec_ldcOf ?_
        unfold constant?
        rw [Pool.get?_of_intern hp hintern hq]

end Constants

-- ==== blocks

section Blocks

variable {config : Config} {rt : Runtime Obj} {p : Pool} {s t : State Obj} {rest : List Item}

attribute [local simp] exec effect?

theorem exit?_instr {i : Instr} (h : exec config rt p i s = some (.next t)) :
    exit? config rt p (.instr i :: rest) s = exit? config rt p rest t := by
  rw [exit?, h]

theorem exit?_goto {label : Label} :
    exit? config rt p (.branch (.goto 0) label :: rest) s = some (.arrives label s) :=
  rfl

variable {x : Obj} {stack : List (Value Obj)} {locals : Nat → Option (Value Obj)}
  {calls : List (Call Obj)} {i : Nat}

variable {name : String} {label : Label}

theorem exit?_athrow :
    exit? config rt p (.instr .athrow :: rest) ⟨.object x :: stack, locals, calls⟩
      = some (.throws x calls) :=
  rfl

theorem exec_dup :
    exec config rt p .dup ⟨.object x :: stack, locals, calls⟩
      = some (.next ⟨.object x :: .object x :: stack, locals, calls⟩) :=
  rfl

theorem exec_store {slot : Nat} :
    exec config rt p (.storeSlot .reference slot) ⟨.object x :: stack, locals, calls⟩
      = some (.next ⟨stack, putLocal Value.category locals slot (.object x), calls⟩) := by
  simp [Instr.storeSlot, Value.kind]

theorem exec_load {slot : Nat} (h : locals slot = some (.object x)) :
    exec config rt p (.loadSlot .reference slot) ⟨stack, locals, calls⟩
      = some (.next ⟨.object x :: stack, locals, calls⟩) := by
  simp [Instr.loadSlot, Value.kind, h]

theorem exec_instanceOf (h : p.class? i = some name) :
    exec config rt p (.instanceOf i) ⟨.object x :: stack, locals, calls⟩
      = some (.next ⟨.int (if rt.isInstance x name then 1 else 0) :: stack, locals, calls⟩) := by
  simp [isInstance?, h]

theorem exec_checkCast (h : p.class? i = some name) (hname : rt.isInstance x name = true) :
    exec config rt p (.checkCast i) ⟨.object x :: stack, locals, calls⟩
      = some (.next ⟨.object x :: stack, locals, calls⟩) := by
  simp [h, hname]

/-- A value is dropped by the instruction for what it takes. -/
theorem exec_popOf {v : Value Obj} {n : Nat} (h : v.category = n) :
    exec config rt p (.popOf n) ⟨v :: stack, locals, calls⟩
      = some (.next ⟨stack, locals, calls⟩) := by
  subst h
  have hcases : v.category = 1 ∨ v.category = 2 := by
    cases v with
    | number k =>
      cases k with
      | int | float => exact .inl rfl
      | long | double => exact .inr rfl
    | _ => exact .inl rfl
  rcases hcases with hone | htwo
  · simp [Instr.popOf, hone]
  · simp [Instr.popOf, htwo]

theorem exit?_unless_instance (h : p.class? i = some name) :
    exit? config rt p
        (.instr .dup :: .instr (.instanceOf i) :: .branch (.ifZero .eq 0) label :: rest)
        ⟨.object x :: stack, locals, calls⟩
      = if rt.isInstance x name then exit? config rt p rest ⟨.object x :: stack, locals, calls⟩
        else some (.arrives label ⟨.object x :: stack, locals, calls⟩) := by
  rw [exit?_instr exec_dup, exit?_instr (exec_instanceOf h)]
  cases rt.isInstance x name <;> rfl

theorem exit?_if_instance (h : p.class? i = some name) :
    exit? config rt p
        (.instr .dup :: .instr (.instanceOf i) :: .branch (.ifZero .ne 0) label :: rest)
        ⟨.object x :: stack, locals, calls⟩
      = if rt.isInstance x name then some (.arrives label ⟨.object x :: stack, locals, calls⟩)
        else exit? config rt p rest ⟨.object x :: stack, locals, calls⟩ := by
  rw [exit?_instr exec_dup, exit?_instr (exec_instanceOf h)]
  cases rt.isInstance x name <;> rfl

/-- A branch on an object in which the helper for generic parameters finds nothing. -/
theorem exit?_unless_asked {text : Nat} (htext : p.string? text = some name)
    (h : p.method? i = some config.genericCatch) :
    exit? config rt p
        (.instr .dup :: .instr (.ldcOf text) :: .instr (.invokeStatic i) ::
          .branch (.ifNull true 0) label :: rest)
        ⟨.object x :: stack, locals, calls⟩
      = if (rt.asked x name).isSome then
          exit? config rt p rest ⟨.object x :: stack, locals, calls ++ [.genericCatch x name]⟩
        else some (.arrives label
          ⟨.object x :: stack, locals, calls ++ [.genericCatch x name]⟩) := by
  rw [exit?_instr exec_dup, exit?_instr (exec_ldcOf (constant?_of_string? htext))]
  have hcall : exec config rt p (.invokeStatic i)
      ⟨.text name :: .object x :: .object x :: stack, locals, calls⟩
      = some (.next ⟨.ofOption (rt.asked x name) :: .object x :: stack, locals,
          calls ++ [.genericCatch x name]⟩) := by
    simp [h, callStatic?]
  rw [exit?_instr hcall]
  cases rt.asked x name <;> rfl

theorem exec_mapper (h : p.method? i = some config.exceptionMapper) :
    exec config rt p (.invokeStatic i) ⟨.object x :: stack, locals, calls⟩
      = some (.next ⟨.object (rt.mapped x) :: stack, locals, calls ++ [.mapper x]⟩) := by
  simp [h, callStatic?]

theorem exec_factory {n : Int32} (h : p.method? i = some config.sentinelFactory) :
    exec config rt p (.invokeStatic i) ⟨.int n :: stack, locals, calls⟩
      = some (.next ⟨.object (rt.sentinel n) :: stack, locals, calls ++ [.factory n]⟩) := by
  simp [h, callStatic?]

theorem exec_accessor (h : p.method? i = some config.sentinelAccessor) :
    exec config rt p (.invokeVirtual i) ⟨.object x :: stack, locals, calls⟩
      = some (.next ⟨.int (rt.index x) :: stack, locals, calls ++ [.accessor x]⟩) := by
  simp [h, callVirtual?]

end Blocks

-- ==== assembly

section Assembly

variable {config : Config} {rt : Runtime Obj} {p : Pool} {asm : Assembly} {s t : State Obj}

theorem LeadsFrom.head {a b : Nat} {e : Exit Obj}
    (hstep : ReflTransGen (Goes config rt p asm.code) (a, s) (b, t))
    (h : LeadsFrom config rt p asm b t e) : LeadsFrom config rt p asm a s e := by
  cases e with
  | arrives label u =>
    obtain ⟨c, hlabel, hreach⟩ := h
    exact ⟨c, hlabel, hstep.trans hreach⟩
  | throws o calls =>
    obtain ⟨c, u, i, hreach, hthrow⟩ := h
    exact ⟨c, u, i, hstep.trans hreach, hthrow⟩

theorem LeadsTo.trans {label next : Label} {e : Exit Obj}
    (h : LeadsTo config rt p asm label s (.arrives next t))
    (hnext : LeadsTo config rt p asm next t e) : LeadsTo config rt p asm label s e := by
  obtain ⟨a, ha, b, hb, hreach⟩ := h
  obtain ⟨b', hb', hleads⟩ := hnext
  cases hb.symm.trans hb'
  exact ⟨a, ha, .head hreach hleads⟩

variable {items : List Item} {l : Layout}

variable {pre post : List Item} {i : Instr} {stack : List (Value Obj)} {label : Label}

private theorem goes_next (h : Assembled items l asm) (heq : items = pre ++ .instr i :: post)
    (hexec : exec config rt p i s = some (.next t)) :
    Goes config rt p asm.code (stop 0 pre, s) (stop 0 (pre ++ [.instr i]), t) := by
  refine ⟨i, h.lookup heq rfl, .inl ⟨hexec, ?_⟩⟩
  rw [stop_concat]
  rfl

/-- A branch does what its test says, whatever its offset. -/
theorem exec_redirect {taken : Bool} (htest : test? i s.stack = some (taken, stack)) (o : Int) :
    exec config rt p (i.redirect o) s = some
      (if taken then .jump o { s with stack } else .next { s with stack }) := by
  have hexec : ∀ j : Instr, test? j s.stack = test? i s.stack →
      (exec config rt p j s = (test? j s.stack).map fun r =>
        if r.1 then .jump o { s with stack := r.2 } else .next { s with stack := r.2 }) →
      exec config rt p j s = some
        (if taken then .jump o { s with stack } else .next { s with stack }) := by
    intro j hsame hj
    rw [hj, hsame, htest]
    rfl
  cases i with
  | goto _ => exact hexec (.goto o) rfl rfl
  | gotoW _ => exact hexec (.gotoW o) rfl rfl
  | ifZero way _ =>
    refine hexec (.ifZero way o) ?_ rfl
    rcases s.stack with _ | ⟨_ | _, _⟩ <;> rfl
  | ifNull null _ =>
    refine hexec (.ifNull null o) ?_ rfl
    rcases s.stack with _ | ⟨_, _⟩ <;> rfl
  | _ => cases htest

/-- A branch goes to its label or on, as its test says. -/
private theorem leadsFrom_branch (h : Assembled items l asm) {taken : Bool}
    (heq : items = pre ++ .branch i label :: post) (htest : test? i s.stack = some (taken, stack)) :
    if taken then LeadsFrom config rt p asm (stop 0 pre) s (.arrives label { s with stack })
    else Goes config rt p asm.code (stop 0 pre, s)
      (stop 0 (pre ++ [.branch i label]), { s with stack }) := by
  obtain ⟨j, hpatch⟩ := h.exists_instr heq rfl
  have hlookup := h.lookup heq hpatch
  have hsize := (patch_ok hpatch).1
  cases patched_of_patch hpatch with
  | @branch _ _ _ dest hdest hoffset =>
  obtain ⟨-, -, rfl⟩ := Instr.withOffset_eq_ok_iff.mp hoffset
  have hexec : exec config rt p (i.redirect (relative (stop 0 pre) dest)) s = _ :=
    exec_redirect htest _
  cases taken with
  | true =>
    exact ⟨dest, h.layout ▸ hdest,
      .single ⟨_, hlookup, .inr ⟨_, hexec, add_relative _ dest⟩⟩⟩
  | false =>
    refine ⟨_, hlookup, .inl ⟨hexec, ?_⟩⟩
    rw [stop_concat, hsize]

/-- The offset that a jump table has for a number is the one of the label it has. -/
theorem find_tableLabel {a fallback : Nat} {offsets : List Int} (low : Int)
    {targets : List Label} {default : Label}
    (hoffsets : List.Forall₂ (fun label (o : Int) => ∃ d, l.labels[label]? = some d ∧
      o = relative a d) targets offsets)
    (hdefault : l.labels[default]? = some fallback) (n : Int) :
    ∃ d, l.labels[tableLabel default low targets n]? = some d ∧
      Machine.tableOffset (relative a fallback) low offsets n = relative a d := by
  unfold tableLabel Machine.tableOffset
  split
  · exact ⟨fallback, hdefault, rfl⟩
  · rw [List.getD_eq_getElem?_getD, List.getD_eq_getElem?_getD]
    cases hget : targets[(n - low).toNat]? with
    | none =>
      have hnone : offsets[(n - low).toNat]? = none := by
        rw [List.getElem?_eq_none_iff] at hget ⊢
        rwa [← hoffsets.length_eq]
      rw [hnone]
      exact ⟨fallback, hdefault, rfl⟩
    | some label =>
      obtain ⟨o, ho, d, hd, rfl⟩ := forall₂_getElem?_left hoffsets hget
      rw [ho]
      exact ⟨d, hd, rfl⟩

private theorem leadsFrom_table (h : Assembled items l asm) {low : Int} {targets : List Label}
    {default : Label} {n : Int32} (heq : items = pre ++ .table low targets default :: post)
    (hstack : s.stack = .int n :: stack) :
    LeadsFrom config rt p asm (stop 0 pre) s
      (.arrives (tableLabel default low targets n.toInt) { s with stack }) := by
  obtain ⟨j, hpatch⟩ := h.exists_instr heq rfl
  have hlookup := h.lookup heq hpatch
  cases patched_of_patch hpatch with
  | table harms hdefault =>
  obtain ⟨d, hd, hoffset⟩ := find_tableLabel low harms hdefault n.toInt
  refine ⟨d, h.layout ▸ hd, .single ⟨_, hlookup, .inr ⟨_, ?_, add_relative _ d⟩⟩⟩
  rw [← hoffset]
  unfold exec
  rw [hstack]

/-- Assembled code leaves a block as the block says. -/
private theorem leadsFrom_of_exit {block wide : List Item} {e : Exit Obj}
    (h : Assembled (pre ++ (wide ++ post)) l asm) (hwide : List.Forall₂ Item.Widens block wide)
    (hexit : exit? config rt p block s = some e) :
    LeadsFrom config rt p asm (stop 0 pre) s e := by
  induction hwide generalizing pre s with
  | nil => cases hexit
  | @cons item w rest wideRest hone _ ih =>
    -- behind an item the same block goes on, with the item in front
    have hbehind : Assembled ((pre ++ [w]) ++ (wideRest ++ post)) l asm := by simpa using h
    have hplace : pre ++ ((w :: wideRest) ++ post) = pre ++ w :: (wideRest ++ post) := rfl
    cases item with
    | bind label =>
      cases hone
      cases hexit
      exact ⟨_, (h.labels label _).mpr ⟨pre, wideRest ++ post, hplace, rfl⟩, .refl⟩
    | instr i =>
      cases hone
      unfold exit? at hexit
      split at hexit
      · next t hexec => exact .head (.single (goes_next h hplace hexec)) (ih hbehind hexit)
      · next o hexec =>
        cases hexit
        exact ⟨_, s, i, .refl, h.lookup hplace rfl, hexec, rfl⟩
      · cases hexit
    | branch i label =>
      -- a wide jump makes the same test
      obtain ⟨j, rfl, hj⟩ : ∃ j, w = .branch j label ∧
          test? j s.stack = test? i s.stack := by
        cases hone with
        | same => exact ⟨i, rfl, rfl⟩
        | wide => exact ⟨.gotoW 0, rfl, rfl⟩
      unfold exit? at hexit
      rw [← hj] at hexit
      split at hexit
      · next htest =>
        cases hexit
        simpa using leadsFrom_branch h hplace htest
      · next htest =>
        refine .head (.single ?_) (ih hbehind hexit)
        exact leadsFrom_branch h hplace htest
      · cases hexit
    | table low targets default =>
      cases hone
      unfold exit? at hexit
      split at hexit
      · next hstack =>
        cases hexit
        exact leadsFrom_table h hplace hstack
      · cases hexit

/-- Assembled code goes from a label as the block behind it says. -/
theorem leads_of_exit {code : CodeBuffer} {front block back : List Item} {e : Exit Obj}
    (hasm : code.assemble = .ok asm) (hitems : code.items = front ++ (.bind label :: block ++ back))
    (hexit : exit? config rt p block s = some e) : LeadsTo config rt p asm label s e := by
  obtain ⟨items, l, hwide, hassembled⟩ := CodeBuffer.assemble_ok hasm
  rw [hitems] at hwide
  obtain ⟨wideFront, _, rfl, -, hwide⟩ := Machine.widens_append hwide
  obtain ⟨wide, wideBack, rfl, hblock, -⟩ := Machine.widens_append hwide
  cases hblock with
  | @cons _ _ _ wideBlock hone hblock =>
    cases hone
    refine ⟨stop 0 wideFront, (hassembled.labels _ _).mpr ⟨_, _, rfl, rfl⟩, ?_⟩
    have hbehind : Assembled ((wideFront ++ [.bind label]) ++ (wideBlock ++ wideBack)) l asm := by
      simpa using hassembled
    have hleads := leadsFrom_of_exit hbehind hblock hexit
    rwa [Machine.stop_bind] at hleads

/-- An execution that stops right behind a label leads nowhere else. -/
theorem eq_of_leads {code : CodeBuffer} {front back : List Item} {other next : Label}
    (hasm : code.assemble = .ok asm)
    (hitems : code.items = front ++ [.bind label, .bind other] ++ .instr i :: back)
    (hstuck : exec config rt p i s = none) (h : LeadsTo config rt p asm label s (.arrives next t)) :
    t = s := by
  obtain ⟨items, l, hwide, hassembled⟩ := CodeBuffer.assemble_ok hasm
  rw [hitems] at hwide
  obtain ⟨_, wideBack, rfl, hfront, hback⟩ := Machine.widens_append hwide
  obtain ⟨wideFront, binds, rfl, -, hbinds⟩ := Machine.widens_append hfront
  cases hbinds with
  | cons hone hbinds =>
  cases hone
  cases hbinds with
  | cons hone hbinds =>
  cases hone
  cases hbinds
  cases hback with
  | @cons _ _ _ rest hone _ =>
  cases hone
  obtain ⟨a, ha, b, -, hreach⟩ := h
  have hat : asm.labels[label]? = some (stop 0 wideFront) :=
    (hassembled.labels _ _).mpr ⟨wideFront, .bind other :: .instr i :: rest, by simp, rfl⟩
  cases ha.symm.trans hat
  have hplace : wideFront ++ [.bind label, .bind other] ++ .instr i :: rest
      = wideFront ++ [.bind label, .bind other] ++ .instr i :: rest := rfl
  have hlookup := hassembled.lookup hplace rfl
  rw [List.append_cons, Machine.stop_bind, Machine.stop_bind] at hlookup
  -- the first step of an execution would be the instruction
  rcases ReflTransGen.cases_head hreach with heq | ⟨c, hstep, -⟩
  · exact (Prod.mk.inj heq).2.symm
  · obtain ⟨j, hj, ⟨hexec, -⟩ | ⟨o, hexec, -⟩⟩ := hstep
    · cases hlookup.symm.trans hj
      cases hstuck.symm.trans hexec
    · cases hlookup.symm.trans hj
      cases hstuck.symm.trans hexec

end Assembly

end Objects

end BytecodeBridge
