/-
The frames of a method: the live one, and those recorded at labels.

A frame is recorded the first time a label is saved; later saves merge
into it. A label whose code is already emitted can still be changed by a
late save, when code further down branches back to it; `FrameStore.save`
reports that, so that the caller can repair what can be repaired.

Code that nothing reaches yet has no recorded frame. The frame it is
lowered against is put aside as a deferred frame of its label, and is
recorded when the label is saved after all, or at the end.
-/
import Std.Data.TreeSet
import BytecodeBridge.Frame

namespace BytecodeBridge

/-- What saving a frame at a label did. -/
inductive Saved where
  /-- the label had no frame -/
  | recorded
  | merged
  | unchanged
  /-- the frame of a label whose code is already emitted has changed -/
  | invalidated (locals : List Nat) (stack : Bool)
deriving DecidableEq, Repr

/-- The frame of a label, and whether the stack map lists it. -/
structure Recorded where
  frame : Frame
  emit : Bool
deriving DecidableEq, Inhabited

/-- A frame put aside for a label that nothing reaches yet. -/
structure Deferred where
  label : Label
  frame : Frame
deriving DecidableEq, Inhabited

/-- The frames of a method. -/
structure FrameStore where
  /-- the frame at the end of the code emitted so far -/
  live : Frame := {}
  recorded : LabelMap Recorded := {}
  /-- labels whose code is emitted -/
  bound : Std.TreeSet Label := {}
  /-- the oldest first -/
  deferred : List Deferred := []
  /-- the most stack slots in use so far -/
  maxStack : Nat := 0
deriving Inhabited

namespace FrameStore

/-- The store at the start of a method. -/
def start (initial : Frame) : FrameStore :=
  { live := initial }

-- ==== operand stack

/-- Accounts for `extra` slots above the live stack that instructions use
without the frame following them. -/
def noteDepth (s : FrameStore) (extra : Nat) : FrameStore :=
  { s with maxStack := max s.maxStack (s.live.depth + extra) }

def push (s : FrameStore) (ty : Ty) : Except Cause FrameStore :=
  if ty.isTop then throw (.internal .unsetPushed)
  else return { s with live := { s.live with stack := ty :: s.live.stack } }.noteDepth 0

def pop (s : FrameStore) : Except Cause (Ty × FrameStore) :=
  match s.live.stack with
  | t :: rest => return (t, { s with live := { s.live with stack := rest } })
  | [] => throw (.malformed .stackUnderflow)

def peek (s : FrameStore) : Except Cause Ty :=
  match s.live.stack with
  | t :: _ => return t
  | [] => throw (.malformed .stackUnderflow)

-- ==== locals

def local? (s : FrameStore) (slot : Nat) : Option Ty :=
  s.live.locals.get? slot

def setLocal (s : FrameStore) (slot : Nat) (ty : Ty) : FrameStore :=
  { s with live := s.live.storeLocal slot ty }

def clearLocal (s : FrameStore) (slot : Nat) : FrameStore :=
  { s with live := { s.live with locals := s.live.locals.erase slot } }

/-- Puts one type for another throughout the live frame. -/
def replace (s : FrameStore) (old new : Ty) : FrameStore :=
  { s with live := s.live.replace old new }

/-- Gives the slot a type wherever it is unset: in the live frame, in every
recorded one and in every deferred one. -/
def materialize (s : FrameStore) (slot : Nat) (ty : Ty) : FrameStore :=
  { s with
    live := s.live.fillLocal slot ty
    recorded := s.recorded.map fun _ r => { r with frame := r.frame.fillLocal slot ty }
    deferred := s.deferred.map fun d => { d with frame := d.frame.fillLocal slot ty } }

-- ==== labels

def has (s : FrameStore) (label : Label) : Bool :=
  s.recorded.contains label

def recorded? (s : FrameStore) (label : Label) : Option Frame :=
  s.recorded[label]?.map (·.frame)

/-- Makes the frame of a label the live one. -/
def load (s : FrameStore) (label : Label) : Except Cause FrameStore :=
  match s.recorded? label with
  | some frame => return { s with live := frame }
  | none => throw (.internal (.noFrame label))

/-- Notes that the code of a label is emitted. -/
def markBound (s : FrameStore) (label : Label) : FrameStore :=
  { s with bound := s.bound.insert label }

def isBound (s : FrameStore) (label : Label) : Bool :=
  s.bound.contains label

/-- Puts a frame aside for a label that nothing reaches yet. -/
def defer (s : FrameStore) (label : Label) (frame : Frame) : FrameStore :=
  { s with deferred := s.deferred ++ [⟨label, frame⟩] }

/-- Records the oldest frame put aside for a label that has no recorded frame:
its code was lowered against that frame. -/
def promote (s : FrameStore) (label : Label) : FrameStore :=
  if s.has label then s
  else
    match s.deferred.find? fun d => d.label == label with
    | some d =>
      { s with
        recorded := s.recorded.insert label ⟨d.frame, true⟩
        deferred := s.deferred.eraseP fun d => d.label == label }
    | none => s

/-- The slots whose type a changed frame no longer confirms. -/
def changedLocals (old new : Frame) : List Nat :=
  old.locals.entries.filterMap fun (slot, t) =>
    if new.locals.get? slot = some t then none else some slot

/-- Saves a frame at a label: records it if the label has none, and otherwise
merges it into the recorded one or, with `overwrite`, puts it in its place. The
store keeps what was done before a merge failed. -/
def save (s : FrameStore) (T : TypeTable) (label : Label) (frame : Frame)
    (emit overwrite : Bool) : FrameStore × Except Cause Saved :=
  let s := s.promote label
  match s.recorded[label]? with
  | none => ({ s with recorded := s.recorded.insert label ⟨frame, emit⟩ }, .ok .recorded)
  | some r =>
    let r := { r with emit := r.emit || emit }
    let s := { s with recorded := s.recorded.insert label r }
    match if overwrite then .ok frame else r.frame.merge T frame with
    | .error c => (s, .error (.malformed (.conflict c (some label))))
    | .ok updated =>
      if updated = r.frame then (s, .ok .unchanged)
      else
        let saved :=
          if s.isBound label then
            .invalidated (changedLocals r.frame updated) (updated.stack != r.frame.stack)
          else .merged
        ({ s with recorded := s.recorded.insert label { r with frame := updated } }, .ok saved)

/-- The types that saving a frame at a label makes. -/
def saveMakes (s : FrameStore) (T : TypeTable) (label : Label) (frame : Frame) : List Ty :=
  match (s.promote label).recorded[label]? with
  | some r => r.frame.mergeMakes T frame
  | none => []

-- ==== the end

/-- Records every frame put aside for a label that still has none, and counts
them. -/
def backfill (s : FrameStore) : FrameStore × Nat :=
  s.deferred.foldl
    (fun (s, n) d =>
      if s.has d.label then (s, n)
      else ({ s with recorded := s.recorded.insert d.label ⟨d.frame, true⟩ }, n + 1))
    ({ s with deferred := [] }, 0)

/-- Adds a frame at an address; frames at one address are merged. -/
def addAt (T : TypeTable) (out : Std.TreeMap Nat Frame) (addr : Nat) (frame : Frame) :
    Except Cause (Std.TreeMap Nat Frame) :=
  match out[addr]? with
  | none => return out.insert addr frame
  | some earlier =>
    match earlier.merge T frame with
    | .ok merged => return out.insert addr merged
    | .error c => throw (.malformed (.conflict c none))

/-- Adds the frame of a label at the label's address, if the stack map lists it. -/
def resolveOne (T : TypeTable) (labels : LabelMap Nat) (out : Std.TreeMap Nat Frame) :
    Label × Recorded → Except Cause (Std.TreeMap Nat Frame)
  | (label, r) =>
    if r.emit then
      match labels[label]? with
      | some addr => addAt T out addr r.frame
      | none => throw (.internal (.frameUnbound label))
    else return out

/-- The frames that the stack map lists, by address. -/
def resolve (s : FrameStore) (T : TypeTable) (labels : LabelMap Nat) :
    Except Cause (Std.TreeMap Nat Frame) :=
  s.recorded.toList.foldlM (resolveOne T labels) {}

/-- The types that adding the frame of a label makes. -/
def resolveOneMakes (T : TypeTable) (labels : LabelMap Nat) (out : Std.TreeMap Nat Frame) :
    Label × Recorded → List Ty
  | (label, r) =>
    match if r.emit then labels[label]?.bind (out[·]?) else none with
    | some earlier => earlier.mergeMakes T r.frame
    | none => []

/-- The types that adding the frames of labels makes, up to the first that does
not fit. -/
def resolveAllMakes (T : TypeTable) (labels : LabelMap Nat) (out : Std.TreeMap Nat Frame) :
    List (Label × Recorded) → List Ty
  | [] => []
  | entry :: rest =>
    resolveOneMakes T labels out entry ++
      match resolveOne T labels out entry with
      | .ok out => resolveAllMakes T labels out rest
      | .error _ => []

/-- The types that resolving the frames makes. -/
def resolveMakes (s : FrameStore) (T : TypeTable) (labels : LabelMap Nat) : List Ty :=
  resolveAllMakes T labels {} s.recorded.toList

end FrameStore

end BytecodeBridge
