/-
Stack-map entries say what their frames say.

The locals of an entry are listed without their slots. Whoever reads the
entry gives the first of them slot 0 and each next one the slot behind, or
the second behind if it takes two (`VType.at?`). What the list says is
therefore a matter of adding up widths, and a gap that is one slot too
long or too short would move everything behind it.

`Reads` says what a reader finds who starts at some slot: the type of each
set slot, `top` in the gaps, and nothing behind the last. If the locals of
a frame are separate, laying out the entries from any slot on gives a list
that is read so, and the walk goes on behind what the last entry takes.
-/
import BytecodeBridge.Proofs.Frame.Separation
import BytecodeBridge.Proofs.Pool.Decoding

namespace BytecodeBridge

-- ==== types of the verifier

namespace VType

/-- What a verifier's type says about a type, in a pool that names the classes. -/
inductive Describes (T : TypeTable) (p : Pool) : Ty → VType → Prop where
  | top : Describes T p .top .top
  | null : Describes T p .null .null
  | uninitThis : Describes T p .uninitThis .uninitThis
  | int {k : Prim} (h : k.numKind = .int) : Describes T p (.prim k) .integer
  | long {k : Prim} (h : k.numKind = .long) : Describes T p (.prim k) .long
  | float {k : Prim} (h : k.numKind = .float) : Describes T p (.prim k) .float
  | double {k : Prim} (h : k.numKind = .double) : Describes T p (.prim k) .double
  | object {t : Ty} {name : String} {i : Nat} (hnull : t ≠ .null) (hname : T.className t = .ok name)
      (hclass : p.class? i = some name) : Describes T p t (.object i)

variable {T : TypeTable} {p q : Pool} {t : Ty} {v : VType}

theorem Describes.mono (h : Describes T p t v) (hq : p.PartOf q) : Describes T q t v := by
  cases h with
  | top => exact .top
  | null => exact .null
  | uninitThis => exact .uninitThis
  | int h => exact .int h
  | long h => exact .long h
  | float h => exact .float h
  | double h => exact .double h
  | object hnull hname hclass => exact .object hnull hname (hq.class? hclass)

theorem Describes.category (h : Describes T p t v) : v.category = t.category := by
  cases h with
  | top | null | uninitThis => rfl
  | int h | long h | float h | double h => exact (congrArg NumKind.category h).symm
  | object _ hname _ =>
    cases t with
    | prim k => cases hname
    | _ => rfl

theorem serves_describes (T : TypeTable) (t : Ty) :
    Serves (ofTy T t) fun v q => Describes T q t v := by
  unfold ofTy
  split
  · exact .pure fun _ => .top
  · exact .pure fun _ => .null
  · exact .pure fun _ => .uninitThis
  · next k =>
    refine .pure fun _ => ?_
    cases hk : k.numKind with
    | int => exact .int hk
    | long => exact .long hk
    | float => exact .float hk
    | double => exact .double hk
  · next hnull _ _ =>
    have hname : Serves (liftM (T.className t) : PoolM String) fun name _ =>
        T.className t = .ok name :=
      ⟨.lift _, fun _ _ _ _ hrun => (state_lift_ok hrun).1⟩
    refine hname.bind fun name => (Pool.serves_class name).bind fun i => .pure ?_
    exact fun _ _ hpart hclass _ _ hname => .object hnull hname (hpart.class? hclass)

-- ==== reading a list

/-- The type that starts at a slot, if the list is laid out from slot 0. -/
def at? : List VType → Nat → Option VType
  | [], _ => none
  | v :: vs, slot =>
    if slot = 0 then some v
    else if slot < v.category then none
    else at? vs (slot - v.category)

theorem at?_cons_add (v : VType) (vs : List VType) (slot : Nat) :
    at? (v :: vs) (v.category + slot) = at? vs slot := by
  have hpos : 0 < v.category := by cases v <;> exact Nat.succ_pos _
  rw [at?, if_neg (by omega), if_neg (by omega), Nat.add_sub_cancel_left]

theorem at?_gap (n : Nat) (vs : List VType) (slot : Nat) :
    at? (List.replicate n .top ++ vs) slot
      = if slot < n then some .top else at? vs (slot - n) := by
  induction n generalizing slot with
  | zero => rfl
  | succ n ih =>
    cases slot with
    | zero => rfl
    | succ slot =>
      have hnext := at?_cons_add .top (List.replicate n .top ++ vs) slot
      rw [show VType.category .top = 1 from rfl, Nat.add_comm 1] at hnext
      rw [List.replicate_succ, List.cons_append, hnext, ih, Nat.add_sub_add_right]
      simp only [Nat.add_lt_add_iff_right]

end VType

-- ==== what a reader finds

namespace StackMapEntry

open VType (Describes at?)

variable {T : TypeTable}

/-- Reading a list from slot `next` on gives back the entries it was made of. -/
structure Reads (T : TypeTable) (p : Pool) (next : Nat) (entries : List (Nat × Ty))
    (vs : List VType) : Prop where
  set : ∀ e ∈ entries, ∃ v, at? vs (e.1 - next) = some v ∧ Describes T p e.2 v
  unset : ∀ k v, at? vs k = some v → (∀ e ∈ entries, e.1 ≠ next + k) → v = .top
  last : ∀ e ∈ entries.getLast?, next + (vs.map VType.category).sum = e.1 + e.2.category ∧
    ∃ v, vs.getLast? = some v ∧ Describes T p e.2 v
  none : entries = [] → vs = []

theorem reads_nil {p : Pool} {next : Nat} : Reads T p next [] [] :=
  ⟨nofun, nofun, nofun, fun _ => rfl⟩

/-- One entry more in front, after a gap. -/
theorem Reads.cons {p : Pool} {next slot : Nat} {t : Ty} {v : VType} {vs : List VType}
    {entries : List (Nat × Ty)} (h : Reads T p (slot + t.category) entries vs)
    (hv : Describes T p t v) (hnext : next ≤ slot)
    (habove : ∀ e ∈ entries, slot + t.category ≤ e.1) :
    Reads T p next ((slot, t) :: entries) (List.replicate (slot - next) .top ++ v :: vs) := by
  have hwidth := hv.category
  have hbehind : ∀ k, at? (v :: vs) (t.category + k) = at? vs k := by
    intro k
    rw [← hwidth]
    exact VType.at?_cons_add v vs k
  have hsum : next + ((List.replicate (slot - next) VType.top ++ v :: vs).map VType.category).sum
      = slot + t.category + (vs.map VType.category).sum := by
    rw [List.map_append, List.sum_append, List.map_replicate, List.sum_replicate_nat,
      List.map_cons, List.sum_cons, hwidth, show VType.category .top = 1 from rfl]
    omega
  refine ⟨?_, ?_, ?_, nofun⟩
  · intro e he
    rcases List.mem_cons.mp he with rfl | he
    · exact ⟨v, by rw [VType.at?_gap, if_neg (Nat.lt_irrefl _), Nat.sub_self]; rfl, hv⟩
    · obtain ⟨u, hu, hdescribes⟩ := h.set e he
      have hle := habove e he
      refine ⟨u, ?_, hdescribes⟩
      rw [VType.at?_gap, if_neg (by omega), ← hu, ← hbehind]
      congr 1
      omega
  · intro k u hu hunset
    rw [VType.at?_gap] at hu
    split at hu
    · cases hu
      rfl
    · -- behind the gap there is the entry itself, what it takes, and the rest
      have hslot : slot ≠ next + k := hunset _ (.head _)
      obtain ⟨k', hk⟩ : ∃ k', k = slot - next + k' := ⟨k - (slot - next), by omega⟩
      rw [hk, Nat.add_sub_cancel_left] at hu
      by_cases hinside : k' < t.category
      · rw [at?, if_neg (by omega), if_pos (hwidth ▸ hinside)] at hu
        cases hu
      · obtain ⟨k'', rfl⟩ := Nat.exists_eq_add_of_le (Nat.not_lt.mp hinside)
        rw [hbehind] at hu
        refine h.unset k'' u hu fun e he heq => hunset e (.tail _ he) ?_
        omega
  · intro e he
    rw [hsum]
    cases entries with
    | nil =>
      cases he
      rw [h.none rfl]
      exact ⟨rfl, v, by simp, hv⟩
    | cons d entries =>
      rw [List.getLast?_cons_cons] at he
      obtain ⟨hend, u, hu, hdescribes⟩ := h.last e he
      refine ⟨hend, u, ?_, hdescribes⟩
      rw [List.getLast?_append, List.getLast?_cons, hu]
      rfl

theorem Reads.mono {p q : Pool} {next : Nat} {entries : List (Nat × Ty)} {vs : List VType}
    (h : Reads T p next entries vs) (hq : p.PartOf q) : Reads T q next entries vs where
  set e he := (h.set e he).imp fun _ hv => ⟨hv.1, hv.2.mono hq⟩
  unset := h.unset
  last e he := ⟨(h.last e he).1, (h.last e he).2.imp fun _ hv => ⟨hv.1, hv.2.mono hq⟩⟩
  none := h.none

/-- Entries that keep out of each other's way are laid out so that they are read again. -/
theorem serves_reads {entries : List (Nat × Ty)} {next : Nat}
    (hseparate : entries.Pairwise fun a b => a.1 + a.2.category ≤ b.1)
    (hnext : ∀ e ∈ entries, next ≤ e.1) :
    Serves (layoutFrom T next entries) fun vs q => Reads T q next entries vs := by
  induction entries generalizing next with
  | nil => exact .pure fun _ => reads_nil
  | cons e entries ih =>
    obtain ⟨slot, t⟩ := e
    obtain ⟨hfirst, hrest⟩ := List.pairwise_cons.mp hseparate
    have hslot : next ≤ slot := hnext (slot, t) List.mem_cons_self
    unfold layoutFrom
    rw [if_neg (Nat.not_lt.mpr hslot)]
    refine (VType.serves_describes T t).bind fun v => (ih hrest hfirst).bind fun vs => .pure ?_
    exact fun _ _ hvs hreads _ hv hdescribes =>
      (hreads.mono hvs).cons (hdescribes.mono hv) hslot hfirst

end StackMapEntry

/-- In a frame whose locals are separate each entry ends before the next one starts. -/
theorem Frame.Separate.pairwise {frame : Frame} (h : frame.Separate) :
    frame.locals.entries.Pairwise fun a b => a.1 + a.2.category ≤ b.1 := by
  refine frame.locals.ascending.imp_of_mem ?_
  intro a b ha hb hlt
  have hle := Ty.category_le_two a.2
  by_cases htwo : a.2.category = 2
  · -- the upper half of the first is unset, so the second is not there
    have hunset := h a.1 a.2 (SlotMap.mem_entries.mp ha) htwo
    have hset := SlotMap.mem_entries.mp hb
    have hne : a.1 + 1 ≠ b.1 := by
      intro heq
      rw [heq, hset] at hunset
      cases hunset
    omega
  · omega

-- ==== entries of frames

/-- The first slot above those that the locals of an entry take. -/
def StackMapEntry.localsEnd (e : StackMapEntry) : Nat :=
  (e.locals.map VType.category).sum

/-- The highest set slot comes last. -/
theorem SlotMap.getLast?_of_highest {α : Type} {m : SlotMap α} {slot : Nat} {x : α}
    (hslot : m.get? slot = some x) (habove : ∀ k, slot < k → m.get? k = none) :
    m.entries.getLast? = some (slot, x) := by
  obtain ⟨pre, post, heq⟩ := List.append_of_mem (mem_entries.mpr hslot)
  cases post with
  | nil => rw [heq, List.getLast?_concat]
  | cons e post =>
    -- what comes after the slot would be a set slot above it
    have hmem : e ∈ m.entries := by simp [heq]
    have hlt : slot < e.1 := by
      have hascending := m.ascending
      rw [heq] at hascending
      exact List.rel_of_pairwise_cons (List.pairwise_append.mp hascending).2.1 (.head _)
    cases (habove e.1 hlt).symm.trans (mem_entries.mp hmem)

/-- Results along a list, each with what it is the result of. -/
theorem Serves.forall₂ {α β : Type} {f : α → PoolM β} {N : α → β → Pool → Prop}
    (hmono : ∀ a b {p q : Pool}, p.PartOf q → N a b p → N a b q) (h : ∀ a, Serves (f a) (N a))
    (l : List α) : Serves (l.mapM f) fun bs q => List.Forall₂ (N · · q) l bs := by
  induction l with
  | nil =>
    rw [List.mapM_nil]
    exact pure fun _ => .nil
  | cons a l ih =>
    rw [List.mapM_cons]
    refine (h a).bind fun b => ih.bind fun bs => pure ?_
    exact fun _ _ hq hbs _ hp hb => .cons (hmono a b hp hb) (hbs.imp fun c d => hmono c d hq)

namespace StackMapEntry

open VType (Describes at?)

/-- An entry loses nothing of its frame. Its types, laid out from slot 0, are those of the
set slots and `top` wherever else a type starts; the last of them is that of the highest
set slot, and none is listed if no slot is set; and its stack is that of the frame. -/
theorem entry_tells_frame {T : TypeTable} {p p' : Pool} {marks : List Nat} {offset : Nat}
    {frame : Frame} {e : StackMapEntry} (hframe : frame.Separate) (hp : Pool.Session p marks)
    (h : ofFrame T offset frame p = .ok e p') :
    e.offset = offset ∧
    (∀ slot t, frame.locals.get? slot = some t →
      ∃ v, at? e.locals slot = some v ∧ Describes T p' t v) ∧
    (∀ slot v, at? e.locals slot = some v → frame.locals.get? slot = none → v = .top) ∧
    (∀ slot t, frame.locals.get? slot = some t →
      (∀ above, slot < above → frame.locals.get? above = none) →
      e.localsEnd = slot + t.category ∧ ∃ v, e.locals.getLast? = some v ∧ Describes T p' t v) ∧
    ((∀ slot, frame.locals.get? slot = none) → e.locals = []) ∧
    List.Forall₂ (Describes T p') frame.stack.reverse e.stack := by
  have hlays : Serves (layoutFrom T 0 frame.locals.entries) fun vs q =>
      Reads T q 0 frame.locals.entries vs :=
    serves_reads hframe.pairwise fun e _ => Nat.zero_le e.1
  have hmaps : Serves (frame.stack.reverse.mapM (VType.ofTy T)) fun vs q =>
      List.Forall₂ (Describes T q) frame.stack.reverse vs :=
    .forall₂ (N := fun t v q => Describes T q t v) (fun _ _ _ _ hq hv => hv.mono hq)
      (VType.serves_describes T) _
  have hp := hp.formed.indexed
  unfold ofFrame at h
  dsimp only at h
  split at h
  · cases h
  obtain ⟨locals, p₁, hlocals, h⟩ := state_bind_ok h
  obtain ⟨stack, p₂, hstack, h⟩ := state_bind_ok h
  obtain ⟨rfl, rfl⟩ := state_pure_ok h
  have hp₁ := ((Pool.grows_of_ok hlays.growing hlocals).indexed hp).1
  have hpart := ((Pool.grows_of_ok hmaps.growing hstack).indexed hp₁).2
  have hreads := (hlays.serves p locals p₁ hp hlocals).mono hpart
  refine ⟨rfl, ?_, ?_, ?_, ?_, hmaps.serves p₁ stack p₂ hp₁ hstack⟩
  · exact fun slot t ht => hreads.set (slot, t) (SlotMap.mem_entries.mpr ht)
  · intro slot v hv hunset
    refine hreads.unset slot v hv fun d hd heq => ?_
    have hset := SlotMap.mem_entries.mp hd
    rw [heq, Nat.zero_add, hunset] at hset
    cases hset
  · intro slot t ht habove
    have hlast := hreads.last (slot, t) (SlotMap.getLast?_of_highest ht habove)
    rwa [Nat.zero_add] at hlast
  · intro hnone
    refine hreads.none (List.eq_nil_iff_forall_not_mem.mpr fun d hd => ?_)
    cases (hnone d.1).symm.trans (SlotMap.mem_entries.mp hd)

/-- A reference in slot 0, a wide number in slots 1 and 2, nothing in slot 3 and a number
in slot 4. -/
def gapped : Frame where
  stack := [.prim .int64]
  locals := .ofList [(0, .ref "Circle"), (1, .prim .int64), (4, .prim .int32)]

/-- The gap takes one `top`, and the wide number none. -/
theorem entry_tells_frame_gapped :
    gapped.Separate ∧ Pool.Session .empty [] ∧
    ∃ p', ofFrame (.ofConfig {}) 7 gapped .empty
        = .ok ⟨7, [.object 2, .long, .top, .integer], [.long]⟩ p' ∧
      (∃ v, at? [.object 2, .long, .top, .integer] 4 = some v ∧
        Describes (.ofConfig {}) p' (.prim .int32) v) ∧
      at? [.object 2, .long, .top, .integer] 3 = some .top := by
  have hframe : gapped.Separate := by decide
  have hrun : ∃ p', ofFrame (.ofConfig {}) 7 gapped .empty
      = .ok ⟨7, [.object 2, .long, .top, .integer], [.long]⟩ p' := ⟨_, by cbv⟩
  obtain ⟨p', hrun⟩ := hrun
  obtain ⟨-, hset, -⟩ := entry_tells_frame hframe .start hrun
  exact ⟨hframe, .start, p', hrun, hset 4 _ (by cbv), by cbv⟩

end StackMapEntry

end BytecodeBridge
