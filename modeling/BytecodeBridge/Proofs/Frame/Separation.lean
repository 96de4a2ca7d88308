/-
No local lies in the upper half of a wide one.

A wide local takes its slot and the one above, but a frame has an entry for
the lower slot only, so nothing in its form keeps the upper one free. Each
operation that writes a slot sees to it in its own way: a store takes back
what it overwrites on either side, filling a slot leaves a shadowed one
alone, and a merge unsets a slot that one side does not have. Frames whose
locals keep out of each other's way are called separate.

A merge puts a join in the place of two types, and there the property can
be lost: with a wide number declared as the supertype of two classes, a
local of one slot becomes one of two, and the slot above may be set. As
long as no declared supertype is wide (`Slim`), every use of a store keeps
all of its frames separate.
-/
import BytecodeBridge.Proofs.Evaluation
import BytecodeBridge.Proofs.Frame.Locals
import BytecodeBridge.Proofs.Frame.Store
import BytecodeBridge.Proofs.TypeTable.Join

namespace BytecodeBridge

-- ==== locals

namespace SlotMap

/-- The slot above a wide local is unset. -/
def Separate (locals : SlotMap Ty) : Prop :=
  ∀ slot t, locals.get? slot = some t → t.category = 2 → locals.get? (slot + 1) = none

variable {locals : SlotMap Ty} {slot k : Nat} {ty t : Ty}

theorem separate_iff : locals.Separate ↔
    ∀ e ∈ locals.entries, e.2.category = 2 → locals.get? (e.1 + 1) = none :=
  ⟨fun h e he => h e.1 e.2 (mem_entries.mp he), fun h k t hk => h (k, t) (mem_entries.mpr hk)⟩

instance : Decidable locals.Separate :=
  decidable_of_iff _ separate_iff.symm

/-- A store into the upper half of a wide local unsets the local. -/
theorem get?_store_below (h : locals.get? k = some t) (hwide : t.category = 2) :
    (locals.store (k + 1) ty).get? k = none := by
  have hshadowed : locals.shadowed (k + 1) = true := by
    simp [shadowed, h, hwide]
  have herased : (locals.erase k).get? k = none := by rw [get?_erase, if_pos rfl]
  unfold store
  rw [if_pos hshadowed, Nat.add_sub_cancel, get?_insert,
    if_neg (Nat.ne_of_gt (Nat.lt_succ_self k))]
  split
  · rw [get?_erase, herased]
    exact ite_self none
  · exact herased

namespace Separate

theorem store (h : locals.Separate) (slot : Nat) (ty : Ty) : (locals.store slot ty).Separate := by
  intro k t hk hwide
  rcases get?_of_store hk with ⟨rfl, rfl⟩ | hold
  · -- a store of a wide value unsets the slot above
    rw [SlotMap.store, get?_insert, if_neg (Nat.ne_of_lt (Nat.lt_succ_self k)), if_pos hwide,
      get?_erase, if_pos rfl]
  · by_cases hbelow : k + 1 = slot
    · subst hbelow
      rw [get?_store_below hold hwide] at hk
      cases hk
    · -- the slot above was unset, and the store is elsewhere
      cases habove : (locals.store slot ty).get? (k + 1) with
      | none => rfl
      | some u =>
        rcases get?_of_store habove with ⟨heq, -⟩ | hset
        · exact absurd heq hbelow
        · rw [h k t hold hwide] at hset
          cases hset

theorem fill (h : locals.Separate) (slot : Nat) (ty : Ty) : (locals.fill slot ty).Separate := by
  unfold SlotMap.fill
  split
  · exact h
  · exact h.store slot ty

theorem erase (h : locals.Separate) (slot : Nat) : (locals.erase slot).Separate := by
  intro k t hk hwide
  rw [get?_erase] at hk ⊢
  split at hk
  · cases hk
  · rw [h k t hk hwide]
    exact ite_self none

theorem map (h : locals.Separate) {f : Nat → Ty → Ty}
    (hf : ∀ slot t, (f slot t).category = t.category) : (locals.map f).Separate := by
  intro k t hk hwide
  rw [get?_map] at hk ⊢
  obtain ⟨u, hu, rfl⟩ := Option.map_eq_some_iff.mp hk
  rw [h k u hu ((hf k u).symm.trans hwide)]
  rfl

end Separate

end SlotMap

-- ==== frames

namespace Frame

/-- No local of the frame lies in the upper half of a wide one. -/
def Separate (f : Frame) : Prop :=
  f.locals.Separate

instance (f : Frame) : Decidable f.Separate :=
  inferInstanceAs (Decidable f.locals.Separate)

variable {T : TypeTable} {a b c f : Frame}

theorem Separate.replace (h : f.Separate) {old new : Ty} (hwidth : old.category = new.category) :
    (f.replace old new).Separate := by
  refine .map h fun _ t => ?_
  dsimp only
  split
  · next heq => rw [heq, hwidth]
  · rfl

/-- A wide join joins wide types, and above these the slot is unset on both sides. -/
theorem Separate.merge (hT : T.Slim) (ha : a.Separate) (h : a.merge T b = .ok c) :
    c.Separate := by
  intro k t hk hwide
  obtain ⟨x, y, hx, -, rfl, -⟩ := (merge_ok h).2.mp hk
  have hle := TypeTable.category_join_le hT x y
  have hmax := Ty.category_le_two x
  have hunset := ha k x hx (by omega)
  cases habove : c.locals.get? (k + 1) with
  | none => rfl
  | some u =>
    obtain ⟨x', y', hx', -⟩ := (merge_ok h).2.mp habove
    rw [hunset] at hx'
    cases hx'

end Frame

namespace FrameStore

-- ==== stores

/-- All frames of a store are separate. -/
structure Separate (s : FrameStore) : Prop where
  live : s.live.Separate
  recorded : ∀ label f, s.recorded? label = some f → f.Separate
  deferred : ∀ d ∈ s.deferred, d.frame.Separate

/-- One use of a store. Frames come in that are live or separate anyway, a type is put for
another of its width, and where frames are merged no declared supertype is wide. -/
inductive Uses : FrameStore → FrameStore → Prop where
  | push {s s' : FrameStore} {ty : Ty} (h : s.push ty = .ok s') : Uses s s'
  | pop {s s' : FrameStore} {ty : Ty} (h : s.pop = .ok (ty, s')) : Uses s s'
  | noteDepth (s : FrameStore) (extra : Nat) : Uses s (s.noteDepth extra)
  | setLocal (s : FrameStore) (slot : Nat) (ty : Ty) : Uses s (s.setLocal slot ty)
  | clearLocal (s : FrameStore) (slot : Nat) : Uses s (s.clearLocal slot)
  | replace (s : FrameStore) {old new : Ty} (h : old.category = new.category) :
      Uses s (s.replace old new)
  | materialize (s : FrameStore) (slot : Nat) (ty : Ty) : Uses s (s.materialize slot ty)
  | load {s s' : FrameStore} {label : Label} (h : s.load label = .ok s') : Uses s s'
  | markBound (s : FrameStore) (label : Label) : Uses s (s.markBound label)
  | defer {s : FrameStore} (label : Label) {frame : Frame}
      (h : frame = s.live ∨ frame.Separate) : Uses s (s.defer label frame)
  | backfill (s : FrameStore) : Uses s s.backfill.1
  /-- whether or not the frames can be merged -/
  | save {s : FrameStore} {T : TypeTable} (label : Label) {frame : Frame} (emit : Bool)
      {overwrite : Bool} (hT : overwrite = false → T.Slim)
      (h : frame = s.live ∨ frame.Separate) : Uses s (s.save T label frame emit overwrite).1

namespace Separate

variable {s s' : FrameStore} {label : Label} {frame : Frame}

theorem start (h : frame.Separate) : (FrameStore.start frame).Separate := by
  refine ⟨h, fun label f hf => ?_, by simp [FrameStore.start]⟩
  simp [FrameStore.start, recorded?] at hf

theorem of_live (h : s.Separate) (hlive : s'.live.Separate)
    (hrecorded : s'.recorded = s.recorded) (hdeferred : s'.deferred = s.deferred) :
    s'.Separate := by
  refine ⟨hlive, fun label f hf => h.recorded label f ?_, hdeferred ▸ h.deferred⟩
  unfold recorded? at hf ⊢
  rwa [← hrecorded]

/-- A frame is recorded for a label, and frames that were put aside may go. -/
theorem of_records {r : Recorded} (h : s.Separate) (hr : r.frame.Separate)
    (hrecords : Records label r s s') (hdeferred : s'.deferred ⊆ s.deferred) :
    s'.Separate := by
  refine ⟨hrecords.live ▸ h.live, fun l f hf => ?_, fun d hd => h.deferred d (hdeferred hd)⟩
  unfold recorded? at hf
  rw [hrecords.recorded] at hf
  split at hf
  · cases hf
    exact hr
  · exact h.recorded l f hf

theorem insert (h : s.Separate) (hframe : frame.Separate) (label : Label) (emit : Bool) :
    Separate { s with recorded := s.recorded.insert label ⟨frame, emit⟩ } :=
  h.of_records (r := ⟨frame, emit⟩) hframe (records_insert s label _) (List.Subset.refl _)

theorem frameOf (h : s.Separate) (hframe : s.frameOf label = some frame) : frame.Separate := by
  unfold FrameStore.frameOf at hframe
  split at hframe
  · next r hr =>
    cases hframe
    exact h.recorded label r.frame (by rw [recorded?, hr]; rfl)
  · obtain ⟨d, hd, rfl⟩ := Option.map_eq_some_iff.mp hframe
    exact h.deferred d (List.mem_of_find?_eq_some hd)

theorem promote (h : s.Separate) (label : Label) : (s.promote label).Separate := by
  have hsubset : (s.promote label).deferred ⊆ s.deferred := by
    unfold FrameStore.promote
    split
    · exact List.Subset.refl _
    · split
      · exact List.eraseP_subset
      · exact List.Subset.refl _
  rcases promote_cases s label with ⟨heq, -⟩ | ⟨f, hf, hrecords⟩
  · rwa [heq]
  · exact h.of_records (h.frameOf hf) hrecords hsubset

theorem save {T : TypeTable} {emit overwrite : Bool} (h : s.Separate)
    (hT : overwrite = false → T.Slim) (hframe : frame.Separate) :
    (s.save T label frame emit overwrite).1.Separate := by
  have hpromoted := h.promote label
  unfold FrameStore.save
  dsimp only
  split
  · exact hpromoted.insert hframe label emit
  · next r hr =>
    have hold : r.frame.Separate :=
      hpromoted.recorded label r.frame (by rw [recorded?, hr]; rfl)
    have hmarked := hpromoted.insert hold label (r.emit || emit)
    split
    · exact hmarked
    · next updated hupdated =>
      have hnew : updated.Separate := by
        cases overwrite with
        | true =>
          cases hupdated
          exact hframe
        | false => exact hold.merge (hT rfl) hupdated
      split
      · exact hmarked
      · exact hmarked.insert hnew label (r.emit || emit)

theorem materialize (h : s.Separate) (slot : Nat) (ty : Ty) :
    (s.materialize slot ty).Separate := by
  refine ⟨.fill h.live slot ty, fun l f hf => ?_, fun d hd => ?_⟩
  · unfold recorded? FrameStore.materialize at hf
    rw [Std.TreeMap.getElem?_map, Option.map_map] at hf
    obtain ⟨r, hr, rfl⟩ := Option.map_eq_some_iff.mp hf
    have hold := h.recorded l r.frame (by rw [recorded?, hr]; rfl)
    exact .fill hold slot ty
  · obtain ⟨d', hd', rfl⟩ := List.mem_map.mp hd
    exact .fill (h.deferred d' hd') slot ty

theorem backfill (h : s.Separate) : s.backfill.1.Separate := by
  obtain ⟨recorded, heq⟩ := exists_backfill_eq s
  refine ⟨live_backfill s ▸ h.live, fun l f hf => ?_, ?_⟩
  · rw [recorded?_backfill] at hf
    exact h.frameOf hf
  · rw [heq]
    exact nofun

/-- Every use of a store keeps its frames separate. -/
theorem uses (h : s.Separate) (huses : Uses s s') : s'.Separate := by
  cases huses with
  | push hpush =>
    obtain ⟨-, rfl⟩ := push_ok hpush
    exact h.of_live h.live rfl rfl
  | pop hpop =>
    obtain ⟨_, -, rfl⟩ := pop_ok hpop
    exact h.of_live h.live rfl rfl
  | noteDepth extra => exact h.of_live h.live rfl rfl
  | setLocal slot ty => exact h.of_live (.store h.live slot ty) rfl rfl
  | clearLocal slot => exact h.of_live (.erase h.live slot) rfl rfl
  | replace hwidth => exact h.of_live (h.live.replace hwidth) rfl rfl
  | materialize slot ty => exact h.materialize slot ty
  | load hload =>
    unfold FrameStore.load at hload
    split at hload
    · next f hf =>
      cases hload
      exact h.of_live (h.recorded _ f hf) rfl rfl
    · cases hload
  | markBound label => exact h.of_live h.live rfl rfl
  | defer label hframe =>
    refine ⟨h.live, h.recorded, List.forall_mem_append.mpr ⟨h.deferred, ?_⟩⟩
    exact List.forall_mem_singleton.mpr (hframe.elim (· ▸ h.live) id)
  | backfill => exact h.backfill
  | save label emit hT hframe => exact h.save hT (hframe.elim (· ▸ h.live) id)

theorem steps (h : s.Separate) (huses : Relation.ReflTransGen Uses s s') : s'.Separate := by
  induction huses with
  | refl => exact h
  | tail _ hlast ih => exact ih.uses hlast

end Separate

open Relation (ReflTransGen)

/-- However a store is used from a separate frame on, its live frame, the recorded ones and
those put aside stay separate. In tables where no declared supertype is wide, so are the
frames that the stack map lists, and what separate frames are merged into. -/
theorem separate_of_uses {initial : Frame} {s : FrameStore} (hinitial : initial.Separate)
    (h : ReflTransGen Uses (.start initial) s) :
    s.live.Separate ∧ (∀ label f, s.recorded? label = some f → f.Separate) ∧
      (∀ d ∈ s.deferred, d.frame.Separate) ∧
      ∀ T : TypeTable, T.Slim →
        (∀ labels frames, s.resolve T labels = .ok frames → ∀ e ∈ frames.toList, e.2.Separate) ∧
        ∀ a b m : Frame, a.Separate → b.Separate → a.merge T b = .ok m → m.Separate := by
  have hs := (Separate.start hinitial).steps h
  have hmerge : ∀ T : TypeTable, T.Slim → ∀ a b m : Frame, a.Separate → b.Separate →
      a.merge T b = .ok m → m.Separate := fun T hT a b m ha _ hm => ha.merge hT hm
  refine ⟨hs.live, hs.recorded, hs.deferred, fun T hT => ⟨fun labels frames hframes => ?_,
    hmerge T hT⟩⟩
  exact resolve_keeps (hmerge T hT) hs.recorded hframes

/-- Records an object in slot 1 and puts a number in slots 0 and 1 aside, and then fills
slot 0 with another wide number. -/
def fillsWide : FrameStore :=
  let s := (FrameStore.start {}).setLocal 1 (.ref "Circle")
  let s := (s.save (.ofConfig {}) (.source 2) s.live true false).1
  let s := (s.clearLocal 1).setLocal 0 (.prim .int64)
  (s.defer (.source 3) s.live).materialize 0 (.prim .float64)

/-- Where the object was, the number reaches into its slot, and the object is unset. -/
theorem separate_of_uses_fillsWide :
    ReflTransGen Uses (.start {}) fillsWide ∧
      fillsWide.recorded? (.source 2) = some { locals := .ofList [(0, .prim .float64)] } ∧
      fillsWide.deferred = [⟨.source 3, { locals := .ofList [(0, .prim .int64)] }⟩] ∧
      (∀ label f, fillsWide.recorded? label = some f → f.Separate) ∧
      ∀ d ∈ fillsWide.deferred, d.frame.Separate := by
  have hslim : (TypeTable.ofConfig {}).Slim := TypeTable.slim_of_classes (by decide)
  have huses : ReflTransGen Uses (.start {}) fillsWide :=
    .tail (.tail (.tail (.tail (.tail (.single (.setLocal _ _ _))
      (.save _ _ (fun _ => hslim) (.inl rfl))) (.clearLocal _ _)) (.setLocal _ _ _))
      (.defer _ (.inl rfl))) (.materialize _ _ _)
  obtain ⟨-, hrecorded, hdeferred, -⟩ := separate_of_uses (by decide) huses
  exact ⟨huses, by cbv, by cbv, hrecorded, hdeferred⟩

/-- Two classes below a number that takes two slots. -/
def belowLong : TypeTable :=
  ((TypeTable.ofConfig {}).declareClass "A" (some (.prim .int64)) []).declareClass "B"
    (some (.prim .int64)) []

/-- Where two classes have a wide number above both, an object of one and an object of the
other are merged into it, and the local above lies in its upper half. -/
theorem merge_overlaps_belowLong :
    let a : Frame := { locals := .ofList [(0, .ref "A"), (1, .prim .int32)] }
    let b : Frame := { locals := .ofList [(0, .ref "B"), (1, .prim .int32)] }
    let m : Frame := { locals := .ofList [(0, .prim .int64), (1, .prim .int32)] }
    a.Separate ∧ b.Separate ∧ a.merge belowLong b = .ok m ∧ ¬ m.Separate := by
  refine ⟨by decide, by decide, by cbv, by decide⟩

end FrameStore

end BytecodeBridge
