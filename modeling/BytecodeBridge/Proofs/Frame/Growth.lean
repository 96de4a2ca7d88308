/-
Frames over a table that has grown.

Merging frames, saving them at labels and laying them out for the stack map
ask the table of types for joins and names. A table that has grown answers
these as before, so all of it comes out the same (`Alike`). And what a merge
makes in addition are types that no table could lack (`Harmless`).
-/
import BytecodeBridge.Frame.StackMap
import BytecodeBridge.Frame.Store
import BytecodeBridge.Proofs.TypeTable.Growth

namespace BytecodeBridge

open TypeTable FrameStore

-- ==== the same answers

section Alike

variable {T T' : TypeTable} (h : Alike T T')
include h

private theorem mergeStack_alike (a b : List Ty) :
    Frame.mergeStack T' a b = Frame.mergeStack T a b := by
  induction a generalizing b with
  | nil => cases b <;> rfl
  | cons x xs ih =>
    cases b with
    | nil => rfl
    | cons y ys =>
      unfold Frame.mergeStack
      rw [ih, h.join]

/-- Merging asks only for joins. -/
theorem merge_alike (a b : Frame) : a.merge T' b = a.merge T b := by
  unfold Frame.merge Frame.mergeLocals
  rw [mergeStack_alike h, h.join]

theorem mergeMakes_alike (a b : Frame) : a.mergeMakes T' b = a.mergeMakes T b := by
  unfold Frame.mergeMakes
  rw [h.joinMakes]

/-- So does saving, which merges. -/
theorem save_alike (s : FrameStore) (label : Label) (frame : Frame) (emit overwrite : Bool) :
    s.save T' label frame emit overwrite = s.save T label frame emit overwrite := by
  unfold save
  simp only [merge_alike h]

theorem saveMakes_alike (s : FrameStore) (label : Label) (frame : Frame) :
    s.saveMakes T' label frame = s.saveMakes T label frame := by
  unfold saveMakes
  simp only [mergeMakes_alike h]

theorem resolveOne_alike (labels : LabelMap Nat) :
    resolveOne T' labels = resolveOne T labels := by
  funext out entry
  unfold resolveOne addAt
  simp only [merge_alike h]

/-- So does merging the frames at one address. -/
theorem resolve_alike (s : FrameStore) (labels : LabelMap Nat) :
    s.resolve T' labels = s.resolve T labels := by
  unfold resolve
  rw [resolveOne_alike h]

theorem resolveMakes_alike (s : FrameStore) (labels : LabelMap Nat) :
    s.resolveMakes T' labels = s.resolveMakes T labels := by
  have hall : ∀ (entries : List (Label × Recorded)) (out : Std.TreeMap Nat Frame),
      resolveAllMakes T' labels out entries
        = resolveAllMakes T labels out entries := by
    intro entries
    induction entries with
    | nil => intro out; rfl
    | cons entry rest ih =>
      intro out
      unfold resolveAllMakes resolveOneMakes
      simp only [mergeMakes_alike h, resolveOne_alike h, ih]
  exact hall _ _

/-- An entry of the stack map names its types alike. -/
theorem ofFrame_alike (offset : Nat) (frame : Frame) :
    StackMapEntry.ofFrame T' offset frame = StackMapEntry.ofFrame T offset frame := by
  have hty : VType.ofTy T' = VType.ofTy T := by
    funext t
    unfold VType.ofTy
    rw [h.className]
  have hlayout : ∀ (entries : List (Nat × Ty)) (next : Nat),
      StackMapEntry.layoutFrom T' next entries = StackMapEntry.layoutFrom T next entries := by
    intro entries
    induction entries with
    | nil => intro next; rfl
    | cons e entries ih =>
      intro next
      unfold StackMapEntry.layoutFrom
      simp only [ih, hty]
  unfold StackMapEntry.ofFrame
  rw [hlayout, hty]

end Alike

-- ==== what joins make

/-- A join makes no class. -/
theorem TypeTable.joinMakes_harmless (c : Config) (T : TypeTable) (a b : Ty) :
    ∀ t ∈ T.joinMakes a b, Harmless c t := by
  intro t ht
  unfold joinMakes at ht
  split at ht
  · cases List.mem_singleton.mp ht
    exact .inl (by simp [*])
  · cases List.mem_singleton.mp ht
    exact .inl (by simp [*])
  · cases List.mem_singleton.mp ht
    exact .inl (by simp [*])
  · cases ht

theorem Frame.mergeMakes_harmless (c : Config) (T : TypeTable) (a b : Frame) :
    ∀ t ∈ a.mergeMakes T b, Harmless c t := by
  intro t ht
  unfold mergeMakes at ht
  have hstack : ∀ {l : List (Ty × Ty)}, t ∈ l.flatMap (fun p => T.joinMakes p.1 p.2) →
      Harmless c t := by
    intro l hmem
    obtain ⟨p, -, hp⟩ := List.mem_flatMap.mp hmem
    exact joinMakes_harmless c T _ _ t hp
  split at ht
  · dsimp only at ht
    split at ht
    · rcases List.mem_append.mp ht with ht | ht
      · exact hstack ht
      · obtain ⟨⟨slot, x⟩, -, hx⟩ := List.mem_flatMap.mp ht
        split at hx
        · exact joinMakes_harmless c T _ _ t hx
        · cases hx
    · exact hstack ht
  · cases ht

theorem FrameStore.saveMakes_harmless (c : Config) (s : FrameStore) (T : TypeTable)
    (label : Label) (frame : Frame) : ∀ t ∈ s.saveMakes T label frame, Harmless c t := by
  intro t ht
  unfold saveMakes at ht
  split at ht
  · exact Frame.mergeMakes_harmless c T _ _ t ht
  · cases ht

theorem FrameStore.resolveMakes_harmless (c : Config) (s : FrameStore) (T : TypeTable)
    (labels : LabelMap Nat) : ∀ t ∈ s.resolveMakes T labels, Harmless c t := by
  have hall : ∀ (entries : List (Label × Recorded)) (out : Std.TreeMap Nat Frame),
      ∀ t ∈ resolveAllMakes T labels out entries, Harmless c t := by
    intro entries
    induction entries with
    | nil =>
      intro out t ht
      cases ht
    | cons entry rest ih =>
      intro out t ht
      obtain ⟨label, r⟩ := entry
      unfold resolveAllMakes resolveOneMakes at ht
      dsimp only at ht
      rcases List.mem_append.mp ht with ht | ht
      · split at ht
        · exact Frame.mergeMakes_harmless c T _ _ t ht
        · cases ht
      · split at ht
        · exact ih _ t ht
        · cases ht
  exact hall _ _

end BytecodeBridge
