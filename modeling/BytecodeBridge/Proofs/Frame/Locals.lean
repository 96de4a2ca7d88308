/-
One slot of a frame.

What the theory of a lowering says about locals it says slot by slot: which
type a frame has for the slot, and what each operation makes of it. A store
sets its own slot and may unset the neighbours, a fill sets its slot if it
is unset, and a merge keeps a slot that both sides set, with the join of
their types.
-/
import BytecodeBridge.Proofs.Run

namespace BytecodeBridge

namespace SlotMap

variable {α β : Type}

-- ==== entries

/-- The entries of a map are what looking up gives. -/
theorem mem_entries {m : SlotMap α} {k : Nat} {x : α} :
    (k, x) ∈ m.entries ↔ m.get? k = some x := by
  obtain ⟨l, hl⟩ := m
  show (k, x) ∈ l ↔ find? k l = some x
  induction l with
  | nil => simp [find?]
  | cons e rest ih =>
    obtain ⟨he, hrest⟩ := List.pairwise_cons.mp hl
    rw [List.mem_cons, ih hrest, find?]
    split
    · next heq =>
      -- no later entry has the slot of the first
      have hnone := find?_eq_none_of_lt he
      rw [heq] at hnone
      rw [hnone]
      subst heq
      constructor
      · rintro (h | h)
        · rw [← h]
        · cases h
      · rintro h
        cases h
        exact .inl rfl
    · next hne =>
      refine or_iff_right fun h => hne ?_
      rw [← h]

theorem get?_filterMap (m : SlotMap α) (f : Nat → α → Option β) (k : Nat) :
    (m.filterMap f).get? k = (m.get? k).bind (f k) := by
  refine Option.ext fun y => ?_
  rw [← mem_entries]
  show (k, y) ∈ m.entries.filterMap _ ↔ _
  simp only [List.mem_filterMap, Option.map_eq_some_iff, Option.bind_eq_some_iff, Prod.mk.injEq,
    ← mem_entries]
  constructor
  · rintro ⟨⟨k', x⟩, hx, y', hy, rfl, rfl⟩
    exact ⟨x, hx, hy⟩
  · rintro ⟨x, hx, hy⟩
    exact ⟨(k, x), hx, y, hy, rfl, rfl⟩

-- ==== stores

variable {locals : SlotMap Ty} {slot k : Nat} {ty t : Ty}

theorem get?_store_self : (locals.store slot ty).get? slot = some ty := by
  unfold store
  rw [get?_insert, if_pos rfl]

/-- A store sets no slot but its own. -/
theorem get?_of_store (h : (locals.store slot ty).get? k = some t) :
    k = slot ∧ t = ty ∨ locals.get? k = some t := by
  unfold store at h
  rw [get?_insert] at h
  have herase : ∀ (m : SlotMap Ty) {s : Nat}, (m.erase s).get? k = some t → m.get? k = some t := by
    intro m s h
    rw [get?_erase] at h
    split at h
    · cases h
    · exact h
  split at h
  · next heq =>
    cases h
    exact .inl ⟨heq.symm, rfl⟩
  · right
    split at h
    · have h := herase _ h
      split at h
      · exact herase _ h
      · exact h
    · split at h
      · exact herase _ h
      · exact h

theorem get?_of_fill (h : (locals.fill slot ty).get? k = some t) :
    k = slot ∧ t = ty ∨ locals.get? k = some t := by
  unfold fill at h
  split at h
  · exact .inr h
  · exact get?_of_store h

/-- A fill unsets nothing, unless it is a wide one and the slot above it is set. -/
theorem get?_fill_of_some (h : locals.get? k = some t) (hwide : ty.category = 2 → k ≠ slot + 1) :
    (locals.fill slot ty).get? k = some t := by
  unfold fill
  split
  · exact h
  · next hunset =>
    rw [Bool.or_eq_true, not_or] at hunset
    obtain ⟨hshadow, hcontains⟩ := hunset
    have hne : slot ≠ k := by
      rintro rfl
      exact hcontains (by rw [contains, h]; rfl)
    unfold store
    rw [if_neg hshadow, get?_insert, if_neg hne]
    split
    · next hcategory => rw [get?_erase, if_neg (Ne.symm (hwide hcategory)), h]
    · exact h

theorem contains_iff : locals.contains k = true ↔ ∃ t, locals.get? k = some t :=
  Option.isSome_iff_exists

theorem contains_map (f : Nat → Ty → Ty) : (locals.map f).contains k = locals.contains k := by
  rw [contains, get?_map, Option.isSome_map]
  rfl

theorem contains_of_erase (h : (locals.erase slot).contains k = true) :
    locals.contains k = true := by
  rw [contains, get?_erase] at h
  split at h
  · cases h
  · exact h

end SlotMap

-- ==== merges

namespace Frame

variable {T : TypeTable} {a b c : Frame}

/-- What two stacks merge into: entry by entry, the join of types of one width. -/
inductive StackMerge (T : TypeTable) : List Ty → List Ty → List Ty → Prop
  | nil : StackMerge T [] [] []
  | cons {x y : Ty} {xs ys rs : List Ty} (hwidth : x.category = y.category)
      (hrest : StackMerge T xs ys rs) : StackMerge T (x :: xs) (y :: ys) (T.join x y :: rs)

namespace StackMerge

variable {x y r : List Ty}

theorem of_ok (hlength : x.length = y.length) (h : mergeStack T x y = .ok r) :
    StackMerge T x y r := by
  induction x generalizing y r with
  | nil =>
    cases List.length_eq_zero_iff.mp hlength.symm
    cases h
    exact .nil
  | cons t x ih =>
    cases y with
    | nil => cases hlength
    | cons u y =>
      obtain ⟨rest, hrest, h⟩ := except_bind_ok h
      split at h
      · next hwidth =>
        cases except_pure_ok h
        exact .cons hwidth (ih (Nat.succ.inj hlength) hrest)
      · cases h

theorem ok (h : StackMerge T x y r) : mergeStack T x y = .ok r := by
  induction h with
  | nil => rfl
  | cons hwidth _ ih =>
    unfold mergeStack
    rw [ih]
    exact if_pos hwidth

theorem length (h : StackMerge T x y r) : r.length = x.length ∧ x.length = y.length := by
  induction h with
  | nil => exact ⟨rfl, rfl⟩
  | cons _ _ ih => exact ⟨congrArg Nat.succ ih.1, congrArg Nat.succ ih.2⟩

theorem head {t : Ty} {l : List Ty} (h : StackMerge T x y r) (hx : x = t :: l) :
    ∃ u rest, r = T.join t u :: rest := by
  cases h with
  | nil => cases hx
  | cons =>
    cases hx
    exact ⟨_, _, rfl⟩

end StackMerge

theorem merge_eq_ok_iff : a.merge T b = .ok c ↔
    StackMerge T a.stack b.stack c.stack ∧ mergeLocals T a.locals b.locals = c.locals := by
  unfold merge
  constructor
  · intro h
    split at h
    · next hlength =>
      obtain ⟨stack, hstack, h⟩ := except_bind_ok h
      cases h
      exact ⟨.of_ok hlength hstack, rfl⟩
    · cases h
  · rintro ⟨hstack, hlocals⟩
    rw [if_pos hstack.length.2, hstack.ok, hlocals]
    rfl

/-- The stack keeps its height in a merge, and a slot survives with the join of its
types, if they have one. -/
theorem merge_ok (h : a.merge T b = .ok c) :
    c.stack.length = a.stack.length ∧
      ∀ {k t}, c.locals.get? k = some t ↔ ∃ x y, a.locals.get? k = some x ∧
        b.locals.get? k = some y ∧ T.join x y = t ∧ (T.join x y).isTop = false := by
  obtain ⟨hstack, hlocals⟩ := merge_eq_ok_iff.mp h
  refine ⟨hstack.length.1, fun {k t} => ?_⟩
  rw [← hlocals]
  unfold mergeLocals
  rw [SlotMap.get?_filterMap, Option.bind_eq_some_iff]
  constructor
  · rintro ⟨x, hx, h⟩
    split at h
    · next y hy =>
      split at h
      · cases h
      · next htop =>
        cases h
        exact ⟨x, y, hx, hy, rfl, Bool.eq_false_iff.mpr htop⟩
    · cases h
  · rintro ⟨x, y, hx, hy, rfl, htop⟩
    refine ⟨x, hx, ?_⟩
    rw [hy]
    dsimp only
    rw [htop]
    rfl

/-- A frame without unset values merges with itself into itself. -/
theorem merge_self (T : TypeTable) {frame : Frame}
    (h : ∀ k t, frame.locals.get? k = some t → t.isTop = false) :
    frame.merge T frame = .ok frame := by
  have hjoin : ∀ t, T.join t t = t := fun t => if_pos rfl
  have hstack : ∀ l : List Ty, StackMerge T l l l := by
    intro l
    induction l with
    | nil => exact .nil
    | cons t l ih => simpa only [hjoin] using StackMerge.cons (x := t) rfl ih
  refine merge_eq_ok_iff.mpr ⟨hstack _, SlotMap.ext fun k => ?_⟩
  unfold mergeLocals
  rw [SlotMap.get?_filterMap]
  cases hk : frame.locals.get? k with
  | none => rfl
  | some t =>
    simp only [Option.bind_some, hjoin, h k t hk]
    rfl

end Frame

theorem FrameStore.mem_changedLocals {old new : Frame} {slot : Nat} :
    slot ∈ changedLocals old new ↔
      ∃ t, old.locals.get? slot = some t ∧ new.locals.get? slot ≠ some t := by
  unfold changedLocals
  rw [List.mem_filterMap]
  constructor
  · rintro ⟨⟨k, t⟩, hmem, h⟩
    dsimp only at h
    split at h
    · cases h
    · next hne =>
      cases h
      exact ⟨t, SlotMap.mem_entries.mp hmem, hne⟩
  · rintro ⟨t, ht, hne⟩
    refine ⟨(slot, t), SlotMap.mem_entries.mpr ht, ?_⟩
    dsimp only
    rw [if_neg hne]

-- ==== widths

theorem slotsOf_cons (t : Ty) (types : List Ty) :
    slotsOf (t :: types) = t.category + slotsOf types := by
  have hfrom : ∀ (l : List Ty) (n : Nat),
      l.foldl (fun n t => n + t.category) n = n + l.foldl (fun n t => n + t.category) 0 := by
    intro l
    induction l with
    | nil => intro n; rfl
    | cons t l ih =>
      intro n
      rw [List.foldl_cons, List.foldl_cons, ih, ih (0 + t.category)]
      omega
  unfold slotsOf
  rw [List.foldl_cons, hfrom]
  omega

theorem slotsOf_append (a b : List Ty) : slotsOf (a ++ b) = slotsOf a + slotsOf b := by
  induction a with
  | nil => exact (Nat.zero_add _).symm
  | cons t a ih => rw [List.cons_append, slotsOf_cons, slotsOf_cons, ih, Nat.add_assoc]

/-- Types lie above those before them. -/
theorem slotsOf_take_add_le {types : List Ty} {j k : Nat} {t : Ty} (ht : types[j]? = some t)
    (hlt : j < k) : slotsOf (types.take j) + t.category ≤ slotsOf (types.take k) := by
  obtain ⟨hj, rfl⟩ := List.getElem?_eq_some_iff.mp ht
  have hsplit := List.take_append_drop (j + 1) (types.take k)
  rw [List.take_take, Nat.min_eq_left hlt, List.take_succ_eq_append_getElem hj] at hsplit
  rw [← hsplit, slotsOf_append, slotsOf_append, slotsOf_cons]
  omega

end BytecodeBridge
