/-
The layout of the local slots.

A method's slots are laid out once: arguments, then variables, then what
exception handling keeps for itself, each right above the one before. From
then on only temporaries come and go, and they stay above the layout. What
the theory of frames needs of this is that slots never get into each
other's way: a wide slot is followed by no other declared slot, and no
temporary ever lies on a declared slot. `Slots.Fits` says so for a base,
the first slot above the layout, and every operation on slots keeps it.
-/
import BytecodeBridge.Proofs.Run

namespace BytecodeBridge

namespace Slots

variable {s s' : Slots} {slot : Nat} {d : Declared}

-- ==== the layout

/-- Everything declared lies below the base, no two declared slots overlap, and
temporaries lie above. -/
structure Fits (base : Nat) (s : Slots) : Prop where
  below : ∀ {slot d}, s.declared? slot = some d → slot + d.ty.category ≤ base
  apart : ∀ {slot slot' d d'}, s.declared? slot = some d → s.declared? slot' = some d' →
    slot < slot' → slot + d.ty.category ≤ slot'
  next : base ≤ s.next
  temps : ∀ t ∈ s.temps, base ≤ t.slot
  parked : ∀ t ∈ s.parked, base ≤ t.slot

/-- The slots declared before keep their meaning. -/
def Grows (s s' : Slots) : Prop :=
  ∀ slot d, s.declared? slot = some d → s'.declared? slot = some d

theorem Grows.refl (s : Slots) : s.Grows s :=
  fun _ _ h => h

theorem Grows.trans {a b c : Slots} (hab : a.Grows b) (hbc : b.Grows c) : a.Grows c :=
  fun slot d h => hbc slot d (hab slot d h)

theorem declared?_congr (h : s'.declared = s.declared) (slot : Nat) :
    s'.declared? slot = s.declared? slot := by
  unfold declared?
  rw [h]

theorem isVariable_congr (h : s'.declared = s.declared) (slot : Nat) :
    s'.isVariable slot = s.isVariable slot := by
  unfold isVariable declared?
  rw [h]

theorem declaredType?_congr (h : s'.declared = s.declared) (slot : Nat) :
    s'.declaredType? slot = s.declaredType? slot := by
  unfold declaredType? declared?
  rw [h]

theorem fits_empty : ({} : Slots).Fits 0 := by
  refine ⟨fun h => ?_, fun h => ?_, Nat.le_refl 0, by simp, by simp⟩
  · unfold declared? at h
    rw [Std.TreeMap.getElem?_emptyc] at h
    cases h
  · unfold declared? at h
    rw [Std.TreeMap.getElem?_emptyc] at h
    cases h

private theorem declared?_insert (s : Slots) (slot other : Nat) (d : Declared) :
    ({ s with declared := s.declared.insert slot d } : Slots).declared? other
      = if slot = other then some d else s.declared? other := by
  unfold declared?
  rw [Std.TreeMap.getElem?_insert]
  simp

-- ==== declaring

theorem extend_ok {category : Nat} (h : extend category s = .ok slot s') :
    s.next + category ≤ limit ∧ slot = s.next ∧
      s' = { s with next := s.next + category, high := max s.high (s.next + category) } := by
  unfold extend at h
  dsimp only at h
  split at h
  · cases h
  · next hroom =>
    cases h
    exact ⟨Nat.not_lt.mp hroom, rfl, rfl⟩

/-- A declared slot is the next one, and there are no temporaries yet. -/
theorem declare_ok (h : declare d s = .ok slot s') :
    s.temps = [] ∧ s.parked = [] ∧ slot = s.next ∧
      s' = { s with
        next := s.next + d.ty.category
        high := max s.high (s.next + d.ty.category)
        declared := s.declared.insert s.next d } := by
  unfold declare at h
  obtain ⟨_, _, hget, h⟩ := state_bind_ok h
  cases hget
  split at h
  · next hempty =>
    rw [Bool.and_eq_true, List.isEmpty_iff, List.isEmpty_iff] at hempty
    obtain ⟨_, _, hextend, h⟩ := state_bind_ok h
    obtain ⟨-, rfl, rfl⟩ := extend_ok hextend
    cases h
    exact ⟨hempty.1, hempty.2, rfl, rfl⟩
  · cases h

/-- Declaring a slot keeps the layout, and what was declared before. -/
theorem Fits.declare (h : s.Fits s.next) (hrun : declare d s = .ok slot s') :
    s'.Fits s'.next ∧ s.Grows s' ∧ s'.declared? slot = some d := by
  obtain ⟨htemps, hparked, rfl, rfl⟩ := declare_ok hrun
  have hlook : ∀ other,
      (Slots.declared? { s with
        next := s.next + d.ty.category
        high := max s.high (s.next + d.ty.category)
        declared := s.declared.insert s.next d } other)
      = if s.next = other then some d else s.declared? other :=
    fun other => declared?_insert s s.next other d
  have hne : ∀ {other e}, s.declared? other = some e → s.next ≠ other := by
    intro other e he heq
    have hbelow := h.below he
    have hpos := e.ty.category_pos
    omega
  refine ⟨⟨?_, ?_, Nat.le_refl _, ?_, ?_⟩, ?_, ?_⟩
  · intro other e he
    rw [hlook] at he
    split at he
    · next heq =>
      cases he
      subst heq
      exact Nat.le_refl _
    · exact Nat.le_trans (h.below he) (Nat.le_add_right _ _)
  · intro a b e f he hf hlt
    rw [hlook] at he hf
    split at he
    · -- nothing lies above the new slot
      next heq =>
      subst heq
      rw [if_neg (Nat.ne_of_lt hlt)] at hf
      have hbelow := h.below hf
      have hpos := f.ty.category_pos
      omega
    · split at hf
      · next heq =>
        subst heq
        exact h.below he
      · exact h.apart he hf hlt
  · rw [htemps]
    simp
  · rw [hparked]
    simp
  · intro other e he
    rw [hlook, if_neg (hne he)]
    exact he
  · rw [hlook, if_pos rfl]

/-- The slots after more of them were declared. -/
structure Extends (s s' : Slots) : Prop where
  fits : s'.Fits s'.next
  grows : s.Grows s'
  defaulted : s'.defaulted = s.defaulted
  written : ∀ {k}, s.written.contains k = true → s'.written.contains k = true

/-- The slots after more of them were declared that are neither arguments nor variables. -/
structure Reserves (s s' : Slots) : Prop extends Extends s s' where
  argSlots : s'.argSlots = s.argSlots
  varSlots : s'.varSlots = s.varSlots

theorem Extends.trans {a b c : Slots} (hab : a.Extends b) (hbc : b.Extends c) : a.Extends c :=
  ⟨hbc.fits, hab.grows.trans hbc.grows, hbc.defaulted.trans hab.defaulted,
    fun hk => hbc.written (hab.written hk)⟩

theorem Reserves.trans {a b c : Slots} (hab : a.Reserves b) (hbc : b.Reserves c) : a.Reserves c :=
  ⟨hab.toExtends.trans hbc.toExtends, hbc.argSlots.trans hab.argSlots,
    hbc.varSlots.trans hab.varSlots⟩

theorem Fits.reserves_refl (h : s.Fits s.next) : s.Reserves s :=
  ⟨⟨h, .refl s, rfl, id⟩, rfl, rfl⟩

theorem Fits.reserves_declare (h : s.Fits s.next) (hrun : Slots.declare d s = .ok slot s') :
    s.Reserves s' := by
  obtain ⟨hfits, hgrows, -⟩ := h.declare hrun
  obtain ⟨-, -, -, rfl⟩ := declare_ok hrun
  exact ⟨⟨hfits, hgrows, rfl, id⟩, rfl, rfl⟩

-- ==== temporaries

/-- A borrowed slot is one that was parked, or the next one. -/
theorem borrow_cases {ty : Ty} (h : borrow ty s = .ok slot s') :
    (∃ t ∈ s.parked, slot = t.slot ∧
        s' = { s with parked := s.parked.erase t, temps := t :: s.temps }) ∨
      s.next + ty.category ≤ limit ∧ slot = s.next ∧
        s' = { s with
          next := s.next + ty.category
          high := max s.high (s.next + ty.category)
          temps := ⟨s.next, ty.category⟩ :: s.temps } := by
  unfold Slots.borrow at h
  obtain ⟨_, _, hget, h⟩ := state_bind_ok h
  cases hget
  cases hfind : s.parked.find? fun t => t.category == ty.category with
  | some t =>
    rw [hfind] at h
    cases h
    exact .inl ⟨t, List.mem_of_find?_eq_some hfind, rfl, rfl⟩
  | none =>
    rw [hfind] at h
    obtain ⟨_, _, hextend, h⟩ := state_bind_ok h
    obtain ⟨hroom, rfl, rfl⟩ := extend_ok hextend
    cases h
    exact .inr ⟨hroom, rfl, rfl⟩

/-- What is given back is a temporary in use. -/
theorem exists_of_release (h : release slot s = .ok () s') :
    ∃ t ∈ s.temps, t.slot = slot ∧ s' = s.park t := by
  unfold Slots.release at h
  obtain ⟨_, _, hget, h⟩ := state_bind_ok h
  cases hget
  cases hfind : s.temps.find? fun t => t.slot == slot with
  | none =>
    rw [hfind] at h
    cases h
  | some t =>
    rw [hfind] at h
    cases h
    have hslot := List.find?_some hfind
    exact ⟨t, List.mem_of_find?_eq_some hfind, beq_iff_eq.mp hslot, rfl⟩

theorem borrow_ok {ty : Ty} (h : borrow ty s = .ok slot s') :
    ∃ next high temps parked, s' = { s with next, high, temps, parked } := by
  rcases borrow_cases h with ⟨_, _, _, rfl⟩ | ⟨_, _, rfl⟩ <;> exact ⟨_, _, _, _, rfl⟩

theorem release_ok (h : release slot s = .ok () s') :
    ∃ next temps parked, s' = { s with next, temps, parked } := by
  obtain ⟨t, _, _, rfl⟩ := exists_of_release h
  unfold park
  dsimp only
  split <;> exact ⟨_, _, _, rfl⟩

variable {base : Nat}

theorem Fits.borrow {ty : Ty} (h : s.Fits base) (hrun : borrow ty s = .ok slot s') :
    s'.Fits base := by
  rcases borrow_cases hrun with ⟨t, ht, -, rfl⟩ | ⟨-, -, rfl⟩
  · exact ⟨h.below, h.apart, h.next, List.forall_mem_cons.mpr ⟨h.parked t ht, h.temps⟩,
      fun u hu => h.parked u (List.mem_of_mem_erase hu)⟩
  · exact ⟨h.below, h.apart, Nat.le_trans h.next (Nat.le_add_right _ _),
      List.forall_mem_cons.mpr ⟨h.next, h.temps⟩, h.parked⟩

theorem Fits.release (h : s.Fits base) (hrun : release slot s = .ok () s') : s'.Fits base := by
  obtain ⟨t, hmem, -, rfl⟩ := exists_of_release hrun
  have ht := h.temps t hmem
  have htemps : ∀ u ∈ s.temps.erase t, base ≤ u.slot :=
    fun u hu => h.temps u (List.mem_of_mem_erase hu)
  unfold park
  dsimp only
  split
  · exact ⟨h.below, h.apart, ht, htemps, h.parked⟩
  · exact ⟨h.below, h.apart, h.next, htemps, List.forall_mem_cons.mpr ⟨ht, h.parked⟩⟩

theorem Fits.le_of_release (h : s.Fits base) (hrun : Slots.release slot s = .ok () s') :
    base ≤ slot := by
  obtain ⟨t, hmem, rfl, -⟩ := exists_of_release hrun
  exact h.temps t hmem

theorem Fits.ne_succ (h : s.Fits base) {other : Nat} {e : Declared} (hd : s.declared? slot = some d)
    (he : s.declared? other = some e) (hwide : d.ty.category = 2) : other ≠ slot + 1 := by
  rintro rfl
  have hapart := h.apart hd he (Nat.lt_succ_self slot)
  omega

-- ==== the high mark

/-- Everything handed out lies below the high mark. -/
structure Roomy (s : Slots) : Prop where
  next : s.next ≤ s.high
  temps : ∀ t ∈ s.temps, t.slot + t.category ≤ s.high
  parked : ∀ t ∈ s.parked, t.slot + t.category ≤ s.high

theorem roomy_empty : ({} : Slots).Roomy :=
  ⟨Nat.le_refl 0, by simp, by simp⟩

theorem Fits.le_high (h : s.Fits base) (hroomy : s.Roomy) (hd : s.declared? slot = some d) :
    slot + d.ty.category ≤ s.high :=
  Nat.le_trans (h.below hd) (Nat.le_trans h.next hroomy.next)

theorem Roomy.declare (hrun : declare d s = .ok slot s') : s'.Roomy := by
  obtain ⟨htemps, hparked, -, rfl⟩ := declare_ok hrun
  refine ⟨Nat.le_max_right _ _, fun t ht => ?_, fun t ht => ?_⟩
  · rw [htemps] at ht
    cases ht
  · rw [hparked] at ht
    cases ht

/-- Borrowing a slot may raise the high mark, and never lowers it. -/
theorem Roomy.borrow {ty : Ty} (h : s.Roomy) (hrun : borrow ty s = .ok slot s') :
    s'.Roomy ∧ s.high ≤ s'.high := by
  rcases borrow_cases hrun with ⟨t, ht, -, rfl⟩ | ⟨-, -, rfl⟩
  · exact ⟨⟨h.next, List.forall_mem_cons.mpr ⟨h.parked t ht, h.temps⟩,
      fun u hu => h.parked u (List.mem_of_mem_erase hu)⟩, Nat.le_refl _⟩
  · have hgrows : s.high ≤ max s.high (s.next + ty.category) := Nat.le_max_left _ _
    refine ⟨⟨Nat.le_max_right _ _, List.forall_mem_cons.mpr ⟨Nat.le_max_right _ _, ?_⟩, ?_⟩,
      hgrows⟩
    · exact fun t ht => Nat.le_trans (h.temps t ht) hgrows
    · exact fun t ht => Nat.le_trans (h.parked t ht) hgrows

theorem Roomy.release (h : s.Roomy) (hrun : release slot s = .ok () s') :
    s'.Roomy ∧ s'.high = s.high := by
  obtain ⟨t, hmem, -, rfl⟩ := exists_of_release hrun
  have ht := h.temps t hmem
  have htemps : ∀ u ∈ s.temps.erase t, u.slot + u.category ≤ s.high :=
    fun u hu => h.temps u (List.mem_of_mem_erase hu)
  unfold park
  dsimp only
  split
  · exact ⟨⟨Nat.le_trans (Nat.le_add_right _ _) ht, htemps, h.parked⟩, rfl⟩
  · exact ⟨⟨h.next, htemps, List.forall_mem_cons.mpr ⟨ht, h.parked⟩⟩, rfl⟩

-- ==== marks

theorem Fits.markWritten (h : s.Fits base) (slot : Nat) :
    (s.markWritten slot).Fits base :=
  ⟨h.below, h.apart, h.next, h.temps, h.parked⟩

theorem Fits.markDefaulted (h : s.Fits base) (slot : Nat) :
    (s.markDefaulted slot).Fits base :=
  ⟨h.below, h.apart, h.next, h.temps, h.parked⟩

end Slots

end BytecodeBridge
