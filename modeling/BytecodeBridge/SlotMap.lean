/-
Finite maps from slots, kept as ascending lists.

Two such maps with the same contents are equal as values (`SlotMap.ext`),
so comparing frames is comparing values, and going through a map in slot
order is going through a list.
-/

namespace BytecodeBridge

/-- A finite map from slots: its entries in ascending order of their slots. -/
structure SlotMap (α : Type) where
  entries : List (Nat × α) := []
  ascending : entries.Pairwise (fun a b => a.1 < b.1) := by exact List.Pairwise.nil
deriving DecidableEq

namespace SlotMap

variable {α β : Type}

instance : Inhabited (SlotMap α) := ⟨{}⟩

def empty : SlotMap α := {}

-- ==== look-up

/-- The value at a slot, in an ascending list of entries. -/
def find? (slot : Nat) : List (Nat × α) → Option α
  | [] => none
  | (s, x) :: rest => if s = slot then some x else find? slot rest

/-- The value at a slot. -/
def get? (m : SlotMap α) (slot : Nat) : Option α :=
  find? slot m.entries

def contains (m : SlotMap α) (slot : Nat) : Bool :=
  (m.get? slot).isSome

theorem find?_eq_none_of_lt {slot : Nat} {l : List (Nat × α)} (h : ∀ e ∈ l, slot < e.1) :
    find? slot l = none := by
  induction l with
  | nil => rfl
  | cons e rest ih =>
    have he := h e List.mem_cons_self
    rw [find?, if_neg (Nat.ne_of_gt he)]
    exact ih fun d hd => h d (List.mem_cons_of_mem _ hd)

-- ==== insertion

/-- The entries with one more, or with another value at its slot. -/
def insertIn (slot : Nat) (x : α) : List (Nat × α) → List (Nat × α)
  | [] => [(slot, x)]
  | (s, y) :: rest =>
    if slot < s then (slot, x) :: (s, y) :: rest
    else if s = slot then (slot, x) :: rest
    else (s, y) :: insertIn slot x rest

theorem fst_mem_insertIn {slot : Nat} {x : α} {l : List (Nat × α)} {e : Nat × α}
    (h : e ∈ insertIn slot x l) : e.1 = slot ∨ e ∈ l := by
  induction l with
  | nil => simp_all [insertIn]
  | cons d rest ih =>
    simp only [insertIn] at h
    split at h
    · rcases List.mem_cons.mp h with rfl | h
      · exact .inl rfl
      · exact .inr h
    · split at h
      · rcases List.mem_cons.mp h with rfl | h
        · exact .inl rfl
        · exact .inr (List.mem_cons_of_mem _ h)
      · rcases List.mem_cons.mp h with rfl | h
        · exact .inr List.mem_cons_self
        · exact (ih h).imp_right (List.mem_cons_of_mem _)

theorem ascending_insertIn (slot : Nat) (x : α) {l : List (Nat × α)}
    (h : l.Pairwise (fun a b => a.1 < b.1)) :
    (insertIn slot x l).Pairwise (fun a b => a.1 < b.1) := by
  induction l with
  | nil => simp [insertIn]
  | cons d rest ih =>
    obtain ⟨hd, hrest⟩ := List.pairwise_cons.mp h
    simp only [insertIn]
    split
    · next hlt =>
      refine List.pairwise_cons.mpr ⟨fun e he => ?_, h⟩
      rcases List.mem_cons.mp he with rfl | he
      · exact hlt
      · exact Nat.lt_trans hlt (hd e he)
    · split
      · next heq => exact List.pairwise_cons.mpr ⟨fun e he => heq ▸ hd e he, hrest⟩
      · next hge hne =>
        refine List.pairwise_cons.mpr ⟨fun e he => ?_, ih hrest⟩
        rcases fst_mem_insertIn he with heq | he
        · simp only [heq]; omega
        · exact hd e he

/-- The map with a value at a slot. -/
def insert (m : SlotMap α) (slot : Nat) (x : α) : SlotMap α :=
  ⟨insertIn slot x m.entries, ascending_insertIn slot x m.ascending⟩

-- ==== removal

/-- The map without a slot. -/
def erase (m : SlotMap α) (slot : Nat) : SlotMap α :=
  ⟨m.entries.filter fun e => e.1 != slot, m.ascending.filter _⟩

-- ==== mappings

/-- The map with each value replaced, or dropped, according to its slot. -/
def filterMap (m : SlotMap α) (f : Nat → α → Option β) : SlotMap β where
  entries := m.entries.filterMap fun e => (f e.1 e.2).map fun y => (e.1, y)
  ascending := by
    refine List.Pairwise.filterMap _ ?_ m.ascending
    intro a b hab c hc d hd
    obtain ⟨_, _, rfl⟩ := Option.map_eq_some_iff.mp hc
    obtain ⟨_, _, rfl⟩ := Option.map_eq_some_iff.mp hd
    exact hab

/-- The map with each value replaced according to its slot. -/
def map (m : SlotMap α) (f : Nat → α → β) : SlotMap β where
  entries := m.entries.map fun e => (e.1, f e.1 e.2)
  ascending := List.pairwise_map.mpr m.ascending

/-- The map of a list of entries; of two entries with one slot the later counts. -/
def ofList (l : List (Nat × α)) : SlotMap α :=
  l.foldl (fun m e => m.insert e.1 e.2) empty

-- ==== look-up laws

@[simp] theorem get?_empty (slot : Nat) : (empty : SlotMap α).get? slot = none := rfl

theorem get?_insert (m : SlotMap α) (slot : Nat) (x : α) (k : Nat) :
    (m.insert slot x).get? k = if slot = k then some x else m.get? k := by
  simp only [get?, insert]
  induction m.entries with
  | nil => simp [insertIn, find?]
  | cons e rest ih => simp only [insertIn, find?]; grind [find?]

theorem get?_erase (m : SlotMap α) (slot k : Nat) :
    (m.erase slot).get? k = if slot = k then none else m.get? k := by
  simp only [get?, erase]
  induction m.entries with
  | nil => simp [find?]
  | cons e rest ih => simp only [List.filter_cons]; grind [find?]

theorem get?_map (m : SlotMap α) (f : Nat → α → β) (k : Nat) :
    (m.map f).get? k = (m.get? k).map (f k) := by
  simp only [get?, map]
  induction m.entries with
  | nil => rfl
  | cons e rest ih => simp only [List.map_cons]; grind [find?]

/-- Maps with the same values at all slots are equal. -/
theorem ext {m n : SlotMap α} (h : ∀ k, m.get? k = n.get? k) : m = n := by
  obtain ⟨l, hl⟩ := m
  obtain ⟨r, hr⟩ := n
  simp only [get?] at h
  congr
  induction l generalizing r with
  | nil =>
    cases r with
    | nil => rfl
    | cons e rest => have := h e.1; simp [find?] at this
  | cons d lrest ih =>
    obtain ⟨hd, hlrest⟩ := List.pairwise_cons.mp hl
    cases r with
    | nil => have := h d.1; simp [find?] at this
    | cons e rrest =>
      obtain ⟨he, hrrest⟩ := List.pairwise_cons.mp hr
      have hslot : d.1 = e.1 := by
        rcases Nat.lt_trichotomy d.1 e.1 with hlt | heq | hgt
        · have := h d.1
          rw [find?_eq_none_of_lt (l := e :: rrest)] at this
          · simp [find?] at this
          · intro x hx
            rcases List.mem_cons.mp hx with rfl | hx
            · exact hlt
            · exact Nat.lt_trans hlt (he x hx)
        · exact heq
        · have := h e.1
          rw [find?_eq_none_of_lt (l := d :: lrest)] at this
          · simp [find?] at this
          · intro x hx
            rcases List.mem_cons.mp hx with rfl | hx
            · exact hgt
            · exact Nat.lt_trans hgt (hd x hx)
      have hval : d.2 = e.2 := by
        have := h d.1
        simpa [find?, hslot] using this
      rw [ih hlrest rrest hrrest, Prod.ext hslot hval]
      intro k
      by_cases hk : d.1 = k
      · subst hk
        rw [find?_eq_none_of_lt hd, find?_eq_none_of_lt fun x hx => hslot ▸ he x hx]
      · have := h k
        rwa [find?, find?, if_neg hk, if_neg (hslot ▸ hk)] at this

end SlotMap

end BytecodeBridge
