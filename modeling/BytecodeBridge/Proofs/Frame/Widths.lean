/-
The widths of merged operand stacks.

A merge refuses two stacks that differ in the width of an entry, but it does
not look at the width of what it puts in the place of two entries. Where the
two are numbers of 64 bits, one an integer and one not, that is `top`, which
takes one slot: the merged frame is narrower there than either side
(`Ty.clashes`). Where they are references it is a common supertype, and this
takes two slots if a number is declared as the supertype of a class
(`TypeTable.swells`). Everywhere else the width stays (`category_join`), so
what a merge does to the depth of the stack is a matter of counting.
-/
import BytecodeBridge.Proofs.Frame.Locals
import BytecodeBridge.Proofs.TypeTable.Join

namespace BytecodeBridge

/-- Two numbers of two slots that are held in different ways. -/
def Ty.clashes (x y : Ty) : Bool :=
  x.category == 2 && y.category == 2 && x.stackKind? != y.stackKind?

namespace TypeTable

variable {T : TypeTable} {x y : Ty}

/-- Two references with a join of two slots. -/
def swells (T : TypeTable) (x y : Ty) : Bool :=
  x.isReference && y.isReference && (T.join x y).category == 2

theorem Slim.swells_eq_false (hT : T.Slim) (x y : Ty) : T.swells x y = false := by
  rw [Bool.eq_false_iff]
  intro h
  simp only [swells, Bool.and_eq_true, beq_iff_eq] at h
  obtain ⟨⟨hx, -⟩, hjoin⟩ := h
  have hle := category_join_le hT x y
  rw [Ty.category_of_stackKind? (stackKind?_of_isReference hx), hjoin] at hle
  exact absurd hle (by decide)

-- ==== joins

private theorem category_join_prim (T : TypeTable) (a b : Prim) :
    (T.join (.prim a) (.prim b)).category
      = if a.stackKind = b.stackKind then a.numKind.category else 1 := by
  cases a <;> cases b <;> rfl

theorem exists_prim_of_category (h : x.category = 2) :
    ∃ k, x = .prim k ∧ k.numKind.category = 2 := by
  cases x with
  | prim k => exact ⟨k, rfl, h⟩
  | _ => cases h

/-- Of entries of one slot only references have a join of two. -/
private theorem isReference_of_category_join (hx : x.category = 1) (h : (T.join x y).category = 2) :
    x.isReference = true ∧ y.isReference = true := by
  rcases join_cases T x y with ⟨-, heq⟩ | heq | ⟨a, b, rfl, rfl, -, heq⟩ | ⟨hxr, hyr, -⟩
  · rw [heq, hx] at h
    cases h
  · rw [heq] at h
    cases h
  · have hprim : a.numKind.prim.numKind.category = 2 := by rwa [heq] at h
    rw [NumKind.numKind_prim] at hprim
    exact absurd (hx.symm.trans hprim) (by decide)
  · exact ⟨hxr, hyr⟩

/-- A join has the width of what is joined, less a slot if the two clash, and a slot more
if they swell. -/
theorem category_join (T : TypeTable) (h : x.category = y.category) :
    (T.join x y).category + (if x.clashes y = true then 1 else 0)
      = x.category + if T.swells x y = true then 1 else 0 := by
  have hx := Ty.category_pos x
  have hx' := Ty.category_le_two x
  by_cases hwide : x.category = 2
  · obtain ⟨a, rfl, ha⟩ := exists_prim_of_category hwide
    obtain ⟨b, rfl, hb⟩ := exists_prim_of_category (h ▸ hwide)
    have hswells : T.swells (.prim a) (.prim b) = false := rfl
    rw [category_join_prim, hswells]
    by_cases hkind : a.stackKind = b.stackKind
    · simp [Ty.clashes, Ty.stackKind?, Ty.category, hkind]
    · simp [Ty.clashes, Ty.stackKind?, Ty.category, hkind, ha, hb]
  · have hone : x.category = 1 := by omega
    have hclash : x.clashes y = false := by simp [Ty.clashes, hone]
    have hjoin := Ty.category_pos (T.join x y)
    have hjoin' := Ty.category_le_two (T.join x y)
    rw [hclash]
    by_cases htwo : (T.join x y).category = 2
    · obtain ⟨hxr, hyr⟩ := isReference_of_category_join hone htwo
      simp [swells, hxr, hyr, htwo, hone]
    · have hswells : T.swells x y = false := by simp [swells, htwo]
      rw [hswells]
      omega

/-- The width of a join stays if and only if what is joined neither clashes nor swells. -/
private theorem category_join_eq_iff (T : TypeTable) (h : x.category = y.category) :
    (T.join x y).category = x.category ↔ x.clashes y = false ∧ T.swells x y = false := by
  have hjoin := category_join T h
  constructor
  · intro heq
    cases hclash : x.clashes y with
    | true =>
      -- what clashes takes two slots, so it is no reference and does not swell
      have hx : x.category = 2 := by
        simp only [Ty.clashes, Bool.and_eq_true, beq_iff_eq] at hclash
        exact hclash.1.1
      obtain ⟨a, rfl, -⟩ := exists_prim_of_category hx
      rw [hclash, heq] at hjoin
      exact absurd hjoin (Nat.succ_ne_self _)
    | false =>
      refine ⟨rfl, ?_⟩
      rw [hclash, heq] at hjoin
      by_contra hswells
      rw [Bool.not_eq_false] at hswells
      rw [hswells] at hjoin
      exact absurd hjoin.symm (Nat.succ_ne_self _)
  · rintro ⟨hclash, hswells⟩
    rw [hclash, hswells] at hjoin
    exact hjoin

end TypeTable

-- ==== merges

namespace Frame

variable {T : TypeTable}

/-- Entry by entry, what is merged has one width, and the merged stack has the joins. -/
theorem StackMerge.entries {x y r : List Ty} (h : StackMerge T x y r) {i : Nat} {t u : Ty}
    (ht : x[i]? = some t) (hu : y[i]? = some u) :
    t.category = u.category ∧ r[i]? = some (T.join t u) := by
  induction h generalizing i with
  | nil => cases ht
  | cons hwidth _ ih =>
    cases i with
    | zero =>
      cases ht
      cases hu
      exact ⟨hwidth, rfl⟩
    | succ i => exact ih ht hu

/-- The merged stack takes one slot less for every two entries that clash, and one more
for every two that swell. -/
theorem StackMerge.slots {x y r : List Ty} (h : StackMerge T x y r) : slotsOf y = slotsOf x ∧
    slotsOf r + (x.zip y).countP (fun p => p.1.clashes p.2)
      = slotsOf x + (x.zip y).countP (fun p => T.swells p.1 p.2) := by
  induction h with
  | nil => exact ⟨rfl, rfl⟩
  | cons hwidth _ ih =>
    obtain ⟨hsame, hcount⟩ := ih
    have hjoin := TypeTable.category_join T hwidth
    simp only [slotsOf_cons, List.zip_cons_cons, List.countP_cons]
    omega

/-- How many entries of two stacks clash. -/
def clashes (a b : Frame) : Nat :=
  (a.stack.zip b.stack).countP fun p => p.1.clashes p.2

/-- How many entries of two stacks swell. -/
def swells (T : TypeTable) (a b : Frame) : Nat :=
  (a.stack.zip b.stack).countP fun p => T.swells p.1 p.2

private theorem swells_eq_zero (hT : T.Slim) (a b : Frame) : swells T a b = 0 :=
  List.countP_eq_zero.mpr fun p _ => Bool.eq_false_iff.mp (hT.swells_eq_false p.1 p.2)

/-- Frames that are merged take the same slots on the stack, entry by entry. A merged
entry takes as many, unless it stands for two numbers of two slots that are held in
different ways, or for two references with a number of two slots above both. If no
declared supertype takes two slots, the merged stack is therefore as deep as the two are
exactly where no entries clash. -/
theorem widths_of_merge {a b m : Frame} (h : a.merge T b = .ok m) :
    b.depth = a.depth ∧ m.stack.length = a.stack.length ∧
      (∀ (i : Nat) (x y : Ty), a.stack[i]? = some x → b.stack[i]? = some y →
        y.category = x.category ∧ ∃ z, m.stack[i]? = some z ∧
          (z.category = x.category ↔ x.clashes y = false ∧ T.swells x y = false)) ∧
      m.depth + clashes a b = a.depth + swells T a b ∧
      (T.Slim → (m.depth = a.depth ↔ clashes a b = 0)) := by
  obtain ⟨hstack, -⟩ := merge_eq_ok_iff.mp h
  obtain ⟨hsame, hcount⟩ := hstack.slots
  have hdepth : m.depth + clashes a b = a.depth + swells T a b := hcount
  refine ⟨hsame, hstack.length.1, ?_, hdepth, ?_⟩
  · intro i x y hx hy
    obtain ⟨hcategory, hz⟩ := hstack.entries hx hy
    exact ⟨hcategory.symm, T.join x y, hz, TypeTable.category_join_eq_iff T hcategory⟩
  · intro hT
    rw [swells_eq_zero hT] at hdepth
    omega

/-- A `long` that meets a `double` is no longer counted with both of its slots. -/
theorem widths_of_merge_longAndDouble :
    let a : Frame := { stack := [.prim .int64, .prim .int32] }
    let b : Frame := { stack := [.prim .float64, .prim .uint8] }
    let m : Frame := { stack := [.top, .prim .int32] }
    a.merge (.ofConfig {}) b = .ok m ∧ b.depth = a.depth ∧ m.depth + 1 = a.depth := by
  have hmerge : Frame.merge (.ofConfig {}) { stack := [.prim .int64, .prim .int32] }
      { stack := [.prim .float64, .prim .uint8] } = .ok { stack := [.top, .prim .int32] } := by
    decide
  obtain ⟨hsame, -, -, hdepth, -⟩ := widths_of_merge hmerge
  exact ⟨hmerge, hsame, hdepth⟩

end Frame

end BytecodeBridge
