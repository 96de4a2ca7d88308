/-
Families of types: what a join keeps apart.

Two types have a join other than `top` exactly if they are of one family, and
then the join is of that family too. So if a slot is still there after any
number of merges, each of the merged frames had it with a type of the same
family. Numbers of one kind are a family, and so are the references; a value
type stands alone, and so does a receiver under construction.

For references the join is looked for among the declared supertypes, so this
holds if these are references (`Referential`).
-/
import BytecodeBridge.Proofs.TypeTable.Order

namespace BytecodeBridge

/-- What the types that have a join with each other have in common. -/
inductive Family where
  | number (kind : NumKind)
  | value (name : String)
  | receiver
  | reference
deriving DecidableEq, Repr

namespace Ty

/-- The family of a type; `top` has none. -/
def family? : Ty → Option Family
  | .prim k => some (.number k.numKind)
  | .value name => some (.value name)
  | .uninitThis => some .receiver
  | .top => none
  | _ => some .reference

theorem exists_family {t : Ty} (h : t ≠ .top) : ∃ F, t.family? = some F := by
  cases t with
  | top => exact absurd rfl h
  | _ => exact ⟨_, rfl⟩

theorem isTop_of_family? {t : Ty} {F : Family} (h : t.family? = some F) : t.isTop = false := by
  cases t with
  | top => cases h
  | _ => rfl

theorem family?_eq_reference {t : Ty} :
    t.family? = some .reference ↔ t.isReference = true ∧ t ≠ .uninitThis := by
  cases t <;> simp [family?, isReference]

end Ty

namespace TypeTable

variable {T : TypeTable} {x y : Ty} {F : Family}

/-- No type is declared to have a supertype that is no reference, or that is a
receiver under construction. -/
def Referential (T : TypeTable) : Prop :=
  ∀ t, ∀ u ∈ T.supertypes t, u.isReference = true ∧ u ≠ .uninitThis

theorem referential_of_classes
    (h : ∀ e ∈ T.classes, ∀ u ∈ e.2.supertypes, u.isReference = true ∧ u ≠ .uninitThis) :
    T.Referential :=
  forall_supertypes h

/-- What fits is of the family of what it fits. -/
theorem Fits.family? (h : T.Fits x y) (htop : y ≠ .top) : x.family? = y.family? := by
  cases h with
  | refl => rfl
  | top => exact absurd rfl htop
  | prim h =>
    injection h with hkind
    exact congrArg (fun k => some (Family.number k)) hkind
  | null href hinit => exact (Ty.family?_eq_reference.mpr ⟨href, hinit⟩).symm
  | object href hinit => exact Ty.family?_eq_reference.mpr ⟨href, hinit⟩
  | array | rank => rfl
  | nominal hx hy _ =>
    rw [Ty.family?_eq_reference.mpr (Ty.isReference_of_isNominal hx),
      Ty.family?_eq_reference.mpr (Ty.isReference_of_isNominal hy)]

/-- A reference answers to a class, or it is a box of what it answers to. -/
private theorem classOf_reference (hx : x.family? = some .reference) :
    (T.classOf x).family? = some .reference ∨ x = .boxed (T.classOf x) false := by
  cases x with
  | boxed content byRef =>
    cases byRef with
    | true => exact .inl (by simp [classOf, Ty.family?])
    | false =>
      cases content with
      | prim k =>
        unfold classOf
        dsimp only
        split
        · exact .inl rfl
        · exact .inl rfl
      | _ => exact .inr rfl
  | _ => exact .inl hx

theorem join_self (t : Ty) : T.join t t = t :=
  if_pos rfl

private theorem join_uninitThis (hne : x ≠ y) (h : x = .uninitThis ∨ y = .uninitThis) :
    T.join x y = .top := by
  unfold join
  rw [if_neg hne]
  rcases h with rfl | rfl
  · cases y <;> rfl
  · cases x <;> rfl

private theorem join_references (hx : x.family? = some .reference)
    (hy : y.family? = some .reference) : T.join x y = T.commonSupertype x y := by
  by_cases heq : x = y
  · subst heq
    unfold join commonSupertype
    rw [if_pos rfl, if_pos rfl]
  · unfold join
    rw [if_neg heq]
    cases x <;> cases hx <;> cases y <;> cases hy <;> rfl

private theorem family?_join_number {k : NumKind} (hx : x.family? = some (.number k))
    (hy : y.family? = some (.number k)) : (T.join x y).family? = some (.number k) := by
  cases x <;> cases hx
  cases y with
  | prim b =>
    rename_i a
    have hkind : b.numKind = a.numKind := by
      injection hy with hy
      injection hy
    cases a <;> cases b <;> first | rfl | cases hkind
  | _ => cases hy

namespace Referential

variable (hT : T.Referential)
include hT

theorem nearest (hne : x ≠ y) (hx : x.family? = some .reference)
    (hy : y.family? = some .reference) : (T.nearest x y).family? = some .reference := by
  rcases exists_way_nearest T x y with heq | ⟨_, _, hwayx, hwayy⟩
  · rw [heq]
    rfl
  · -- a supertype is a reference; what both answer to is one, since they are not equal
    rcases hwayx.eq_or_supertype with ⟨heqx, -⟩ | ⟨-, u, hu⟩
    · rcases hwayy.eq_or_supertype with ⟨heqy, -⟩ | ⟨-, u, hu⟩
      · rcases classOf_reference (T := T) hx with href | hboxx
        · exact (congrArg Ty.family? heqx).trans href
        · rcases classOf_reference (T := T) hy with href | hboxy
          · exact (congrArg Ty.family? heqy).trans href
          · refine absurd ?_ hne
            rw [hboxx, hboxy, ← heqx, ← heqy]
      · exact Ty.family?_eq_reference.mpr (hT u _ hu)
    · exact Ty.family?_eq_reference.mpr (hT u _ hu)

theorem commonOfFlat (hne : x ≠ y) (hx : x.family? = some .reference)
    (hy : y.family? = some .reference) : (T.commonOfFlat x y).family? = some .reference := by
  unfold TypeTable.commonOfFlat
  split
  · rfl
  · rfl
  · exact hT.nearest hne hx hy

theorem commonSupertype (hx : x.family? = some .reference) (hy : y.family? = some .reference) :
    (T.commonSupertype x y).family? = some .reference := by
  unfold TypeTable.commonSupertype
  split
  · exact hx
  · next hne =>
    split
    · split
      · exact hy
      · exact hT.commonOfFlat hne hx hy
    · split
      · exact hx
      · exact hT.commonOfFlat hne hx hy
    · split
      · unfold Ty.arrayOf
        split <;> rfl
      · rfl
    · exact hT.commonOfFlat hne hx hy

/-- A join that is not `top` is of the family of both operands. -/
theorem family?_of_join (htop : (T.join x y).isTop = false) :
    x.family? = (T.join x y).family? ∧ y.family? = (T.join x y).family? := by
  rcases join_cases T x y with ⟨rfl, heq⟩ | heq | ⟨a, b, rfl, rfl, hkind, heq⟩ | ⟨hx, hy, heq⟩
  · rw [heq]
    exact ⟨rfl, rfl⟩
  · rw [heq] at htop
    cases htop
  · rw [heq]
    simp only [Ty.family?, NumKind.numKind_prim, hkind, and_self]
  · by_cases hne : x = y
    · rw [← hne, join_self]
      exact ⟨rfl, rfl⟩
    · have hinit : x ≠ .uninitThis ∧ y ≠ .uninitThis := by
        refine not_or.mp fun hinit => ?_
        rw [join_uninitThis hne hinit] at htop
        cases htop
      have hx : x.family? = some .reference := Ty.family?_eq_reference.mpr ⟨hx, hinit.1⟩
      have hy : y.family? = some .reference := Ty.family?_eq_reference.mpr ⟨hy, hinit.2⟩
      rw [heq, hT.commonSupertype hx hy]
      exact ⟨hx, hy⟩

/-- Types of one family have a join, and it is of that family. -/
theorem family?_join (hx : x.family? = some F) (hy : y.family? = some F) :
    (T.join x y).family? = some F := by
  cases F with
  | number k => exact family?_join_number hx hy
  | reference => rw [join_references hx hy, hT.commonSupertype hx hy]
  | value n | receiver =>
    have heq : x = y := by
      cases x <;> cases hx
      cases y <;> cases hy
      rfl
    rw [heq, join_self, hy]

end Referential

end TypeTable

end BytecodeBridge
