/-
Joins keep the stack kind, and the width.

Two types that are held on the stack in one way have a join that is held in
the same way, or none. For numbers that is read off the definition. For
references the join is looked for among the declared supertypes of both, so
it holds if no primitive is declared as a supertype (`Proper`): then no walk
up the hierarchy meets one. That a join takes no more slots than what is
joined needs less: no declared supertype takes two (`Slim`).
-/
import BytecodeBridge.Proofs.TypeTable.Walk

namespace BytecodeBridge.TypeTable

variable {T : TypeTable}

/-- No type is declared to have a primitive supertype. -/
def Proper (T : TypeTable) : Prop :=
  ∀ t, ∀ u ∈ T.supertypes t, u.prim? = none

theorem forall_supertypes {P : Ty → Prop} (h : ∀ e ∈ T.classes, ∀ u ∈ e.2.supertypes, P u) :
    ∀ t, ∀ u ∈ T.supertypes t, P u := by
  intro t u hu
  unfold supertypes declaration? at hu
  split at hu
  · next d hd => exact h (t, d) (mem_of_lookup hd) u hu
  · cases hu

theorem proper_of_classes (h : ∀ e ∈ T.classes, ∀ u ∈ e.2.supertypes, u.prim? = none) :
    T.Proper :=
  forall_supertypes h

/-- A property that the supertypes of any type have, with a type its class, and with an
array its elements and arrays like it. -/
structure Upward (T : TypeTable) (P : Ty → Prop) : Prop where
  supertypes : ∀ t, ∀ u ∈ T.supertypes t, P u
  object : P T.object
  element : ∀ e rank, P (.array e rank) → e.isReference = true → P e
  array : ∀ e rank t, P (.array e rank) → P t → P (t.arrayOf rank)
  classOf : ∀ t, P t → P (T.classOf t)

-- ==== joins

/-- The preferred candidate is one of the candidates. -/
theorem mem_of_best {l : List Candidate} {c : Candidate} (h : T.best l = some c) : c ∈ l := by
  cases l with
  | nil => cases h
  | cons first rest =>
    cases h
    induction rest generalizing first with
    | nil => exact .head _
    | cons d rest ih =>
      rw [List.foldl_cons]
      split
      · exact .tail _ (ih d)
      · rcases List.mem_cons.mp (ih first) with heq | hmem
        · rw [heq]
          exact .head _
        · exact .tail _ (.tail _ hmem)

/-- There are ways to the nearest type from both, unless it is the universal object
type. -/
theorem exists_way_nearest (T : TypeTable) (a b : Ty) : T.nearest a b = T.object ∨
    ∃ m n, T.Way (T.classOf a) m (T.nearest a b) ∧ T.Way (T.classOf b) n (T.nearest a b) := by
  unfold nearest
  split
  · next c hc =>
    obtain ⟨-, m, n, hm, hn, -⟩ := mem_candidates_iff.mp (mem_of_best hc)
    exact .inr ⟨m, n, hm.way, hn.way⟩
  · exact .inl rfl

namespace Upward

variable {P : Ty → Prop} (h : Upward T P) {a b : Ty}
include h

theorem nearest (ha : P a) : P (T.nearest a b) := by
  rcases exists_way_nearest T a b with heq | ⟨_, _, hway, -⟩
  · exact heq ▸ h.object
  · rcases hway.eq_or_supertype with ⟨heq, -⟩ | ⟨-, u, hu⟩
    · exact heq ▸ h.classOf a ha
    · exact h.supertypes u _ hu

theorem commonOfFlat (ha : P a) : P (T.commonOfFlat a b) := by
  unfold TypeTable.commonOfFlat
  split
  · exact h.object
  · exact h.object
  · exact h.nearest ha

/-- What has a property in common with its operands a common supertype has too. -/
theorem commonSupertype (ha : P a) (hb : P b) : P (T.commonSupertype a b) := by
  fun_induction TypeTable.commonSupertype T a b with
  | case1 | case4 => exact ha
  | case2 => exact hb
  | case6 ea ra eb rb hboth _ ih =>
    rw [Bool.and_eq_true, Bool.and_eq_true] at hboth
    exact h.array ea ra _ ha (ih (h.element ea ra ha hboth.1.2) (h.element eb rb hb hboth.2))
  | case7 => exact h.object
  | _ => exact h.commonOfFlat ha

end Upward

theorem prim?_of_isReference {t : Ty} (h : t.isReference = true) : t.prim? = none := by
  cases t with
  | prim k => cases h
  | _ => rfl

theorem stackKind?_of_isReference {t : Ty} (h : t.isReference = true) :
    t.stackKind? = some .reference := by
  cases t with
  | prim k | top => cases h
  | _ => rfl

/-- The class that a type answers to is no primitive, unless the type is one. -/
theorem classOf_eq_or (T : TypeTable) (t : Ty) :
    T.classOf t = t ∨ (T.classOf t).prim? = none := by
  unfold classOf
  split
  · split
    · exact .inr rfl
    · exact .inl rfl
  · next content hprim =>
    cases content with
    | prim k => exact absurd rfl (hprim k)
    | _ => exact .inr rfl
  · exact .inl rfl

/-- No walk up the hierarchy meets a primitive. -/
theorem Proper.upward (hT : T.Proper) : Upward T fun t => t.prim? = none where
  supertypes := hT
  object := rfl
  element _ _ _ h := prim?_of_isReference h
  array _ _ t _ _ := by cases t <;> rfl
  classOf t h := (classOf_eq_or T t).elim (fun heq => heq.symm ▸ h) id

theorem eq_reference_of_prim? {t : Ty} (h : t.prim? = none) {k : StackKind}
    (hk : t.stackKind? = some k) : k = .reference := by
  cases t with
  | prim k => cases h
  | top => cases hk
  | _ =>
    cases hk
    rfl

/-- The four ways a join comes about. -/
theorem join_cases (T : TypeTable) (x y : Ty) :
    x = y ∧ T.join x y = x ∨ T.join x y = .top ∨
      (∃ a b, x = .prim a ∧ y = .prim b ∧ a.numKind = b.numKind ∧
        T.join x y = .prim a.numKind.prim) ∨
      x.isReference = true ∧ y.isReference = true ∧ T.join x y = T.commonSupertype x y := by
  unfold join
  split
  · next heq => exact .inl ⟨heq, rfl⟩
  · split
    · exact .inr (.inl rfl)
    · exact .inr (.inl rfl)
    · next a b _ =>
      split
      · next ha hb => exact .inr (.inr (.inl ⟨a, b, rfl, rfl, ha.trans hb.symm, by rw [ha]; rfl⟩))
      · next ha hb => exact .inr (.inr (.inl ⟨a, b, rfl, rfl, ha.trans hb.symm, by rw [ha]; rfl⟩))
      · exact .inr (.inl rfl)
    · exact .inr (.inl rfl)
    · exact .inr (.inl rfl)
    · split
      · next hboth =>
        rw [Bool.and_eq_true] at hboth
        exact .inr (.inr (.inr ⟨hboth.1, hboth.2, rfl⟩))
      · exact .inr (.inl rfl)

/-- A join is held on the stack in the way its operands are. -/
theorem stackKind?_of_join (hT : T.Proper) {x y : Ty} {k : StackKind}
    (h : (T.join x y).stackKind? = some k) : x.stackKind? = some k := by
  rcases join_cases T x y with ⟨-, heq⟩ | heq | ⟨a, b, rfl, rfl, -, heq⟩ | ⟨hx, hy, heq⟩
  · rwa [heq] at h
  · rw [heq] at h
    cases h
  · rw [heq] at h
    rw [← h]
    show some (StackKind.num a.numKind) = some (StackKind.num a.numKind.prim.numKind)
    rw [NumKind.numKind_prim]
  · rw [heq] at h
    have hprim := hT.upward.commonSupertype (prim?_of_isReference hx) (prim?_of_isReference hy)
    rw [eq_reference_of_prim? hprim h]
    exact stackKind?_of_isReference hx

-- ==== widths

/-- No type is declared to have a supertype that takes two slots. -/
def Slim (T : TypeTable) : Prop :=
  ∀ t, ∀ u ∈ T.supertypes t, u.category = 1

theorem slim_of_classes (h : ∀ e ∈ T.classes, ∀ u ∈ e.2.supertypes, u.category = 1) : T.Slim :=
  forall_supertypes h

theorem category_of_prim? {t : Ty} (h : t.prim? = none) : t.category = 1 := by
  cases t with
  | prim k => cases h
  | _ => rfl

theorem Slim.upward (hT : T.Slim) : Upward T fun t => t.category = 1 where
  supertypes := hT
  object := rfl
  element _ _ _ h := category_of_prim? (prim?_of_isReference h)
  array _ _ t _ _ := by cases t <;> rfl
  classOf t h := (classOf_eq_or T t).elim (fun heq => heq.symm ▸ h) category_of_prim?

theorem Slim.category_commonSupertype (hT : T.Slim) {x y : Ty} (hx : x.isReference = true)
    (hy : y.isReference = true) : (T.commonSupertype x y).category = 1 :=
  hT.upward.commonSupertype (category_of_prim? (prim?_of_isReference hx))
    (category_of_prim? (prim?_of_isReference hy))

theorem category_join_le (hT : T.Slim) (x y : Ty) : (T.join x y).category ≤ x.category := by
  rcases join_cases T x y with ⟨-, heq⟩ | heq | ⟨a, b, rfl, rfl, -, heq⟩ | ⟨hx, hy, heq⟩
  · exact Nat.le_of_eq (congrArg Ty.category heq)
  · rw [heq]
    exact Ty.category_pos x
  · rw [heq]
    show a.numKind.prim.numKind.category ≤ a.numKind.category
    exact Nat.le_of_eq (congrArg NumKind.category (NumKind.numKind_prim a.numKind))
  · rw [heq, hT.category_commonSupertype hx hy]
    exact Ty.category_pos x

end BytecodeBridge.TypeTable
