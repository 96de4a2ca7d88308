/-
On the types that a program knows, assignability is a preorder.

That it is reflexive is read off its definition. That it is transitive was
shown for types whose boxes hold primitives or instances of value types
(`Fits.trans`). A program may know any other type as well, arrays of unset
values among them. What it cannot do is know a type without its parts: a
mention of an array or a box is a mention of what it holds (`PartsKnown`).
So a condition on the boxes that are known reaches the boxes inside every
known type.
-/
import BytecodeBridge.Proofs.TypeTable.Order

namespace BytecodeBridge.TypeTable

variable {T : TypeTable}

-- ==== parts

/-- What an array or a box holds is known with it. -/
structure PartsKnown (T : TypeTable) : Prop where
  array : ∀ element rank, .array element rank ∈ T.known → element ∈ T.known
  boxed : ∀ content byRef, .boxed content byRef ∈ T.known → content ∈ T.known

private theorem mem_known_add_iff {t u : Ty} : u ∈ (T.add t).known ↔ u ∈ T.known ∨ u = t := by
  unfold add
  split
  · next hknown =>
    constructor
    · exact .inl
    · rintro (h | rfl)
      · exact h
      · exact hknown
  · exact List.mem_append.trans (or_congr_right List.mem_singleton)

/-- A type is added when its parts are known. -/
theorem PartsKnown.add (h : T.PartsKnown) {t : Ty}
    (harray : ∀ element rank, t = .array element rank → element ∈ T.known)
    (hboxed : ∀ content byRef, t = .boxed content byRef → content ∈ T.known) :
    (T.add t).PartsKnown where
  array element rank hmem := by
    refine mem_known_add_iff.mpr (.inl ?_)
    rcases mem_known_add_iff.mp hmem with hmem | heq
    · exact h.array element rank hmem
    · exact harray element rank heq.symm
  boxed content byRef hmem := by
    refine mem_known_add_iff.mpr (.inl ?_)
    rcases mem_known_add_iff.mp hmem with hmem | heq
    · exact h.boxed content byRef hmem
    · exact hboxed content byRef heq.symm

theorem PartsKnown.intern (h : T.PartsKnown) (t : Ty) : (T.intern t).PartsKnown := by
  induction t with
  | array element rank ih =>
    refine ih.add (fun e r heq => ?_) nofun
    cases heq
    exact mem_known_intern T element
  | boxed content byRef ih =>
    refine ih.add nofun fun c r heq => ?_
    cases heq
    exact mem_known_intern T content
  | _ => exact h.add nofun nofun

theorem PartsKnown.congr {T' : TypeTable} (h : T.PartsKnown) (hknown : T'.known = T.known) :
    T'.PartsKnown :=
  ⟨hknown ▸ h.array, hknown ▸ h.boxed⟩

theorem PartsKnown.declare (h : T.PartsKnown) (t : Ty) (d : Declaration) :
    (T.declare t d).PartsKnown :=
  (h.intern t).congr rfl

private theorem partsKnown_ofConfig (c : Config) : (ofConfig c).PartsKnown := by
  have h₀ : ∀ T : TypeTable, T.known = [.ref c.objectClass] → T.PartsKnown := by
    intro T hknown
    refine ⟨fun e r hmem => ?_, fun b r hmem => ?_⟩
    · rw [hknown] at hmem
      cases List.mem_singleton.mp hmem
    · rw [hknown] at hmem
      cases List.mem_singleton.mp hmem
  unfold ofConfig
  refine ((PartsKnown.declare ?_ _ _).declare _ _)
  split
  · split
    · exact (h₀ _ rfl).declare _ _
    · next root _ _ => exact (((h₀ _ rfl).declare _ _).intern (.ref root)).congr rfl
  · exact (h₀ _ rfl).declare _ _

theorem Built.partsKnown {c : Config} (h : Built c T) : T.PartsKnown := by
  induction h with
  | start => exact partsKnown_ofConfig c
  | intern t _ ih => exact ih.intern t
  | declareClass _ _ _ ih | declareInterface _ _ _ ih | declareValue _ _ _ ih =>
    exact ih.declare _ _

/-- Where all known boxes hold primitives or instances of value types, so do those inside
known types. -/
theorem PartsKnown.wellBoxed (h : T.PartsKnown)
    (hboxes : ∀ content, .boxed content false ∈ T.known → content.valueKind ≠ .reference)
    {t : Ty} (ht : t ∈ T.known) : t.wellBoxed = true := by
  induction t with
  | array element rank ih => exact ih (h.array element rank ht)
  | boxed content byRef =>
    cases byRef with
    | false => exact bne_iff_ne.mpr (hboxes content ht)
    | true => rfl
  | _ => rfl

-- ==== the preorder

/-- In a table that a program makes from the standard configuration, with classes and
interfaces as declared supertypes, none for the universal object type, and boxes of
primitives and value types only, assignability is reflexive and transitive on the types
that are known, and an instance of a value type is assignable to its own type and to an
unset slot only. -/
theorem assignable_preorder (hT : Built {} T)
    (hreferences : ∀ t, ∀ u ∈ T.supertypes t, ∃ name, u = .ref name)
    (hobject : T.supertypes T.object = [])
    (hboxes : ∀ content, .boxed content false ∈ T.known → content.valueKind ≠ .reference) :
    (∀ a ∈ T.known, T.assignable a a = true) ∧
      (∀ a ∈ T.known, ∀ b ∈ T.known, ∀ c ∈ T.known, T.assignable a b = true →
        T.assignable b c = true → T.assignable a c = true) ∧
      ∀ name b, T.assignable (.value name) b = true → b = .value name ∨ b = .top := by
  have hordered := hT.ordered hreferences hobject
  have hboxed : ∀ {t}, t ∈ T.known → t.wellBoxed = true := hT.partsKnown.wellBoxed hboxes
  refine ⟨fun a _ => assignable_iff.mpr (.refl a), fun a ha b hb c hc hab hbc => ?_, ?_⟩
  · rw [assignable_iff] at hab hbc ⊢
    exact hab.trans hordered hbc (hboxed ha) (hboxed hb) (hboxed hc)
  · intro name b h
    cases assignable_iff.mp h with
    | refl => exact .inl rfl
    | top => exact .inr rfl
    | object href => cases href
    | nominal ha => cases ha

/-- A value type that has an interface, and arrays of its boxes, of the interface and of
objects. -/
def boxesPoints : TypeTable :=
  (((((TypeTable.ofConfig {}).declareInterface "Shape" []).declareValue "Point"
    [.ref "Shape"]).intern (.array (.boxed (.value "Point") false) 1)).intern
    (.array (.ref "Shape") 1)).intern (.array (.ref "java/lang/Object") 1)

private theorem assignable_boxesPoints :
    boxesPoints.assignable (.array (.boxed (.value "Point") false) 1) (.array (.ref "Shape") 1)
        = true ∧
      boxesPoints.assignable (.array (.ref "Shape") 1) (.array (.ref "java/lang/Object") 1)
        = true := by
  have hsupertypes : boxesPoints.supertypes (.value "Point") = [.ref "Shape"] := by decide +kernel
  have hroot : boxesPoints.root ≠ some (.value "Point") := by decide +kernel
  have hobject : boxesPoints.objectClass = "java/lang/Object" := by decide +kernel
  refine ⟨assignable_iff.mpr (.array rfl rfl (.nominal rfl rfl ?_)), ?_⟩
  · refine .single ⟨hroot, ?_⟩
    show .ref "Shape" ∈ boxesPoints.supertypes (.value "Point")
    rw [hsupertypes]
    exact List.mem_singleton.mpr rfl
  · rw [← hobject]
    exact assignable_iff.mpr (.array rfl rfl (.object rfl nofun))

/-- An array of boxed instances is an array of objects, by way of the interface. -/
theorem assignable_preorder_boxesPoints :
    boxesPoints.assignable (.array (.boxed (.value "Point") false) 1) (.array (.ref "Shape") 1)
        = true ∧
      boxesPoints.assignable (.array (.boxed (.value "Point") false) 1)
        (.array (.ref "java/lang/Object") 1) = true := by
  have hbuilt : Built {} boxesPoints :=
    .intern _ (.intern _ (.intern _ (.declareValue _ (by decide +kernel)
      (.declareInterface _ nofun .start))))
  have hreferences : ∀ t, ∀ u ∈ boxesPoints.supertypes t, ∃ name, u = .ref name :=
    forall_supertypes (by simp [boxesPoints, declareInterface, declareValue, declareClass, declare,
      ofConfig, object])
  obtain ⟨hfirst, hsecond⟩ := assignable_boxesPoints
  have hboxes : ∀ content, .boxed content false ∈ boxesPoints.known →
      content.valueKind ≠ .reference := by
    intro content hmem
    have hknown : boxesPoints.known.all (fun t => t.wellBoxed) = true := by decide +kernel
    exact bne_iff_ne.mp (List.all_eq_true.mp hknown _ hmem)
  obtain ⟨-, htrans, -⟩ := assignable_preorder hbuilt hreferences (by decide +kernel) hboxes
  exact ⟨hfirst, htrans _ (by decide +kernel) _ (by decide +kernel) _ (by decide +kernel) hfirst
    hsecond⟩

end BytecodeBridge.TypeTable
