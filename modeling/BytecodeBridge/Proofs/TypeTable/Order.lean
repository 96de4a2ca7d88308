/-
Assignability is an order, and a join is an upper bound in it.

`assignable` is a decision procedure. What it decides is stated here as a
relation with one rule for each reason that a type may stand where another
is expected (`Fits`, `assignable_iff`). Between classes the reason is a way
up the declared supertypes, and the walk that looks for one finds it if
there is one (`reached_ancestors`).

Two properties make joins useful as a summary of many frames: whatever is
joined fits the join, and fitting is transitive. Neither holds for any
table and any types. A table has to be `Ordered`: supertypes are classes or
interfaces, and nothing stands above the universal object type. For fitting
to be transitive, a box has to hold a primitive or an instance of a value
type (`wellBoxed`); for a join to be an upper bound, the element of an array
has to be a type that values can have, too (`regular`).
-/
import BytecodeBridge.Proofs.TypeTable.Growth

namespace BytecodeBridge

-- ==== regular types

namespace Ty

/-- A type that an array may be made of. -/
def isElement : Ty → Bool
  | .array _ _ | .top | .uninitThis => false
  | _ => true

/-- Boxes hold primitives or instances of value types, and arrays are flat and have
elements that values can have. -/
def regular : Ty → Bool
  | .array element _ => element.isElement && element.regular
  | .boxed content false => content.valueKind != .reference
  | .boxed content true => content.regular
  | _ => true

/-- Boxes hold primitives or instances of value types. What a reference cell holds is not
looked at. -/
def wellBoxed : Ty → Bool
  | .array element _ => element.wellBoxed
  | .boxed content false => content.valueKind != .reference
  | _ => true

theorem wellBoxed_of_regular {t : Ty} (h : t.regular = true) : t.wellBoxed = true := by
  induction t with
  | array element rank ih => exact ih (Bool.and_eq_true_iff.mp h).2
  | boxed content byRef =>
    cases byRef with
    | false => exact h
    | true => rfl
  | _ => rfl

/-- A class, an interface or a box. The type of null is counted with them. -/
def isNominal : Ty → Bool
  | .ref _ | .boxed _ _ | .null => true
  | _ => false

theorem isReference_of_isNominal {t : Ty} (h : t.isNominal = true) :
    t.isReference = true ∧ t ≠ .uninitThis := by
  cases t with
  | ref | boxed | null => exact ⟨rfl, nofun⟩
  | _ => cases h

end Ty

namespace TypeTable

variable {T : TypeTable}

-- ==== fitting

/-- A value of the first type may stand where the second is expected. -/
inductive Fits (T : TypeTable) : Ty → Ty → Prop where
  | refl (a : Ty) : Fits T a a
  | top (a : Ty) : Fits T a .top
  /-- numbers that are held on the stack in one way -/
  | prim {x y : Prim} (h : x.stackKind = y.stackKind) : Fits T (.prim x) (.prim y)
  | null {b : Ty} (href : b.isReference = true) (hinit : b ≠ .uninitThis) : Fits T .null b
  | object {a : Ty} (href : a.isReference = true) (hinit : a ≠ .uninitThis) :
      Fits T a (.ref T.objectClass)
  /-- arrays follow their elements -/
  | array {ea eb : Ty} {rank : Nat} (ha : ea.isReference = true) (hb : eb.isReference = true)
      (h : Fits T ea eb) : Fits T (.array ea rank) (.array eb rank)
  /-- an array of arrays is an array of objects -/
  | rank {e : Ty} {ra rb : Nat} (h : rb < ra) :
      Fits T (.array e ra) (.array (.ref T.objectClass) rb)
  | nominal {a b : Ty} (ha : a.isNominal = true) (hb : b.isNominal = true)
      (h : T.Reaches (T.classOf a) (T.classOf b)) : Fits T a b

/-- What is assignable fits for one of the reasons, if what is assignable to elements does. -/
private theorem fits_step {a b : Ty}
    (ih : ∀ ea ra eb, a = .array ea ra → T.assignable ea eb = true → T.Fits ea eb)
    (h : T.assignable a b = true) : T.Fits a b := by
  unfold assignable at h
  rw [Bool.or_eq_true, Bool.or_eq_true, beq_iff_eq] at h
  rcases h with (rfl | htop) | h
  · exact .refl _
  · cases b with
    | top => exact .top _
    | _ => cases htop
  · split at h
    · exact .prim (beq_iff_eq.mp h)
    · cases h
    · cases h
    · cases h
    · cases h
    · next hinit => exact .null h hinit
    · next ea ra eb rb =>
      split at h
      · next hrank =>
        subst hrank
        split at h
        · next href =>
          obtain ⟨hea, heb⟩ := Bool.and_eq_true_iff.mp href
          exact .array hea heb (ih ea ra eb rfl h)
        · rw [beq_iff_eq.mp h]
          exact .refl _
      · obtain ⟨hlt, hobject⟩ := Bool.and_eq_true_iff.mp h
        rw [beq_iff_eq.mp hobject]
        exact .rank (decide_eq_true_iff.mp hlt)
    · next _ hinit _ _ _ _ _ =>
      split at h
      · next hobject =>
        rw [hobject]
        exact .object h hinit
      · split at h
        · cases h
        · cases h
        · cases h
        · cases h
        · -- classes, interfaces and boxes are left
          unfold below at h
          rw [Bool.and_eq_true, Bool.and_eq_true] at h
          refine .nominal ?_ ?_ (reached_ancestors.mp h.2)
          · cases a <;> simp_all [Ty.isNominal, Ty.isReference]
          · cases b <;> simp_all [Ty.isNominal, Ty.isReference]

theorem fits_of_assignable {a b : Ty} (h : T.assignable a b = true) : T.Fits a b := by
  induction a generalizing b with
  | array ea ra ih =>
    refine fits_step (fun ea' ra' eb heq hea => ?_) h
    cases heq
    exact ih hea
  | _ => exact fits_step nofun h

/-- A decision of `assignable`, read as a reason to fit. -/
theorem assignable_iff {a b : Ty} : T.assignable a b = true ↔ T.Fits a b := by
  refine ⟨fits_of_assignable, fun h => ?_⟩
  induction h with
  | refl a =>
    unfold assignable
    simp
  | top a =>
    unfold assignable
    simp [Ty.isTop]
  | prim h => simp [assignable, h]
  | @null b href hinit =>
    cases b with
    | prim | value | top => cases href
    | uninitThis => exact absurd rfl hinit
    | _ => simp [assignable, Ty.isReference]
  | @object a href hinit =>
    cases a with
    | prim | value | top => cases href
    | uninitThis => exact absurd rfl hinit
    | _ => simp [assignable, object, Ty.isReference]
  | array ha hb _ ih => simp [assignable, ha, hb, ih]
  | @rank e ra rb h =>
    have hne : ra ≠ rb := Nat.ne_of_gt h
    simp [assignable, object, hne, h]
  | @nominal a b ha hb h =>
    have hbelow : T.below a b = true := by
      unfold below
      rw [(Ty.isReference_of_isNominal ha).1, (Ty.isReference_of_isNominal hb).1,
        reached_ancestors.mpr h]
      rfl
    cases a with
    | ref | boxed | null =>
      cases b with
      | ref | boxed | null => simp [assignable, hbelow, Ty.isReference]
      | _ => cases hb
    | _ => cases ha

-- ==== ordered tables

/-- A type answers to its own hierarchy, except for boxes: they answer to that of a
wrapper class, or to that of the value type they hold. -/
theorem classOf_cases {a : Ty} (ha : a.wellBoxed = true) :
    T.classOf a = a ∨ (∃ k, a = .boxed (.prim k) false ∧ T.classOf a = .ref k.wrapper) ∨
      ∃ name, a = .boxed (.value name) false ∧ T.classOf a = .value name := by
  cases a with
  | boxed content byRef =>
    cases byRef with
    | true => exact .inl (by simp [classOf])
    | false =>
      cases content with
      | prim k =>
        unfold classOf
        dsimp only
        split
        · exact .inr (.inl ⟨k, rfl, rfl⟩)
        · exact .inl rfl
      | value name => exact .inr (.inr ⟨name, rfl, rfl⟩)
      | _ => cases ha
  | _ => exact .inl rfl

/-- Classes and value types are declared below classes and interfaces, and nothing
stands above the universal object type, which is not the class of a box. -/
structure Ordered (T : TypeTable) : Prop where
  named : ∀ t, T.supertypes t ≠ [] → (∃ name, t = .ref name) ∨ ∃ name, t = .value name
  references : ∀ t, ∀ u ∈ T.supertypes t, ∃ name, u = .ref name
  object : T.supertypes T.object = []
  wrapper : ∀ k : Prim, k.wrapper ≠ T.objectClass

namespace Ordered

variable (hT : T.Ordered) {a b c : Ty}
include hT

theorem eq_or_ref (h : T.Reaches a b) : b = a ∨ ∃ name, b = .ref name := by
  rcases h.cases_tail with rfl | ⟨t, -, hup⟩
  · exact .inl rfl
  · exact .inr (hT.references t b hup.2)

theorem eq_object (h : T.Reaches T.object b) : b = T.object := by
  rcases h.cases_head with rfl | ⟨t, hup, -⟩
  · rfl
  · have hmem := hup.2
    rw [hT.object] at hmem
    cases hmem

/-- Nothing but the universal object type takes all that it takes. -/
theorem eq_of_object_fits (hc : c.wellBoxed = true) (h : T.Fits (.ref T.objectClass) c) :
    c = .ref T.objectClass ∨ c = .top := by
  cases h with
  | refl => exact .inl rfl
  | top => exact .inr rfl
  | object => exact .inl rfl
  | nominal ha hb hreach =>
    have hclass : T.classOf c = .ref T.objectClass := hT.eq_object hreach
    rcases classOf_cases (T := T) hc with heq | ⟨k, -, heq⟩ | ⟨name, -, heq⟩
    · exact .inl (heq.symm.trans hclass)
    · exact absurd (Ty.ref.inj (heq.symm.trans hclass)) (hT.wrapper k)
    · cases heq.symm.trans hclass

theorem eq_null_of_reaches (ha : a.wellBoxed = true) (h : T.Reaches (T.classOf a) .null) :
    a = .null := by
  rcases hT.eq_or_ref h with hclass | ⟨name, heq⟩
  · rcases classOf_cases (T := T) ha with heq | ⟨k, -, heq⟩ | ⟨name, -, heq⟩
    · exact heq.symm.trans hclass.symm
    · cases hclass.trans heq
    · cases hclass.trans heq
  · cases heq

end Ordered

/-- Fitting is transitive. -/
theorem Fits.trans (hT : T.Ordered) {a b c : Ty} (hab : T.Fits a b) (hbc : T.Fits b c)
    (ha : a.wellBoxed = true) (hb : b.wellBoxed = true) (hc : c.wellBoxed = true) :
    T.Fits a c := by
  induction hab generalizing c with
  | refl => exact hbc
  | top =>
    cases hbc with
    | refl | top => exact .top _
    | object href => cases href
    | nominal ha => cases ha
  | prim h =>
    cases hbc with
    | refl => exact .prim h
    | top => exact .top _
    | prim h' => exact .prim (h.trans h')
    | object href => cases href
    | nominal ha => cases ha
  | null href hinit =>
    cases hbc with
    | refl => exact .null href hinit
    | top => exact .top _
    | prim => cases href
    | null href' hinit' => exact .null href' hinit'
    | object | array | rank => exact .null rfl nofun
    | nominal _ hc' =>
      exact .null (Ty.isReference_of_isNominal hc').1 (Ty.isReference_of_isNominal hc').2
  | object href hinit =>
    rcases hT.eq_of_object_fits hc hbc with rfl | rfl
    · exact .object href hinit
    · exact .top _
  | array hea heb h ih =>
    cases hbc with
    | refl => exact .array hea heb h
    | top => exact .top _
    | object => exact .object rfl nofun
    | array _ hec h' =>
      exact .array hea hec (ih h' ha hb hc)
    | rank hlt => exact .rank hlt
    | nominal ha' => cases ha'
  | rank hlt =>
    cases hbc with
    | refl => exact .rank hlt
    | top => exact .top _
    | object => exact .object rfl nofun
    | @array _ ec _ _ hec h' =>
      have hboxes : ec.wellBoxed = true := hc
      rcases hT.eq_of_object_fits hboxes h' with rfl | rfl
      · exact .rank hlt
      · cases hec
    | rank hlt' => exact .rank (Nat.lt_trans hlt' hlt)
    | nominal ha' => cases ha'
  | nominal ha' hb' h =>
    cases hbc with
    | refl => exact .nominal ha' hb' h
    | top => exact .top _
    | prim => cases hb'
    | null href hinit =>
      rw [hT.eq_null_of_reaches ha h]
      exact .null href hinit
    | object =>
      exact .object (Ty.isReference_of_isNominal ha').1 (Ty.isReference_of_isNominal ha').2
    | array | rank => cases hb'
    | nominal _ hc' h' => exact .nominal ha' hc' (h.trans h')

-- ==== joins

theorem regular_element {e : Ty} {rank : Nat} (h : (Ty.array e rank).regular = true) :
    e.isElement = true ∧ e.regular = true :=
  Bool.and_eq_true_iff.mp h

/-- The regular type of a reference to an initialised object. -/
structure Held (a : Ty) : Prop where
  regular : a.regular = true
  reference : a.isReference = true
  initialised : a ≠ .uninitThis

theorem Held.of_element {e : Ty} {rank : Nat} (h : Held (.array e rank))
    (href : e.isReference = true) : Held e := by
  obtain ⟨helement, hregular⟩ := regular_element h.regular
  refine ⟨hregular, href, ?_⟩
  rintro rfl
  cases helement

/-- A type that takes values of two others. -/
structure Bounds (T : TypeTable) (a b c : Ty) : Prop where
  left : T.Fits a c
  right : T.Fits b c
  held : Held c
  element : a.isElement = true → b.isElement = true → c.isElement = true

variable {a b : Ty}

theorem bounds_object (ha : Held a) (hb : Held b) : T.Bounds a b T.object :=
  ⟨.object ha.reference ha.initialised, .object hb.reference hb.initialised, ⟨rfl, rfl, nofun⟩,
    fun _ _ => rfl⟩

/-- Types of one class are equal, unless the class is named. -/
private theorem eq_of_classOf {t : Ty} (ha : Held a) (hb : Held b) (hclassa : t = T.classOf a)
    (hclassb : t = T.classOf b) (ht : ∀ name, t ≠ .ref name) : a = b := by
  have hcases : ∀ {c}, Held c → _ := fun hc =>
    classOf_cases (T := T) (Ty.wellBoxed_of_regular hc.regular)
  rcases hcases ha with heqa | ⟨k, -, heqa⟩ | ⟨n, hboxa, heqa⟩
  · rcases hcases hb with heqb | ⟨k, -, heqb⟩ | ⟨m, -, heqb⟩
    · exact heqa.symm.trans (hclassa.symm.trans (hclassb.trans heqb))
    · exact absurd (hclassb.trans heqb) (ht _)
    · have hvalue := heqa.symm.trans (hclassa.symm.trans (hclassb.trans heqb))
      exact absurd ha.reference (hvalue ▸ nofun)
  · exact absurd (hclassa.trans heqa) (ht _)
  · rcases hcases hb with heqb | ⟨k, -, heqb⟩ | ⟨m, hboxb, heqb⟩
    · have hvalue := heqb.symm.trans (hclassb.symm.trans (hclassa.trans heqa))
      exact absurd hb.reference (hvalue ▸ nofun)
    · exact absurd (hclassb.trans heqb) (ht _)
    · cases (hclassa.trans heqa).symm.trans (hclassb.trans heqb)
      rw [hboxa, hboxb]

section Joins

variable (hT : T.Ordered)
include hT

/-- What leads to a named type is a class or a box. -/
private theorem isNominal_of_reaches (ha : Held a) {name : String}
    (h : T.Reaches (T.classOf a) (.ref name)) : a.isNominal = true := by
  -- other types have no supertypes, so they lead nowhere
  have hnowhere : (∀ name, a ≠ .ref name) → (∀ name, a ≠ .value name) → T.classOf a = a →
      a.isNominal = true := by
    intro href hvalue hclass
    rw [hclass] at h
    rcases h.cases_head with rfl | ⟨t, hup, -⟩
    · rfl
    · rcases hT.named a (List.ne_nil_of_mem hup.2) with ⟨name, rfl⟩ | ⟨name, rfl⟩
      · exact absurd rfl (href name)
      · exact absurd rfl (hvalue name)
  cases a with
  | ref | boxed | null => rfl
  | _ => exact hnowhere nofun (fun _ heq => absurd ha.reference (heq ▸ nofun)) rfl

/-- The nearest type reachable from both takes values of both. -/
private theorem bounds_nearest (hne : a ≠ b) (ha : Held a) (hb : Held b) :
    T.Bounds a b (T.nearest a b) := by
  rcases exists_way_nearest T a b with heq | ⟨_, _, hwaya, hwayb⟩
  · exact heq ▸ bounds_object ha hb
  · generalize T.nearest a b = t at hwaya hwayb ⊢
    obtain ⟨name, rfl⟩ : ∃ name, t = .ref name := by
      rcases hT.eq_or_ref hwaya.reaches with hclassa | hname
      · rcases hT.eq_or_ref hwayb.reaches with hclassb | hname
        · refine Classical.byContradiction fun hnone => hne ?_
          exact eq_of_classOf ha hb hclassa hclassb fun name heq => hnone ⟨name, heq⟩
        · exact hname
      · exact hname
    exact ⟨.nominal (isNominal_of_reaches hT ha hwaya.reaches) rfl hwaya.reaches,
      .nominal (isNominal_of_reaches hT hb hwayb.reaches) rfl hwayb.reaches, ⟨rfl, rfl, nofun⟩,
      fun _ _ => rfl⟩

/-- A common supertype takes values of both, if one of elements does. -/
private theorem bounds_step
    (ih : ∀ ea ra eb, a = .array ea ra → Held ea → Held eb →
      T.Bounds ea eb (T.commonSupertype ea eb)) (ha : Held a) (hb : Held b) :
    T.Bounds a b (T.commonSupertype a b) := by
  unfold commonSupertype
  split
  · next heq => exact ⟨.refl a, heq ▸ .refl a, ha, fun helement _ => helement⟩
  · next hne =>
    split
    · rw [if_pos hb.reference]
      exact ⟨.null hb.reference hb.initialised, .refl _, hb, fun _ helement => helement⟩
    · rw [if_pos ha.reference]
      exact ⟨.refl _, .null ha.reference ha.initialised, ha, fun helement _ => helement⟩
    · next ea ra eb rb =>
      split
      · next hboth =>
        simp only [Bool.and_eq_true, decide_eq_true_eq] at hboth
        obtain ⟨⟨rfl, hea⟩, heb⟩ := hboth
        have hbounds := ih ea ra eb rfl (ha.of_element hea) (hb.of_element heb)
        have helement := hbounds.element (regular_element ha.regular).1
          (regular_element hb.regular).1
        have harray : (T.commonSupertype ea eb).arrayOf ra
            = .array (T.commonSupertype ea eb) ra := by
          unfold Ty.arrayOf
          split
          · next heq =>
            rw [heq] at helement
            cases helement
          · rfl
        rw [harray]
        refine ⟨.array hea hbounds.held.reference hbounds.left,
          .array heb hbounds.held.reference hbounds.right, ⟨?_, rfl, nofun⟩, nofun⟩
        exact Bool.and_eq_true_iff.mpr ⟨helement, hbounds.held.regular⟩
      · exact bounds_object ha hb
    · unfold commonOfFlat
      split
      · exact bounds_object ha hb
      · exact bounds_object ha hb
      · exact bounds_nearest hT hne ha hb

private theorem bounds_commonSupertype (ha : Held a) (hb : Held b) :
    T.Bounds a b (T.commonSupertype a b) := by
  induction a generalizing b with
  | array ea ra ih =>
    refine bounds_step hT (fun ea' ra' eb heq hea heb => ?_) ha hb
    cases heq
    exact ih hea heb
  | _ => exact bounds_step hT nofun ha hb

/-- What is joined fits the join. -/
theorem fits_join (ha : a.regular = true) (hb : b.regular = true) :
    T.Fits a (T.join a b) ∧ T.Fits b (T.join a b) ∧ (T.join a b).regular = true := by
  by_cases htop : T.join a b = .top
  · rw [htop]
    exact ⟨.top _, .top _, rfl⟩
  rcases join_cases T a b with ⟨rfl, heq⟩ | heq | ⟨x, y, rfl, rfl, hkind, heq⟩ | ⟨hrefa, hrefb, heq⟩
  · rw [heq]
    exact ⟨.refl _, .refl _, ha⟩
  · exact absurd heq htop
  · have hsame : ∀ k : Prim, k.stackKind = k.numKind.prim.stackKind := by
      intro k
      show StackKind.num k.numKind = StackKind.num k.numKind.prim.numKind
      rw [NumKind.numKind_prim]
    rw [heq]
    exact ⟨.prim (hsame x), .prim (hkind ▸ hsame y), rfl⟩
  · by_cases hsame : a = b
    · rw [hsame, show T.join b b = b from if_pos rfl]
      exact ⟨.refl _, .refl _, hb⟩
    · -- an object that is not initialised has a join with itself only
      have hinit : a ≠ .uninitThis ∧ b ≠ .uninitThis := by
        refine ⟨?_, ?_⟩
        · rintro rfl
          refine htop ?_
          unfold join
          rw [if_neg hsame]
          cases b <;> rfl
        · rintro rfl
          refine htop ?_
          unfold join
          rw [if_neg hsame]
          cases a <;> rfl
      have hbounds := bounds_commonSupertype hT ⟨ha, hrefa, hinit.1⟩ ⟨hb, hrefb, hinit.2⟩
      rw [heq]
      exact ⟨hbounds.left, hbounds.right, hbounds.held.regular⟩

end Joins

-- ==== built tables

/-- Only classes, interfaces and value types are declared. -/
def Named (T : TypeTable) : Prop :=
  ∀ e ∈ T.classes, (∃ name, e.1 = .ref name) ∨ ∃ name, e.1 = .value name

theorem Named.intern (h : T.Named) (t : Ty) : (T.intern t).Named := by
  unfold Named
  rw [classes_intern]
  exact h

theorem Named.declare (h : T.Named) {t : Ty}
    (ht : (∃ name, t = .ref name) ∨ ∃ name, t = .value name) (d : Declaration) :
    (T.declare t d).Named :=
  List.forall_mem_cons.mpr ⟨ht, h.intern t⟩

theorem Named.declareClass (h : T.Named) (name : String) (base : Option Ty)
    (interfaces : List Ty) : (T.declareClass name base interfaces).Named :=
  h.declare (.inl ⟨name, rfl⟩) _

/-- The table a program starts from declares classes, and has the universal object type
of the configuration. -/
private theorem named_ofConfig (c : Config) :
    (ofConfig c).Named ∧ (ofConfig c).object = .ref c.objectClass := by
  let T₀ : TypeTable :=
    { known := [.ref c.objectClass]
      classes := [(.ref c.objectClass, ⟨.class_, []⟩)]
      objectClass := c.objectClass
      throwable := .ref c.throwableClass
      root := none
      cellClass := c.referenceCellClass }
  have h₀ : T₀.Named := fun e he => .inl ⟨_, congrArg Prod.fst (List.mem_singleton.mp he)⟩
  have h₁ := h₀.declareClass c.throwableClass none []
  have hlast : ∀ T : TypeTable, T.Named ∧ T.object = .ref c.objectClass →
      ((T.declareClass c.stringClass none []).declareClass c.leaveSentinel.owner
        (some (.ref c.throwableClass)) []).Named ∧
      ((T.declareClass c.stringClass none []).declareClass c.leaveSentinel.owner
        (some (.ref c.throwableClass)) []).object = .ref c.objectClass := by
    intro T h
    refine ⟨(h.1.declareClass _ _ _).declareClass _ _ _, ?_⟩
    exact (object_declare _ _).trans ((object_declare _ _).trans h.2)
  unfold ofConfig
  refine hlast _ ?_
  split
  · split
    · exact ⟨h₁, object_declare _ _⟩
    · exact ⟨h₁.declareClass _ _ _, (object_intern _).trans (object_declare _ _)⟩
  · exact ⟨h₁, object_declare _ _⟩

theorem Built.named {c : Config} (h : Built c T) : T.Named ∧ T.object = .ref c.objectClass := by
  induction h with
  | start => exact named_ofConfig c
  | intern t _ ih => exact ⟨ih.1.intern t, (object_intern t).trans ih.2⟩
  | declareClass name _ _ ih =>
    exact ⟨ih.1.declareClass name _ _, (object_declare _ _).trans ih.2⟩
  | declareInterface name _ _ ih =>
    exact ⟨ih.1.declare (.inl ⟨name, rfl⟩) _, (object_declare _ _).trans ih.2⟩
  | declareValue name _ _ ih =>
    exact ⟨ih.1.declare (.inr ⟨name, rfl⟩) _, (object_declare _ _).trans ih.2⟩

/-- A table that a program makes from the standard configuration is ordered, if it
declares classes and interfaces as supertypes and none for the universal object type. -/
theorem Built.ordered (h : Built {} T)
    (hreferences : ∀ t, ∀ u ∈ T.supertypes t, ∃ name, u = .ref name)
    (hobject : T.supertypes T.object = []) : T.Ordered where
  named t ht := by
    unfold supertypes declaration? at ht
    split at ht
    · next d hd => exact h.named.1 (t, d) (mem_of_lookup hd)
    · exact absurd rfl ht
  references := hreferences
  object := hobject
  wrapper k := by
    have hname : T.objectClass = ({} : Config).objectClass := Ty.ref.inj h.named.2
    rw [hname]
    cases k <;> decide

end TypeTable

end BytecodeBridge
