/-
Merges do not depend on which side is which.

The nearest common supertype is looked for among candidates, and these come
in whatever order the walk from one of the two sides lists them. What is
found is a candidate that none is preferred to (`isLE_of_best`). There is at
most one, since the preference tells apart any two candidates: declared
supertypes are known, and known types differ in their place
(`eq_of_preference`). So neither the order of the candidates matters nor the
side that the walk starts from, and this carries over to joins and merges,
and to the types that they make.
-/
import Mathlib.Data.List.Zip
import BytecodeBridge.Proofs.Frame.Locals
import BytecodeBridge.Proofs.TypeTable.Nearest

namespace BytecodeBridge

namespace TypeTable

variable {T : TypeTable} {a b : Ty}

-- ==== preference

private theorem preference_eq (T : TypeTable) : T.preference =
    compareLex (compareOn Candidate.distance)
      (compareLex (compareOn fun c => T.declarationRank c.ty)
        (compareLex (compareOn fun c => c.ty.describe) (compareOn fun c => T.idOf c.ty))) :=
  rfl

instance (T : TypeTable) : Std.TransCmp T.preference := by
  rw [preference_eq]
  infer_instance

/-- The preference tells candidates apart. -/
theorem eq_of_preference (hT : T.Rooted) {c d : Candidate} (hc : c ∈ T.candidates a b)
    (hd : d ∈ T.candidates a b) (h : T.preference c d = .eq) : c = d := by
  unfold preference at h
  simp only [Ordering.then_eq_eq, Nat.compare_eq_eq] at h
  obtain ⟨hdistance, -, -, hid⟩ := h
  obtain ⟨hcknown, hczero⟩ := mem_candidates hT hc
  obtain ⟨hdknown, hdzero⟩ := mem_candidates hT hd
  have hsame : c.distance = 0 → c.ty = d.ty := fun hzero =>
    (hczero hzero).trans (hdzero (hdistance ▸ hzero)).symm
  have hty : c.ty = d.ty := by
    rcases hcknown with hcknown | hzero
    · rcases hdknown with hdknown | hzero
      · -- a place in the order of mention has one type
        exact (List.idxOf_inj hcknown).mp hid
      · exact hsame (hdistance.trans hzero)
    · exact hsame hzero
  exact congrArg₂ Candidate.mk hdistance hty

/-- No candidate is preferred to the one that is found. -/
private theorem isLE_of_best {l : List Candidate} {c : Candidate} (h : T.best l = some c) :
    ∀ d ∈ l, (T.preference c d).isLE = true := by
  cases l with
  | nil => cases h
  | cons first rest =>
    cases h
    induction rest generalizing first with
    | nil =>
      intro d hd
      rw [List.mem_singleton.mp hd]
      exact Std.ReflCmp.isLE_rfl
    | cons z rest ih =>
      rw [List.foldl_cons]
      -- of the two that are compared first, the one kept is preferred to neither less
      have hkept : (T.preference (if T.preference z first = .lt then z else first)
          first).isLE = true ∧
          (T.preference (if T.preference z first = .lt then z else first) z).isLE = true := by
        split
        · next hlt => exact ⟨by rw [hlt]; rfl, Std.ReflCmp.isLE_rfl⟩
        · next hge =>
          refine ⟨Std.ReflCmp.isLE_rfl, ?_⟩
          have hswap : T.preference first z = (T.preference z first).swap :=
            Std.OrientedCmp.eq_swap
          rw [hswap]
          cases hcompare : T.preference z first with
          | lt => exact absurd hcompare hge
          | eq | gt => rfl
      have hbest := ih (if T.preference z first = .lt then z else first)
      have hfirst := hbest _ (.head _)
      intro d hd
      rcases List.mem_cons.mp hd with rfl | hd
      · exact Std.TransCmp.isLE_trans hfirst hkept.1
      · rcases List.mem_cons.mp hd with rfl | hd
        · exact Std.TransCmp.isLE_trans hfirst hkept.2
        · exact hbest d (.tail _ hd)

/-- Candidates in another order, or found from the other side, have the same best. -/
theorem best_congr {l l' : List Candidate} (hsame : ∀ c, c ∈ l ↔ c ∈ l')
    (hapart : ∀ c ∈ l, ∀ d ∈ l, T.preference c d = .eq → c = d) : T.best l = T.best l' := by
  cases hbest : T.best l with
  | none =>
    cases l with
    | nil =>
      have hnil : l' = [] := List.eq_nil_iff_forall_not_mem.mpr fun c hc =>
        absurd ((hsame c).mpr hc) List.not_mem_nil
      rw [hnil]
      rfl
    | cons => cases hbest
  | some c =>
    have hc := mem_of_best hbest
    cases hbest' : T.best l' with
    | none =>
      cases l' with
      | nil => exact absurd ((hsame c).mp hc) List.not_mem_nil
      | cons => cases hbest'
    | some d =>
      have hd := (hsame d).mpr (mem_of_best hbest')
      have hle := isLE_of_best hbest d hd
      have hge := isLE_of_best hbest' c ((hsame c).mp hc)
      rw [hapart c hc d hd (Std.OrientedCmp.isLE_antisymm hle hge)]

-- ==== joins

private theorem mem_candidates_comm (c : Candidate) :
    c ∈ T.candidates a b ↔ c ∈ T.candidates b a := by
  have hswap : ∀ {a b : Ty}, c ∈ T.candidates a b → c ∈ T.candidates b a := by
    intro a b hc
    obtain ⟨hobject, m, n, hm, hn, hsum⟩ := mem_candidates_iff.mp hc
    exact mem_candidates_iff.mpr ⟨hobject, n, m, hn, hm, hsum.trans (Nat.add_comm m n)⟩
  exact ⟨hswap, hswap⟩

section Joins

variable (hT : T.Rooted)
include hT

private theorem best_of_perm {l : List Candidate} (hl : l.Perm (T.candidates a b)) :
    T.best l = T.best (T.candidates a b) := by
  refine best_congr (fun c => hl.mem_iff) fun c hc d hd => ?_
  exact eq_of_preference hT (hl.mem_iff.mp hc) (hl.mem_iff.mp hd)

private theorem nearest_comm (a b : Ty) : T.nearest a b = T.nearest b a := by
  unfold nearest
  rw [best_congr mem_candidates_comm fun c hc d hd => eq_of_preference hT hc hd]

private theorem commonOfFlat_comm (a b : Ty) : T.commonOfFlat a b = T.commonOfFlat b a := by
  cases a <;> cases b <;> first | rfl | exact nearest_comm hT _ _

theorem commonSupertype_comm (a b : Ty) : T.commonSupertype a b = T.commonSupertype b a := by
  induction a generalizing b with
  | array ea ra ih =>
    by_cases hne : .array ea ra = b
    · rw [hne]
    · cases b with
      | array eb rb =>
        unfold commonSupertype
        rw [if_neg hne, if_neg (Ne.symm hne)]
        dsimp only
        rw [ih eb]
        by_cases hrank : ra = rb
        · subst hrank
          simp only [decide_true, Bool.true_and, Bool.and_comm]
        · simp [hrank, Ne.symm hrank]
      | _ => simp [commonSupertype, commonOfFlat_comm hT (.array ea ra)]
  | _ =>
    have hflat := commonOfFlat_comm hT
    cases b <;> simp only [commonSupertype] <;> grind

theorem join_comm (a b : Ty) : T.join a b = T.join b a := by
  by_cases heq : a = b
  · rw [heq]
  · unfold join
    rw [if_neg heq, if_neg (Ne.symm heq)]
    have hcommon := commonSupertype_comm hT a b
    cases a with
    | prim x =>
      cases b with
      | prim y => cases x <;> cases y <;> rfl
      | _ => rfl
    | _ => cases b <;> simp [Ty.isReference, hcommon]

theorem joinMakes_comm (a b : Ty) : T.joinMakes a b = T.joinMakes b a := by
  unfold joinMakes
  rw [join_comm hT a b]

end Joins

end TypeTable

-- ==== merges

namespace SlotMap

variable {α β : Type}

/-- What two maps have at the slots that both of them set. -/
def zip (m : SlotMap α) (n : SlotMap β) : SlotMap (α × β) :=
  m.filterMap fun slot x => (n.get? slot).map fun y => (x, y)

theorem get?_zip (m : SlotMap α) (n : SlotMap β) (k : Nat) :
    (m.zip n).get? k = (m.get? k).bind fun x => (n.get? k).map fun y => (x, y) :=
  get?_filterMap ..

theorem zip_comm (m : SlotMap α) (n : SlotMap β) : n.zip m = (m.zip n).map fun _ => Prod.swap := by
  refine ext fun k => ?_
  rw [get?_map, get?_zip, get?_zip]
  cases m.get? k <;> cases n.get? k <;> rfl

end SlotMap

namespace Frame

open TypeTable SlotMap

variable {T : TypeTable} {a b : Frame}

private theorem mergeLocals_eq (T : TypeTable) (m n : SlotMap Ty) : mergeLocals T m n
    = (m.zip n).filterMap fun _ p =>
      if (T.join p.1 p.2).isTop then none else some (T.join p.1 p.2) := by
  refine ext fun k => ?_
  unfold mergeLocals
  rw [get?_filterMap, get?_filterMap, get?_zip]
  cases m.get? k <;> cases n.get? k <;> rfl

private theorem flatMap_zip (f : Ty → Ty → List Ty) (m n : SlotMap Ty) :
    (m.entries.flatMap fun e =>
      match n.get? e.1 with
      | some y => f e.2 y
      | none => []) = (m.zip n).entries.flatMap fun e => f e.2.1 e.2.2 := by
  show _ = (m.entries.filterMap _).flatMap _
  induction m.entries with
  | nil => rfl
  | cons e rest ih =>
    rw [List.flatMap_cons, ih]
    cases hk : n.get? e.1 <;> simp [hk]

section Merges

variable (hT : T.Rooted)
include hT

theorem StackMerge.swap {x y r : List Ty} (h : StackMerge T x y r) : StackMerge T y x r := by
  induction h with
  | nil => exact .nil
  | cons hwidth _ ih =>
    rw [T.join_comm hT]
    exact .cons hwidth.symm ih

private theorem mergeLocals_comm (m n : SlotMap Ty) : mergeLocals T m n = mergeLocals T n m := by
  rw [mergeLocals_eq, mergeLocals_eq, zip_comm m n]
  refine ext fun k => ?_
  rw [get?_filterMap, get?_filterMap, get?_map]
  cases (m.zip n).get? k with
  | none => rfl
  | some p =>
    show _ = if (T.join p.2 p.1).isTop then none else some (T.join p.2 p.1)
    rw [T.join_comm hT p.2 p.1]
    rfl

private theorem merge_swap {f : Frame} (h : a.merge T b = .ok f) : b.merge T a = .ok f := by
  obtain ⟨hstack, hlocals⟩ := merge_eq_ok_iff.mp h
  exact merge_eq_ok_iff.mpr ⟨hstack.swap hT, (mergeLocals_comm hT _ _).trans hlocals⟩

private theorem mergeMakes_comm (a b : Frame) : a.mergeMakes T b = b.mergeMakes T a := by
  have hfitting : ((b.stack.zip a.stack).reverse.takeWhile fun p => p.1.category = p.2.category)
      = ((a.stack.zip b.stack).reverse.takeWhile fun p => p.1.category = p.2.category).map
          Prod.swap := by
    rw [← List.zip_swap, ← List.map_reverse, List.takeWhile_map]
    congr 2
    funext p
    exact decide_eq_decide.mpr eq_comm
  have hstack : ∀ fitting : List (Ty × Ty),
      (fitting.map Prod.swap).flatMap (fun p => T.joinMakes p.1 p.2)
        = fitting.flatMap fun p => T.joinMakes p.1 p.2 := by
    intro fitting
    rw [List.flatMap_map]
    exact congrArg (List.flatMap · _) (funext fun p => T.joinMakes_comm hT _ _)
  have hlocals : (b.locals.zip a.locals).entries.flatMap (fun e => T.joinMakes e.2.1 e.2.2)
      = (a.locals.zip b.locals).entries.flatMap fun e => T.joinMakes e.2.1 e.2.2 := by
    rw [zip_comm a.locals b.locals]
    show ((a.locals.zip b.locals).entries.map _).flatMap _ = _
    rw [List.flatMap_map]
    exact congrArg (List.flatMap · _) (funext fun e => T.joinMakes_comm hT _ _)
  unfold mergeMakes
  by_cases hlength : a.stack.length = b.stack.length
  · rw [if_pos hlength, if_pos hlength.symm]
    dsimp only
    rw [hfitting, hstack, List.length_map, hlength]
    split
    · refine congrArg (_ ++ ·) ?_
      exact (flatMap_zip T.joinMakes ..).trans
        (hlocals.symm.trans (flatMap_zip T.joinMakes ..).symm)
    · rfl
  · rw [if_neg hlength, if_neg (Ne.symm hlength)]

end Merges

/-- In a table that a program makes, common supertypes, joins and merges are the same with
the sides exchanged, and so is what is known afterwards. In whatever order the candidates
are looked at, the same one is found. A frame without unset locals merges with itself into
itself. -/
theorem merge_symmetric {c : Config} (hT : Built c T) (x y : Ty) (a b : Frame) :
    (T.commonSupertype x y = T.commonSupertype y x ∧
        T.intern (T.commonSupertype x y) = T.intern (T.commonSupertype y x)) ∧
      (T.join x y = T.join y x ∧
        T.addAll (T.joinMakes x y).reverse = T.addAll (T.joinMakes y x).reverse) ∧
      (∀ l, l.Perm (T.candidates x y) →
        (T.best l).elim T.object Candidate.ty = T.nearest x y) ∧
      ((∀ f, a.merge T b = .ok f ↔ b.merge T a = .ok f) ∧
        T.addAll (a.mergeMakes T b).reverse = T.addAll (b.mergeMakes T a).reverse) ∧
      ((∀ slot, a.locals.get? slot ≠ some .top) → a.merge T a = .ok a) := by
  have hrooted := hT.equipped.toRooted
  refine ⟨⟨T.commonSupertype_comm hrooted x y, ?_⟩, ⟨T.join_comm hrooted x y, ?_⟩, ?_, ⟨?_, ?_⟩, ?_⟩
  · rw [T.commonSupertype_comm hrooted x y]
  · rw [T.joinMakes_comm hrooted x y]
  · intro l hl
    rw [best_of_perm hrooted hl]
    unfold nearest
    cases T.best (T.candidates x y) <;> rfl
  · exact fun f => ⟨merge_swap hrooted, merge_swap hrooted⟩
  · rw [mergeMakes_comm hrooted a b]
  · intro htop
    refine merge_self T fun k t hk => ?_
    cases t with
    | top => exact absurd hk (htop k)
    | _ => rfl

/-- Two interfaces above each other, and two classes that name them in different orders. -/
def entwined : TypeTable :=
  (((((TypeTable.ofConfig {}).intern (.ref "Next")).declareInterface "Previous"
    [.ref "Next"]).declareInterface "Next" [.ref "Previous"]).declareClass "First" none
    [.ref "Next", .ref "Previous"]).declareClass "Last" none [.ref "Previous", .ref "Next"]

private theorem built_entwined : Built {} entwined := by
  refine .declareClass _ ?_ (.declareClass _ ?_ (.declareInterface _ ?_ (.declareInterface _ ?_
    (.intern _ .start)))) <;> decide +kernel

private theorem ancestors_entwined :
    entwined.ancestors (.ref "First")
        = [(.ref "First", 0), (.ref "java/lang/Object", 1), (.ref "Next", 1),
            (.ref "Previous", 1)] ∧
      entwined.ancestors (.ref "Last")
        = [(.ref "Last", 0), (.ref "java/lang/Object", 1), (.ref "Previous", 1),
            (.ref "Next", 1)] := by
  have hroot : entwined.root = some (.ref "system/Exception") := by decide +kernel
  have hup : ["First", "Last", "Next", "Previous", "java/lang/Object"].map
        (fun name => entwined.supertypes (.ref name))
      = [[.ref "java/lang/Object", .ref "Next", .ref "Previous"],
          [.ref "java/lang/Object", .ref "Previous", .ref "Next"], [.ref "Previous"],
          [.ref "Next"], []] := by
    decide +kernel
  simp only [List.map_cons, List.map_nil, List.cons.injEq] at hup
  constructor <;> simp [ancestors, classOf, walk, reached, steps, hroot, hup]

/-- Both interfaces are as near; the one whose name comes first is taken from either side. -/
theorem merge_symmetric_entwined :
    Frame.merge entwined ⟨[.ref "First"], .empty⟩ ⟨[.ref "Last"], .empty⟩
        = .ok ⟨[.ref "Next"], .empty⟩ ∧
      Frame.merge entwined ⟨[.ref "Last"], .empty⟩ ⟨[.ref "First"], .empty⟩
        = .ok ⟨[.ref "Next"], .empty⟩ := by
  obtain ⟨hfirst, hlast⟩ := ancestors_entwined
  have hjoin : entwined.join (.ref "First") (.ref "Last") = .ref "Next" := by
    have hcandidates : entwined.candidates (.ref "First") (.ref "Last")
        = [⟨2, .ref "Next"⟩, ⟨2, .ref "Previous"⟩] := by
      unfold candidates
      rw [hfirst, hlast]
      decide +kernel
    show entwined.nearest _ _ = _
    rw [nearest, hcandidates]
    decide +kernel
  have hmerge : Frame.merge entwined ⟨[.ref "First"], .empty⟩ ⟨[.ref "Last"], .empty⟩
      = .ok ⟨[.ref "Next"], .empty⟩ := by
    show (Except.ok ⟨[entwined.join (.ref "First") (.ref "Last")], _⟩ : Except _ Frame) = _
    rw [hjoin]
    rfl
  obtain ⟨-, -, -, ⟨hswap, -⟩, -⟩ := merge_symmetric built_entwined (.ref "First") (.ref "Last")
    ⟨[.ref "First"], .empty⟩ ⟨[.ref "Last"], .empty⟩
  exact ⟨hmerge, (hswap _).mp hmerge⟩

end Frame

end BytecodeBridge
