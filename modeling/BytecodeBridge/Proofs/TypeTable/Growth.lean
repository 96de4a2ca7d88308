/-
Tables that only grow answer as before.

A program makes a table from its configuration, by mentioning types and by
declaring classes whose supertypes are known (`Built`). The lowering of a
method then makes more types, and these stay in the table for the methods
after it. Two questions look at what is known: whether a boxed primitive
has a wrapper class, and which of two candidates for a join was mentioned
first. Neither answer can change.

- A wrapper class is a class, and the lowering makes no class that the
  table does not have from the start.
- Candidates that the order of mention decides between are declared
  supertypes, and these are known before any method is lowered. The only
  other candidate is the class of an operand itself; it is at distance 0,
  and so is no other (`Way.eq_or_supertype`).

So assignability and joins are the same functions before and after
(`alike_of_grown`), and everything else the lowering asks does not look at
what is known.
-/
import BytecodeBridge.Proofs.TypeTable.Join
import BytecodeBridge.TypeTable.Name

namespace BytecodeBridge.TypeTable

-- ==== tables

/-- A table that a program makes from a configuration, by mentioning types and by
declaring classes. -/
inductive Built (c : Config) : TypeTable → Prop where
  | start : Built c (.ofConfig c)
  | intern {T : TypeTable} (t : Ty) (h : Built c T) : Built c (T.intern t)
  | declareClass {T : TypeTable} (name : String) {base : Option Ty} {interfaces : List Ty}
      (hknown : ∀ u ∈ base.toList ++ interfaces, u ∈ T.known) (h : Built c T) :
      Built c (T.declareClass name base interfaces)
  | declareInterface {T : TypeTable} (name : String) {bases : List Ty}
      (hknown : ∀ u ∈ bases, u ∈ T.known) (h : Built c T) :
      Built c (T.declareInterface name bases)
  | declareValue {T : TypeTable} (name : String) {interfaces : List Ty}
      (hknown : ∀ u ∈ interfaces, u ∈ T.known) (h : Built c T) :
      Built c (T.declareValue name interfaces)

/-- Every declared supertype is known, and so is the universal object type. -/
structure Rooted (T : TypeTable) : Prop where
  declared : ∀ e ∈ T.classes, ∀ u ∈ e.2.supertypes, u ∈ T.known
  object : T.object ∈ T.known

theorem Rooted.supertypes {T : TypeTable} (h : T.Rooted) (t : Ty) :
    ∀ u ∈ T.supertypes t, u ∈ T.known := by
  intro u hu
  unfold TypeTable.supertypes declaration? at hu
  split at hu
  · next d hd => exact h.declared (t, d) (mem_of_lookup hd) u hu
  · cases hu

/-- The table knows the classes that the lowering mentions on its own account. -/
structure Equipped (c : Config) (T : TypeTable) : Prop extends Rooted T where
  string : .ref c.stringClass ∈ T.known
  sentinel : .ref c.leaveSentinel.owner ∈ T.known
  throwable : T.throwable = .ref c.throwableClass

section Mention

variable {T : TypeTable}

/-- A mention changes what is known, and nothing else. -/
theorem exists_intern_eq (T : TypeTable) (t : Ty) : ∃ known, T.intern t = { T with known } := by
  have hadd : ∀ known t, ∃ known', { T with known }.add t = { T with known := known' } := by
    intro known t
    unfold add
    split
    · exact ⟨known, rfl⟩
    · exact ⟨_, rfl⟩
  induction t with
  | array e r ih | boxed c b ih =>
    obtain ⟨known, hknown⟩ := ih
    rw [intern, hknown]
    exact hadd known _
  | _ => exact hadd T.known _

@[simp] theorem classes_intern (t : Ty) : (T.intern t).classes = T.classes := by
  obtain ⟨_, h⟩ := exists_intern_eq T t
  rw [h]

@[simp] theorem object_intern (t : Ty) : (T.intern t).object = T.object := by
  obtain ⟨_, h⟩ := exists_intern_eq T t
  rw [h]
  rfl

@[simp] theorem throwable_intern (t : Ty) : (T.intern t).throwable = T.throwable := by
  obtain ⟨_, h⟩ := exists_intern_eq T t
  rw [h]

@[simp] theorem object_declare (t : Ty) (d : Declaration) : (T.declare t d).object = T.object :=
  object_intern t

@[simp] theorem throwable_declare (t : Ty) (d : Declaration) :
    (T.declare t d).throwable = T.throwable :=
  throwable_intern t

theorem mem_intern {u : Ty} (t : Ty) (h : u ∈ T.known) : u ∈ (T.intern t).known :=
  (known_prefix_intern T t).subset h

theorem mem_declare {u : Ty} (t : Ty) (d : Declaration) (h : u ∈ T.known) :
    u ∈ (T.declare t d).known :=
  mem_intern t h

theorem mem_declare_self (t : Ty) (d : Declaration) : t ∈ (T.declare t d).known :=
  mem_known_intern T t

theorem Rooted.intern (h : T.Rooted) (t : Ty) : (T.intern t).Rooted where
  declared e he u hu := by
    rw [classes_intern] at he
    exact mem_intern t (h.declared e he u hu)
  object := by
    rw [object_intern]
    exact mem_intern t h.object

theorem Rooted.declare (h : T.Rooted) (t : Ty) {d : Declaration}
    (hknown : ∀ u ∈ d.supertypes, u ∈ T.known) : (T.declare t d).Rooted where
  declared e he u hu := by
    rcases List.mem_cons.mp he with rfl | he
    · exact mem_intern t (hknown u hu)
    · exact (h.intern t).declared e he u hu
  object := (h.intern t).object

theorem Rooted.declareClass (h : T.Rooted) (name : String) {base : Option Ty}
    {interfaces : List Ty} (hknown : ∀ u ∈ base.toList ++ interfaces, u ∈ T.known) :
    (T.declareClass name base interfaces).Rooted := by
  obtain ⟨hbase, hrest⟩ := List.forall_mem_append.mp hknown
  refine h.declare _ (List.forall_mem_cons.mpr ⟨?_, hrest⟩)
  cases base with
  | none => exact h.object
  | some b => exact hbase b (Option.mem_toList.mpr rfl)

theorem Equipped.intern {c : Config} (h : Equipped c T) (t : Ty) : Equipped c (T.intern t) where
  toRooted := h.toRooted.intern t
  string := mem_intern t h.string
  sentinel := mem_intern t h.sentinel
  throwable := (throwable_intern t).trans h.throwable

theorem Equipped.declare {c : Config} (h : Equipped c T) {t : Ty} {d : Declaration}
    (hrooted : (T.declare t d).Rooted) : Equipped c (T.declare t d) where
  toRooted := hrooted
  string := mem_declare t d h.string
  sentinel := mem_declare t d h.sentinel
  throwable := (throwable_declare t d).trans h.throwable

end Mention

/-- The table a program starts from has what the lowering mentions. -/
theorem equipped_ofConfig (c : Config) : Equipped c (.ofConfig c) := by
  let throwable : Ty := .ref c.throwableClass
  -- from the object class on, each declaration names supertypes that are known
  let T₀ : TypeTable :=
    { known := [.ref c.objectClass]
      classes := [(.ref c.objectClass, ⟨.class_, []⟩)]
      objectClass := c.objectClass
      throwable
      root := none
      cellClass := c.referenceCellClass }
  have h₀ : T₀.Rooted := by
    refine ⟨fun e he u hu => ?_, .head _⟩
    rw [List.mem_singleton.mp he] at hu
    cases hu
  let T₁ := T₀.declareClass c.throwableClass none []
  have h₁ : T₁.Rooted := h₀.declareClass _ (by simp)
  have hthrown₁ : throwable ∈ T₁.known := mem_declare_self _ _
  obtain ⟨T₂, h₂, hthrown₂, hthrowable₂, heq⟩ : ∃ T₂ : TypeTable, T₂.Rooted ∧ throwable ∈ T₂.known ∧
      T₂.throwable = throwable ∧ ofConfig c
        = (T₂.declareClass c.stringClass none []).declareClass c.leaveSentinel.owner
            (some throwable) [] := by
    cases hroot : c.exceptionRoot with
    | none =>
      refine ⟨T₁, h₁, hthrown₁, throwable_declare _ _, ?_⟩
      unfold ofConfig
      rw [hroot]
    | some root =>
      by_cases heq : root = c.throwableClass
      · refine ⟨T₁, h₁, hthrown₁, throwable_declare _ _, ?_⟩
        unfold ofConfig
        rw [hroot]
        dsimp only
        rw [if_pos heq]
      · have hdeclared : (T₁.declareClass root (some throwable) []).Rooted :=
          h₁.declareClass root (by simpa using hthrown₁)
        refine ⟨{ T₁.declareClass root (some throwable) [] with root := some (.ref root) },
          ⟨hdeclared.declared, hdeclared.object⟩, mem_intern (.ref root) hthrown₁, ?_, ?_⟩
        · exact (throwable_intern (.ref root)).trans (throwable_declare _ _)
        · unfold ofConfig
          rw [hroot]
          dsimp only
          rw [if_neg heq]
  have hstring : (T₂.declareClass c.stringClass none []).Rooted := h₂.declareClass _ (by simp)
  rw [heq]
  refine ⟨hstring.declareClass _ ?_, ?_, mem_declare_self _ _, ?_⟩
  · intro u hu
    cases List.mem_singleton.mp hu
    exact mem_declare _ _ hthrown₂
  · exact mem_declare _ _ (mem_declare_self _ _)
  · exact ((throwable_declare _ _).trans (throwable_declare _ _)).trans hthrowable₂

theorem Built.equipped {c : Config} {T : TypeTable} (h : Built c T) : Equipped c T := by
  induction h with
  | start => exact equipped_ofConfig c
  | intern t _ ih => exact ih.intern t
  | declareClass name hknown _ ih => exact ih.declare (ih.toRooted.declareClass name hknown)
  | declareInterface name hknown _ ih | declareValue name hknown _ ih =>
    exact ih.declare (ih.toRooted.declare _ hknown)

-- ==== growth

/-- A table that has grown by types that are no classes. -/
def Grown (T T' : TypeTable) : Prop :=
  ∃ extra : List Ty, T' = { T with known := T.known ++ extra } ∧
    ∀ t ∈ extra, ∀ name, t ≠ .ref name

theorem Grown.refl (T : TypeTable) : Grown T T :=
  ⟨[], by rw [List.append_nil], by simp⟩

/-- A type that the lowering of a method may make. -/
def Harmless (c : Config) (t : Ty) : Prop :=
  (∀ name, t ≠ .ref name) ∨ t = .ref c.stringClass ∨ t = .ref c.leaveSentinel.owner

theorem Grown.addAll {c : Config} {T T' : TypeTable} (hT : Equipped c T) (h : Grown T T')
    {made : List Ty} (hmade : ∀ t ∈ made, Harmless c t) : Grown T (T'.addAll made) := by
  induction made with
  | nil => exact h
  | cons t made ih =>
    obtain ⟨ht, hmade⟩ := List.forall_mem_cons.mp hmade
    obtain ⟨extra, heq, hextra⟩ := ih hmade
    show Grown T ((T'.addAll made).add t)
    rw [heq]
    unfold add
    split
    · exact ⟨extra, rfl, hextra⟩
    · next hnew =>
      refine ⟨extra ++ [t], by rw [← List.append_assoc], ?_⟩
      refine List.forall_mem_append.mpr ⟨hextra, ?_⟩
      intro u hu
      cases List.mem_singleton.mp hu
      rcases ht with ht | rfl | rfl
      · exact ht
      · exact absurd (List.mem_append_left _ hT.string) hnew
      · exact absurd (List.mem_append_left _ hT.sentinel) hnew

-- ==== walks

section Walk

variable {T : TypeTable}

private theorem walk_known (known : List Ty) (seen queue : List (Ty × Nat)) :
    walk { T with known } seen queue = walk T seen queue := by
  fun_induction walk T seen queue with
  | case1 seen => rw [walk]
  | case2 seen t n rest hreached ih => rw [walk, if_pos hreached, ih]
  | case3 seen t n rest hreached ih =>
    rw [walk, if_neg hreached]
    exact ih

/-- A candidate for a join is known, unless it is the class of both operands; and only
that is at distance 0. -/
theorem mem_candidates (hT : T.Rooted) {a b : Ty} {c : Candidate} (h : c ∈ T.candidates a b) :
    (c.ty ∈ T.known ∨ c.distance = 0) ∧ (c.distance = 0 → c.ty = T.classOf a) := by
  obtain ⟨-, m, n, hm, hn, hsum⟩ := mem_candidates_iff.mp h
  rcases hm.way.eq_or_supertype with ⟨heq, rfl⟩ | ⟨hpos, u, hu⟩
  · refine ⟨?_, fun _ => heq⟩
    rcases hn.way.eq_or_supertype with ⟨-, rfl⟩ | ⟨-, u, hu⟩
    · exact .inr hsum
    · exact .inl (hT.supertypes u _ hu)
  · exact ⟨.inl (hT.supertypes u _ hu), fun hzero => by omega⟩

end Walk

-- ==== answers

section Answers

variable {T : TypeTable} {known : List Ty}

theorem classOf_known (hknown : ∀ name, .ref name ∈ known ↔ .ref name ∈ T.known) (t : Ty) :
    classOf { T with known } t = T.classOf t := by
  have hknows : ∀ name, knows { T with known } (.ref name) = T.knows (.ref name) := by
    intro name
    unfold knows
    rw [Bool.eq_iff_iff, List.contains_iff_mem, List.contains_iff_mem]
    exact hknown name
  unfold classOf
  split
  · rw [hknows]
  · rfl
  · rfl

theorem ancestors_known (hknown : ∀ name, .ref name ∈ known ↔ .ref name ∈ T.known) (t : Ty) :
    ancestors { T with known } t = T.ancestors t := by
  unfold ancestors
  rw [walk_known, classOf_known hknown]

private theorem assignable_known (hknown : ∀ name, .ref name ∈ known ↔ .ref name ∈ T.known)
    (a b : Ty) : assignable { T with known } a b = T.assignable a b := by
  have hbelow : ∀ a b, below { T with known } a b = T.below a b := by
    intro a b
    unfold below
    rw [ancestors_known hknown, classOf_known hknown]
  induction a generalizing b with
  | array ea ra ih =>
    unfold assignable
    cases b with
    | array eb rb =>
      dsimp only
      rw [ih eb]
      rfl
    | _ => rfl
  | _ => cases b <;> simp only [assignable, hbelow] <;> rfl

/-- Among candidates for a join the order of mention decides as before. -/
private theorem preference_known (hT : T.Rooted) (hpre : T.known <+: known) {a b : Ty}
    {l r : Candidate} (hl : l ∈ T.candidates a b) (hr : r ∈ T.candidates a b) :
    preference { T with known } l r = T.preference l r := by
  obtain ⟨extra, rfl⟩ := hpre
  have hid : ∀ {t}, t ∈ T.known → idOf { T with known := T.known ++ extra } t = T.idOf t := by
    intro t ht
    simp [idOf, List.idxOf_append, ht]
  obtain ⟨hlknown, hlzero⟩ := mem_candidates hT hl
  obtain ⟨hrknown, hrzero⟩ := mem_candidates hT hr
  unfold preference
  by_cases hdistance : l.distance = r.distance
  · -- both are known, or both are the class of the operands
    have hids : compare (idOf { T with known := T.known ++ extra } l.ty)
        (idOf { T with known := T.known ++ extra } r.ty)
          = compare (T.idOf l.ty) (T.idOf r.ty) := by
      have hsame : l.distance = 0 → l.ty = r.ty := fun hzero =>
        (hlzero hzero).trans (hrzero (hdistance ▸ hzero)).symm
      rcases hlknown with hl | hzero
      · rcases hrknown with hr | hzero
        · rw [hid hl, hid hr]
        · rw [hsame (hdistance.trans hzero), Nat.compare_eq_eq.mpr rfl, Nat.compare_eq_eq.mpr rfl]
      · rw [hsame hzero, Nat.compare_eq_eq.mpr rfl, Nat.compare_eq_eq.mpr rfl]
    rw [hids]
    rfl
  · cases hcompare : compare l.distance r.distance with
    | eq => exact absurd (Nat.compare_eq_eq.mp hcompare) hdistance
    | lt | gt => rfl

private theorem best_known {l : List Candidate}
    (h : ∀ c ∈ l, ∀ d ∈ l, preference { T with known } c d = T.preference c d) :
    best { T with known } l = T.best l := by
  cases l with
  | nil => rfl
  | cons first rest =>
    -- the best one so far is one of the list
    have hfold : ∀ (tail : List Candidate) (m : Candidate), tail ⊆ first :: rest →
        m ∈ first :: rest →
        tail.foldl (fun m d => if preference { T with known } d m = .lt then d else m) m
          = tail.foldl (fun m d => if T.preference d m = .lt then d else m) m := by
      intro tail
      induction tail with
      | nil => intro m _ _; rfl
      | cons d tail ih =>
        intro m htail hm
        obtain ⟨hd, htail⟩ := List.cons_subset.mp htail
        rw [List.foldl_cons, List.foldl_cons, h d hd m hm]
        refine ih _ htail ?_
        split
        · exact hd
        · exact hm
    exact congrArg some (hfold rest first (List.subset_cons_self ..) (.head _))

private theorem join_known (hT : T.Rooted) (hpre : T.known <+: known)
    (hknown : ∀ name, .ref name ∈ known ↔ .ref name ∈ T.known) (a b : Ty) :
    join { T with known } a b = T.join a b := by
  have hcandidates : ∀ a b, candidates { T with known } a b = T.candidates a b := by
    intro a b
    unfold candidates
    rw [ancestors_known hknown, ancestors_known hknown]
    rfl
  have hnearest : ∀ a b, nearest { T with known } a b = T.nearest a b := by
    intro a b
    unfold nearest
    rw [hcandidates, best_known fun c hc d hd => preference_known hT hpre hc hd]
    rfl
  have hflat : ∀ a b, commonOfFlat { T with known } a b = T.commonOfFlat a b := by
    intro a b
    cases a <;> cases b <;> first | rfl | exact hnearest ..
  have hcommon : ∀ a b, commonSupertype { T with known } a b = T.commonSupertype a b := by
    intro a
    induction a with
    | array ea ra ih =>
      intro b
      cases b <;> simp only [commonSupertype, hflat, ih]
      rfl
    | _ => intro b; cases b <;> simp only [commonSupertype, hflat]
  cases a <;> cases b <;> simp only [join, hcommon]

/-- Two tables that answer alike, whatever they know. -/
structure Alike (T T' : TypeTable) : Prop where
  eq : T' = { T with known := T'.known }
  assignable : T'.assignable = T.assignable
  join : T'.join = T.join

theorem alike_of_grown {T' : TypeTable} (hT : T.Rooted) (h : Grown T T') : Alike T T' := by
  obtain ⟨extra, rfl, hextra⟩ := h
  have hknown : ∀ name, .ref name ∈ T.known ++ extra ↔ .ref name ∈ T.known := by
    intro name
    rw [List.mem_append]
    exact ⟨fun h => h.resolve_right fun he => hextra _ he name rfl, .inl⟩
  refine ⟨rfl, ?_, ?_⟩
  · funext a b
    exact assignable_known hknown a b
  · funext a b
    exact join_known hT (List.prefix_append ..) hknown a b

-- no name looks at what is known

theorem descriptor_known (t : Ty) : descriptor { T with known } t = T.descriptor t := by
  induction t with
  | array element rank ih =>
    unfold descriptor
    rw [ih]
  | boxed content byRef ih =>
    cases byRef with
    | true => rfl
    | false => cases content <;> first | rfl | exact ih
  | _ => rfl

private theorem className_known (t : Ty) : className { T with known } t = T.className t := by
  induction t with
  | array element rank => exact descriptor_known _
  | boxed content byRef ih =>
    cases byRef with
    | true => rfl
    | false => cases content <;> first | rfl | exact ih
  | _ => rfl

namespace Alike

variable {T' : TypeTable} (h : Alike T T')
include h

theorem descriptor : T'.descriptor = T.descriptor := by
  rw [h.eq]
  exact funext descriptor_known

theorem className : T'.className = T.className := by
  rw [h.eq]
  exact funext className_known

theorem methodDescriptor : T'.methodDescriptor = T.methodDescriptor := by
  funext params returns
  unfold TypeTable.methodDescriptor
  rw [h.descriptor]

theorem isInterface : T'.isInterface = T.isInterface := by
  rw [h.eq]
  rfl

theorem throwable : T'.throwable = T.throwable := by
  rw [h.eq]

theorem joinMakes : T'.joinMakes = T.joinMakes := by
  funext a b
  unfold TypeTable.joinMakes
  rw [h.join]

end Alike

end Answers

end BytecodeBridge.TypeTable
