/-
Types are canonical.

A program that works with a table names types by their identities. What is
behind an identity is a `Shape`, in which the parts of a type are given by
their identities in turn, and a `Request` is what a table can be asked for
in these terms: a type of a given shape, the element of an array, the join
of two types, a declaration. Whatever is asked for, the table either comes
to know a type or declares one (`serve?_ok`), and both keep its types in
order (`Listed`): each is listed once and behind its parts, and arrays are
flat. So a shape has one identity, and keeps it.
-/
import BytecodeBridge.Proofs.TypeTable.Growth

namespace BytecodeBridge

-- ==== flat types

namespace Ty

/-- The types that a type is made of. -/
def parts : Ty → List Ty
  | .array element _ => [element]
  | .boxed content _ => [content]
  | _ => []

/-- No array in the type has arrays for elements, and all ranks are in range. -/
def Flat : Ty → Prop
  | .array element rank =>
    (1 ≤ rank ∧ rank ≤ maxRank) ∧ (∀ e r, element ≠ .array e r) ∧ element.Flat
  | .boxed content _ => content.Flat
  | _ => True

variable {t u : Ty}

theorem Flat.arrayOf (h : t.Flat) {rank : Nat} (hrank : 1 ≤ rank ∧ rank ≤ maxRank) :
    (t.arrayOf rank).Flat := by
  cases t with
  | array e r =>
    obtain ⟨hr, he⟩ := h
    exact ⟨⟨by unfold maxRank; omega, Nat.min_le_left _ _⟩, he⟩
  | _ => exact ⟨hrank, nofun, h⟩

theorem arrayOf_of_flat {rank : Nat} (h : ∀ e r, t ≠ .array e r) :
    t.arrayOf rank = .array t rank := by
  cases t with
  | array e r => exact absurd rfl (h e r)
  | _ => rfl

theorem arrayOf_arrayOf (t : Ty) (m n : Nat) :
    (t.arrayOf m).arrayOf n = t.arrayOf (min maxRank (m + n)) := by
  cases t with
  | array e r =>
    show Ty.array e (min maxRank (min maxRank (r + m) + n))
      = .array e (min maxRank (r + min maxRank (m + n)))
    congr 1
    omega
  | _ => rfl

theorem Flat.element? (h : t.Flat) (hu : t.element? = some u) : u.Flat := by
  unfold Ty.element? at hu
  split at hu
  · cases hu
    exact h.2.2
  · next e rank hone =>
    cases hu
    obtain ⟨hrank, -, he⟩ := h
    have hne : rank ≠ 1 := hone
    exact he.arrayOf ⟨by omega, by omega⟩
  · cases hu

/-- What an array was made of is its element, if its rank has not reached the limit. -/
theorem Flat.element?_arrayOf_one (h : t.Flat) (hrank : ∀ e, t ≠ .array e maxRank) :
    (t.arrayOf 1).element? = some t := by
  cases t with
  | array e r =>
    obtain ⟨⟨hpos, hmax⟩, he, -⟩ := h
    have hlt : r ≠ maxRank := fun heq => hrank e (congrArg _ heq)
    obtain ⟨k, rfl⟩ := Nat.exists_eq_succ_of_ne_zero (Nat.ne_of_gt hpos)
    show Ty.element? (.array e (min maxRank (k.succ + 1))) = _
    rw [Nat.min_eq_right (by omega)]
    exact congrArg some (arrayOf_of_flat he)
  | _ => rfl

end Ty

namespace TypeTable

variable {T T' : TypeTable} {t : Ty}

-- ==== types in order

/-- Types of which each is listed once, behind its parts, and is flat. -/
structure Listed (known : List Ty) : Prop where
  once : known.Nodup
  parts : ∀ t ∈ known, ∀ p ∈ t.parts, known.idxOf p < known.idxOf t
  flat : ∀ t ∈ known, t.Flat

theorem Listed.mem_of_part (h : Listed T.known) (ht : t ∈ T.known) {p : Ty} (hp : p ∈ t.parts) :
    p ∈ T.known :=
  List.idxOf_lt_length_iff.mp
    (Nat.lt_trans (h.parts t ht p hp) (List.idxOf_lt_length_iff.mpr ht))

theorem Listed.add (h : Listed T.known) (hparts : ∀ p ∈ t.parts, p ∈ T.known) (hflat : t.Flat) :
    Listed (T.add t).known := by
  unfold TypeTable.add
  split
  · exact h
  · next hnew =>
    have hold : ∀ {u}, u ∈ T.known → (T.known ++ [t]).idxOf u = T.known.idxOf u :=
      List.idxOf_append_of_mem
    refine ⟨List.concat_eq_append ▸ h.once.concat hnew, List.forall_mem_append.mpr
      ⟨fun u hu p hp => ?_, fun u hu p hp => ?_⟩, List.forall_mem_append.mpr ⟨h.flat, ?_⟩⟩
    · rw [hold hu, hold (h.mem_of_part hu hp)]
      exact h.parts u hu p hp
    · cases List.mem_singleton.mp hu
      rw [hold (hparts p hp), List.idxOf_append_of_notMem hnew]
      exact Nat.lt_add_right _ (List.idxOf_lt_length_iff.mpr (hparts p hp))
    · intro u hu
      cases List.mem_singleton.mp hu
      exact hflat

theorem Listed.intern (h : Listed T.known) (hflat : t.Flat) : Listed (T.intern t).known := by
  have hself : ∀ e, ∀ p ∈ [e], p ∈ (T.intern e).known := by simp
  induction t with
  | array e r ih => exact (ih hflat.2.2).add (hself e) hflat
  | boxed c b ih => exact (ih hflat).add (hself c) hflat
  | _ => exact h.add nofun hflat

theorem Listed.intern_eq (h : Listed T.known) (ht : t ∈ T.known) : T.intern t = T := by
  induction t with
  | array e r ih | boxed c b ih =>
    rw [TypeTable.intern, ih (h.mem_of_part ht List.mem_cons_self), TypeTable.add, if_pos ht]
  | _ => exact if_pos ht

theorem getElem?_idOf (ht : t ∈ T.known) : T.known[T.idOf t]? = some t := by
  have hlt := List.idxOf_lt_length_iff.mpr ht
  rw [TypeTable.idOf, List.getElem?_eq_getElem hlt, List.getElem_idxOf]

theorem Listed.idOf_eq (h : Listed T.known) {id : Nat} (hid : T.known[id]? = some t) :
    T.idOf t = id := by
  obtain ⟨hlt, rfl⟩ := List.getElem?_eq_some_iff.mp hid
  exact h.once.idxOf_getElem id hlt

private theorem listed_ofConfig (c : Config) : Listed (ofConfig c).known := by
  have hstart : Listed [.ref c.objectClass] :=
    ⟨List.nodup_singleton _, by simp [Ty.parts], by simp [Ty.Flat]⟩
  have hclass : ∀ {T : TypeTable} (name : String), Listed T.known →
      Listed (T.intern (.ref name)).known := fun _ h => h.intern trivial
  unfold ofConfig
  refine hclass _ (hclass _ ?_)
  split
  · split
    · exact hclass _ hstart
    · exact hclass _ (hclass _ hstart)
  · exact hclass _ hstart

/-- A table whose declared supertypes are known and whose types are in order. -/
structure Canonical (T : TypeTable) : Prop extends Rooted T where
  listed : Listed T.known

/-- Walks up the hierarchy and joins come to flat types. -/
theorem Canonical.upward (hT : T.Canonical) : Upward T Ty.Flat where
  supertypes t u hu := hT.listed.flat u (hT.toRooted.supertypes t u hu)
  object := trivial
  element _ _ h _ := h.2.2
  array _ _ _ h ht := ht.arrayOf h.1
  classOf t h := by
    unfold classOf
    split
    · split
      · trivial
      · exact h
    · exact h
    · exact h

theorem Canonical.flat_join (hT : T.Canonical) {x y : Ty} (hx : x.Flat) (hy : y.Flat) :
    (T.join x y).Flat := by
  rcases join_cases T x y with ⟨-, heq⟩ | heq | ⟨_, _, -, -, -, heq⟩ | ⟨-, -, heq⟩
  · rwa [heq]
  · rw [heq]
    trivial
  · rw [heq]
    trivial
  · rw [heq]
    exact hT.upward.commonSupertype hx hy

-- ==== shapes

/-- What is behind an identity: a type, with its parts given by their identities. -/
inductive Shape where
  | prim (kind : Prim)
  | ref (name : String)
  | array (element rank : Nat)
  | value (name : String)
  | generic (name : String) (role : GenericRole)
  | boxed (content : Nat) (byRef : Bool)
  | null
  | uninitThis
  | top
deriving DecidableEq, Repr

/-- The identities in a shape. -/
def Shape.parts : Shape → List Nat
  | .array element _ => [element]
  | .boxed content _ => [content]
  | _ => []

def shape (T : TypeTable) : Ty → Shape
  | .prim k => .prim k
  | .ref name => .ref name
  | .array element rank => .array (T.idOf element) rank
  | .value name => .value name
  | .generic name role => .generic name role
  | .boxed content byRef => .boxed (T.idOf content) byRef
  | .null => .null
  | .uninitThis => .uninitThis
  | .top => .top

/-- The shape behind an identity. -/
def shapeAt? (T : TypeTable) (id : Nat) : Option Shape :=
  T.known[id]?.map T.shape

/-- The type that is made by a shape, if the table has its parts. Ranks add up. -/
def typeOf? (T : TypeTable) : Shape → Option Ty
  | .prim k => some (.prim k)
  | .ref name => some (.ref name)
  | .array element rank => T.known[element]?.map (·.arrayOf rank)
  | .value name => some (.value name)
  | .generic name role => some (.generic name role)
  | .boxed content byRef => T.known[content]?.map (.boxed · byRef)
  | .null => some .null
  | .uninitThis => some .uninitThis
  | .top => some .top

/-- A known type is what its shape makes. -/
theorem Listed.typeOf?_shape (h : Listed T.known) (ht : t ∈ T.known) :
    T.typeOf? (T.shape t) = some t := by
  have hpart : ∀ p ∈ t.parts, T.known[T.idOf p]? = some p := fun p hp =>
    getElem?_idOf (h.mem_of_part ht hp)
  cases t with
  | array e r =>
    show T.known[T.idOf e]?.map _ = _
    rw [hpart e List.mem_cons_self]
    exact congrArg some (Ty.arrayOf_of_flat (h.flat _ ht).2.1)
  | boxed c b =>
    show T.known[T.idOf c]?.map _ = _
    rw [hpart c List.mem_cons_self]
    rfl
  | _ => rfl

/-- A known type has the same shape in a table that knows more. -/
theorem Listed.shape_eq (h : Listed T.known) (ht : t ∈ T.known) (hpre : T.known <+: T'.known) :
    T'.shape t = T.shape t := by
  obtain ⟨more, hmore⟩ := hpre
  have hpart : ∀ p ∈ t.parts, T'.idOf p = T.idOf p := fun p hp => by
    rw [idOf, ← hmore, List.idxOf_append_of_mem (h.mem_of_part ht hp)]
    rfl
  cases t with
  | array e r => exact congrArg (Shape.array · r) (hpart e List.mem_cons_self)
  | boxed c b => exact congrArg (Shape.boxed · b) (hpart c List.mem_cons_self)
  | _ => rfl

-- ==== requests

/-- What a table can be asked for. -/
inductive Request where
  | make (shape : Shape)
  | element (array : Nat)
  | common (a b : Nat)
  | join (a b : Nat)
  | declareClass (name : String) (base : Option Nat) (interfaces : List Nat)
  | declareInterface (name : String) (bases : List Nat)
  | declareValue (name : String) (interfaces : List Nat)
deriving DecidableEq, Repr

/-- Whether the rank of an array that is asked for is in range. -/
def Request.ranked : Request → Bool
  | .make (.array _ rank) => 1 ≤ rank && rank ≤ Ty.maxRank
  | _ => true

/-- The table after a mention of a type, and the identity of the type. -/
def mention (T : TypeTable) (t : Ty) : TypeTable × Nat :=
  (T.intern t, (T.intern t).idOf t)

/-- The table after a request, and the identity that it gives; absent if it is about
identities that the table does not have, or for the element of what is no array. -/
def serve? (T : TypeTable) : Request → Option (TypeTable × Nat)
  | .make shape => return T.mention (← T.typeOf? shape)
  | .element array => return T.mention (← (← T.known[array]?).element?)
  | .common a b => return T.mention (T.commonSupertype (← T.known[a]?) (← T.known[b]?))
  | .join a b => return T.mention (T.join (← T.known[a]?) (← T.known[b]?))
  | .declareClass name base interfaces => do
    let T' := T.declareClass name (← base.mapM (T.known[·]?)) (← interfaces.mapM (T.known[·]?))
    return (T', T'.idOf (.ref name))
  | .declareInterface name bases => do
    let T' := T.declareInterface name (← bases.mapM (T.known[·]?))
    return (T', T'.idOf (.ref name))
  | .declareValue name interfaces => do
    let T' := T.declareValue name (← interfaces.mapM (T.known[·]?))
    return (T', T'.idOf (.value name))

/-- The table after a request; one that fails leaves it as it is. -/
def served (T : TypeTable) (r : Request) : TypeTable :=
  (T.serve? r).elim T Prod.fst

/-- The table of a configuration after requests. -/
def after (c : Config) (requests : List Request) : TypeTable :=
  requests.foldl served (.ofConfig c)

private theorem mem_of_mapM {ids : List Nat} {types : List Ty}
    (h : ids.mapM (fun id => T.known[id]?) = some types) : ∀ u ∈ types, u ∈ T.known := by
  induction ids generalizing types with
  | nil =>
    cases h
    simp
  | cons id ids ih =>
    simp only [List.mapM_cons, Option.bind_eq_bind, Option.bind_eq_some_iff] at h
    obtain ⟨t, ht, rest, hrest, h⟩ := h
    cases h
    exact List.forall_mem_cons.mpr ⟨List.mem_of_getElem? ht, ih hrest⟩

theorem Canonical.flat (hT : T.Canonical) {id : Nat} (h : T.known[id]? = some t) : t.Flat :=
  hT.listed.flat t (List.mem_of_getElem? h)

theorem Canonical.flat_typeOf? (hT : T.Canonical) {s : Shape}
    (hranked : (Request.make s).ranked = true) (h : T.typeOf? s = some t) : t.Flat := by
  cases s with
  | array e rank =>
    obtain ⟨u, hu, rfl⟩ := Option.map_eq_some_iff.mp h
    unfold Request.ranked at hranked
    simp only [Bool.and_eq_true, decide_eq_true_eq] at hranked
    exact (hT.flat hu).arrayOf hranked
  | boxed content byRef =>
    obtain ⟨u, hu, rfl⟩ := Option.map_eq_some_iff.mp h
    exact (hT.flat hu : u.Flat)
  | _ =>
    cases h
    trivial

/-- What a request can do: mention a flat type, or declare one below known types. -/
theorem Canonical.serve?_ok (hT : T.Canonical) {r : Request} (hr : r.ranked = true) {id : Nat}
    (h : T.serve? r = some (T', id)) : ∃ t : Ty, t.Flat ∧ (T' = T.intern t ∨
      ∃ d : Declaration, (∀ u ∈ d.supertypes, u ∈ T.known) ∧ T' = T.declare t d) := by
  cases r with
  | make s =>
    obtain ⟨t, ht, h⟩ := Option.bind_eq_some_iff.mp h
    cases h
    exact ⟨t, hT.flat_typeOf? hr ht, .inl rfl⟩
  | element a =>
    obtain ⟨u, hu, h⟩ := Option.bind_eq_some_iff.mp h
    obtain ⟨t, ht, h⟩ := Option.bind_eq_some_iff.mp h
    cases h
    exact ⟨t, (hT.flat hu).element? ht, .inl rfl⟩
  | common a b =>
    obtain ⟨x, hx, h⟩ := Option.bind_eq_some_iff.mp h
    obtain ⟨y, hy, h⟩ := Option.bind_eq_some_iff.mp h
    cases h
    exact ⟨_, hT.upward.commonSupertype (hT.flat hx) (hT.flat hy), .inl rfl⟩
  | join a b =>
    obtain ⟨x, hx, h⟩ := Option.bind_eq_some_iff.mp h
    obtain ⟨y, hy, h⟩ := Option.bind_eq_some_iff.mp h
    cases h
    exact ⟨_, hT.flat_join (hT.flat hx) (hT.flat hy), .inl rfl⟩
  | declareClass name base interfaces =>
    obtain ⟨base', hbase, h⟩ := Option.bind_eq_some_iff.mp h
    obtain ⟨types, htypes, h⟩ := Option.bind_eq_some_iff.mp h
    cases h
    refine ⟨.ref name, trivial, .inr ⟨_, List.forall_mem_cons.mpr ⟨?_, mem_of_mapM htypes⟩, rfl⟩⟩
    cases base with
    | none =>
      cases hbase
      exact hT.object
    | some a =>
      obtain ⟨t, ht, rfl⟩ := Option.map_eq_some_iff.mp hbase
      exact List.mem_of_getElem? ht
  | declareInterface name bases =>
    obtain ⟨types, htypes, h⟩ := Option.bind_eq_some_iff.mp h
    cases h
    exact ⟨.ref name, trivial, .inr ⟨_, mem_of_mapM htypes, rfl⟩⟩
  | declareValue name interfaces =>
    obtain ⟨types, htypes, h⟩ := Option.bind_eq_some_iff.mp h
    cases h
    exact ⟨.value name, trivial, .inr ⟨_, mem_of_mapM htypes, rfl⟩⟩

theorem Canonical.serve (hT : T.Canonical) {r : Request} (hr : r.ranked = true) {id : Nat}
    (h : T.serve? r = some (T', id)) : T'.Canonical ∧ T.known <+: T'.known := by
  obtain ⟨t, hflat, rfl | ⟨d, hd, rfl⟩⟩ := hT.serve?_ok hr h
  · exact ⟨⟨hT.toRooted.intern t, hT.listed.intern hflat⟩, known_prefix_intern T t⟩
  · exact ⟨⟨hT.toRooted.declare t hd, hT.listed.intern hflat⟩, known_prefix_intern T t⟩

private theorem canonical_after (c : Config) {requests : List Request}
    (h : ∀ r ∈ requests, r.ranked = true) : (after c requests).Canonical := by
  have hrun : ∀ T : TypeTable, T.Canonical → (requests.foldl served T).Canonical := by
    induction requests with
    | nil => exact fun _ hT => hT
    | cons r requests ih =>
      obtain ⟨hr, hrest⟩ := List.forall_mem_cons.mp h
      refine fun T hT => ih hrest _ ?_
      unfold served
      cases hserve : T.serve? r with
      | none => exact hT
      | some result => exact (hT.serve hr hserve).1
  exact hrun _ ⟨(equipped_ofConfig c).toRooted, listed_ofConfig c⟩

private theorem getElem?_of_listed {id : Nat} (hpre : T.known <+: T'.known)
    (h : T.known[id]? = some t) : T'.known[id]? = some t := by
  obtain ⟨more, hmore⟩ := hpre
  rw [← hmore, List.getElem?_append_left (List.getElem?_eq_some_iff.mp h).1, h]

private theorem serve?_array {id : Nat} (h : T.known[id]? = some t) (rank : Nat) :
    T.serve? (.make (.array id rank)) = some (T.mention (t.arrayOf rank)) := by
  show (T.known[id]?.map _).bind _ = _
  rw [h]
  rfl

/-- Types are canonical, whatever a fresh table was asked for. Every identity has a shape,
and no two have the same; asking for the shape of an identity gives that identity and changes
nothing; parts have smaller identities, and the element of an array is no array. No request
changes the shape behind an identity. An array of arrays is the array whose rank is the sum,
up to the limit, and the element of a one-dimensional array over a type is that type, unless
it is an array whose rank is the limit already. -/
theorem types_canonical (c : Config) (requests : List Request)
    (h : ∀ r ∈ requests, r.ranked = true) :
    let T := after c requests
    (∀ id < T.size, ∃ s, T.shapeAt? id = some s) ∧
    (∀ a b s, T.shapeAt? a = some s → T.shapeAt? b = some s → a = b) ∧
    (∀ id s, T.shapeAt? id = some s → T.serve? (.make s) = some (T, id)) ∧
    (∀ id s, T.shapeAt? id = some s → ∀ p ∈ s.parts, p < id) ∧
    (∀ id e rank, T.shapeAt? id = some (.array e rank) →
      ∀ e' rank', T.shapeAt? e ≠ some (.array e' rank')) ∧
    (∀ r T' new, r.ranked = true → T.serve? r = some (T', new) →
      ∀ id s, T.shapeAt? id = some s → T'.shapeAt? id = some s) ∧
    (∀ id < T.size, ∀ m n, 1 ≤ m ∧ m ≤ Ty.maxRank → 1 ≤ n ∧ n ≤ Ty.maxRank →
      ∃ T₁ a T₂ b, T.serve? (.make (.array id m)) = some (T₁, a) ∧
        T₁.serve? (.make (.array a n)) = some (T₂, b) ∧
        T₂.serve? (.make (.array id (min Ty.maxRank (m + n)))) = some (T₂, b)) ∧
    (∀ id < T.size, (∀ e, T.shapeAt? id ≠ some (.array e Ty.maxRank)) →
      ∃ T₁ a, T.serve? (.make (.array id 1)) = some (T₁, a) ∧
        T₁.serve? (.element a) = some (T₁, id)) := by
  intro T
  have hT : T.Canonical := canonical_after c h
  have hlisted := hT.listed
  have hget : ∀ {id}, id < T.size → ∃ t, T.known[id]? = some t ∧ t ∈ T.known := fun hid =>
    ⟨_, List.getElem?_eq_getElem hid, List.getElem_mem hid⟩
  -- a shape is that of a known type, and makes it
  have hshape : ∀ {id s}, T.shapeAt? id = some s → ∃ t ∈ T.known, T.known[id]? = some t ∧
      T.idOf t = id ∧ T.shape t = s ∧ T.typeOf? s = some t := by
    intro id s hs
    obtain ⟨t, ht, rfl⟩ := Option.map_eq_some_iff.mp hs
    have hmem := List.mem_of_getElem? ht
    exact ⟨t, hmem, ht, hlisted.idOf_eq ht, rfl, hlisted.typeOf?_shape hmem⟩
  refine ⟨fun id hid => ?_, fun a b s ha hb => ?_, fun id s hs => ?_, fun id s hs p hp => ?_,
    fun id e rank hs e' rank' he => ?_, fun r T' new hr hserve id s hs => ?_,
    fun id hid m n hm hn => ?_, fun id hid hrank => ?_⟩
  · obtain ⟨t, ht, -⟩ := hget hid
    exact ⟨T.shape t, congrArg (Option.map T.shape) ht⟩
  · obtain ⟨t, -, -, rfl, -, ht⟩ := hshape ha
    obtain ⟨u, -, -, rfl, -, hu⟩ := hshape hb
    cases ht.symm.trans hu
    rfl
  · obtain ⟨t, hmem, -, rfl, -, ht⟩ := hshape hs
    show (T.typeOf? s).bind _ = _
    rw [ht]
    show some (T.intern t, (T.intern t).idOf t) = _
    rw [hlisted.intern_eq hmem]
  · obtain ⟨t, hmem, -, rfl, rfl, -⟩ := hshape hs
    cases t with
    | array e r | boxed e r =>
      cases List.mem_singleton.mp hp
      exact hlisted.parts _ hmem e List.mem_cons_self
    | _ => cases hp
  · obtain ⟨t, hmem, -, -, hs, -⟩ := hshape hs
    obtain ⟨u, -, hu, -, hinner, -⟩ := hshape he
    cases t with
    | array element r =>
      cases hs
      cases (getElem?_idOf (hlisted.mem_of_part hmem List.mem_cons_self)).symm.trans hu
      cases u with
      | array inner r' => exact (hlisted.flat _ hmem).2.1 inner r' rfl
      | _ => cases hinner
    | _ => cases hs
  · obtain ⟨-, hpre⟩ := hT.serve hr hserve
    obtain ⟨t, hmem, ht, -, rfl, -⟩ := hshape hs
    show T'.known[id]?.map T'.shape = _
    rw [getElem?_of_listed hpre ht, Option.map_some, hlisted.shape_eq hmem hpre]
  · obtain ⟨t, ht, hmem⟩ := hget hid
    have hflat := (hlisted.flat t hmem).arrayOf hm
    have hlisted₂ := (hlisted.intern hflat).intern (hflat.arrayOf hn)
    have hpre := (known_prefix_intern T (t.arrayOf m)).trans
      (known_prefix_intern _ ((t.arrayOf m).arrayOf n))
    refine ⟨_, _, _, _, serve?_array ht m, serve?_array (getElem?_idOf (mem_known_intern _ _)) n,
      (serve?_array (getElem?_of_listed hpre ht) _).trans ?_⟩
    rw [← Ty.arrayOf_arrayOf, mention, hlisted₂.intern_eq (mem_known_intern _ _)]
  · obtain ⟨t, ht, hmem⟩ := hget hid
    have hflat := hlisted.flat t hmem
    have hne : ∀ e, t ≠ .array e Ty.maxRank := fun e heq =>
      hrank (T.idOf e) ((congrArg (Option.map T.shape) ht).trans (heq ▸ rfl))
    have hone : 1 ≤ 1 ∧ 1 ≤ Ty.maxRank := ⟨Nat.le_refl 1, by decide⟩
    have hlisted₁ := hlisted.intern (hflat.arrayOf hone)
    refine ⟨_, _, serve?_array ht 1, ?_⟩
    show ((T.intern (t.arrayOf 1)).known[_]?).bind _ = _
    rw [getElem?_idOf (mem_known_intern _ _)]
    show ((t.arrayOf 1).element?).bind _ = _
    rw [hflat.element?_arrayOf_one hne]
    show some (TypeTable.mention _ t) = _
    rw [mention, hlisted₁.intern_eq (mem_intern _ hmem), idOf_intern_of_mem hmem,
      hlisted.idOf_eq ht]

/-- A table that has arrays, one of them of a class whose base is an array. -/
theorem types_canonical_arrays :
    let T := after {} [.make (.array 0 255), .make (.array 5 2), .declareClass "A" (some 5) [],
      .make (.array 6 1), .join 5 7, .element 7]
    T.size = 8 ∧ ∀ id s, T.shapeAt? id = some s → T.serve? (.make s) = some (T, id) :=
  ⟨by decide, (types_canonical {} _ (by decide)).2.2.1⟩

end TypeTable

end BytecodeBridge
