/-
Subtyping and joins over the declared hierarchy.

`ancestors` walks the declared supertypes breadth first and lists what it
reaches with the distance it was reached at. The hierarchy may be cyclic,
so the walk keeps what it has seen: each step either drops an entry that
was seen before, or visits a type for the first time. A visit that adds
entries to the queue visits a declared type, of which there are finitely
many; the measure counts the declared types not seen yet first and the
queue second. The walk does not look past the exception root, which may
stand in for a class of the target machine and point back down.

`commonSupertype` takes the nearest type reachable from both sides, by
the sum of the distances. Ties go to classes before interfaces before
undeclared types, then to the smaller description, then to the type
mentioned first, so the choice does not depend on the order of the
arguments.
-/
import BytecodeBridge.TypeTable

namespace BytecodeBridge.TypeTable

-- ==== ancestors

/-- The class whose hierarchy a reference type answers to. -/
def classOf (T : TypeTable) : Ty → Ty
  | t@(.boxed (.prim k) false) => if T.knows (.ref k.wrapper) then .ref k.wrapper else t
  | .boxed content false => content
  | t => t

/-- Whether a walk has reached a type. -/
def reached (seen : List (Ty × Nat)) (t : Ty) : Bool :=
  seen.any fun e => e.1 == t

/-- Declarations of types that a walk has not reached. -/
def unreached (T : TypeTable) (seen : List (Ty × Nat)) : Nat :=
  T.classes.countP fun e => !reached seen e.1

/-- What a visit adds to the queue: the supertypes, one step further away. -/
def steps (T : TypeTable) (t : Ty) (distance : Nat) : List (Ty × Nat) :=
  if T.root = some t then [] else (T.supertypes t).map fun s => (s, distance + 1)

theorem reached_cons (seen : List (Ty × Nat)) (e : Ty × Nat) (t : Ty) :
    reached (e :: seen) t = (e.1 == t || reached seen t) := rfl

/-- Visiting a type leaves no more declarations unreached. -/
theorem unreached_cons_le (T : TypeTable) (seen : List (Ty × Nat)) (e : Ty × Nat) :
    T.unreached (e :: seen) ≤ T.unreached seen := by
  apply List.countP_mono_left
  intro d _ h
  rw [reached_cons] at h
  revert h
  cases reached seen d.1 <;> simp

theorem mem_of_lookup {classes : List (Ty × Declaration)} {t : Ty} {d : Declaration}
    (h : classes.lookup t = some d) : (t, d) ∈ classes := by
  induction classes with
  | nil => simp at h
  | cons e rest ih =>
    rw [List.lookup_cons] at h
    split at h
    · next heq =>
      obtain rfl : t = e.1 := by simpa using heq
      obtain rfl : e.2 = d := by simpa using h
      exact List.mem_cons_self
    · exact List.mem_cons_of_mem _ (ih h)

/-- A visit that adds to the queue reaches a declaration. -/
theorem unreached_cons_lt {T : TypeTable} {seen : List (Ty × Nat)} {t : Ty} {n : Nat}
    (hnew : reached seen t = false) (hstep : T.steps t n ≠ []) :
    T.unreached ((t, n) :: seen) < T.unreached seen := by
  obtain ⟨d, hd⟩ : ∃ d, (t, d) ∈ T.classes := by
    unfold steps supertypes declaration? at hstep
    split at hstep
    · exact absurd rfl hstep
    · cases hl : T.classes.lookup t with
      | none => simp [hl] at hstep
      | some d => exact ⟨d, mem_of_lookup hl⟩
  obtain ⟨before, after, hsplit⟩ := List.append_of_mem hd
  have hb := unreached_cons_le { T with classes := before } seen (t, n)
  have ha := unreached_cons_le { T with classes := after } seen (t, n)
  have hself : reached ((t, n) :: seen) t = true := by simp [reached_cons]
  simp only [unreached, hsplit, List.countP_append, List.countP_cons] at hb ha ⊢
  simp only [hnew, hself, Bool.not_false, Bool.not_true, Bool.false_eq_true, if_true, if_false]
  omega

/-- The walk from a queue of types with their distances, given what it has seen,
the latest first. -/
def walk (T : TypeTable) (seen queue : List (Ty × Nat)) : List (Ty × Nat) :=
  match queue with
  | [] => seen.reverse
  | (t, n) :: rest =>
    if reached seen t then T.walk seen rest
    else T.walk ((t, n) :: seen) (rest ++ T.steps t n)
termination_by (T.unreached seen, queue.length)
decreasing_by
  · exact Prod.Lex.right _ (Nat.lt_succ_self _)
  · next hnew =>
    by_cases hstep : T.steps t n = []
    · rw [hstep, List.append_nil]
      rcases Nat.lt_or_ge (T.unreached ((t, n) :: seen)) (T.unreached seen) with h | h
      · exact Prod.Lex.left _ _ h
      · rw [Nat.le_antisymm (unreached_cons_le T seen (t, n)) h]
        exact Prod.Lex.right _ (Nat.lt_succ_self _)
    · exact Prod.Lex.left _ _ (unreached_cons_lt (Bool.eq_false_iff.mpr hnew) hstep)

/-- The types reachable from a type, itself included, each with the number of
steps on a shortest way. -/
def ancestors (T : TypeTable) (t : Ty) : List (Ty × Nat) :=
  T.walk [] [(T.classOf t, 0)]

-- ==== assignability

/-- Whether a class reference stands below another in the hierarchy. -/
def below (T : TypeTable) (a b : Ty) : Bool :=
  a.isReference && b.isReference && reached (T.ancestors a) (T.classOf b)

/-- Whether a value of the first type may stand where the second is expected.
Array types follow their elements when these are references, and an array of
higher rank is an array of objects. -/
def assignable (T : TypeTable) (a b : Ty) : Bool :=
  a == b || b.isTop ||
    match a, b with
    | .prim x, .prim y => x.stackKind == y.stackKind
    | .value _, _ | _, .value _ => false
    | .uninitThis, _ | _, .uninitThis => false
    | .null, b => b.isReference
    | .array ea ra, .array eb rb =>
      if ra = rb then
        if ea.isReference && eb.isReference then T.assignable ea eb else ea == eb
      else rb < ra && eb == T.object
    | a, b =>
      if b = T.object then a.isReference
      else
        match a, b with
        | .array _ _, _ | _, .array _ _ => false
        | .generic _ _, _ | _, .generic _ _ => false
        | a, b => T.below a b

-- ==== joins

/-- A supertype of two types, with the sum of its distances from them. -/
structure Candidate where
  distance : Nat
  ty : Ty
deriving DecidableEq, Repr

/-- The place of a type's declaration in a tie: classes come first, types without
a declaration last. -/
def declarationRank (T : TypeTable) (t : Ty) : Nat :=
  match T.declaration? t with
  | some ⟨.class_, _⟩ => 0
  | some ⟨.interface, _⟩ => 1
  | none => 2

/-- The order in which candidates are preferred. -/
def preference (T : TypeTable) (l r : Candidate) : Ordering :=
  (compare l.distance r.distance).then <|
    (compare (T.declarationRank l.ty) (T.declarationRank r.ty)).then <|
      (compare l.ty.describe r.ty.describe).then <|
        compare (T.idOf l.ty) (T.idOf r.ty)

/-- The types other than the universal object type that are reachable from both. -/
def candidates (T : TypeTable) (a b : Ty) : List Candidate :=
  let fromB := T.ancestors b
  (T.ancestors a).filterMap fun (t, x) =>
    if t = T.object then none
    else (fromB.lookup t).map fun y => ⟨x + y, t⟩

/-- The candidate that is preferred to all others. -/
def best (T : TypeTable) : List Candidate → Option Candidate
  | [] => none
  | c :: rest => some (rest.foldl (fun m d => if T.preference d m = .lt then d else m) c)

/-- The nearest type reachable from both, or else the universal object type. -/
def nearest (T : TypeTable) (a b : Ty) : Ty :=
  match T.best (T.candidates a b) with
  | some c => c.ty
  | none => T.object

/-- The nearest common supertype of two types that are not both arrays: an array
has only the universal object type in common with anything else. -/
def commonOfFlat (T : TypeTable) (a b : Ty) : Ty :=
  match a, b with
  | .array _ _, _ | _, .array _ _ => T.object
  | a, b => T.nearest a b

/-- The nearest common supertype of two types. Null is below every reference.
Arrays of one rank over references follow their elements; other arrays have only
the universal object type in common. -/
def commonSupertype (T : TypeTable) (a b : Ty) : Ty :=
  if a = b then a
  else
    match a, b with
    | .null, b => if b.isReference then b else T.commonOfFlat .null b
    | a, .null => if a.isReference then a else T.commonOfFlat a .null
    | .array ea ra, .array eb rb =>
      if ra = rb && ea.isReference && eb.isReference then (T.commonSupertype ea eb).arrayOf ra
      else T.object
    | a, b => T.commonOfFlat a b

/-- The least type that covers both; `top` if there is none. -/
def join (T : TypeTable) (a b : Ty) : Ty :=
  if a = b then a
  else
    match a, b with
    | .top, _ | _, .top => .top
    | .prim x, .prim y =>
      match x.numKind, y.numKind with
      | .int, .int => .prim .int32
      | .long, .long => .prim .int64
      | _, _ => .top
    | .uninitThis, _ | _, .uninitThis => .top
    | a, b => if a.isReference && b.isReference then T.commonSupertype a b else .top

/-- The type that a join makes, if any. A join of classes is a class that is
known already. -/
def joinMakes (T : TypeTable) (a b : Ty) : List Ty :=
  match T.join a b with
  | t@.top | t@(.prim _) | t@(.array _ _) => [t]
  | _ => []

end BytecodeBridge.TypeTable
