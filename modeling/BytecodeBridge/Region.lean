/-
Exception regions: protected ranges with the clauses that guard them.

Handlers that share a protected range form one region. Its clauses lie
one after the other behind the range, and only the last may be a finally
or fault clause. The regions of a method are nested or disjoint, and are
kept innermost first; the place of a region in that list is its name in
labels.

A leave out of a protected range runs the finally clauses it crosses.
`RegionTree.route` finds the innermost region whose finally clause a
leave still has to run. From there the leave goes on as if it stood at
the start of that clause; since a route only goes through a clause that
starts further down, following routes comes to an end (`relays`).
-/
import BytecodeBridge.Source.Body
import BytecodeBridge.Error

namespace BytecodeBridge

-- ==== clauses

/-- What a clause of a region does. -/
inductive ClauseKind where
  /-- handles exceptions of a type -/
  | typed (ty : Ty)
  /-- handles exceptions that a condition, found at an offset, accepts -/
  | filtered (condition : Nat)
  /-- the finally clause, run on every way out -/
  | cleanup
  /-- run when an exception passes -/
  | fault
deriving DecidableEq, Repr, Inhabited

/-- One clause of a region. -/
structure Clause where
  kind : ClauseKind
  /-- the first operation of the clause; of a filter, its condition's -/
  start : Nat
  stop : Nat
  handlerStart : Nat
  /-- holds the caught exception for a rethrow -/
  rethrowSlot : Option Nat := none
deriving DecidableEq, Repr, Inhabited

namespace Clause

/-- Finally and fault clauses end a region. -/
def isFinal (c : Clause) : Bool :=
  match c.kind with
  | .cleanup | .fault => true
  | .typed _ | .filtered _ => false

def isFilter (c : Clause) : Bool :=
  match c.kind with
  | .filtered _ => true
  | _ => false

def contains (c : Clause) (offset : Nat) : Bool :=
  c.start ≤ offset && offset < c.stop

/-- Whether an exception is being handled at the offset by this clause. -/
def handles (c : Clause) (offset : Nat) : Bool :=
  match c.kind with
  | .typed _ => c.contains offset
  | .filtered _ => c.handlerStart ≤ offset && offset < c.stop
  | .cleanup | .fault => false

/-- Whether the offset lies in the condition of this filter. -/
def decides (c : Clause) (offset : Nat) : Bool :=
  match c.kind with
  | .filtered condition => condition ≤ offset && offset < c.handlerStart
  | _ => false

end Clause

-- ==== regions

/-- What happens when a finally clause completes. -/
inductive Resumption where
  /-- the clause was entered by an exception -/
  | rethrow
  /-- the clause was entered by the leave with this index -/
  | leave (index target : Nat)
deriving DecidableEq, Repr

/-- A protected range and its clauses. -/
structure Region where
  start : Nat
  stop : Nat
  clauses : List Clause
  /-- destinations of the leaves relayed through the finally clause, by index -/
  leaveTargets : List Nat := []
  /-- holds what the final clause was entered with -/
  finallySlot : Option Nat := none
  /-- holds the exception while a filter decides -/
  filterSlot : Option Nat := none
deriving DecidableEq, Repr, Inhabited

namespace Region

/-- Where the dispatch code is placed. -/
def handlerOffset (r : Region) : Nat :=
  match r.clauses.head? with
  | some c => c.start
  | none => r.stop

/-- The end of the last clause. -/
def spanStop (r : Region) : Nat :=
  match r.clauses.getLast? with
  | some c => c.stop
  | none => r.stop

def spanLength (r : Region) : Nat :=
  r.spanStop - r.start

/-- The last clause, if it is a finally or fault clause, with its number. -/
def finalClause? (r : Region) : Option (Nat × Clause) :=
  match r.clauses.getLast? with
  | some c => if c.isFinal then some (r.clauses.length - 1, c) else none
  | none => none

/-- Where the finally clause starts. -/
def finallyStart? (r : Region) : Option Nat :=
  match r.finalClause? with
  | some (_, c) => if c.kind = .cleanup then some c.start else none
  | none => none

/-- Whether a leave from the offset to a place outside has to run the finally
clause. -/
def guards (r : Region) (offset : Nat) : Bool :=
  match r.finallyStart? with
  | some f => r.start ≤ offset && offset < f
  | none => false

/-- Every way control can leave the finally clause, rethrowing first. -/
def resumptions (r : Region) : List Resumption :=
  .rethrow :: r.leaveTargets.zipIdx.map fun (target, index) => .leave index target

def hasFilter (r : Region) : Bool :=
  r.clauses.any Clause.isFilter

/-- The range from the start to the end of the last clause. -/
def span (r : Region) : Nat × Nat :=
  (r.start, r.spanStop)

/-- The ranges a nested region may lie within. -/
def parts (r : Region) : List (Nat × Nat) :=
  (r.start, r.stop) :: r.clauses.map fun c => (c.start, c.stop)

/-- Whether the protected range contains the offset. -/
def protects (r : Region) (offset : Nat) : Bool :=
  r.start ≤ offset && offset < r.stop

end Region

/-- Whether a range lies in another. -/
def within (inner outer : Nat × Nat) : Bool :=
  outer.1 ≤ inner.1 && inner.2 ≤ outer.2

-- ==== region trees

/-- The regions of a method, innermost first. -/
structure RegionTree where
  regions : List Region := []
deriving DecidableEq, Repr, Inhabited

/-- A clause and where it stands. -/
structure ClauseSite where
  regionIndex : Nat
  region : Region
  clauseIndex : Nat
  clause : Clause
deriving DecidableEq, Repr, Inhabited

/-- How a leave reaches its destination. -/
inductive Leave where
  | direct
  /-- through the finally clause of a region, as the destination with an index -/
  | relay (region index : Nat)
deriving DecidableEq, Repr

namespace RegionTree

def size (t : RegionTree) : Nat :=
  t.regions.length

def get (t : RegionTree) (region : Nat) : Except Cause Region :=
  match t.regions[region]? with
  | some r => return r
  | none => throw (.internal (.noRegion region))

-- ==== queries

/-- The first clause of a kind, in the innermost region that has one. -/
def locate (t : RegionTree) (p : Clause → Bool) : Option ClauseSite :=
  t.regions.zipIdx.findSome? fun (region, r) =>
    region.clauses.zipIdx.findSome? fun (clause, k) =>
      if p clause then some ⟨r, region, k, clause⟩ else none

/-- The innermost catch or filter handler that contains the offset. -/
def handlingClause? (t : RegionTree) (offset : Nat) : Option ClauseSite :=
  t.locate (·.handles offset)

/-- The innermost finally or fault clause that contains the offset. -/
def finalClauseAt (t : RegionTree) (offset : Nat) : Except Cause ClauseSite :=
  match t.locate fun c => c.isFinal && c.contains offset with
  | some site => return site
  | none => throw (.malformed (.endFinallyOutside offset))

/-- The innermost filter whose condition contains the offset. -/
def filterAt (t : RegionTree) (offset : Nat) : Except Cause ClauseSite :=
  match t.locate (·.decides offset) with
  | some site => return site
  | none => throw (.malformed (.endFilterOutside offset))

/-- The slot of the exception being handled at the offset. -/
def rethrowSlot (t : RegionTree) (offset : Nat) : Except Cause Nat := do
  let some site := t.handlingClause? offset
    | throw (.malformed (.rethrowOutside offset))
  let slot := if site.clause.isFilter then site.region.filterSlot else site.clause.rethrowSlot
  match slot with
  | some s => return s
  | none => throw (.internal (.noRethrowSlot offset))

/-- The region whose dispatch code is placed at the offset. -/
def handlerAt? (t : RegionTree) (offset : Nat) : Option Nat :=
  t.regions.findIdx? fun r => r.handlerOffset == offset

/-- The regions whose protected range starts at the offset, outermost first. -/
def startingAt (t : RegionTree) (offset : Nat) : List Nat :=
  (t.regions.zipIdx.filterMap fun (r, i) => if r.start = offset then some i else none).reverse

/-- The regions whose protected range contains the offset. -/
def protecting (t : RegionTree) (offset : Nat) : List Nat :=
  t.regions.zipIdx.filterMap fun (r, i) => if r.protects offset then some i else none

-- ==== routes

/-- The innermost region whose finally clause a leave has to run, and where that
clause starts. -/
def route (regions : List Region) (source target : Nat) : Option (Nat × Nat) :=
  regions.zipIdx.findSome? fun (r, i) =>
    if r.guards source && !r.guards target then r.finallyStart?.map fun f => (i, f) else none

/-- The furthest start of a finally clause. -/
def lastFinally (regions : List Region) : Nat :=
  (regions.filterMap Region.finallyStart?).foldl max 0

/-- A running maximum is above its start and above all it has met. -/
theorem le_foldl_max (l : List Nat) (n : Nat) :
    n ≤ l.foldl max n ∧ ∀ x ∈ l, x ≤ l.foldl max n := by
  induction l generalizing n with
  | nil => simp
  | cons y rest ih =>
    obtain ⟨hacc, hmem⟩ := ih (max n y)
    rw [List.foldl_cons]
    refine ⟨Nat.le_trans (Nat.le_max_left n y) hacc, fun x hx => ?_⟩
    rcases List.mem_cons.mp hx with rfl | hx
    · exact Nat.le_trans (Nat.le_max_right n x) hacc
    · exact hmem x hx

/-- A route leads further down, to the start of a finally clause. -/
theorem route_bounds {regions : List Region} {source target r f : Nat}
    (h : route regions source target = some (r, f)) :
    source < f ∧ f ≤ lastFinally regions := by
  obtain ⟨_, ⟨region, i⟩, _, hsplit, hfound, _⟩ := List.findSome?_eq_some_iff.mp h
  have hmem : (region, i) ∈ regions.zipIdx := by simp [hsplit]
  have hregion : region ∈ regions := (List.mem_zipIdx' hmem).2 ▸ List.getElem_mem _
  dsimp only at hfound
  split at hfound
  · next hguard =>
    obtain ⟨f', hf, heq⟩ := Option.map_eq_some_iff.mp hfound
    obtain ⟨rfl, rfl⟩ := Prod.mk.inj heq
    refine ⟨?_, (le_foldl_max _ 0).2 f' (List.mem_filterMap.mpr ⟨region, hregion, hf⟩)⟩
    have hsource := (Bool.and_eq_true_iff.mp hguard).1
    simp only [Region.guards, hf, Bool.and_eq_true, decide_eq_true_eq] at hsource
    exact hsource.2
  · exact absurd hfound (by simp)

/-- The regions whose finally clauses a leave runs, in that order. -/
def relays (regions : List Region) (source target : Nat) : List Nat :=
  match _hroute : route regions source target with
  | none => []
  | some (r, f) => r :: relays regions f target
termination_by lastFinally regions - source
decreasing_by
  have := route_bounds _hroute
  omega

/-- How a leave at an offset gets to its target. -/
def planLeave (t : RegionTree) (source target : Nat) : Except Cause Leave :=
  match route t.regions source target with
  | none => return .direct
  | some (r, _) => do
    let region ← t.get r
    match region.leaveTargets.idxOf? target with
    | some index => return .relay r index
    | none => throw (.internal (.leaveUnplanned target r))

end RegionTree

end BytecodeBridge
