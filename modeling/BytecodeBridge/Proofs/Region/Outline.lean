/-
What building a region tree adds to the regions of a body.

`RegionTree.build` starts from the regions of the handlers and gives them
slots and the destinations of leaves. Ranges, clauses and their order stay
as they were: the *outline* of every region is kept. Routes depend on the
outlines alone, so a route may be found before, during or after the build,
and what was proved of the handlers' regions (`Laminar`) holds of the
finished tree.

The destinations are where order matters. A leave is planned against the
tree as it stands, but since its relays depend only on outlines they are
the relays in the finished tree too, and a destination once known to a
region stays known (`Knows`).
-/
import BytecodeBridge.Proofs.Region.Laminar

namespace BytecodeBridge

open Region

-- ==== outlines

/-- A clause without its slot. -/
def Clause.outline (c : Clause) : Clause :=
  { c with rethrowSlot := none }

/-- A region without what the build adds to it. -/
def Region.outline (r : Region) : Region :=
  { start := r.start, stop := r.stop, clauses := r.clauses.map Clause.outline }

namespace Region

theorem finallyStart?_outline (r : Region) : r.outline.finallyStart? = r.finallyStart? := by
  unfold finallyStart? finalClause? outline
  simp only [List.getLast?_map, List.length_map]
  cases r.clauses.getLast? with
  | none => rfl
  | some c =>
    dsimp only [Option.map_some]
    have hfinal : c.outline.isFinal = c.isFinal := rfl
    rw [hfinal]
    cases c.isFinal <;> rfl

theorem guards_outline (r : Region) (offset : Nat) : r.outline.guards offset = r.guards offset := by
  unfold guards
  rw [finallyStart?_outline]
  rfl

theorem spanStop_outline (r : Region) : r.outline.spanStop = r.spanStop := by
  unfold spanStop outline
  simp only [List.getLast?_map]
  cases r.clauses.getLast? <;> rfl

theorem parts_outline (r : Region) : r.outline.parts = r.parts := by
  unfold parts outline
  simp only [List.map_map]
  rfl

theorem sound_outline {r : Region} : r.outline.Sound ↔ r.Sound := by
  have hmem : ∀ {P : Clause → Prop}, (∀ c : Clause, P c.outline ↔ P c) →
      ∀ l : List Clause, (∀ c ∈ l.map .outline, P c) ↔ ∀ c ∈ l, P c := by
    intro P hP l
    rw [List.forall_mem_map]
    exact forall₂_congr fun c _ => hP c
  constructor
  · intro h
    refine ⟨h.start_lt, ?_, (hmem (fun _ => Iff.rfl) _).mp h.clause,
      (hmem (fun _ => Iff.rfl) _).mp h.behind, List.pairwise_map.mp h.ordered, ?_⟩
    · exact fun hnil => h.nonempty (by rw [outline, hnil, List.map_nil])
    · have hlast := h.final_last
      rw [outline, ← List.map_dropLast] at hlast
      exact (hmem (fun _ => Iff.rfl) _).mp hlast
  · intro h
    refine ⟨h.start_lt, ?_, (hmem (fun _ => Iff.rfl) _).mpr h.clause,
      (hmem (fun _ => Iff.rfl) _).mpr h.behind, List.pairwise_map.mpr h.ordered, ?_⟩
    · exact fun hnil => h.nonempty (List.map_eq_nil_iff.mp hnil)
    · rw [outline, ← List.map_dropLast]
      exact (hmem (fun _ => Iff.rfl) _).mpr h.final_last

theorem apart_outline {a b : Region} : a.outline.Apart b.outline ↔ a.Apart b := by
  unfold Apart
  rw [spanStop_outline, spanStop_outline]
  rfl

theorem inside_outline {a b : Region} : a.outline.Inside b.outline ↔ a.Inside b := by
  unfold Inside
  rw [spanStop_outline, parts_outline]
  rfl

end Region

/-- A list of regions is laminar if its outlines are. -/
private theorem laminar_outline {regions : List Region} :
    Laminar (regions.map outline) ↔ Laminar regions := by
  constructor
  · intro h
    refine ⟨fun r hr => sound_outline.mp (h.sound _ (List.mem_map_of_mem hr)), ?_⟩
    exact (List.pairwise_map.mp h.nested).imp fun hab =>
      hab.imp apart_outline.mp inside_outline.mp
  · intro h
    refine ⟨fun r hr => ?_, List.pairwise_map.mpr (h.nested.imp fun hab =>
      hab.imp apart_outline.mpr inside_outline.mpr)⟩
    obtain ⟨r', hr', rfl⟩ := List.mem_map.mp hr
    exact sound_outline.mpr (h.sound r' hr')

-- ==== bare regions

theorem Region.ofClauses_ok {range : Nat × Nat} {clauses : List Clause} {r : Region}
    (h : ofClauses range clauses = .ok r) :
    r = { start := range.1, stop := range.2,
          clauses := clauses.mergeSort fun a b => a.start ≤ b.start } := by
  have hthrow : ∀ {e : Cause} {f : PUnit → Except Cause Region}, (throw e >>= f) ≠ .ok r :=
    fun h => by cases h
  unfold ofClauses at h
  dsimp only at h
  split at h
  · split at h
    · exact absurd h hthrow
    · split at h
      · exact absurd h hthrow
      · split at h
        · exact absurd h hthrow
        · exact (except_pure_ok h).symm
  · split at h
    · exact absurd h hthrow
    · split at h
      · exact absurd h hthrow
      · exact (except_pure_ok h).symm

namespace RegionTree

variable {body : Body} {T : TypeTable} {config : Config} {regions : List Region}
  {region target r : Nat} {t tree : RegionTree} {Q : List Nat → Prop} {s s' : Slots}

/-- The regions of a body have nothing yet that the build adds to them. -/
theorem outline_regionsOf (h : regionsOf body T config = .ok regions) :
    ∀ r ∈ regions, r.outline = r := by
  obtain ⟨unsorted, rfl, -, hgroups⟩ := regionsOf_ok h
  intro r hr
  obtain ⟨range, cs, -, hok, hcs⟩ := hgroups r (List.mem_mergeSort.mp hr)
  rw [ofClauses_ok hok]
  unfold outline
  congr 1
  refine (List.map_congr_left fun c hc => ?_).trans (List.map_id _)
  obtain ⟨handler, -, hclause⟩ := hcs c (List.mem_mergeSort.mp hc)
  obtain ⟨-, -, -, -, -, hslot⟩ := clause_ok hclause
  show { c with rethrowSlot := none } = c
  rw [← hslot]

-- ==== routes

theorem route_outline (regions : List Region) (source target : Nat) :
    route (regions.map outline) source target = route regions source target := by
  unfold route
  rw [List.zipIdx_map, List.findSome?_map]
  congr 1
  funext ⟨r, i⟩
  simp only [Function.comp_apply, Prod.map_apply, id_eq, guards_outline,
    finallyStart?_outline]

/-- The relays of a leave depend on the outlines of the regions. -/
private theorem relays_outline (regions : List Region) (source target : Nat) :
    relays (regions.map outline) source target = relays regions source target := by
  fun_induction relays regions source target with
  | case1 source hroute =>
    rw [relays]
    split
    · rfl
    · next hsome =>
      rw [route_outline, hroute] at hsome
      cases hsome
  | case2 source r f hroute ih =>
    rw [relays]
    split
    · next hnone =>
      rw [route_outline, hroute] at hnone
      cases hnone
    · next hsome =>
      rw [route_outline, hroute] at hsome
      cases hsome
      rw [ih]

theorem relays_eq_of_outline {a b : List Region}
    (h : a.map outline = b.map outline) (source target : Nat) :
    relays a source target = relays b source target := by
  rw [← relays_outline, h, relays_outline]

-- ==== the build

/-- A view that a change of one member does not touch is kept. -/
theorem map_modify_of_eq {α β : Type} {g : α → β} {f : α → α} (hf : ∀ a, g (f a) = g a)
    (l : List α) (i : Nat) : (l.modify i f).map g = l.map g := by
  refine List.ext_getElem? fun j => ?_
  rw [List.getElem?_map, List.getElem?_map, List.getElem?_modify, Option.map_eq_map,
    Option.map_map]
  congr 1
  funext a
  by_cases hij : i = j
  · simp only [Function.comp_apply, hij, if_true, hf]
  · simp only [Function.comp_apply, hij, if_false]

private theorem outline_withSlots (T : TypeTable) (all : List Region) (r : Region) :
    Yields (fun _ => True) (withSlots T all r) fun r' _ => r'.outline = r.outline := by
  have hlast : ∀ (x : SlotM (Option Nat)) (f : Option Nat → Region),
      (∀ slot, (f slot).outline = r.outline) →
      Yields (fun _ => True) (x >>= fun slot => pure (f slot))
        fun r' _ => r'.outline = r.outline := by
    intro x f hf
    exact .bind .any fun slot => .pure fun _ _ => hf slot
  unfold withSlots
  dsimp only
  split
  · refine .bind .any fun finallySlot => ?_
    split
    · exact hlast _ _ fun _ => rfl
    · exact hlast _ _ fun _ => rfl
  · refine .bind .any fun finallySlot => ?_
    split
    · exact hlast _ _ fun _ => rfl
    · exact hlast _ _ fun _ => rfl

private theorem outline_setRethrowSlot (t : RegionTree) (region clause slot : Nat) :
    (t.setRethrowSlot region clause slot).regions.map outline
      = t.regions.map outline := by
  refine map_modify_of_eq (fun r => ?_) t.regions region
  have hclauses := map_modify_of_eq (g := Clause.outline)
    (f := fun c => { c with rethrowSlot := some slot }) (fun _ => rfl) r.clauses clause
  unfold outline
  rw [← hclauses]

private theorem outline_withRethrow (T : TypeTable) (t : RegionTree) (op : Nat × Op) :
    Yields (fun _ => True) (withRethrow T t op)
      fun t' _ => t'.regions.map outline = t.regions.map outline := by
  unfold withRethrow
  split
  · split
    · split
      · exact .pure fun _ _ => rfl
      · refine .bind .any fun slot => ?_
        exact .pure fun _ _ => outline_setRethrowSlot t _ _ slot
    · exact .throw
  · exact .pure fun _ _ => rfl

theorem outline_addLeaveTarget (target : Nat) (t : RegionTree) (region : Nat) :
    (addLeaveTarget target t region).regions.map outline
      = t.regions.map outline := by
  refine map_modify_of_eq (fun r => ?_) t.regions region
  split <;> rfl

private theorem outline_foldl_addLeaveTarget (target : Nat) (l : List Nat) (t : RegionTree) :
    (l.foldl (addLeaveTarget target) t).regions.map outline
      = t.regions.map outline :=
  List.foldlRecOn (motive := fun u : RegionTree =>
    u.regions.map outline = t.regions.map outline) _ _ rfl
    fun u hu r _ => (outline_addLeaveTarget target u r).trans hu

theorem outline_withLeave (t : RegionTree) (op : Nat × Op) :
    (withLeave t op).regions.map outline = t.regions.map outline := by
  unfold withLeave
  split
  · exact outline_foldl_addLeaveTarget _ _ t
  · rfl

-- ==== known leaves

/-- A region knows a destination of leaves through its finally clause. -/
def Knows (t : RegionTree) (region target : Nat) : Prop :=
  ∃ r, t.regions[region]? = some r ∧ target ∈ r.leaveTargets

private theorem knows_addLeaveTarget_self (t : RegionTree) (hlt : region < t.regions.length)
    (target : Nat) :
    (addLeaveTarget target t region).Knows region target := by
  have hget : t.regions[region]? = some t.regions[region] := List.getElem?_eq_getElem hlt
  unfold Knows addLeaveTarget
  rw [List.getElem?_modify, hget]
  simp only [if_true, Option.map_eq_map, Option.map_some, Option.some.injEq, exists_eq_left']
  split
  · next hmem => exact List.contains_iff_mem.mp hmem
  · exact List.mem_append_right _ (List.mem_singleton_self target)

theorem Knows.addLeaveTarget (h : t.Knows region target) (other i : Nat) :
    (addLeaveTarget other t i).Knows region target := by
  obtain ⟨r, hr, hmem⟩ := h
  unfold Knows RegionTree.addLeaveTarget
  rw [List.getElem?_modify, hr]
  simp only [Option.map_eq_map, Option.map_some, Option.some.injEq, exists_eq_left']
  split
  · split
    · exact hmem
    · exact List.mem_append_left _ hmem
  · exact hmem

theorem Knows.foldl_addLeaveTarget (h : t.Knows region target) (other : Nat) (l : List Nat) :
    (l.foldl (RegionTree.addLeaveTarget other) t).Knows region target :=
  List.foldlRecOn (motive := fun u : RegionTree => u.Knows region target) _ _ h
    fun _ hu i _ => hu.addLeaveTarget other i

theorem Knows.withLeave (h : t.Knows region target) (op : Nat × Op) :
    (withLeave t op).Knows region target := by
  unfold RegionTree.withLeave
  split
  · exact h.foldl_addLeaveTarget _ _
  · exact h

/-- After a leave was added along a list of regions, all of them know it. -/
private theorem knows_foldl_addLeaveTarget (l : List Nat) (hlt : ∀ r ∈ l, r < t.regions.length)
    (hmem : region ∈ l) :
    (l.foldl (addLeaveTarget target) t).Knows region target := by
  induction l generalizing t with
  | nil => cases hmem
  | cons i l ih =>
    rw [List.foldl_cons]
    rcases List.mem_cons.mp hmem with rfl | hmem
    · exact (knows_addLeaveTarget_self t (hlt region hmem) target).foldl_addLeaveTarget target l
    · refine ih (fun r hr => ?_) hmem
      have := hlt r (.tail _ hr)
      simpa [addLeaveTarget] using this

theorem route_lt {source f : Nat} (h : route regions source target = some (r, f)) :
    ∃ region, regions[r]? = some region ∧ region.finallyStart? = some f := by
  obtain ⟨⟨region, i⟩, hmem, hfound⟩ := List.exists_of_findSome?_eq_some h
  dsimp only at hfound
  split at hfound
  · obtain ⟨f', hf, heq⟩ := Option.map_eq_some_iff.mp hfound
    obtain ⟨rfl, rfl⟩ := Prod.mk.inj heq
    exact ⟨region, List.mk_mem_zipIdx_iff_getElem?.mp hmem, hf⟩
  · cases hfound

theorem relays_lt {source : Nat} (h : r ∈ relays regions source target) : r < regions.length := by
  fun_induction relays regions source target with
  | case1 source hroute => cases h
  | case2 source i f hroute ih =>
    rcases List.mem_cons.mp h with rfl | h
    · obtain ⟨region, hget, -⟩ := route_lt hroute
      exact (List.getElem?_eq_some_iff.mp hget).1
    · exact ih h

/-- Once all leaves of a body were added, its regions know those they relay. -/
private theorem knows_foldl_withLeave (code : List (Nat × Op)) {offset : Nat}
    (hleave : (offset, .leave target) ∈ code) (hr : r ∈ relays t.regions offset target) :
    (code.foldl withLeave t).Knows r target := by
  induction code generalizing t with
  | nil => cases hleave
  | cons op code ih =>
    rw [List.foldl_cons]
    rcases List.mem_cons.mp hleave with rfl | hleave
    · have hknows : (withLeave t (offset, .leave target)).Knows r target :=
        knows_foldl_addLeaveTarget _ (fun _ => relays_lt) hr
      exact List.foldlRecOn (motive := fun u : RegionTree => u.Knows r target) _ _ hknows
        fun _ hu op _ => hu.withLeave op
    · refine ih hleave ?_
      rw [relays_eq_of_outline (outline_withLeave t op)]
      exact hr

-- ==== leave targets

private theorem leaveTargets_withSlots (T : TypeTable) (all : List Region) (r : Region) :
    Yields (fun _ => True) (withSlots T all r)
      fun r' _ => r'.leaveTargets = r.leaveTargets := by
  unfold withSlots
  dsimp only
  split
  · refine .bind .any fun finallySlot => ?_
    split <;> exact .bind .any fun filterSlot => .pure fun _ _ => rfl
  · refine .bind .any fun finallySlot => ?_
    split <;> exact .bind .any fun filterSlot => .pure fun _ _ => rfl

private theorem leaveTargets_withRethrow (T : TypeTable) (t : RegionTree) (op : Nat × Op) :
    Yields (fun _ => True) (withRethrow T t op)
      fun t' _ => t'.regions.map leaveTargets = t.regions.map leaveTargets := by
  unfold withRethrow
  split
  · split
    · split
      · exact .pure fun _ _ => rfl
      · refine .bind .any fun slot => .pure fun _ _ => ?_
        refine map_modify_of_eq (g := leaveTargets) (fun r => ?_) t.regions _
        rfl
    · exact .throw
  · exact .pure fun _ _ => rfl

/-- What holds of the destinations of every region still does when one learns a new
one. -/
private theorem leaveTargets_addLeaveTarget (hadd : ∀ l, target ∉ l → Q l → Q (l ++ [target]))
    (h : ∀ r ∈ t.regions, Q r.leaveTargets) (i : Nat) :
    ∀ r ∈ (addLeaveTarget target t i).regions, Q r.leaveTargets := by
  intro r' hr'
  obtain ⟨j, hj⟩ := List.mem_iff_getElem?.mp hr'
  unfold addLeaveTarget at hj
  rw [List.getElem?_modify] at hj
  obtain ⟨r, hget, rfl⟩ := Option.map_eq_some_iff.mp hj
  have hr := h r (List.mem_of_getElem? hget)
  by_cases hij : i = j
  · rw [if_pos hij]
    by_cases hknown : r.leaveTargets.contains target = true
    · rwa [if_pos hknown]
    · rw [if_neg hknown]
      exact hadd _ (fun hmem => hknown (List.contains_iff_mem.mpr hmem)) hr
  · rwa [if_neg hij]

private theorem leaveTargets_foldl_withLeave {code : List (Nat × Op)}
    (hadd : ∀ o target, (o, .leave target) ∈ code → ∀ l, target ∉ l → Q l → Q (l ++ [target]))
    (h : ∀ r ∈ t.regions, Q r.leaveTargets) :
    ∀ r ∈ (code.foldl withLeave t).regions, Q r.leaveTargets := by
  refine List.foldlRecOn (motive := fun u : RegionTree =>
    ∀ r ∈ u.regions, Q r.leaveTargets) _ _ h fun u hu op hop => ?_
  unfold withLeave
  split
  · next offset target =>
    exact List.foldlRecOn (motive := fun u : RegionTree => ∀ r ∈ u.regions, Q r.leaveTargets)
      _ _ hu fun v hv i _ => leaveTargets_addLeaveTarget (hadd offset target hop) hv i
  · exact hu

-- ==== the whole build

/-- A build in two parts: up to the leaves the regions of the handlers keep their
outlines and relay nothing, then the leaves of the body are added. -/
theorem build_parts (h : build body T config s = .ok tree s') :
    ∃ regions t, regionsOf body T config = .ok regions ∧
      t.regions.map outline = regions.map outline ∧
      (∀ r ∈ t.regions, r.leaveTargets = []) ∧ tree = body.code.foldl withLeave t := by
  obtain ⟨regions, _, hregions, h⟩ := state_bind_ok h
  obtain ⟨hregions, -⟩ := state_lift_ok hregions
  obtain ⟨slotted, t₁, hslotted, h⟩ := state_bind_ok h
  obtain ⟨t, t₂, ht, h⟩ := state_bind_ok h
  obtain ⟨rfl, -⟩ := state_pure_ok h
  have hslots := state_mapM_ok hslotted
  have houtline₁ : slotted.map outline = regions.map outline := by
    have hall : List.Forall₂ Eq (regions.map outline) (slotted.map outline) := by
      rw [List.forall₂_map_left_iff, List.forall₂_map_right_iff]
      refine hslots.imp fun r r' hrun => ?_
      obtain ⟨u, u', hrun⟩ := hrun
      exact (outline_withSlots T regions r u r' u' trivial hrun).symm
    rw [List.forall₂_eq_eq_eq] at hall
    exact hall.symm
  have houtline₂ : t.regions.map outline = slotted.map outline := by
    refine Yields.foldlM (I := fun u _ =>
      u.regions.map outline = slotted.map outline) ?_ _ t₁ t t₂ rfl ht
    intro op _ u v w w' hu hrun
    exact (outline_withRethrow T u op v w w' trivial hrun).trans hu
  have htargets : t.regions.map leaveTargets = slotted.map leaveTargets := by
    refine Yields.foldlM (I := fun (u : RegionTree) _ =>
      u.regions.map leaveTargets = slotted.map leaveTargets) ?_ _ t₁ t t₂ rfl ht
    intro op _ u v w w' hu hrun
    exact (leaveTargets_withRethrow T u op v w w' trivial hrun).trans hu
  refine ⟨regions, t, hregions, houtline₂.trans houtline₁, fun r hr => ?_, rfl⟩
  have hmem : r.leaveTargets ∈ slotted.map leaveTargets :=
    htargets ▸ List.mem_map_of_mem hr
  obtain ⟨r₁, hr₁, heq⟩ := List.mem_map.mp hmem
  obtain ⟨r₀, hr₀, u, u', hrun⟩ := forall₂_mem_right hslots hr₁
  rw [← heq, leaveTargets_withSlots T regions r₀ u r₁ u' trivial hrun,
    ← outline_regionsOf hregions r₀ hr₀]
  rfl

theorem outline_build (h : build body T config s = .ok tree s') :
    ∃ regions, regionsOf body T config = .ok regions ∧
      tree.regions.map outline = regions.map outline := by
  obtain ⟨regions, t, hregions, houtline, -, rfl⟩ := build_parts h
  refine ⟨regions, hregions, ?_⟩
  exact List.foldlRecOn (motive := fun u : RegionTree =>
    u.regions.map outline = regions.map outline) _ _ houtline
    fun u hu op _ => (outline_withLeave u op).trans hu

theorem leaveTargets_build (h : build body T config s = .ok tree s') (hnil : Q [])
    (hadd : ∀ o target, (o, .leave target) ∈ body.code →
      ∀ l, target ∉ l → Q l → Q (l ++ [target])) :
    ∀ r ∈ tree.regions, Q r.leaveTargets := by
  obtain ⟨-, t, -, -, hempty, rfl⟩ := build_parts h
  refine leaveTargets_foldl_withLeave hadd fun r hr => ?_
  rw [hempty r hr]
  exact hnil

/-- The tree of a body is laminar, and every leave of the body is known to all
regions that relay it. -/
theorem build_ok (h : build body T config s = .ok tree s') :
    Laminar tree.regions ∧ ∀ offset target, (offset, .leave target) ∈ body.code →
      ∀ r ∈ relays tree.regions offset target, tree.Knows r target := by
  constructor
  · obtain ⟨regions, hregions, houtline⟩ := outline_build h
    rw [← laminar_outline, houtline, laminar_outline]
    exact laminar_regionsOf hregions
  · intro offset target hleave r hr
    obtain ⟨-, t, -, -, -, rfl⟩ := build_parts h
    have houtline : (body.code.foldl withLeave t).regions.map outline
        = t.regions.map outline :=
      List.foldlRecOn (motive := fun u : RegionTree =>
        u.regions.map outline = t.regions.map outline) _ _ rfl
        fun u hu op _ => (outline_withLeave u op).trans hu
    rw [relays_eq_of_outline houtline] at hr
    exact knows_foldl_withLeave body.code hleave hr

end RegionTree

end BytecodeBridge
