/-
Which finally clauses a leave runs.

A leave *crosses* a region if it stands before the region's finally clause
and goes to a place outside. The clauses it has to run are those of the
regions it crosses, from the inside out. What it does run is found step by
step: the plan names the innermost region it crosses, and then the leave is
planned again as if it stood at the start of that region's finally clause
(`Follows`).

# One step

Let the plan at `source` go through region `i`, whose finally clause
starts at `f`, and compare what is crossed from `source` with what is
crossed from `f`.

- Regions outside `i` hold both offsets or neither, and hold them before
  their own finally clauses: `i` lies within one part of each. They are
  crossed from `f` if and only if they are crossed from `source`.
- Region `i` itself is not crossed from `f`.
- A region inside `i` that is crossed from `f` holds `f`, so it lies in the
  finally clause of `i` and starts with it.

The last case is the one where the two differ: a region that starts with
the first operation of a finally clause is crossed from there, whether or
not the leave came from it. So everything that is crossed is run, and
nothing else is run if and only if no such region is in the way.
-/
import BytecodeBridge.Proofs.Evaluation
import BytecodeBridge.Proofs.Region.Outline

namespace BytecodeBridge

-- ==== crossings

namespace Region

variable {r : Region} {c : Clause} {f : Nat}

/-- A leave from an offset to a target gets out of the range that the finally
clause of a region guards. -/
def Crosses (r : Region) (source target : Nat) : Prop :=
  ∃ f ∈ r.clauses, f.kind = .cleanup ∧ r.start ≤ source ∧ source < f.start ∧
    ¬ (r.start ≤ target ∧ target < f.start)

instance (r : Region) (source target : Nat) : Decidable (r.Crosses source target) :=
  inferInstanceAs (Decidable (∃ f ∈ r.clauses, _))

theorem Sound.getLast?_of_isFinal (h : r.Sound) (hc : c ∈ r.clauses) (hfinal : c.isFinal = true) :
    r.clauses.getLast? = some c := by
  obtain ⟨last, hlast⟩ := h.exists_last
  obtain ⟨front, hfront⟩ := List.getLast?_eq_some_iff.mp hlast
  rw [hfront, List.mem_append, List.mem_singleton] at hc
  rcases hc with hc | rfl
  · have hnot := h.final_last c (by rw [hfront, List.dropLast_concat]; exact hc)
    cases hfinal.symm.trans hnot
  · exact hlast

theorem isFinal_of_cleanup (hkind : c.kind = .cleanup) : c.isFinal = true := by
  unfold Clause.isFinal
  rw [hkind]

theorem Sound.finallyStart?_eq (h : r.Sound) (hc : c ∈ r.clauses) (hkind : c.kind = .cleanup) :
    r.finallyStart? = some c.start := by
  have hfinal := isFinal_of_cleanup hkind
  unfold finallyStart? finalClause?
  rw [h.getLast?_of_isFinal hc hfinal]
  simp only [hfinal, if_true, hkind]

theorem exists_of_finallyStart? (h : r.finallyStart? = some f) :
    ∃ c ∈ r.clauses, c.kind = .cleanup ∧ c.start = f := by
  unfold finallyStart? finalClause? at h
  cases hlast : r.clauses.getLast? with
  | none =>
    rw [hlast] at h
    cases h
  | some c =>
    rw [hlast] at h
    refine ⟨c, List.mem_of_getLast? hlast, ?_⟩
    dsimp only at h
    by_cases hfinal : c.isFinal = true
    · rw [if_pos hfinal] at h
      dsimp only at h
      by_cases hkind : c.kind = .cleanup
      · rw [if_pos hkind] at h
        exact ⟨hkind, Option.some.inj h⟩
      · rw [if_neg hkind] at h
        cases h
    · rw [if_neg hfinal] at h
      cases h

theorem Sound.crosses_iff (h : r.Sound) (hf : r.finallyStart? = some f) {source target : Nat} :
    r.Crosses source target ↔
      r.start ≤ source ∧ source < f ∧ ¬ (r.start ≤ target ∧ target < f) := by
  constructor
  · rintro ⟨c, hc, hkind, hcross⟩
    rw [h.finallyStart?_eq hc hkind] at hf
    cases hf
    exact hcross
  · intro hcross
    obtain ⟨c, hc, hkind, rfl⟩ := exists_of_finallyStart? hf
    exact ⟨c, hc, hkind, hcross⟩

/-- What the search for a route tests is whether a region is crossed. -/
theorem Sound.crosses_iff_guards (h : r.Sound) {source target : Nat} :
    r.Crosses source target ↔ (r.guards source && !r.guards target) = true := by
  unfold guards
  cases hf : r.finallyStart? with
  | none =>
    refine iff_of_false ?_ (by simp)
    rintro ⟨c, hc, hkind, -⟩
    rw [h.finallyStart?_eq hc hkind] at hf
    cases hf
  | some f =>
    rw [h.crosses_iff hf]
    simp only [Bool.and_eq_true, decide_eq_true_eq, Bool.not_eq_true', Bool.and_eq_false_iff,
      decide_eq_false_iff_not]
    omega

/-- A part of a sound region ends before the finally clause, or is that clause. -/
theorem Sound.part_finally (h : r.Sound) (hf : r.finallyStart? = some f) {p : Nat × Nat}
    (hp : p ∈ r.parts) : p.2 ≤ f ∨ p.1 = f := by
  obtain ⟨c, hc, hkind, rfl⟩ := exists_of_finallyStart? hf
  rcases List.mem_cons.mp hp with rfl | hp
  · exact .inl (h.behind c hc)
  · obtain ⟨d, hd, rfl⟩ := List.mem_map.mp hp
    rcases h.stop_le_last (h.getLast?_of_isFinal hc (isFinal_of_cleanup hkind)) hd with rfl | hle
    · exact .inr rfl
    · exact .inl hle

theorem Sound.finallyStart?_bounds (h : r.Sound) (hf : r.finallyStart? = some f) :
    r.stop ≤ f ∧ f < r.spanStop := by
  obtain ⟨c, hc, -, rfl⟩ := exists_of_finallyStart? hf
  have := h.clause c hc
  have := h.stop_le_span hc
  exact ⟨h.behind c hc, by omega⟩

end Region

namespace RegionTree

/-- The regions that a leave crosses, numbered from `k` on. -/
def crossedFrom (k : Nat) (regions : List Region) (source target : Nat) : List Nat :=
  (regions.zipIdx k).filterMap fun (r, i) => if r.Crosses source target then some i else none

/-- The regions that a leave crosses, innermost first. -/
def crossed (t : RegionTree) (source target : Nat) : List Nat :=
  crossedFrom 0 t.regions source target

section Crossed

variable {k source target : Nat}

theorem crossedFrom_cons (r : Region) (regions : List Region) :
    crossedFrom k (r :: regions) source target
      = (if r.Crosses source target then [k] else [])
        ++ crossedFrom (k + 1) regions source target := by
  unfold crossedFrom
  rw [List.zipIdx_cons, List.filterMap_cons]
  by_cases hr : r.Crosses source target
  · simp only [if_pos hr, List.cons_append, List.nil_append]
  · simp only [if_neg hr, List.nil_append]

private theorem crossedFrom_append (pre post : List Region) :
    crossedFrom k (pre ++ post) source target
      = crossedFrom k pre source target ++ crossedFrom (k + pre.length) post source target := by
  unfold crossedFrom
  rw [List.zipIdx_append, List.filterMap_append]

theorem crossedFrom_eq_nil {regions : List Region} :
    crossedFrom k regions source target = [] ↔ ∀ r ∈ regions, ¬ r.Crosses source target := by
  induction regions generalizing k with
  | nil => exact iff_of_true rfl (by simp)
  | cons r regions ih =>
    rw [crossedFrom_cons, List.append_eq_nil_iff, ih, List.forall_mem_cons]
    refine and_congr_left fun _ => ?_
    by_cases hr : r.Crosses source target
    · simp [hr]
    · simp [hr]

private theorem crossedFrom_congr {regions : List Region} {source' : Nat}
    (h : ∀ r ∈ regions, r.Crosses source target ↔ r.Crosses source' target) :
    crossedFrom k regions source target = crossedFrom k regions source' target := by
  induction regions generalizing k with
  | nil => rfl
  | cons r regions ih =>
    rw [crossedFrom_cons, crossedFrom_cons, ih fun q hq => h q (List.mem_cons_of_mem _ hq),
      if_congr (h r List.mem_cons_self) rfl rfl]

end Crossed

-- ==== one step

section Step

variable {regions : List Region} {source target : Nat}

theorem not_crosses_of_route_none (hsound : ∀ r ∈ regions, r.Sound)
    (h : route regions source target = none) : ∀ r ∈ regions, ¬ r.Crosses source target := by
  intro r hr hcross
  obtain ⟨i, hi⟩ := List.getElem?_of_mem hr
  have hnone := List.findSome?_eq_none_iff.mp h (r, i) (List.mk_mem_zipIdx_iff_getElem?.mpr hi)
  dsimp only at hnone
  rw [if_pos ((hsound r hr).crosses_iff_guards.mp hcross), Option.map_eq_none_iff] at hnone
  obtain ⟨c, hc, hkind, -⟩ := hcross
  rw [(hsound r hr).finallyStart?_eq hc hkind] at hnone
  cases hnone

/-- A route goes through the first region that is crossed. -/
theorem exists_split_of_route (hsound : ∀ r ∈ regions, r.Sound) {i f : Nat}
    (h : route regions source target = some (i, f)) :
    ∃ pre region post, regions = pre ++ region :: post ∧ i = pre.length ∧
      region.finallyStart? = some f ∧ region.Crosses source target ∧
      ∀ r ∈ pre, ¬ r.Crosses source target := by
  obtain ⟨front, ⟨region, j⟩, back, hsplit, hfound, hfront⟩ := List.findSome?_eq_some_iff.mp h
  have hregions : regions = front.map Prod.fst ++ region :: back.map Prod.fst := by
    have := congrArg (List.map Prod.fst) hsplit
    rwa [List.zipIdx_map_fst, List.map_append, List.map_cons] at this
  have hj : j = front.length := by
    have := congrArg (·[front.length]?) hsplit
    simp only [List.getElem?_zipIdx, List.getElem?_append_right (Nat.le_refl _), Nat.sub_self,
      List.getElem?_cons_zero] at this
    obtain ⟨_, -, heq⟩ := Option.map_eq_some_iff.mp this
    have := (Prod.mk.inj heq).2
    omega
  have hmem : ∀ r, r ∈ front.map Prod.fst ++ region :: back.map Prod.fst → r ∈ regions :=
    fun r hr => hregions ▸ hr
  dsimp only at hfound
  split at hfound
  · next hguards =>
    obtain ⟨f', hf, heq⟩ := Option.map_eq_some_iff.mp hfound
    obtain ⟨rfl, rfl⟩ := Prod.mk.inj heq
    refine ⟨front.map Prod.fst, region, back.map Prod.fst, hregions, ?_, hf,
      (hsound region (hmem _ (by simp))).crosses_iff_guards.mpr hguards, fun r hr hcross => ?_⟩
    · rw [hj, List.length_map]
    · have hr' := hsound r (hmem r (List.mem_append_left _ hr))
      obtain ⟨⟨r', i⟩, hin, rfl⟩ := List.mem_map.mp hr
      have hnone := hfront _ hin
      dsimp only at hnone hcross hr'
      rw [if_pos (hr'.crosses_iff_guards.mp hcross), Option.map_eq_none_iff] at hnone
      obtain ⟨c, hc, hkind, -⟩ := hcross
      rw [hr'.finallyStart?_eq hc hkind] at hnone
      cases hnone
  · cases hfound

/-- Regions further out are crossed from the finally clause of a region if and
only if they are crossed from where the leave stands. -/
private theorem crosses_outer_iff {region r : Region} {f : Nat} (hregion : region.Sound)
    (hr : r.Sound) (hf : region.finallyStart? = some f) (hcross : region.Crosses source target)
    (hnested : region.Apart r ∨ region.Inside r) :
    r.Crosses source target ↔ r.Crosses f target := by
  obtain ⟨hstart, hlt, -⟩ := (hregion.crosses_iff hf).mp hcross
  obtain ⟨-, hspan⟩ := hregion.finallyStart?_bounds hf
  cases hg : r.finallyStart? with
  | none =>
    have hnone : ∀ s, ¬ r.Crosses s target := by
      rintro s ⟨c, hc, hkind, -⟩
      rw [hr.finallyStart?_eq hc hkind] at hg
      cases hg
    exact iff_of_false (hnone _) (hnone _)
  | some g =>
    obtain ⟨-, hgspan⟩ := hr.finallyStart?_bounds hg
    rw [hr.crosses_iff hg, hr.crosses_iff hg]
    rcases hnested with hapart | ⟨p, hp, hpstart, hpstop⟩
    · unfold Region.Apart at hapart
      omega
    · have hpart := hr.part_finally hg hp
      have hbounds := hr.part_lt_span hp
      omega

/-- A region further in that is crossed from a finally clause starts with it. -/
private theorem start_eq_of_crosses_inner {region r : Region} {f : Nat} (hregion : region.Sound)
    (hr : r.Sound) (hf : region.finallyStart? = some f) (hnested : r.Apart region ∨ r.Inside region)
    (hcross : r.Crosses f target) : r.start = f := by
  obtain ⟨c, hc, hkind, hstart, hlt, -⟩ := hcross
  obtain ⟨hstop, hspan⟩ := hregion.finallyStart?_bounds hf
  obtain ⟨-, hrspan⟩ := hr.finallyStart?_bounds (hr.finallyStart?_eq hc hkind)
  have := hregion.start_lt
  rcases hnested with hapart | ⟨p, hp, hpstart, hpstop⟩
  · unfold Region.Apart at hapart
    omega
  · have hpart := hregion.part_finally hf hp
    omega

/-- One step of a leave: what is crossed from the finally clause of the first
crossed region is what starts with that clause, and then the rest. -/
theorem crossed_step (hlam : Laminar regions) {i f : Nat}
    (h : route regions source target = some (i, f)) :
    ∃ pre region post, regions = pre ++ region :: post ∧ region.finallyStart? = some f ∧
      region.Crosses source target ∧
      crossedFrom 0 regions source target = i :: crossedFrom (i + 1) post source target ∧
      crossedFrom 0 regions f target
        = crossedFrom 0 pre f target ++ crossedFrom (i + 1) post source target ∧
      (∀ r ∈ pre, ¬ r.Crosses source target ∧ (r.Crosses f target → r.start = f)) ∧
      ∀ r ∈ post, r.Crosses source target ↔ r.Crosses f target := by
  obtain ⟨pre, region, post, rfl, rfl, hf, hcross, hpre⟩ := exists_split_of_route hlam.sound h
  have hregion := hlam.sound region (by simp)
  obtain ⟨-, hnested, hacross⟩ := List.pairwise_append.mp hlam.nested
  have hpost : ∀ r ∈ post, r.Crosses source target ↔ r.Crosses f target := fun r hr =>
    crosses_outer_iff hregion (hlam.sound r (by simp [hr])) hf hcross
      ((List.pairwise_cons.mp hnested).1 r hr)
  refine ⟨pre, region, post, rfl, hf, hcross, ?_, ?_, fun r hr => ⟨hpre r hr, ?_⟩, hpost⟩
  · rw [crossedFrom_append, crossedFrom_eq_nil.mpr hpre, crossedFrom_cons, if_pos hcross]
    simp
  · have hself : ¬ region.Crosses f target := by
      rw [hregion.crosses_iff hf]
      omega
    rw [crossedFrom_append, crossedFrom_cons, if_neg hself, crossedFrom_congr hpost]
    simp
  · exact start_eq_of_crosses_inner hregion (hlam.sound r (by simp [hr])) hf
      (hacross r hr region (.head _))

end Step

-- ==== whole runs

/-- No crossed region has a finally clause whose first operation starts another
region that is crossed from there. -/
def Unobstructed (regions : List Region) (source target : Nat) : Prop :=
  ∀ r ∈ regions, r.Crosses source target → ∀ f ∈ r.clauses, f.kind = .cleanup →
    ∀ q ∈ regions, q.start = f.start → ¬ q.Crosses f.start target

section Run

variable {regions : List Region} {source target : Nat}

/-- A leave runs every finally clause that it crosses, in order. -/
theorem crossed_sublist_relays (hlam : Laminar regions) (source target : Nat) :
    (crossedFrom 0 regions source target).Sublist (relays regions source target) := by
  fun_induction relays regions source target with
  | case1 source hroute =>
    rw [crossedFrom_eq_nil.mpr (not_crosses_of_route_none hlam.sound hroute)]
  | case2 source i f hroute ih =>
    obtain ⟨pre, _, post, -, -, -, hhere, hnext, -, -⟩ := crossed_step hlam hroute
    rw [hhere]
    rw [hnext] at ih
    exact ((List.sublist_append_right _ _).trans ih).cons_cons i

/-- The step of `Unobstructed`: nothing starts with the first finally clause, and
the rest of the way is unobstructed. -/
private theorem unobstructed_step (hlam : Laminar regions) {i f : Nat}
    (h : route regions source target = some (i, f)) :
    Unobstructed regions source target ↔
      (∀ q ∈ regions, q.start = f → ¬ q.Crosses f target) ∧ Unobstructed regions f target := by
  obtain ⟨pre, region, post, rfl, hf, hcross, -, -, hpre, hpost⟩ := crossed_step hlam h
  have hregion := hlam.sound region (by simp)
  obtain ⟨c, hc, hkind, rfl⟩ := Region.exists_of_finallyStart? hf
  -- a region crossed from the clause is further out, or starts with the clause
  have hcases : ∀ r ∈ pre ++ region :: post, r.Crosses c.start target →
      r.start = c.start ∨ r.Crosses source target := by
    intro r hr hrcross
    rcases List.mem_append.mp hr with hr | hr
    · exact .inl ((hpre r hr).2 hrcross)
    · rcases List.mem_cons.mp hr with rfl | hr
      · rw [hregion.crosses_iff hf] at hrcross
        omega
      · exact .inr ((hpost r hr).mpr hrcross)
  constructor
  · intro hclear
    have hfirst := hclear region (by simp) hcross c hc hkind
    refine ⟨hfirst, fun r hr hrcross => ?_⟩
    rcases hcases r hr hrcross with hstart | hsource
    · exact absurd hrcross (hfirst r hr hstart)
    · exact hclear r hr hsource
  · rintro ⟨hfirst, hclear⟩ r hr hrcross
    rcases List.mem_append.mp hr with hpremem | hpostmem
    · exact absurd hrcross (hpre r hpremem).1
    · rcases List.mem_cons.mp hpostmem with rfl | hpostmem
      · intro d hd hdkind
        have hsame := hregion.finallyStart?_eq hd hdkind
        rw [hf] at hsame
        rw [← Option.some.inj hsame]
        exact hfirst
      · exact hclear r hr ((hpost r hpostmem).mp hrcross)

/-- A leave runs nothing but what it crosses if and only if it is unobstructed. -/
private theorem relays_eq_crossed_iff (hlam : Laminar regions) (source target : Nat) :
    relays regions source target = crossedFrom 0 regions source target ↔
      Unobstructed regions source target := by
  fun_induction relays regions source target with
  | case1 source hroute =>
    have hnone := not_crosses_of_route_none hlam.sound hroute
    exact iff_of_true (crossedFrom_eq_nil.mpr hnone).symm
      fun r hr hcross => absurd hcross (hnone r hr)
  | case2 source i f hroute ih =>
    rw [unobstructed_step hlam hroute, ← ih]
    obtain ⟨pre, region, post, rfl, hf, -, hhere, hnext, hpre, hpost⟩ := crossed_step hlam hroute
    have hregion := hlam.sound region (by simp)
    have hself : ¬ region.Crosses f target := by
      rw [hregion.crosses_iff hf]
      omega
    rw [hhere, hnext, List.cons_inj_right]
    constructor
    · intro heq
      -- what starts with the clause would be run on top of the rest
      have hsub := crossed_sublist_relays hlam f target
      rw [hnext, heq] at hsub
      have hnil : crossedFrom 0 pre f target = [] := by
        have := hsub.length_le
        rw [List.length_append] at this
        exact List.length_eq_zero_iff.mp (by omega)
      refine ⟨fun q hq hstart hcross => ?_, by rw [heq, hnil, List.nil_append]⟩
      rcases List.mem_append.mp hq with hq | hq
      · exact crossedFrom_eq_nil.mp hnil q hq hcross
      · rcases List.mem_cons.mp hq with rfl | hq
        · exact hself hcross
        · -- a region further out starts before the clause
          have hsource := (hpost q hq).mpr hcross
          obtain ⟨_, _, _, hle, _⟩ := hsource
          have := (route_bounds hroute).1
          omega
    · rintro ⟨hfirst, heq⟩
      have hnil : crossedFrom 0 pre f target = [] := crossedFrom_eq_nil.mpr fun q hq hcross =>
        hfirst q (by simp [hq]) ((hpre q hq).2 hcross) hcross
      rw [heq, hnil, List.nil_append]

theorem finallyStart?_of_mem_relays {r : Nat} (h : r ∈ relays regions source target) :
    ∃ region f, regions[r]? = some region ∧ region.finallyStart? = some f ∧ source < f := by
  fun_induction relays regions source target with
  | case1 source hroute => cases h
  | case2 source i f hroute ih =>
    have hlt := (route_bounds hroute).1
    rcases List.mem_cons.mp h with rfl | h
    · obtain ⟨region, hget, hf⟩ := route_lt hroute
      exact ⟨region, f, hget, hf, hlt⟩
    · obtain ⟨region, g, hget, hg, hfg⟩ := ih h
      exact ⟨region, g, hget, hg, Nat.lt_trans hlt hfg⟩

/-- A leave runs no finally clause twice. -/
theorem nodup_relays (regions : List Region) (source target : Nat) :
    (relays regions source target).Nodup := by
  fun_induction relays regions source target with
  | case1 source hroute => exact List.nodup_nil
  | case2 source i f hroute ih =>
    refine List.nodup_cons.mpr ⟨fun hmem => ?_, ih⟩
    obtain ⟨region, hget, hf⟩ := route_lt hroute
    obtain ⟨region', g, hget', hg, hlt⟩ := finallyStart?_of_mem_relays hmem
    rw [hget] at hget'
    cases hget'
    rw [hf] at hg
    cases hg
    omega

end Run

-- ==== following the plan

/-- The regions visited by a leave: it goes where the plan says, and on from the
start of each finally clause until the plan is to jump. -/
inductive Follows (t : RegionTree) (target : Nat) : Nat → List Nat → Prop where
  | direct {source : Nat} (hplan : t.planLeave source target = .ok .direct) :
      Follows t target source []
  | relay {source r index f : Nat} {region : Region} {rs : List Nat}
      (hplan : t.planLeave source target = .ok (.relay r index))
      (hregion : t.regions[r]? = some region) (hf : region.finallyStart? = some f)
      (hrest : Follows t target f rs) : Follows t target source (r :: rs)

variable {t : RegionTree} {source target : Nat}

private theorem route_of_planLeave_direct (h : t.planLeave source target = .ok .direct) :
    route t.regions source target = none := by
  unfold planLeave at h
  split at h
  · next hroute => exact hroute
  · obtain ⟨region, -, h⟩ := except_bind_ok h
    split at h
    · cases h
    · cases h

theorem route_of_planLeave_relay {r index : Nat}
    (h : t.planLeave source target = .ok (.relay r index)) :
    ∃ f, route t.regions source target = some (r, f) := by
  unfold planLeave at h
  split at h
  · cases h
  · next r' f hroute =>
    obtain ⟨region, -, h⟩ := except_bind_ok h
    split at h
    · cases h
      exact ⟨f, hroute⟩
    · cases h

/-- Whoever follows the plan visits the relays. -/
theorem Follows.eq_relays {rs : List Nat} (h : t.Follows target source rs) :
    rs = relays t.regions source target := by
  induction h with
  | direct hplan =>
    rw [relays]
    split
    · rfl
    · next hroute =>
      rw [route_of_planLeave_direct hplan] at hroute
      cases hroute
  | relay hplan hregion hf _ ih =>
    obtain ⟨g, hg⟩ := route_of_planLeave_relay hplan
    obtain ⟨region', hregion', hg'⟩ := route_lt hg
    rw [hregion] at hregion'
    cases hregion'
    rw [hf] at hg'
    cases hg'
    rw [relays]
    split
    · next hroute =>
      rw [hg] at hroute
      cases hroute
    · next hroute =>
      rw [hg] at hroute
      cases hroute
      rw [ih]

/-- Where the leave is known to all its relays, the plan can be followed. -/
theorem follows_relays (hknows : ∀ r ∈ relays t.regions source target, t.Knows r target) :
    t.Follows target source (relays t.regions source target) := by
  generalize hregions : t.regions = regions at hknows ⊢
  fun_induction relays regions source target with
  | case1 source hroute =>
    refine .direct ?_
    unfold planLeave
    rw [hregions, hroute]
    rfl
  | case2 source r f hroute ih =>
    obtain ⟨region, hget, hf⟩ := route_lt hroute
    obtain ⟨region', hget', hmem⟩ := hknows r (.head _)
    rw [hregions, hget] at hget'
    cases hget'
    obtain ⟨index, hindex⟩ := Option.isSome_iff_exists.mp (List.isSome_idxOf?.mpr hmem)
    have hplan : t.planLeave source target = .ok (.relay r index) := by
      unfold planLeave RegionTree.get
      rw [hregions, hroute]
      dsimp only
      rw [hget]
      dsimp only [bind, Except.bind, pure, Except.pure]
      rw [hindex]
    exact .relay hplan (hregions ▸ hget) hf
      (ih fun q hq => hknows q (.tail _ hq))

/-- Every leave of an accepted body gets to its target. It visits each region at
most once and visits all regions it crosses, innermost first. It visits no other
region if and only if no crossed region has a finally clause whose first operation
starts another region that is crossed from there. -/
theorem leave_visits_crossed {body : Body} {T : TypeTable} {config : Config}
    {tree : RegionTree} {s s' : Slots} {source target : Nat}
    (hbuild : build body T config s = .ok tree s') (hleave : (source, .leave target) ∈ body.code) :
    ∃ visited, (∀ rs, tree.Follows target source rs ↔ rs = visited) ∧ visited.Nodup ∧
      (tree.crossed source target).Sublist visited ∧
      (visited = tree.crossed source target ↔ Unobstructed tree.regions source target) := by
  obtain ⟨hlam, hknows⟩ := build_ok hbuild
  have hfollows := follows_relays (hknows source target hleave)
  refine ⟨relays tree.regions source target, fun rs => ?_, nodup_relays _ _ _,
    crossed_sublist_relays hlam source target, relays_eq_crossed_iff hlam source target⟩
  constructor
  · intro h
    exact h.eq_relays
  · rintro rfl
    exact hfollows

/-- A body with a leave out of a protected range, whose finally clause starts with
a protected range that has a finally clause of its own. -/
def rangeAtClauseStart : Body where
  owner := .ref "Owner"
  name := "m"
  kind := .static
  params := []
  locals := []
  returns := none
  code := [(0, .leave 5), (1, .nop), (2, .leave 4), (3, .endFinally), (4, .endFinally), (5, .ret)]
  handlers := [⟨.cleanup, 0, 1, 1, 5, none, none⟩, ⟨.cleanup, 1, 3, 3, 4, none, none⟩]

/-- The regions of `rangeAtClauseStart`: the one in the clause, and the one around. -/
def rangeAtClauseStartTree : RegionTree where
  regions := [
    { start := 1, stop := 3, leaveTargets := [5, 4]
      clauses := [{ kind := .cleanup, start := 3, stop := 4, handlerStart := 3 }] },
    { start := 0, stop := 1, leaveTargets := [5], finallySlot := some 0
      clauses := [{ kind := .cleanup, start := 1, stop := 5, handlerStart := 1 }] }]

theorem build_rangeAtClauseStart :
    ∃ s, build rangeAtClauseStart default {} {} = .ok rangeAtClauseStartTree s :=
  exists_ok_of_test (by cbv)

/-- The leave at offset 0 crosses the outer region only, and visits the inner one
as well. -/
theorem leave_visits_uncrossed : ∃ s,
    build rangeAtClauseStart default {} {} = .ok rangeAtClauseStartTree s ∧
    (0, .leave 5) ∈ rangeAtClauseStart.code ∧
    rangeAtClauseStartTree.crossed 0 5 = [1] ∧
    ∃ visited, (∀ rs, rangeAtClauseStartTree.Follows 5 0 rs ↔ rs = visited) ∧
      visited = [1, 0] ∧ ¬ Unobstructed rangeAtClauseStartTree.regions 0 5 := by
  obtain ⟨s, hbuild⟩ := build_rangeAtClauseStart
  have hleave : (0, .leave 5) ∈ rangeAtClauseStart.code := List.mem_cons_self
  have hcrossed : rangeAtClauseStartTree.crossed 0 5 = [1] := by decide
  have hfollows : rangeAtClauseStartTree.Follows 5 0 [1, 0] :=
    .relay rfl rfl rfl (.relay rfl rfl rfl (.direct rfl))
  obtain ⟨visited, hvisited, -, -, hiff⟩ := leave_visits_crossed hbuild hleave
  have heq := (hvisited [1, 0]).mp hfollows
  refine ⟨s, hbuild, hleave, hcrossed, visited, hvisited, heq.symm, fun hclear => ?_⟩
  have := hiff.mpr hclear
  rw [← heq, hcrossed] at this
  cases this

end RegionTree

end BytecodeBridge
