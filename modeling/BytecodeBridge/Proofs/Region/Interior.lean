/-
What gets into a protected range other than at its start.

Ranges and clauses nest, so a region that starts before a protected range
has no handler strictly inside it, and none of its clauses starts there if
its handler comes before the range. Code in front of a range therefore gets
to the inside of it only where an operation names a place there
(`RegionTree.transfers`). That includes a leave which finally clauses relay:
a clause passes on the destinations of leaves that stand before it.
-/
import BytecodeBridge.Proofs.Region.Innermost
import BytecodeBridge.Proofs.Region.Routing

namespace BytecodeBridge

/-- An offset of the protected range, other than its first. -/
def Region.Interior (r : Region) (offset : Nat) : Prop :=
  r.start < offset ∧ offset < r.stop

/-- The places that an operation transfers to: those it names and, at the end of a filter's
condition, the handler of the filter. -/
def RegionTree.transfers (t : RegionTree) (offset : Nat) (op : Op) : List Nat :=
  op.targets ++
    match op, t.filterAt offset with
    | .endFilter, .ok site => [site.clause.handlerStart]
    | _, _ => []

/-- No operation outside of a protected range transfers into it, but to its start. -/
def RegionTree.EnteredAtStart (t : RegionTree) (code : List (Nat × Op)) (r : Region) : Prop :=
  ∀ e ∈ code, r.protects e.1 = false → ∀ target ∈ t.transfers e.1 e.2, ¬ r.Interior target

-- ==== nesting

theorem Region.Sound.clauses_apart {r : Region} (h : r.Sound) {c d : Clause}
    (hc : c ∈ r.clauses) (hd : d ∈ r.clauses) :
    c = d ∨ c.stop ≤ d.start ∨ d.stop ≤ c.start :=
  List.Pairwise.forall_of_forall_of_flip
    (R := fun a b : Clause => a = b ∨ a.stop ≤ b.start ∨ b.stop ≤ a.start)
    (fun _ _ => .inl rfl) (h.ordered.imp fun hab => .inr (.inl hab))
    (h.ordered.imp fun hab => .inr (.inr hab)) hc hd

namespace Laminar

variable {regions : List Region} (h : Laminar regions) {r q : Region}
include h

/-- Of two regions one lies within a part of the other, or they lie apart. -/
theorem pair (hr : r ∈ regions) (hq : q ∈ regions) :
    r = q ∨ r.Apart q ∨ r.Inside q ∨ q.Inside r := by
  refine List.Pairwise.forall_of_forall_of_flip
    (R := fun a b : Region => a = b ∨ a.Apart b ∨ a.Inside b ∨ b.Inside a)
    (fun _ _ => .inl rfl) (h.nested.imp fun hab => .inr (hab.imp_right .inl))
    (h.nested.imp fun hab => ?_) hr hq
  rcases hab with hapart | hinside
  · exact .inr (.inl hapart.symm)
  · exact .inr (.inr (.inr hinside))

/-- A region that starts before a range has its handler outside of it. -/
theorem not_interior_handlerOffset (hr : r ∈ regions) (hq : q ∈ regions)
    (hstart : q.start < r.start) : ¬ r.Interior q.handlerOffset := by
  rintro ⟨hlow, hhigh⟩
  have hrs := h.sound r hr
  have hspan := hrs.stop_lt_span
  have hbounds := (h.sound q hq).handlerOffset_bounds
  rcases h.pair hr hq with rfl | hapart | hinside | ⟨p, hp, hfirst, -⟩
  · exact Nat.lt_irrefl _ hstart
  · unfold Region.Apart at hapart
    omega
  · have hcases := (h.sound q hq).inside_cases hinside
    omega
  · have hpart := (hrs.part_lt_span hp).1
    omega

/-- A region whose handler comes before a range has no clause that starts inside of it. -/
theorem not_interior_clause (hr : r ∈ regions) (hq : q ∈ regions)
    (hoffset : q.handlerOffset ≤ r.start) {c : Clause} (hc : c ∈ q.clauses) :
    ¬ r.Interior c.start := by
  rintro ⟨hlow, hhigh⟩
  have hrs := h.sound r hr
  have hqs := h.sound q hq
  have hstart := hqs.start_lt
  have hspan := hrs.stop_lt_span
  have hbounds := hqs.handlerOffset_bounds
  have hclause := hqs.clause c hc
  have hstop := hqs.stop_le_span hc
  rcases h.pair hr hq with rfl | hapart | ⟨p, hp, hfirst, hlast⟩ | ⟨p, hp, hfirst, -⟩
  · omega
  · unfold Region.Apart at hapart
    omega
  · -- the range lies in another clause, or in the same and behind its start
    rcases List.mem_cons.mp hp with rfl | hp
    · dsimp only at hlast
      omega
    · obtain ⟨d, hd, rfl⟩ := List.mem_map.mp hp
      rcases hqs.clauses_apart hc hd with rfl | hle | hle
      · dsimp only at hfirst
        omega
      · dsimp only at hfirst
        omega
      · dsimp only at hlast
        omega
  · have hpart := (hrs.part_lt_span hp).1
    omega

end Laminar

namespace RegionTree

-- ==== sites

section Sites

variable {t : RegionTree} (hlam : Laminar t.regions)
include hlam

theorem has_of_finalClauseAt {offset : Nat} {site : ClauseSite}
    (h : t.finalClauseAt offset = .ok site) :
    t.Has site ∧ site.clause.isFinal = true ∧ site.clause.start ≤ offset := by
  have hfinds := finds_finalClauseAt hlam offset
  rw [h] at hfinds
  obtain ⟨hhas, hclause, -⟩ := hfinds
  obtain ⟨hfinal, hcontains⟩ := Bool.and_eq_true_iff.mp hclause
  unfold Clause.contains at hcontains
  exact ⟨hhas, hfinal, of_decide_eq_true (Bool.and_eq_true_iff.mp hcontains).1⟩

/-- A leave that is relayed stands behind the start of the region that relays it. -/
theorem start_le_of_planLeave {source target q index : Nat}
    (h : t.planLeave source target = .ok (.relay q index)) {region : Region}
    (hregion : t.regions[q]? = some region) : region.start ≤ source := by
  obtain ⟨f, hroute⟩ := route_of_planLeave_relay h
  obtain ⟨pre, first, post, hsplit, rfl, -, ⟨c, -, -, hstart, -⟩, -⟩ :=
    exists_split_of_route hlam.sound hroute
  rw [hsplit, List.getElem?_append_right (Nat.le_refl _), Nat.sub_self] at hregion
  cases hregion
  exact hstart

end Sites

-- ==== leaves

section Leaves

variable {t : RegionTree} {r target other : Nat}

/-- A region learns the destination that it is told of, and no other does. -/
theorem Knows.of_addLeaveTarget {i : Nat}
    (h : (RegionTree.addLeaveTarget other t i).Knows r target) :
    t.Knows r target ∨ target = other ∧ r = i := by
  obtain ⟨region, hregion, hmem⟩ := h
  unfold RegionTree.addLeaveTarget at hregion
  rw [List.getElem?_modify] at hregion
  obtain ⟨old, hold, rfl⟩ := Option.map_eq_some_iff.mp hregion
  by_cases heq : i = r
  · subst heq
    rw [if_pos rfl] at hmem
    split at hmem
    · exact .inl ⟨old, hold, hmem⟩
    · rcases List.mem_append.mp hmem with hmem | hmem
      · exact .inl ⟨old, hold, hmem⟩
      · exact .inr ⟨List.mem_singleton.mp hmem, rfl⟩
  · rw [if_neg heq] at hmem
    exact .inl ⟨old, hold, hmem⟩

theorem Knows.of_foldl_addLeaveTarget {l : List Nat}
    (h : (l.foldl (RegionTree.addLeaveTarget other) t).Knows r target) :
    t.Knows r target ∨ target = other ∧ r ∈ l := by
  induction l generalizing t with
  | nil => exact .inl h
  | cons i l ih =>
    rcases ih h with hknows | ⟨heq, hmem⟩
    · rcases hknows.of_addLeaveTarget with hknows | ⟨heq, rfl⟩
      · exact .inl hknows
      · exact .inr ⟨heq, .head _⟩
    · exact .inr ⟨heq, .tail _ hmem⟩

/-- What regions know they know from leaves that they relay. -/
theorem Knows.of_foldl_withLeave {code : List (Nat × Op)}
    (h : (code.foldl RegionTree.withLeave t).Knows r target) :
    t.Knows r target ∨
      ∃ o, (o, .leave target) ∈ code ∧ r ∈ relays t.regions o target := by
  induction code generalizing t with
  | nil => exact .inl h
  | cons e code ih =>
    rcases ih h with hknows | ⟨o, hleave, hrelays⟩
    · unfold RegionTree.withLeave at hknows
      split at hknows
      · next offset named =>
        rcases hknows.of_foldl_addLeaveTarget with hknows | ⟨rfl, hmem⟩
        · exact .inl hknows
        · exact .inr ⟨offset, .head _, hmem⟩
      · exact .inl hknows
    · rw [relays_eq_of_outline (outline_withLeave t e)] at hrelays
      exact .inr ⟨o, .tail _ hleave, hrelays⟩

end Leaves

section Build

variable {body : Body} {T : TypeTable} {config : Config} {tree : RegionTree} {s s' : Slots}
  (h : build body T config s = .ok tree s')
include h

/-- A finally clause passes on the destinations of leaves that stand before it. -/
private theorem exists_leave_of_knows {r target : Nat} (hknows : tree.Knows r target) :
    ∃ o region f, (o, .leave target) ∈ body.code ∧ tree.regions[r]? = some region ∧
      region.finallyStart? = some f ∧ o < f := by
  obtain ⟨regions, t, hregions, houtline, hnone, rfl⟩ := build_parts h
  rcases hknows.of_foldl_withLeave with ⟨region, hregion, hmem⟩ | ⟨o, hleave, hrelays⟩
  · rw [hnone region (List.mem_of_getElem? hregion)] at hmem
    cases hmem
  · have hsame : (body.code.foldl withLeave t).regions.map Region.outline
        = t.regions.map Region.outline :=
      List.foldlRecOn
        (motive := fun u : RegionTree =>
          u.regions.map Region.outline = t.regions.map Region.outline)
        _ _ rfl fun u hu e _ => (outline_withLeave u e).trans hu
    rw [← relays_eq_of_outline hsame] at hrelays
    obtain ⟨region, f, hregion, hf, hlt⟩ := finallyStart?_of_mem_relays hrelays
    exact ⟨o, region, f, hleave, hregion, hf, hlt⟩

/-- The leaves that the end of a finally clause resumes stand before it. -/
theorem exists_leave_before {offset target : Nat} {site : ClauseSite}
    (hsite : tree.finalClauseAt offset = .ok site) (htarget : target ∈ site.region.leaveTargets) :
    ∃ o < offset, (o, .leave target) ∈ body.code := by
  have hlam := (build_ok h).1
  obtain ⟨⟨hregion, hclause⟩, hfinal, hstart⟩ := has_of_finalClauseAt hlam hsite
  obtain ⟨o, region, f, hleave, hsame, hf, hlt⟩ :=
    exists_leave_of_knows h ⟨site.region, hregion, htarget⟩
  cases hregion.symm.trans hsame
  have hsound := hlam.sound _ (List.mem_of_getElem? hregion)
  have hlast := hsound.getLast?_of_isFinal (List.mem_of_getElem? hclause) hfinal
  have hfinally : f = site.clause.start := by
    unfold Region.finallyStart? Region.finalClause? at hf
    rw [hlast] at hf
    dsimp only at hf
    rw [if_pos hfinal] at hf
    dsimp only at hf
    split at hf
    · exact (Option.some_inj.mp hf).symm
    · cases hf
  exact ⟨o, by omega, hleave⟩

/-- Where the condition of a filter ends, the handler of its region has started. -/
theorem has_of_filterAt {offset : Nat} {site : ClauseSite}
    (hsite : tree.filterAt offset = .ok site) :
    tree.Has site ∧ site.region.handlerOffset ≤ offset := by
  have hlam := (build_ok h).1
  have hfinds := finds_filterAt hlam (start_of_filtered_build h) offset
  rw [hsite] at hfinds
  obtain ⟨hhas, hdecides, -⟩ := hfinds
  have hregion := List.mem_of_getElem? hhas.1
  have hclause := List.mem_of_getElem? hhas.2
  have hle := (hlam.sound _ hregion).handlerOffset_le hclause
  refine ⟨hhas, Nat.le_trans hle ?_⟩
  unfold Clause.decides at hdecides
  dsimp only at hdecides
  split at hdecides
  · next condition hkind =>
    rw [start_of_filtered_build h _ hregion _ hclause _ hkind]
    exact of_decide_eq_true (Bool.and_eq_true_iff.mp hdecides).1
  · cases hdecides

theorem isBoundary_start_build : ∀ r ∈ tree.regions, body.isBoundary r.start = true := by
  have hstart : ∀ r ∈ tree.regions, r.clauses ≠ [] → body.isBoundary r.start = true := by
    refine forall_build h (fun r => imp_congr_left (not_congr List.map_eq_nil_iff))
      fun r range cs hok hcs hne => ?_
    rw [Region.ofClauses_ok hok] at hne ⊢
    obtain ⟨c, hc⟩ := List.exists_mem_of_ne_nil _ hne
    obtain ⟨handler, -, hclause⟩ := hcs c (List.mem_mergeSort.mp hc)
    exact (Region.clause_ok hclause).1
  exact fun r hr => hstart r hr ((build_ok h).1.sound r hr).nonempty

end Build

end RegionTree

end BytecodeBridge
