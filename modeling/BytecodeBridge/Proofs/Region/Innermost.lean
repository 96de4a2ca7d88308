/-
Searching a region tree gives the innermost answer.

The searches of a tree take the first region that qualifies, and never
look at spans. That the answer is the innermost one is a consequence of
the shape of the tree.

- Between regions: two regions that hold a common offset are not apart, so
  the earlier one lies within a part of the later one (`Laminar`), and a
  part is shorter than the span. Of the regions that qualify at an offset
  the first has the smallest span, and no two have the same.
- Within a region: clauses do not overlap, so at most one clause of a region
  holds an offset.

The handler of a region starts within its span but not with its protected
range. A region that lies within a part of another therefore has its
handler away from the other's, which is at the end of the range or at the
start of the first clause, and no two handlers start at the same offset.
-/
import BytecodeBridge.Proofs.Evaluation
import BytecodeBridge.Proofs.Region.Outline

namespace BytecodeBridge

-- ==== clauses without gaps

namespace Region

/-- The clauses of a region follow each other without a gap. -/
def Contiguous (r : Region) : Prop :=
  r.clauses.IsChain fun a b => a.stop = b.start

theorem isChain_of_gap? {l : List Clause} (h : gap? l = none) :
    l.IsChain fun a b => a.stop = b.start := by
  fun_induction gap? l with
  | case1 a b rest heq ih => exact List.isChain_cons_cons.mpr ⟨heq, ih h⟩
  | case2 a b rest hne => cases h
  | case3 l hshort =>
    obtain _ | ⟨c, _ | ⟨next, rest⟩⟩ := l
    · exact .nil
    · exact .singleton c
    · exact absurd rfl (hshort c next rest)

theorem contiguous_ofClauses {range : Nat × Nat} {clauses : List Clause} {r : Region}
    (h : ofClauses range clauses = .ok r) : r.Contiguous := by
  have hclauses := ofClauses_ok h
  unfold ofClauses at h
  dsimp only at h
  cases hgap : gap? (clauses.mergeSort fun a b => decide (a.start ≤ b.start)) with
  | none =>
    rw [hclauses]
    exact isChain_of_gap? hgap
  | some pair =>
    rw [hgap] at h
    split at h
    · split at h
      · cases h
      · cases h
    · cases h

theorem contiguous_outline {r : Region} : r.outline.Contiguous ↔ r.Contiguous := by
  unfold Contiguous outline
  rw [List.isChain_map]
  rfl

end Region

namespace RegionTree

variable {body : Body} {T : TypeTable} {config : Config} {tree : RegionTree} {s s' : Slots}

/-- What depends on outlines only and holds of the regions made from handlers holds
of the regions of the tree. -/
theorem forall_build {P : Region → Prop} (h : build body T config s = .ok tree s')
    (houtline : ∀ r, P r.outline ↔ P r) (hP : ∀ r range cs, Region.ofClauses range cs = .ok r →
      (∀ c ∈ cs, ∃ h ∈ body.handlers, h.clause body T config = .ok (range, c)) → P r) :
    ∀ r ∈ tree.regions, P r := by
  intro r hr
  obtain ⟨regions, hregions, hmap⟩ := outline_build h
  have hmem : r.outline ∈ regions.map .outline := hmap ▸ List.mem_map_of_mem hr
  obtain ⟨r₀, hr₀, heq⟩ := List.mem_map.mp hmem
  obtain ⟨unsorted, rfl, -, hgroups⟩ := regionsOf_ok hregions
  obtain ⟨range, cs, -, hok, hcs⟩ := hgroups r₀ (List.mem_mergeSort.mp hr₀)
  rw [← houtline, ← heq, houtline]
  exact hP r₀ range cs hok hcs

private theorem contiguous_build (h : build body T config s = .ok tree s') :
    ∀ r ∈ tree.regions, r.Contiguous :=
  forall_build h (fun _ => Region.contiguous_outline) fun _ _ _ hok _ =>
    Region.contiguous_ofClauses hok

theorem start_of_filtered_build (h : build body T config s = .ok tree s') :
    ∀ r ∈ tree.regions, ∀ c ∈ r.clauses, ∀ condition,
      c.kind = .filtered condition → c.start = condition := by
  refine forall_build h (fun r => List.forall_mem_map) fun r range cs hok hcs c hc _ hkind => ?_
  rw [Region.ofClauses_ok hok, List.mem_mergeSort] at hc
  obtain ⟨handler, -, hclause⟩ := hcs c hc
  obtain ⟨-, -, -, -, hcondition, -⟩ := Region.clause_ok hclause
  exact hcondition _ hkind

end RegionTree

-- ==== handlers

/-- Two regions of a tree have their handlers at different offsets. -/
theorem Region.handlerOffset_ne {a b : Region} (ha : a.Sound) (hb : b.Sound)
    (h : a.Apart b ∨ a.Inside b) : a.handlerOffset ≠ b.handlerOffset := by
  have hastart := ha.start_lt
  have hbstart := hb.start_lt
  obtain ⟨halow, hahigh⟩ := ha.handlerOffset_bounds
  obtain ⟨hblow, hbhigh⟩ := hb.handlerOffset_bounds
  rcases h with h | h
  · unfold Apart at h
    omega
  · have hcases := hb.inside_cases h
    omega

/-- The region found by the offset of its handler is that region. -/
theorem Laminar.handlerAt? {t : RegionTree} (hlam : Laminar t.regions) {i : Nat} {r : Region}
    (h : t.regions[i]? = some r) : t.handlerAt? r.handlerOffset = some i := by
  obtain ⟨hlt, rfl⟩ := List.getElem?_eq_some_iff.mp h
  unfold RegionTree.handlerAt?
  rw [List.findIdx?_eq_some_iff_getElem]
  refine ⟨hlt, by simp, fun j hj heq => ?_⟩
  have hnested := List.pairwise_iff_getElem.mp hlam.nested j i (by omega) hlt hj
  exact Region.handlerOffset_ne (hlam.sound _ (List.getElem_mem _))
    (hlam.sound _ (List.getElem_mem _)) hnested (eq_of_beq heq)

-- ==== the searches

/-- Two clauses of a sound region that hold a common offset are one clause. -/
theorem Region.Sound.index_eq_of_contains {r : Region} (h : r.Sound) {i j offset : Nat}
    {c d : Clause} (hc : r.clauses[i]? = some c) (hd : r.clauses[j]? = some d)
    (hcin : c.contains offset = true) (hdin : d.contains offset = true) : i = j := by
  obtain ⟨hi, rfl⟩ := List.getElem?_eq_some_iff.mp hc
  obtain ⟨hj, rfl⟩ := List.getElem?_eq_some_iff.mp hd
  simp only [Clause.contains, Bool.and_eq_true, decide_eq_true_eq] at hcin hdin
  rcases Nat.lt_trichotomy i j with hlt | heq | hlt
  · have := List.pairwise_iff_getElem.mp h.ordered i j hi hj hlt
    omega
  · exact heq
  · have := List.pairwise_iff_getElem.mp h.ordered j i hj hi hlt
    omega

theorem Region.Sound.span_of_contains {r : Region} (h : r.Sound) {c : Clause}
    (hc : c ∈ r.clauses) {offset : Nat} (hin : c.contains offset = true) :
    r.start ≤ offset ∧ offset < r.spanStop := by
  simp only [Clause.contains, Bool.and_eq_true, decide_eq_true_eq] at hin
  have hstart := h.start_lt
  have hbehind := h.behind c hc
  have hle := h.stop_le_span hc
  omega

namespace RegionTree

/-- The clause of a site stands in the tree where the site says. -/
def Has (t : RegionTree) (site : ClauseSite) : Prop :=
  t.regions[site.regionIndex]? = some site.region ∧
    site.region.clauses[site.clauseIndex]? = some site.clause

/-- A clause of some kind, and any other of that kind is in a region with a longer
span. -/
def Innermost (t : RegionTree) (p : Clause → Bool) (site : ClauseSite) : Prop :=
  t.Has site ∧ p site.clause = true ∧
    ∀ other, t.Has other → p other.clause = true →
      other = site ∨ site.region.spanLength < other.region.spanLength

/-- A search for a clause of some kind finds the innermost one, and fails only if
there is none. -/
def Finds (t : RegionTree) (p : Clause → Bool) : Option ClauseSite → Prop
  | some site => t.Innermost p site
  | none => ∀ site, t.Has site → p site.clause = false

section Search

variable {t : RegionTree} {p : Clause → Bool}

/-- No clause of a region is of the kind if the search through them fails. -/
theorem not_of_findSome?_eq_none {r : Nat} {region : Region}
    (h : (region.clauses.zipIdx.findSome? fun (clause, k) =>
      if p clause then some (ClauseSite.mk r region k clause) else none) = none)
    {k : Nat} {clause : Clause} (hclause : region.clauses[k]? = some clause) :
    p clause = false := by
  have hnone := List.findSome?_eq_none_iff.mp h (clause, k)
    (List.mk_mem_zipIdx_iff_getElem?.mpr hclause)
  by_cases hp : p clause = true
  · simp [hp] at hnone
  · simpa using hp

private theorem not_of_locate_eq_none (h : t.locate p = none) (site : ClauseSite)
    (hhas : t.Has site) : p site.clause = false := by
  have hnone := List.findSome?_eq_none_iff.mp h (site.region, site.regionIndex)
    (List.mk_mem_zipIdx_iff_getElem?.mpr hhas.1)
  exact not_of_findSome?_eq_none hnone hhas.2

/-- The answer is a clause of the kind in the first region that has one: any other is
in the same region, or in one that the region is before. -/
private theorem first_of_locate {R : Region → Region → Prop} (hpairs : t.regions.Pairwise R)
    {site : ClauseSite} (h : t.locate p = some site) :
    t.Has site ∧ p site.clause = true ∧
      ∀ other, t.Has other → p other.clause = true →
        (other.regionIndex = site.regionIndex ∧ other.region = site.region) ∨
          R site.region other.region := by
  obtain ⟨front, ⟨region, r⟩, back, hsplit, hfound, hfront⟩ := List.findSome?_eq_some_iff.mp h
  obtain ⟨⟨clause, k⟩, hclause, hsite⟩ := List.exists_of_findSome?_eq_some hfound
  have hregion : (region, r) ∈ t.regions.zipIdx := by simp [hsplit]
  have hordered : (front ++ (region, r) :: back).Pairwise fun a b => R a.1 b.1 := by
    rw [← hsplit, ← List.pairwise_map, List.zipIdx_map_fst]
    exact hpairs
  dsimp only at hsite
  split at hsite
  · next hp =>
    cases hsite
    refine ⟨⟨List.mk_mem_zipIdx_iff_getElem?.mp hregion,
      List.mk_mem_zipIdx_iff_getElem?.mp hclause⟩, hp, fun other hother hpother => ?_⟩
    have hmem := List.mk_mem_zipIdx_iff_getElem?.mpr hother.1
    rw [hsplit] at hmem
    rcases List.mem_append.mp hmem with hmem | hmem
    · have hnot := not_of_findSome?_eq_none (hfront _ hmem) hother.2
      rw [hpother] at hnot
      cases hnot
    · rcases List.mem_cons.mp hmem with heq | hmem
      · obtain ⟨hregion', hindex⟩ := Prod.mk.inj heq
        exact .inl ⟨hindex, hregion'⟩
      · obtain ⟨-, hafter, -⟩ := List.pairwise_append.mp hordered
        exact .inr ((List.pairwise_cons.mp hafter).1 _ hmem)
  · cases hsite

/-- A search for clauses that hold an offset finds the innermost one. -/
theorem finds_locate (hlam : Laminar t.regions) (offset : Nat)
    (hp : ∀ r ∈ t.regions, ∀ c ∈ r.clauses, p c = true → c.contains offset = true) :
    t.Finds p (t.locate p) := by
  have hcontains : ∀ site, t.Has site → p site.clause = true →
      site.region.Sound ∧ site.clause ∈ site.region.clauses ∧
        site.clause.contains offset = true := by
    intro site hhas hpsite
    have hregion := List.mem_of_getElem? hhas.1
    have hclause := List.mem_of_getElem? hhas.2
    exact ⟨hlam.sound _ hregion, hclause, hp _ hregion _ hclause hpsite⟩
  cases hlocate : t.locate p with
  | none => exact not_of_locate_eq_none hlocate
  | some site =>
    obtain ⟨hhas, hpsite, hother⟩ := first_of_locate hlam.nested hlocate
    obtain ⟨hsound, hmem, hin⟩ := hcontains site hhas hpsite
    refine ⟨hhas, hpsite, fun other hhas' hpother => ?_⟩
    obtain ⟨hsound', hmem', hin'⟩ := hcontains other hhas' hpother
    rcases hother other hhas' hpother with ⟨hindex, hregion⟩ | happart | hinside
    · -- one region: both clauses hold the offset
      left
      have hget := hhas'.2
      rw [hregion] at hget
      have hk := hsound.index_eq_of_contains hget hhas.2 hin' hin
      rw [hk, hhas.2] at hget
      have hclause := Option.some.inj hget
      cases other
      cases site
      simp_all
    · -- two regions apart have no offset in common
      obtain ⟨hlow, hhigh⟩ := hsound.span_of_contains hmem hin
      obtain ⟨hlow', hhigh'⟩ := hsound'.span_of_contains hmem' hin'
      unfold Region.Apart at happart
      omega
    · exact .inr (Region.spanLength_lt_of_inside hsound hsound' hinside)

end Search

/-- The search for the handler at an offset finds the innermost one. -/
private theorem finds_handlingClause? {t : RegionTree} (hlam : Laminar t.regions) (offset : Nat) :
    t.Finds (·.handles offset) (t.handlingClause? offset) := by
  refine finds_locate hlam offset fun r hr c hc hhandles => ?_
  have hstart := ((hlam.sound r hr).clause c hc).1
  unfold Clause.handles at hhandles
  split at hhandles
  · exact hhandles
  · simp only [Clause.contains, Bool.and_eq_true, decide_eq_true_eq] at hhandles ⊢
    omega
  · cases hhandles
  · cases hhandles

theorem finds_finalClauseAt {t : RegionTree} (hlam : Laminar t.regions) (offset : Nat) :
    t.Finds (fun c => c.isFinal && c.contains offset) (t.finalClauseAt offset).toOption := by
  have hfinds := finds_locate (p := fun c => c.isFinal && c.contains offset) hlam offset
    fun _ _ c _ hc => (Bool.and_eq_true_iff.mp hc).2
  unfold finalClauseAt
  split
  · next hsite => rwa [hsite] at hfinds
  · next hsite => rwa [hsite] at hfinds

/-- The search for the filter that decides at an offset finds the innermost one. -/
theorem finds_filterAt {t : RegionTree} (hlam : Laminar t.regions)
    (hfilter : ∀ r ∈ t.regions, ∀ c ∈ r.clauses, ∀ condition,
      c.kind = .filtered condition → c.start = condition) (offset : Nat) :
    t.Finds (·.decides offset) (t.filterAt offset).toOption := by
  have hfinds := finds_locate (p := (·.decides offset)) hlam offset <| by
    intro r hr c hc hdecides
    have hstop := ((hlam.sound r hr).clause c hc).2
    unfold Clause.decides at hdecides
    split at hdecides
    · next condition hkind =>
      have hstart := hfilter r hr c hc condition hkind
      simp only [Clause.contains, Bool.and_eq_true, decide_eq_true_eq] at hdecides ⊢
      omega
    · cases hdecides
  unfold filterAt
  split
  · next hsite => rwa [hsite] at hfinds
  · next hsite => rwa [hsite] at hfinds

-- ==== the whole tree

/-- The tree of an accepted body. Of two regions the earlier lies apart from the later
or within one of its parts. The clauses of a region are not empty, lie behind its
range without gaps, and only the last may be a finally or fault clause. Every region
is found by the offset of its handler, and the searches for clauses find the
innermost one. -/
theorem searches_find_innermost {body : Body} {T : TypeTable} {config : Config}
    {tree : RegionTree} {s s' : Slots} (hbuild : build body T config s = .ok tree s') :
    (∀ (i j : Nat) (a b : Region), i < j → tree.regions[i]? = some a →
      tree.regions[j]? = some b → a.Apart b ∨ a.Inside b) ∧
    (∀ r ∈ tree.regions, r.clauses ≠ [] ∧ r.Contiguous ∧
      (∀ c ∈ r.clauses, c.start < c.stop ∧ r.stop ≤ c.start) ∧
      ∀ c ∈ r.clauses.dropLast, c.kind ≠ .cleanup ∧ c.kind ≠ .fault) ∧
    (∀ i r, tree.regions[i]? = some r → tree.handlerAt? r.handlerOffset = some i) ∧
    ∀ offset,
      tree.Finds (·.handles offset) (tree.handlingClause? offset) ∧
      tree.Finds (fun c => c.isFinal && c.contains offset) (tree.finalClauseAt offset).toOption ∧
      tree.Finds (·.decides offset) (tree.filterAt offset).toOption := by
  obtain ⟨hlam, -⟩ := build_ok hbuild
  refine ⟨fun i j a b hij ha hb => ?_, fun r hr => ?_, fun i r hr => hlam.handlerAt? hr,
    fun offset => ⟨finds_handlingClause? hlam offset, finds_finalClauseAt hlam offset,
      finds_filterAt hlam (start_of_filtered_build hbuild) offset⟩⟩
  · obtain ⟨hi, rfl⟩ := List.getElem?_eq_some_iff.mp ha
    obtain ⟨hj, rfl⟩ := List.getElem?_eq_some_iff.mp hb
    exact List.pairwise_iff_getElem.mp hlam.nested i j hi hj hij
  · have hsound := hlam.sound r hr
    refine ⟨hsound.nonempty, contiguous_build hbuild r hr, fun c hc => ?_, fun c hc => ?_⟩
    · have hclause := hsound.clause c hc
      exact ⟨by omega, hsound.behind c hc⟩
    · have hfinal := hsound.final_last c hc
      unfold Clause.isFinal at hfinal
      constructor
      · intro hkind
        simp [hkind] at hfinal
      · intro hkind
        simp [hkind] at hfinal

/-- A body whose catch clause holds a protected range with a filter, and is followed by
a finally clause. -/
def filterInCatch : Body where
  owner := .ref "Owner"
  name := "m"
  kind := .static
  params := []
  locals := []
  returns := none
  code := [(0, .nop), (1, .nop), (2, .endFilter), (3, .nop), (4, .leave 6), (5, .endFinally),
    (6, .ret)]
  handlers := [⟨.typed, 0, 1, 1, 5, none, some (.generic "E" .resolved)⟩,
    ⟨.cleanup, 0, 1, 5, 6, none, none⟩, ⟨.filtered, 1, 2, 3, 4, some 2, none⟩]

/-- The regions of `filterInCatch`: the one in the catch clause, and the one around. -/
def filterInCatchTree : RegionTree where
  regions := [
    { start := 1, stop := 2, filterSlot := some 0
      clauses := [{ kind := .filtered 2, start := 2, stop := 4, handlerStart := 3 }] },
    { start := 0, stop := 1, leaveTargets := [6]
      clauses := [
        { kind := .typed (.generic "E" .resolved), start := 1, stop := 5, handlerStart := 1 },
        { kind := .cleanup, start := 5, stop := 6, handlerStart := 5 }] }]

private theorem build_filterInCatch :
    ∃ s, build filterInCatch default {} {} = .ok filterInCatchTree s :=
  exists_ok_of_test (by cbv)

/-- In `filterInCatch` the offset 3 lies in the handler of the filter and in the catch
clause around; the search finds the filter, whose region is number 0. -/
theorem searches_find_innermost_filterInCatch : ∃ s,
    build filterInCatch default {} {} = .ok filterInCatchTree s ∧
    filterInCatchTree.handlerAt? 2 = some 0 ∧ filterInCatchTree.handlerAt? 1 = some 1 ∧
    ∃ site, filterInCatchTree.handlingClause? 3 = some site ∧ site.regionIndex = 0 ∧
      filterInCatchTree.Innermost (·.handles 3) site ∧
      ∃ outer, filterInCatchTree.Has outer ∧ outer.regionIndex = 1 ∧
        outer.clause.handles 3 = true := by
  obtain ⟨s, hbuild⟩ := build_filterInCatch
  obtain ⟨-, -, hhandler, hfinds⟩ := searches_find_innermost hbuild
  exact ⟨s, hbuild, hhandler 0 _ rfl, hhandler 1 _ rfl, _, rfl, rfl, (hfinds 3).1,
    ⟨1, _, 0, _⟩, ⟨rfl, rfl⟩, rfl, rfl⟩

end RegionTree

end BytecodeBridge
