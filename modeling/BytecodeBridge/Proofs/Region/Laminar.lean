/-
The shape of a region tree: nested or disjoint, innermost first.

`RegionTree.regionsOf` groups and checks handlers, and what its checks
establish is stated here in two layers.

- `Region.Sound` is what holds of a region by itself: its protected range
  and its clauses are not empty, the clauses follow the range and each
  other in order, and only the last may be a finally or fault clause.
- `Laminar` is what holds between regions: of two regions in the list,
  either the spans are apart or the earlier one lies as a whole within one
  part of the later one.

The second layer is where the sort enters. The overlap check says only
that one of two regions lies within the other; the list is sorted by the
length of the spans, and a part of a sound region is shorter than its span
(`Sound.part_lt_span`), so it is the earlier region that lies within the
later one.
-/
import BytecodeBridge.Proofs.Run
import BytecodeBridge.Region.Build

namespace BytecodeBridge

namespace Region

-- ==== sound regions

/-- What a region owes to the checks on its own handlers. -/
structure Sound (r : Region) : Prop where
  start_lt : r.start < r.stop
  nonempty : r.clauses ≠ []
  /-- a filter's condition comes before its handler -/
  clause : ∀ c ∈ r.clauses, c.start ≤ c.handlerStart ∧ c.handlerStart < c.stop
  behind : ∀ c ∈ r.clauses, r.stop ≤ c.start
  ordered : r.clauses.Pairwise fun a b => a.stop ≤ b.start
  final_last : ∀ c ∈ r.clauses.dropLast, c.isFinal = false

theorem protects_iff {r : Region} {o : Nat} : r.protects o = true ↔ r.start ≤ o ∧ o < r.stop := by
  simp [protects]

/-- All of one region lies within one part of another. -/
def Inside (a b : Region) : Prop :=
  ∃ p ∈ b.parts, p.1 ≤ a.start ∧ a.spanStop ≤ p.2

/-- The spans of two regions have no offset in common. -/
def Apart (a b : Region) : Prop :=
  a.spanStop ≤ b.start ∨ b.spanStop ≤ a.start

theorem spanStop_of_getLast? {r : Region} {c : Clause} (h : r.clauses.getLast? = some c) :
    r.spanStop = c.stop := by
  unfold spanStop
  rw [h]

namespace Sound

variable {r : Region}

theorem exists_last (h : r.Sound) : ∃ c, r.clauses.getLast? = some c :=
  ⟨_, List.getLast?_eq_some_getLast h.nonempty⟩

/-- A clause other than the last ends before the last one starts. -/
theorem stop_le_last (h : r.Sound) {c last : Clause} (hlast : r.clauses.getLast? = some last)
    (hc : c ∈ r.clauses) : c = last ∨ c.stop ≤ last.start := by
  obtain ⟨front, hfront⟩ := List.getLast?_eq_some_iff.mp hlast
  rw [hfront, List.mem_append, List.mem_singleton] at hc
  rcases hc with hc | hc
  · refine .inr ?_
    have hord := h.ordered
    rw [hfront, List.pairwise_append] at hord
    exact hord.2.2 c hc last (List.mem_singleton_self last)
  · exact .inl hc

theorem stop_le_span (h : r.Sound) {c : Clause} (hc : c ∈ r.clauses) : c.stop ≤ r.spanStop := by
  obtain ⟨last, hlast⟩ := h.exists_last
  rw [spanStop_of_getLast? hlast]
  rcases h.stop_le_last hlast hc with rfl | hle
  · exact Nat.le_refl _
  · have := h.clause last (List.mem_of_getLast? hlast)
    omega

theorem stop_lt_span (h : r.Sound) : r.stop < r.spanStop := by
  obtain ⟨last, hlast⟩ := h.exists_last
  have hmem := List.mem_of_getLast? hlast
  have := h.behind last hmem
  have := h.clause last hmem
  rw [spanStop_of_getLast? hlast]
  omega

/-- A part is a range within the span, and shorter than the span. -/
theorem part_lt_span (h : r.Sound) {p : Nat × Nat} (hp : p ∈ r.parts) :
    r.start ≤ p.1 ∧ p.1 < p.2 ∧ p.2 ≤ r.spanStop ∧ p.2 - p.1 < r.spanLength := by
  have hstart := h.start_lt
  have hspan := h.stop_lt_span
  unfold spanLength
  rcases List.mem_cons.mp hp with rfl | hp
  · exact ⟨Nat.le_refl _, hstart, Nat.le_of_lt hspan, by dsimp only; omega⟩
  · obtain ⟨c, hc, rfl⟩ := List.mem_map.mp hp
    have hbehind := h.behind c hc
    have hclause := h.clause c hc
    have hle := h.stop_le_span hc
    exact ⟨by dsimp only; omega, by dsimp only; omega, hle, by dsimp only; omega⟩

/-- No clause starts before the handler. -/
theorem handlerOffset_le (h : r.Sound) {c : Clause} (hc : c ∈ r.clauses) :
    r.handlerOffset ≤ c.start := by
  unfold handlerOffset
  obtain ⟨first, rest, hclauses⟩ := List.exists_cons_of_ne_nil h.nonempty
  rw [hclauses, List.head?_cons]
  dsimp only
  rw [hclauses] at hc
  have hordered := h.ordered
  rw [hclauses] at hordered
  rcases List.mem_cons.mp hc with rfl | hc
  · exact Nat.le_refl _
  · have hle := (List.pairwise_cons.mp hordered).1 c hc
    have := h.clause first (by rw [hclauses]; exact .head _)
    omega

theorem exists_handlerOffset (h : r.Sound) : ∃ c ∈ r.clauses, c.start = r.handlerOffset := by
  obtain ⟨first, rest, hclauses⟩ := List.exists_cons_of_ne_nil h.nonempty
  unfold handlerOffset
  rw [hclauses, List.head?_cons]
  exact ⟨first, .head _, rfl⟩

theorem handlerOffset_bounds (h : r.Sound) :
    r.stop ≤ r.handlerOffset ∧ r.handlerOffset < r.spanStop := by
  obtain ⟨c, hc, heq⟩ := h.exists_handlerOffset
  have hbehind := h.behind c hc
  have hclause := h.clause c hc
  have hle := h.stop_le_span hc
  omega

theorem inside_cases (h : r.Sound) {a : Region} (hinside : a.Inside r) :
    (r.start ≤ a.start ∧ a.spanStop ≤ r.stop) ∨ r.handlerOffset ≤ a.start := by
  obtain ⟨p, hp, hstart, hstop⟩ := hinside
  rcases List.mem_cons.mp hp with rfl | hp
  · exact .inl ⟨hstart, hstop⟩
  · obtain ⟨c, hc, rfl⟩ := List.mem_map.mp hp
    exact .inr (Nat.le_trans (h.handlerOffset_le hc) hstart)

end Sound

theorem spanLength_lt_of_inside {a b : Region} (ha : a.Sound) (hb : b.Sound) (h : Inside a b) :
    a.spanLength < b.spanLength := by
  obtain ⟨p, hp, hstart, hstop⟩ := h
  obtain ⟨-, -, -, hlt⟩ := hb.part_lt_span hp
  have := ha.start_lt
  have := ha.stop_lt_span
  unfold spanLength at *
  omega

-- ==== from the handlers

/-- A clause starts with its handler, or with the condition of its filter before that. -/
theorem clauseKind_ok {body : Body} {T : TypeTable} {config : Config} {h : Handler}
    {kind : ClauseKind} {start : Nat} (hk : h.clauseKind body T config = .ok (kind, start)) :
    (∀ condition, kind = .filtered condition → start = condition) ∧ start ≤ h.handlerStart := by
  unfold Handler.clauseKind at hk
  split at hk
  · split at hk
    · obtain ⟨_, -, hk⟩ := except_bind_ok hk
      cases hk
      exact ⟨nofun, Nat.le_refl _⟩
    · cases hk
  · split at hk
    · obtain ⟨_, -, hk⟩ := except_bind_ok hk
      split at hk
      · cases hk
      · next hlt =>
        cases hk
        exact ⟨fun _ heq => ClauseKind.filtered.inj heq, Nat.le_of_lt (Nat.not_le.mp hlt)⟩
    · cases hk
  all_goals
    cases hk
    exact ⟨nofun, Nat.le_refl _⟩

/-- A handler that passes its checks starts with an operation, and has a range and a clause
that are not empty. -/
theorem clause_ok {body : Body} {T : TypeTable} {config : Config} {h : Handler}
    {range : Nat × Nat} {c : Clause} (hc : h.clause body T config = .ok (range, c)) :
    body.isBoundary range.1 = true ∧ range.1 < range.2 ∧ c.start ≤ c.handlerStart ∧
      c.handlerStart < c.stop ∧ (∀ condition, c.kind = .filtered condition → c.start = condition) ∧
      c.rethrowSlot = none := by
  obtain ⟨_, hcheck, hc⟩ := except_bind_ok hc
  obtain ⟨_, -, hc⟩ := except_bind_ok hc
  obtain ⟨tryStop, -, hc⟩ := except_bind_ok hc
  obtain ⟨stop, -, hc⟩ := except_bind_ok hc
  split at hc
  · cases hc
  next hne =>
  simp only [Bool.or_eq_true, decide_eq_true_eq, not_or, Nat.not_le] at hne
  obtain ⟨⟨kind, start⟩, hkind, hc⟩ := except_bind_ok hc
  cases hc
  obtain ⟨hcondition, hle⟩ := clauseKind_ok hkind
  unfold Handler.checkStart at hcheck
  split at hcheck
  · next hboundary => exact ⟨hboundary, hne.1, hle, hne.2, hcondition, rfl⟩
  · cases hcheck

/-- Clauses without a gap between neighbours come one after the other. -/
theorem ordered_of_gap? {l : List Clause} (hgap : gap? l = none)
    (hpos : ∀ c ∈ l, c.start < c.stop) : l.Pairwise fun a b => a.stop ≤ b.start := by
  fun_induction gap? l with
  | case1 a b rest heq ih =>
    have hrest := ih hgap fun c hc => hpos c (.tail _ hc)
    refine List.pairwise_cons.mpr ⟨fun c hc => ?_, hrest⟩
    rcases List.mem_cons.mp hc with rfl | hc
    · exact Nat.le_of_eq heq
    · have hb := hpos b (by simp)
      have hbc := (List.pairwise_cons.mp hrest).1 c hc
      omega
  | case2 a b rest hne => cases hgap
  | case3 l hshort =>
    match l with
    | [] => exact .nil
    | [c] => exact List.pairwise_singleton _ c
    | a :: b :: rest => exact absurd rfl (hshort a b rest)

/-- A region made from a range and clauses that are not empty is sound. -/
theorem sound_ofClauses {range : Nat × Nat} {clauses : List Clause} {r : Region}
    (h : ofClauses range clauses = .ok r) (hrange : range.1 < range.2) (hne : clauses ≠ [])
    (hclause : ∀ c ∈ clauses, c.start ≤ c.handlerStart ∧ c.handlerStart < c.stop) : r.Sound := by
  unfold ofClauses at h
  generalize hsorted : (clauses.mergeSort fun a b => decide (a.start ≤ b.start)) = sorted at h
  have hmem : ∀ c, c ∈ sorted ↔ c ∈ clauses := fun c => by rw [← hsorted, List.mem_mergeSort]
  have hpos : ∀ c ∈ sorted, c.start < c.stop := fun c hc => by
    have := hclause c ((hmem c).mp hc)
    omega
  obtain ⟨c₀, hc₀⟩ := List.exists_mem_of_ne_nil clauses hne
  obtain ⟨first, rest, rfl⟩ := List.exists_cons_of_ne_nil
    (List.ne_nil_of_mem ((hmem c₀).mpr hc₀))
  simp only [List.head?_cons] at h
  split at h
  · cases h
  next hinside =>
  split at h
  · cases h
  next hgap =>
  split at h
  · cases h
  next hfinal =>
  cases h
  have hord := ordered_of_gap? (Option.eq_none_iff_forall_ne_some.mpr fun p hp =>
    hgap p.1 p.2 hp) hpos
  refine ⟨hrange, List.cons_ne_nil _ _, fun c hc => hclause c ((hmem c).mp hc), fun c hc => ?_,
    hord, fun c hc => ?_⟩
  · -- the first clause starts behind the range, the others behind the first
    rcases List.mem_cons.mp hc with rfl | hc
    · exact Nat.not_lt.mp hinside
    · have hle := (List.pairwise_cons.mp hord).1 c hc
      have := hpos first (.head _)
      dsimp only
      omega
  · simp only [List.any_eq_true, not_exists, not_and, Bool.not_eq_true] at hfinal
    exact hfinal c hc

-- ==== the order

theorem rangeLE_trans (a b c : Nat × Nat) (hab : rangeLE a b) (hbc : rangeLE b c) :
    rangeLE a c := by
  simp only [rangeLE, Bool.or_eq_true, Bool.and_eq_true, decide_eq_true_eq, beq_iff_eq] at *
  omega

theorem rangeLE_total (a b : Nat × Nat) : (rangeLE a b || rangeLE b a) = true := by
  simp only [rangeLE, Bool.or_eq_true, Bool.and_eq_true, decide_eq_true_eq, beq_iff_eq]
  omega

theorem pairwise_spanLength (regions : List Region) :
    (regions.mergeSort innermostLE).Pairwise fun a b => a.spanLength ≤ b.spanLength := by
  have htrans : ∀ a b c : Region, innermostLE a b → innermostLE b c → innermostLE a c :=
    fun _ _ _ => rangeLE_trans _ _ _
  have htotal : ∀ a b : Region, (innermostLE a b || innermostLE b a) = true :=
    fun _ _ => rangeLE_total _ _
  have hsorted := List.pairwise_mergeSort htrans htotal regions
  refine hsorted.imp fun {a b} hab => ?_
  simp only [innermostLE, rangeLE, Bool.or_eq_true, Bool.and_eq_true, decide_eq_true_eq,
    beq_iff_eq] at hab
  omega

theorem disjoint_iff {a b : Region} : disjoint a b = true ↔ Apart a b := by
  simp only [disjoint, Apart, Bool.or_eq_true, decide_eq_true_eq]

theorem nested_iff {a b : Region} : nested a b = true ↔ Inside a b ∨ Inside b a := by
  simp only [nested, Inside, within, span, Bool.or_eq_true, List.any_eq_true, Bool.and_eq_true,
    decide_eq_true_eq]

/-- The overlap check, read as a property of all pairs. -/
theorem pairwise_of_overlap? {regions : List Region} (h : overlap? regions = none) :
    regions.Pairwise fun a b => Apart a b ∨ Inside a b ∨ Inside b a := by
  induction regions with
  | nil => exact .nil
  | cons a rest ih =>
    unfold overlap? at h
    split at h
    · cases h
    · next hfind =>
      refine List.pairwise_cons.mpr ⟨fun b hb => ?_, ih h⟩
      have hab := List.find?_eq_none.mp hfind b hb
      rw [← disjoint_iff, ← nested_iff]
      cases hd : disjoint a b with
      | true => exact .inl rfl
      | false =>
        cases hn : nested a b with
        | true => exact .inr rfl
        | false =>
          rw [hd, hn] at hab
          exact absurd rfl hab

/-- A group of clauses has a range and clauses of handlers, and at least one. -/
theorem mem_group {clauses : List ((Nat × Nat) × Clause)} {range : Nat × Nat} {cs : List Clause}
    (h : (range, cs) ∈ group clauses) : cs ≠ [] ∧ ∀ c ∈ cs, (range, c) ∈ clauses := by
  obtain ⟨range', hrange, heq⟩ := List.mem_map.mp h
  obtain ⟨rfl, rfl⟩ := Prod.mk.inj heq
  rw [List.mem_mergeSort, List.mem_eraseDups] at hrange
  obtain ⟨⟨_, c⟩, hc, rfl⟩ := List.mem_map.mp hrange
  refine ⟨List.ne_nil_of_mem (List.mem_map.mpr ⟨_, List.mem_filter.mpr ⟨hc, by simp⟩, rfl⟩), ?_⟩
  intro d hd
  obtain ⟨⟨other, d'⟩, hmem, rfl⟩ := List.mem_map.mp hd
  obtain ⟨hmem, hother⟩ := List.mem_filter.mp hmem
  rw [← eq_of_beq hother]
  exact hmem

end Region

-- ==== laminar lists

/-- The shape of a list of regions: each is sound, and of two the earlier lies
apart from the later or within one of its parts. -/
structure Laminar (regions : List Region) : Prop where
  sound : ∀ r ∈ regions, r.Sound
  nested : regions.Pairwise fun a b => a.Apart b ∨ a.Inside b

theorem Region.handled_of_group {body : Body} {T : TypeTable} {config : Config}
    {clauses : List ((Nat × Nat) × Clause)} {range : Nat × Nat} {cs : List Clause}
    (h : body.handlers.mapM (Handler.clause body T config) = .ok clauses)
    (hgroup : (range, cs) ∈ group clauses) :
    cs ≠ [] ∧ ∀ c ∈ cs, ∃ h ∈ body.handlers, h.clause body T config = .ok (range, c) := by
  obtain ⟨hne, hcs⟩ := mem_group hgroup
  refine ⟨hne, fun c hc => ?_⟩
  obtain ⟨handler, hmem, hmade⟩ := forall₂_mem_right (except_mapM_ok h) (hcs c hc)
  exact ⟨handler, hmem, hmade⟩

theorem Region.sound_of_group {body : Body} {T : TypeTable} {config : Config}
    {range : Nat × Nat} {cs : List Clause} (hne : cs ≠ [])
    (hcs : ∀ c ∈ cs, ∃ h ∈ body.handlers, h.clause body T config = .ok (range, c)) {r : Region}
    (hok : ofClauses range cs = .ok r) : r.Sound := by
  obtain ⟨c, hc⟩ := List.exists_mem_of_ne_nil _ hne
  obtain ⟨_, -, hclause⟩ := hcs c hc
  refine sound_ofClauses hok (clause_ok hclause).2.1 hne fun d hd => ?_
  obtain ⟨_, -, hclause⟩ := hcs d hd
  obtain ⟨-, -, hle, hlt, -⟩ := clause_ok hclause
  exact ⟨hle, hlt⟩

/-- The regions of a body are made from its handlers, do not overlap and are sorted. -/
theorem RegionTree.regionsOf_ok {body : Body} {T : TypeTable} {config : Config}
    {regions : List Region} (h : regionsOf body T config = .ok regions) :
    ∃ unsorted, regions = unsorted.mergeSort Region.innermostLE ∧
      Region.overlap? unsorted = none ∧ ∀ r ∈ unsorted, ∃ range cs, cs ≠ [] ∧
        Region.ofClauses range cs = .ok r ∧
        ∀ c ∈ cs, ∃ h ∈ body.handlers, h.clause body T config = .ok (range, c) := by
  obtain ⟨clauses, hclauses, h⟩ := except_bind_ok h
  obtain ⟨unsorted, hunsorted, h⟩ := except_bind_ok h
  split at h
  · cases h
  next hoverlap =>
  cases h
  refine ⟨unsorted, rfl, Option.eq_none_iff_forall_ne_some.mpr fun p hp => hoverlap p.1 p.2 hp,
    fun r hr => ?_⟩
  obtain ⟨⟨range, cs⟩, hgroup, hok⟩ := forall₂_mem_right (except_mapM_ok hunsorted) hr
  obtain ⟨hne, hcs⟩ := Region.handled_of_group hclauses hgroup
  exact ⟨range, cs, hne, hok, hcs⟩

/-- The regions of a body are laminar. -/
theorem laminar_regionsOf {body : Body} {T : TypeTable} {config : Config} {regions : List Region}
    (h : RegionTree.regionsOf body T config = .ok regions) : Laminar regions := by
  obtain ⟨unsorted, rfl, hnone, hgroups⟩ := RegionTree.regionsOf_ok h
  have hsound : ∀ r ∈ unsorted, r.Sound := by
    intro r hr
    obtain ⟨range, cs, hne, hok, hcs⟩ := hgroups r hr
    exact Region.sound_of_group hne hcs hok
  have hperm := List.mergeSort_perm unsorted Region.innermostLE
  -- the overlap check does not depend on the order, the sort then decides who is inside
  have hpairs := (hperm.pairwise_iff fun {a b} hab => by
    rcases hab with hab | hab | hab
    · exact .inl hab.symm
    · exact .inr (.inr hab)
    · exact .inr (.inl hab)).mpr (Region.pairwise_of_overlap? hnone)
  refine ⟨fun r hr => hsound r (List.mem_mergeSort.mp hr), ?_⟩
  have hboth := List.Pairwise.and_mem.mp (hpairs.and (Region.pairwise_spanLength unsorted))
  refine hboth.imp fun {a b} hab => ?_
  obtain ⟨ha, hb, hrel, hlen⟩ := hab
  rcases hrel with hrel | hrel | hrel
  · exact .inl hrel
  · exact .inr hrel
  · have := Region.spanLength_lt_of_inside (hsound b (List.mem_mergeSort.mp hb))
      (hsound a (List.mem_mergeSort.mp ha)) hrel
    omega

end BytecodeBridge
