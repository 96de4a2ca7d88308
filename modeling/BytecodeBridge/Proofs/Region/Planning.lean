/-
Planning leaves: the destinations that regions remember are enough.

A leave is planned twice. While the regions are built, a loop walks from
the leave outwards: a round asks for a route in the tree as it stands,
records the destination in the region that was found and goes on from the
start of that region's finally clause (`Rounds`). When code is emitted only
an index travels: the leave hands the index of its destination to a
region, and the end of the finally clause looks the destination up by that
index and plans from there (`Chain`).

# The loop

The tree changes between two rounds, but not in its outlines, and a route
reads nothing else. So the rounds visit the relays of the leave, once each,
and there are no more rounds than regions.

# The chain

Along the relays the destination is known to every region, so each plan
succeeds, and the index it hands over is a position of the destination in
the region's list: looking it up gives the destination back. The chain
therefore asks for the same destination at every step, and is the walk that
`Follows` describes, with the indices written next to the regions.
-/
import BytecodeBridge.Proofs.Region.Routing

namespace BytecodeBridge

namespace RegionTree

-- ==== the loop

/-- The rounds of planning a leave: each records the destination in the first region
of the route and goes on from the start of its finally clause. -/
inductive Rounds (target : Nat) : RegionTree → Nat → Nat → RegionTree → Prop where
  | done {t : RegionTree} {source : Nat} (hroute : route t.regions source target = none) :
      Rounds target t source 0 t
  | round {t t' : RegionTree} {source r f n : Nat}
      (hroute : route t.regions source target = some (r, f))
      (hrest : Rounds target (addLeaveTarget target t r) f n t') :
      Rounds target t source (n + 1) t'

private theorem route_eq_of_outline {a b : List Region}
    (h : a.map Region.outline = b.map Region.outline) (source target : Nat) :
    route a source target = route b source target := by
  rw [← route_outline, h, route_outline]

/-- The rounds visit the relays, in any tree that has the outlines of the regions. -/
private theorem rounds_relays (regions : List Region) (source target : Nat) :
    ∀ t : RegionTree, t.regions.map Region.outline = regions.map Region.outline →
      Rounds target t source (relays regions source target).length
        ((relays regions source target).foldl (addLeaveTarget target) t) := by
  fun_induction relays regions source target with
  | case1 source hroute =>
    intro t ht
    apply Rounds.done
    rw [route_eq_of_outline ht, hroute]
  | case2 source r f hroute ih =>
    intro t ht
    rw [List.length_cons, List.foldl_cons]
    apply Rounds.round
    · rw [route_eq_of_outline ht, hroute]
    · exact ih _ ((outline_addLeaveTarget target t r).trans ht)

/-- The loop has one course. -/
theorem Rounds.unique {t a b : RegionTree} {source target m n : Nat}
    (ha : Rounds target t source m a) (hb : Rounds target t source n b) : m = n ∧ a = b := by
  induction ha generalizing n b with
  | done hroute =>
    cases hb with
    | done => exact ⟨rfl, rfl⟩
    | round hroute' =>
      rw [hroute] at hroute'
      cases hroute'
  | round hroute _ ih =>
    cases hb with
    | done hroute' =>
      rw [hroute] at hroute'
      cases hroute'
    | round hroute' hrest =>
      rw [hroute] at hroute'
      cases hroute'
      obtain ⟨rfl, rfl⟩ := ih hrest
      exact ⟨rfl, rfl⟩

private theorem length_relays_le (regions : List Region) (source target : Nat) :
    (relays regions source target).length ≤ regions.length := by
  have hsub : relays regions source target ⊆ List.range regions.length := fun r hr =>
    List.mem_range.mpr (relays_lt hr)
  have hle := ((nodup_relays regions source target).subperm hsub).length_le
  rwa [List.length_range] at hle

/-- The loop comes to an end after at most one round for each region, and leaves the
tree in which all relays know the destination. -/
private theorem rounds_withLeave (t : RegionTree) (source target : Nat) :
    ∃ n ≤ t.size, ∀ m t', Rounds target t source m t' ↔
      m = n ∧ t' = withLeave t (source, .leave target) := by
  refine ⟨_, length_relays_le t.regions source target, fun m t' => ?_⟩
  have hrounds := rounds_relays t.regions source target t rfl
  constructor
  · intro h
    exact h.unique hrounds
  · intro h
    rw [h.1, h.2]
    exact hrounds

-- ==== the chain

/-- The relays of a leave with the indices it hands over: each finally clause looks
up its index among the destinations of its region and plans for what it finds. -/
inductive Chain (t : RegionTree) : Nat → Nat → List (Nat × Nat) → Prop where
  | direct {source target : Nat} (hplan : t.planLeave source target = .ok .direct) :
      Chain t source target []
  | relay {source target r index f next : Nat} {region : Region} {rest : List (Nat × Nat)}
      (hplan : t.planLeave source target = .ok (.relay r index))
      (hregion : t.regions[r]? = some region) (hf : region.finallyStart? = some f)
      (hnext : region.leaveTargets[index]? = some next) (hrest : Chain t f next rest) :
      Chain t source target ((r, index) :: rest)

section Chain

variable {t : RegionTree} {source target : Nat}

/-- The index of a relay is a position of the destination. -/
private theorem leaveTargets_of_planLeave {r index : Nat} {region : Region}
    (hplan : t.planLeave source target = .ok (.relay r index))
    (hregion : t.regions[r]? = some region) : region.leaveTargets[index]? = some target := by
  unfold planLeave at hplan
  split at hplan
  · cases hplan
  · next r' f hroute =>
    obtain ⟨region', hget, hplan⟩ := except_bind_ok hplan
    split at hplan
    · next i hi =>
      cases hplan
      unfold get at hget
      rw [hregion] at hget
      cases hget
      obtain ⟨hlt, hat, -⟩ := List.idxOf?_eq_some_iff.mp hi
      rw [List.getElem?_eq_getElem hlt, hat]
    · cases hplan

/-- Whoever follows the plan walks a chain in which every index stands for the
destination. -/
theorem Follows.chain {rs : List Nat} (h : t.Follows target source rs) :
    ∃ chain, t.Chain source target chain ∧ chain.map Prod.fst = rs ∧
      ∀ r index, (r, index) ∈ chain →
        ∃ region, t.regions[r]? = some region ∧ region.leaveTargets[index]? = some target := by
  induction h with
  | direct hplan => exact ⟨[], .direct hplan, rfl, by simp⟩
  | @relay source r index f region rs hplan hregion hf _ ih =>
    have hnext := leaveTargets_of_planLeave hplan hregion
    obtain ⟨chain, hchain, hvisits, hdecode⟩ := ih
    refine ⟨(r, index) :: chain, .relay hplan hregion hf hnext hchain, ?_, fun q i hmem => ?_⟩
    · rw [List.map_cons, hvisits]
    · rcases List.mem_cons.mp hmem with heq | hmem
      · obtain ⟨rfl, rfl⟩ := Prod.mk.inj heq
        exact ⟨region, hregion, hnext⟩
      · exact hdecode q i hmem

/-- A leave has one chain. -/
theorem Chain.unique {a b : List (Nat × Nat)} (ha : t.Chain source target a)
    (hb : t.Chain source target b) : a = b := by
  induction ha generalizing b with
  | direct hplan =>
    cases hb with
    | direct => rfl
    | relay hplan' =>
      rw [hplan] at hplan'
      cases hplan'
  | relay hplan hregion hf hnext _ ih =>
    cases hb with
    | direct hplan' =>
      rw [hplan] at hplan'
      cases hplan'
    | relay hplan' hregion' hf' hnext' hrest =>
      rw [hplan] at hplan'
      cases hplan'
      rw [hregion] at hregion'
      cases hregion'
      rw [hf] at hf'
      cases hf'
      rw [hnext] at hnext'
      cases hnext'
      rw [ih hrest]

end Chain

-- ==== round trips

private theorem nodup_leaveTargets {body : Body} {T : TypeTable} {config : Config}
    {tree : RegionTree} {s s' : Slots} (hbuild : build body T config s = .ok tree s') :
    ∀ r ∈ tree.regions, r.leaveTargets.Nodup := by
  refine leaveTargets_build (Q := List.Nodup) hbuild List.nodup_nil fun _ target _ l hnew hl => ?_
  rw [← List.concat_eq_append, List.nodup_concat]
  exact ⟨hnew, hl⟩

/-- Planning comes to an end in every tree, after at most one round for each region.
In the tree of an accepted body no region remembers a destination twice, and every
leave gets to its destination along one chain of relays: no plan fails, each index
stands for the destination of the leave, no region is visited twice and the last
plan is to jump. -/
theorem leave_round_trip {body : Body} {T : TypeTable} {config : Config} {tree : RegionTree}
    {s s' : Slots} (hbuild : build body T config s = .ok tree s') :
    (∀ t source target, ∃ n ≤ t.size, ∀ m t', Rounds target t source m t' ↔
      m = n ∧ t' = withLeave t (source, .leave target)) ∧
    (∀ r ∈ tree.regions, r.leaveTargets.Nodup) ∧
    ∀ source target, (source, .leave target) ∈ body.code →
      ∃ chain, (∀ c, tree.Chain source target c ↔ c = chain) ∧ (chain.map Prod.fst).Nodup ∧
        ∀ r index, (r, index) ∈ chain → ∃ region,
          tree.regions[r]? = some region ∧ region.leaveTargets[index]? = some target := by
  refine ⟨rounds_withLeave, nodup_leaveTargets hbuild, fun source target hleave => ?_⟩
  obtain ⟨-, hknows⟩ := build_ok hbuild
  obtain ⟨chain, hchain, hvisits, hdecode⟩ := (follows_relays (hknows source target hleave)).chain
  refine ⟨chain, fun c => ?_, ?_, hdecode⟩
  · constructor
    · intro hc
      exact hc.unique hchain
    · intro hc
      rw [hc]
      exact hchain
  · rw [hvisits]
    exact nodup_relays _ _ _

/-- In `rangeAtClauseStart` two leaves share the inner region: the one out of the
outer range comes by with index 0, the one out of the inner range with index 1. -/
theorem leave_round_trip_shared : ∃ s,
    build rangeAtClauseStart default {} {} = .ok rangeAtClauseStartTree s ∧
    (∀ c, rangeAtClauseStartTree.Chain 0 5 c ↔ c = [(1, 0), (0, 0)]) ∧
    ∀ c, rangeAtClauseStartTree.Chain 2 4 c ↔ c = [(0, 1)] := by
  obtain ⟨s, hbuild⟩ := build_rangeAtClauseStart
  obtain ⟨-, -, hchains⟩ := leave_round_trip hbuild
  obtain ⟨outer, houter, -, -⟩ := hchains 0 5 (by simp [rangeAtClauseStart])
  obtain ⟨inner, hinner, -, -⟩ := hchains 2 4 (by simp [rangeAtClauseStart])
  have houter' : rangeAtClauseStartTree.Chain 0 5 [(1, 0), (0, 0)] :=
    .relay rfl rfl rfl rfl (.relay rfl rfl rfl rfl (.direct rfl))
  have hinner' : rangeAtClauseStartTree.Chain 2 4 [(0, 1)] :=
    .relay rfl rfl rfl rfl (.direct rfl)
  rw [← (houter _).mp houter'] at houter
  rw [← (hinner _).mp hinner'] at hinner
  exact ⟨s, hbuild, houter, hinner⟩

end RegionTree

end BytecodeBridge
