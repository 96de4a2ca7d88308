/-
The order of the handlers in a method header.

A header lists its handlers in any order, and nothing that is made of them
shows which. The clauses are grouped by their protected ranges, and the
ranges are sorted. Within a group the clauses are sorted by their starts,
and there are no ties to break: clauses that follow each other without a
gap start at different offsets, and clauses that do not are refused. So
the regions of a body depend on what the handlers are and not on their
order (`regionsOf_perm`). The operations are lowered with the regions and
never look at the handlers again (`Shares.blind`).
-/
import BytecodeBridge.Proofs.Lowering.Completion
import BytecodeBridge.Proofs.Lowering.Isolation

namespace BytecodeBridge

-- ==== checks in another order

section Checks

variable {ε α β : Type} {f : α → Except ε β}

theorem except_mapM_of_forall₂ {l : List α} {r : List β}
    (h : List.Forall₂ (fun a b => f a = .ok b) l r) : l.mapM f = .ok r := by
  induction h with
  | nil => rfl
  | cons hb _ ih =>
    rw [List.mapM_cons, hb, ih]
    rfl

private theorem except_mapM_perm {l l' : List α} (h : l.Perm l') {r : List β}
    (hr : l.mapM f = .ok r) : ∃ r', l'.mapM f = .ok r' ∧ r'.Perm r := by
  obtain ⟨r', hr', hperm⟩ := List.perm_comp_forall₂ h.symm (except_mapM_ok hr)
  exact ⟨r', except_mapM_of_forall₂ hr', hperm⟩

/-- Checks that succeed along a list succeed along one that they cannot tell from it. -/
private theorem except_mapM_congr {l l' : List α}
    (h : List.Forall₂ (fun a a' => ∀ b, f a = .ok b → f a' = .ok b) l l') {r : List β}
    (hr : l.mapM f = .ok r) : l'.mapM f = .ok r := by
  induction h generalizing r with
  | nil => exact hr
  | cons hab _ ih =>
    cases except_mapM_ok hr with
    | cons hb hrest =>
      rw [List.mapM_cons, hab _ hb, ih (except_mapM_of_forall₂ hrest)]
      rfl

private theorem except_ok_bind {x : Except ε α} {g : α → Except ε β} {a : α} (h : x = .ok a) :
    (x >>= g) = g a := by
  rw [h]
  rfl

end Checks

private theorem nodup_eraseDups {α : Type} [BEq α] [LawfulBEq α] (l : List α) :
    l.eraseDups.Nodup := by
  induction hn : l.length using Nat.strongRecOn generalizing l with
  | ind n ih =>
    cases l with
    | nil => exact List.nodup_nil
    | cons a l =>
      rw [List.eraseDups_cons, List.nodup_cons, List.mem_eraseDups]
      refine ⟨by simp, ih _ ?_ _ rfl⟩
      have hle := List.length_filter_le (fun b => !b == a) l
      rw [← hn, List.length_cons]
      omega

-- ==== grouping

namespace Region

theorem rangeLE_antisymm {a b : Nat × Nat} (hab : rangeLE a b) (hba : rangeLE b a) : a = b := by
  simp only [rangeLE, Bool.or_eq_true, Bool.and_eq_true, decide_eq_true_eq, beq_iff_eq] at hab hba
  refine Prod.ext ?_ ?_ <;> omega

/-- The ranges come out in one order whatever order they were found in. -/
theorem sorted_ranges_perm {l l' : List (Nat × Nat)} (h : l.Perm l') :
    l'.eraseDups.mergeSort rangeLE = l.eraseDups.mergeSort rangeLE := by
  have hsame : l'.eraseDups.Perm l.eraseDups :=
    (List.perm_ext_iff_of_nodup (nodup_eraseDups l') (nodup_eraseDups l)).mpr fun a => by
      rw [List.mem_eraseDups, List.mem_eraseDups, h.mem_iff]
  refine List.Perm.eq_of_pairwise (fun a b _ _ => rangeLE_antisymm)
    (List.pairwise_mergeSort rangeLE_trans rangeLE_total _)
    (List.pairwise_mergeSort rangeLE_trans rangeLE_total _) ?_
  exact (List.mergeSort_perm _ _).trans (hsame.trans (List.mergeSort_perm _ _).symm)

theorem group_perm {clauses clauses' : List ((Nat × Nat) × Clause)}
    (h : clauses.Perm clauses') :
    List.Forall₂ (fun a b => b.1 = a.1 ∧ a.2.Perm b.2) (group clauses) (group clauses') := by
  unfold group
  rw [sorted_ranges_perm (h.map Prod.fst), List.forall₂_map_left_iff, List.forall₂_map_right_iff,
    List.forall₂_same]
  exact fun range _ => ⟨rfl, (h.filter _).map Prod.snd⟩

-- ==== clauses

/-- Sorting clauses that follow each other gives them in one order whatever order they
came in. -/
theorem sorted_clauses_perm {cs cs' : List Clause} (h : cs.Perm cs')
    (hordered : (cs.mergeSort fun a b => a.start ≤ b.start).Pairwise fun a b => a.stop ≤ b.start)
    (hpos : ∀ c ∈ cs, c.start < c.stop) :
    (cs'.mergeSort fun a b => a.start ≤ b.start) = cs.mergeSort fun a b => a.start ≤ b.start := by
  have hsorted : ∀ l : List Clause,
      (l.mergeSort fun a b => a.start ≤ b.start).Pairwise
        fun a b => decide (a.start ≤ b.start) = true :=
    fun l => List.pairwise_mergeSort (fun a b c hab hbc => by simp at *; omega)
      (fun a b => by simp; omega) l
  have hsame : (cs'.mergeSort fun a b => a.start ≤ b.start).Perm
      (cs.mergeSort fun a b => a.start ≤ b.start) :=
    (List.mergeSort_perm _ _).trans (h.symm.trans (List.mergeSort_perm _ _).symm)
  -- no two of them start at one offset
  have hstarts : ((cs.mergeSort fun a b => a.start ≤ b.start).map Clause.start).Nodup := by
    refine List.Pairwise.nodup (r := (· < ·)) (List.pairwise_map.mpr ?_)
    refine (List.Pairwise.and_mem.mp hordered).imp fun {a b} hab => ?_
    exact Nat.lt_of_lt_of_le (hpos a (List.mem_mergeSort.mp hab.1)) hab.2.2
  refine List.Perm.eq_of_pairwise (fun a b ha hb hab hba => ?_) (hsorted cs') (hsorted cs) hsame
  refine List.inj_on_of_nodup_map hstarts (hsame.mem_iff.mp ha) hb ?_
  exact Nat.le_antisymm (of_decide_eq_true hab) (of_decide_eq_true hba)

/-- A range has one region, whatever order its clauses come in. -/
theorem ofClauses_perm {range : Nat × Nat} {cs cs' : List Clause} {r : Region}
    (h : cs.Perm cs') (hok : ofClauses range cs = .ok r) (hsound : r.Sound) :
    ofClauses range cs' = .ok r := by
  have hclauses := ofClauses_ok hok
  have hsorted := sorted_clauses_perm h (by simpa [hclauses] using hsound.ordered) fun c hc => by
    have hclause := hsound.clause c (by rw [hclauses]; exact List.mem_mergeSort.mpr hc)
    omega
  unfold ofClauses at hok ⊢
  rw [hsorted]
  exact hok

end Region

-- ==== regions

namespace RegionTree

variable {body : Body} {T : TypeTable} {config : Config} {handlers : List Handler}

/-- The regions of a body do not depend on the order of its handlers. -/
private theorem regionsOf_perm (h : body.handlers.Perm handlers) {regions : List Region}
    (hok : regionsOf body T config = .ok regions) :
    regionsOf { body with handlers } T config = .ok regions := by
  obtain ⟨clauses, hclauses, hok⟩ := except_bind_ok hok
  obtain ⟨unsorted, hunsorted, hok⟩ := except_bind_ok hok
  obtain ⟨clauses', hclauses', hperm⟩ := except_mapM_perm h hclauses
  have hgroups := (List.forall₂_and_left _ _).mpr
    ⟨fun _ hgroup => hgroup, Region.group_perm hperm.symm⟩
  have hunsorted' : (Region.group clauses').mapM (fun group => Region.ofClauses group.1 group.2)
      = .ok unsorted := by
    refine except_mapM_congr (hgroups.imp fun group group' hsame r hr => ?_) hunsorted
    obtain ⟨hmem, hrange, hcs⟩ := hsame
    rw [hrange]
    obtain ⟨hne, hhandlers⟩ := Region.handled_of_group hclauses hmem
    exact Region.ofClauses_perm hcs hr (Region.sound_of_group hne hhandlers hr)
  exact (except_ok_bind hclauses').trans ((except_ok_bind hunsorted').trans hok)

/-- The build of the regions and their slots does not depend on the order of the
handlers. -/
theorem build_perm (h : body.handlers.Perm handlers) {s s' : Slots} {tree : RegionTree}
    (hok : build body T config s = .ok tree s') :
    build { body with handlers } T config s = .ok tree s' := by
  obtain ⟨regions, t, hlift, hrest⟩ := state_bind_ok hok
  obtain ⟨hregions, rfl⟩ := state_lift_ok hlift
  have hlift' : (liftM (regionsOf { body with handlers } T config) : SlotM (List Region)) t
      = .ok regions t := by
    rw [regionsOf_perm h hregions]
    rfl
  exact (state_ok_bind hlift').trans hrest

end RegionTree

-- ==== lowering

namespace Lowering

variable {body : Body} {T : TypeTable} {config : Config} {handlers : List Handler}

private theorem layoutSlots_perm (h : body.handlers.Perm handlers) {s s' : Slots}
    {p : SlotMap Ty × RegionTree} (hok : layoutSlots config T body s = .ok p s') :
    layoutSlots config T { body with handlers } s = .ok p s' := by
  obtain ⟨locals, t₁, hlocals, hok⟩ := state_bind_ok hok
  obtain ⟨_, t₂, hvariables, hok⟩ := state_bind_ok hok
  obtain ⟨tree, t₃, hbuild, hok⟩ := state_bind_ok hok
  exact (state_ok_bind hlocals).trans ((state_ok_bind hvariables).trans
    ((state_ok_bind (RegionTree.build_perm h hbuild)).trans hok))

/-- A lowering that succeeds does not depend on the order of the handlers. -/
private theorem run_perm (h : body.handlers.Perm handlers) {s s' : LowerState} {m : Method}
    (hok : run config T body s = .ok m s') : run config T { body with handlers } s = .ok m s' := by
  rw [run_eq] at hok ⊢
  obtain ⟨p, t, hslots, hok⟩ := state_bind_ok hok
  obtain ⟨_, t₁, hmodify, hok⟩ := state_bind_ok hok
  obtain ⟨targets, t₂, htargets, hok⟩ := state_bind_ok hok
  have hslots' : LowerState.onSlots (layoutSlots config T { body with handlers }) s = .ok p t := by
    obtain ⟨slots, hlayout, hstate⟩ := onSlots_eq_ok.mp hslots
    exact onSlots_eq_ok.mpr ⟨slots, layoutSlots_perm h hlayout, hstate⟩
  refine (state_ok_bind hslots').trans ((state_ok_bind hmodify).trans
    ((state_ok_bind htargets).trans ?_))
  have hblind := (shares_body { config, types := T, body, regions := p.2, targets } body).blind
    ⟨rfl, rfl, rfl⟩ handlers
  exact (congrFun hblind t₂).trans hok

private theorem initial_perm (h : body.handlers.Perm handlers) (pool : Pool) :
    initial pool { body with handlers } = initial pool body := by
  unfold initial
  rw [h.length_eq]
  rfl

end Lowering

section Methods

variable {config : Config} {T : TypeTable} {pool : Pool} {body : Body} {handlers : List Handler}

/-- What a method comes to if it succeeds does not depend on the order of the handlers. -/
private theorem lowerMethod_perm (h : body.handlers.Perm handlers) {m : Method}
    (hok : (lowerMethod config T pool body).result = .ok m) :
    lowerMethod config T pool { body with handlers } = lowerMethod config T pool body := by
  unfold lowerMethod at hok ⊢
  cases hrun : Lowering.run config T body (Lowering.initial pool body) with
  | ok m' s =>
    rw [Lowering.initial_perm h, Lowering.run_perm h hrun]
    rfl
  | error cause s =>
    rw [hrun] at hok
    cases hok

/-- The order in which a header lists its handlers is irrelevant. The regions can be
built for one order if they can for another, and are the same then, with the same
slots. The method can be lowered for one order if it can for another, and is the same
then. The pool is the same in either case. -/
theorem handlers_perm (config : Config) (T : TypeTable) (pool : Pool) (body : Body)
    {handlers : List Handler} (h : body.handlers.Perm handlers) :
    (∀ s tree s', RegionTree.build body T config s = .ok tree s' ↔
      RegionTree.build { body with handlers } T config s = .ok tree s') ∧
    (∀ m, (lowerMethod config T pool body).result = .ok m ↔
      (lowerMethod config T pool { body with handlers }).result = .ok m) ∧
    (lowerMethod config T pool { body with handlers }).pool
      = (lowerMethod config T pool body).pool := by
  -- the body is the other one with its own handlers
  have hback : ∀ {m}, (lowerMethod config T pool { body with handlers }).result = .ok m →
      lowerMethod config T pool body = lowerMethod config T pool { body with handlers } :=
    fun hok => @lowerMethod_perm config T pool { body with handlers } body.handlers h.symm _ hok
  refine ⟨fun s tree s' => ⟨RegionTree.build_perm h,
    @RegionTree.build_perm { body with handlers } T config body.handlers h.symm s s' tree⟩,
    fun m => ⟨?_, ?_⟩, ?_⟩
  · intro hok
    rw [lowerMethod_perm h hok]
    exact hok
  · intro hok
    rw [hback hok]
    exact hok
  · cases hresult : (lowerMethod config T pool body).result with
    | ok m => rw [lowerMethod_perm h hresult]
    | error e =>
      cases hresult' : (lowerMethod config T pool { body with handlers }).result with
      | ok m => rw [hback hresult']
      | error e' =>
        -- both give the pool back
        obtain ⟨_, s, hrun, hpool⟩ := exists_failed hresult
        obtain ⟨_, s', hrun', hpool'⟩ := exists_failed hresult'
        rw [hpool, hpool', rollback_of_failed hrun, rollback_of_failed hrun']

/-- Two regions, one inside the other. The outer one is listed first. -/
def listedBackwards : Body where
  owner := .ref "Guard"
  name := "run"
  kind := .static
  params := []
  locals := []
  returns := none
  code := [(0, .leave 3), (1, .endFinally), (2, .endFinally), (3, .ret)]
  handlers :=
    [{ kind := .fault, tryStart := 0, tryStop := 2, handlerStart := 2, handlerStop := 3,
       catchType := none, filterStart := none },
     { kind := .fault, tryStart := 0, tryStop := 1, handlerStart := 1, handlerStop := 2,
       catchType := none, filterStart := none }]

theorem previewed_listedBackwards :
    (Lowering.previewed {} (.ofConfig {}) listedBackwards).isSome = true := by
  cbv

theorem handlers_perm_listedBackwards :
    ∃ m, (lowerMethod {} (.ofConfig {}) .empty listedBackwards).result = .ok m ∧
      (lowerMethod {} (.ofConfig {}) .empty
        { listedBackwards with handlers := listedBackwards.handlers.reverse }).result = .ok m := by
  obtain ⟨m, hm⟩ := Lowering.exists_of_isSome previewed_listedBackwards
  have hperm := handlers_perm {} (.ofConfig {}) .empty listedBackwards
    (List.reverse_perm listedBackwards.handlers).symm
  exact ⟨m, hm, (hperm.2.1 m).mp hm⟩

end Methods

end BytecodeBridge
