/-
What the preparation of a lowering establishes.

Before the first operation is lowered, the slots are laid out, the regions
are built and the targets of all transfers are collected. This file says
what is true from then on: the layout fits, arguments and variables have
the slots that the sizes of those before them give (`variableSlot`), the
slots that regions keep are declared for that purpose (`Backed`), and
every offset that an operation transfers to is a known target
(`Prepared`).
-/
import BytecodeBridge.Lowering.Method
import BytecodeBridge.Proofs.Lowering.Operations
import BytecodeBridge.Proofs.Region.Outline

namespace BytecodeBridge

open Region RegionTree

-- ==== what a build adds

namespace RegionTree

private theorem regionsOf_nil {body : Body} {T : TypeTable} {config : Config}
    {regions : List Region} (hnone : body.handlers = [])
    (h : regionsOf body T config = .ok regions) : regions = [] := by
  have hgroup : group [] = [] := by simp [group]
  unfold regionsOf at h
  rw [hnone, List.mapM_nil, pure_bind, hgroup, List.mapM_nil, pure_bind] at h
  cases h
  exact List.mergeSort_nil

/-- The slots that the regions of a tree keep. -/
def keptSlots (t : RegionTree) : List Nat :=
  t.regions.flatMap Region.keptSlots

end RegionTree

/-- All of these slots are declared for the lowering itself. -/
def Slots.Keeps (s : Slots) (slots : List Nat) : Prop :=
  ∀ slot ∈ slots, ∃ d, s.declared? slot = some d ∧ d.kind = .synthetic

theorem Slots.Keeps.grow {s s' : Slots} {slots : List Nat} (h : s.Keeps slots)
    (hgrows : s.Grows s') : s'.Keeps slots := by
  intro slot hslot
  obtain ⟨d, hd, hkind⟩ := h slot hslot
  exact ⟨d, hgrows slot d hd, hkind⟩

namespace RegionTree

variable {start : Slots} {kept : List Nat}

theorem keeps_throwableSlot (T : TypeTable) :
    Yields (fun s => start.Reserves s ∧ s.Keeps kept) (throwableSlot T)
      fun slot s => start.Reserves s ∧ s.Keeps (slot :: kept) := by
  rintro s slot s' ⟨hreserves, hkeeps⟩ hrun
  obtain ⟨-, hgrows, hslot⟩ := hreserves.fits.declare hrun
  refine ⟨hreserves.trans (hreserves.fits.reserves_declare hrun), ?_⟩
  exact List.forall_mem_cons.mpr ⟨⟨_, hslot, rfl⟩, hkeeps.grow hgrows⟩

/-- A slot for what is thrown, where one is wanted. -/
def slotWhen (T : TypeTable) (wanted : Bool) : SlotM (Option Nat) :=
  if wanted then some <$> throwableSlot T else pure none

theorem withSlots_eq (T : TypeTable) (all : List Region) (r : Region) :
    Region.withSlots T all r = (do
      let finallySlot ← slotWhen T (enclosesInFinal all r)
      let filterSlot ← slotWhen T r.hasFilter
      pure { r with finallySlot, filterSlot }) := by
  unfold Region.withSlots slotWhen
  cases enclosesInFinal all r <;> cases r.hasFilter <;> rfl

private theorem keeps_slotWhen (T : TypeTable) (wanted : Bool) :
    Yields (fun s => start.Reserves s ∧ s.Keeps kept) (slotWhen T wanted)
      fun slot s => start.Reserves s ∧ s.Keeps (slot.toList ++ kept) := by
  cases wanted with
  | true =>
    rintro s slot s' hs hrun
    obtain ⟨a, t, ha, hpure⟩ := state_bind_ok (x := throwableSlot T)
      (f := fun a => pure (some a)) hrun
    obtain ⟨rfl, rfl⟩ := state_pure_ok hpure
    exact keeps_throwableSlot T s a t hs ha
  | false => exact .pure fun _ h => h

/-- The slots a region is given are declared for it. -/
private theorem keeps_withSlots (T : TypeTable) (all : List Region) {r : Region}
    (hr : r.outline = r) :
    Yields (fun s => start.Reserves s ∧ s.Keeps kept) (Region.withSlots T all r)
      fun r' s => start.Reserves s ∧ s.Keeps (r'.keptSlots ++ kept) := by
  have hnone : r.clauses.filterMap Clause.rethrowSlot = [] := by
    rw [← hr]
    unfold Region.outline
    rw [List.filterMap_map]
    exact List.filterMap_eq_nil_iff.mpr fun _ _ => rfl
  rw [withSlots_eq]
  refine .bind (keeps_slotWhen T _) fun finallySlot => .bind (keeps_slotWhen T _)
    fun filterSlot => .pure fun s hs => ⟨hs.1, fun slot hslot => hs.2 slot ?_⟩
  unfold Region.keptSlots at hslot
  rw [hnone] at hslot
  simp only [List.append_nil, List.mem_append] at hslot ⊢
  tauto

private theorem keeps_mapM_withSlots (T : TypeTable) (all : List Region) {regions : List Region}
    (hbare : ∀ r ∈ regions, r.outline = r) :
    Yields (fun s => start.Reserves s ∧ s.Keeps kept) (regions.mapM (withSlots T all))
      fun slotted s => start.Reserves s ∧ s.Keeps (slotted.flatMap Region.keptSlots ++ kept) := by
  induction regions generalizing kept with
  | nil =>
    rw [List.mapM_nil]
    exact .pure fun _ h => h
  | cons r regions ih =>
    rw [List.mapM_cons]
    refine .bind (keeps_withSlots T all (hbare r (.head _))) fun r' => ?_
    refine .bind (ih fun r hr => hbare r (.tail _ hr)) fun rest => ?_
    refine .pure fun s hs => ⟨hs.1, fun slot hslot => hs.2 slot ?_⟩
    rw [List.flatMap_cons] at hslot
    simp only [List.mem_append] at hslot ⊢
    tauto

/-- Another slot for rethrows is the only slot that a tree keeps in addition. -/
private theorem mem_keptSlots_setRethrowSlot {t : RegionTree} {region clause slot k : Nat}
    (h : k ∈ (t.setRethrowSlot region clause slot).keptSlots) : k ∈ slot :: t.keptSlots := by
  unfold keptSlots setRethrowSlot at h
  obtain ⟨r', hr', hk⟩ := List.mem_flatMap.mp h
  obtain ⟨i, hi⟩ := List.mem_iff_getElem?.mp hr'
  rw [List.getElem?_modify] at hi
  obtain ⟨r, hget, rfl⟩ := Option.map_eq_some_iff.mp hi
  have hmem := List.mem_of_getElem? hget
  have hold : k ∈ r.keptSlots → k ∈ slot :: t.keptSlots := fun hk =>
    .tail _ (List.mem_flatMap.mpr ⟨r, hmem, hk⟩)
  split at hk
  · unfold Region.keptSlots at hk
    simp only [List.mem_append] at hk
    rcases hk with hk | hk
    · exact hold (List.mem_append_left _ (List.mem_append.mpr hk))
    · obtain ⟨c', hc', hslot⟩ := List.mem_filterMap.mp hk
      obtain ⟨j, hj⟩ := List.mem_iff_getElem?.mp hc'
      rw [List.getElem?_modify] at hj
      obtain ⟨c, hgetc, rfl⟩ := Option.map_eq_some_iff.mp hj
      split at hslot
      · cases hslot
        exact .head _
      · exact hold (List.mem_append_right _
          (List.mem_filterMap.mpr ⟨c, List.mem_of_getElem? hgetc, hslot⟩))
  · exact hold hk

private theorem keeps_withRethrow (T : TypeTable) (t : RegionTree) (op : Nat × Op) :
    Yields (fun s => start.Reserves s ∧ s.Keeps t.keptSlots) (withRethrow T t op)
      fun t' s => start.Reserves s ∧ s.Keeps t'.keptSlots := by
  unfold withRethrow
  split
  · split
    · split
      · exact .pure fun _ h => h
      · refine .bind (keeps_throwableSlot T) fun slot => ?_
        refine .pure fun s hs => ⟨hs.1, fun k hk => ?_⟩
        exact hs.2 k (mem_keptSlots_setRethrowSlot hk)
    · exact .throw
  · exact .pure fun _ h => h

private theorem keptSlots_withLeave (t : RegionTree) (op : Nat × Op) :
    (withLeave t op).keptSlots = t.keptSlots := by
  have hadd : ∀ (target : Nat) (t : RegionTree) (i : Nat),
      (addLeaveTarget target t i).keptSlots = t.keptSlots := by
    intro target t i
    unfold keptSlots addLeaveTarget
    rw [List.flatMap_def, List.flatMap_def]
    congr 1
    refine map_modify_of_eq (fun r => ?_) t.regions i
    split <;> rfl
  unfold withLeave
  split
  · exact List.foldlRecOn (motive := fun u : RegionTree => u.keptSlots = t.keptSlots) _ _ rfl
      fun u hu i _ => (hadd _ u i).trans hu
  · rfl

private theorem keeps_build {body : Body} {T : TypeTable} {config : Config} {tree : RegionTree}
    {s s' : Slots} (hfits : s.Fits s.next) (h : build body T config s = .ok tree s') :
    s.Reserves s' ∧ s'.Keeps tree.keptSlots := by
  obtain ⟨regions, s₀, hlift, hrest⟩ := state_bind_ok h
  obtain ⟨hregions, rfl⟩ := state_lift_ok hlift
  obtain ⟨slotted, s₁, hslotted, hrest⟩ := state_bind_ok hrest
  obtain ⟨t, s₂, ht, hrest⟩ := state_bind_ok hrest
  obtain ⟨rfl, rfl⟩ := state_pure_ok hrest
  have hbare := outline_regionsOf hregions
  have hkeeps₀ : s₀.Keeps [] := fun _ hslot => absurd hslot List.not_mem_nil
  obtain ⟨hreserves₁, hkeeps₁⟩ := keeps_mapM_withSlots T regions hbare s₀ slotted s₁
    ⟨hfits.reserves_refl, hkeeps₀⟩ hslotted
  obtain ⟨hreserves₂, hkeeps₂⟩ := Yields.foldlM
    (I := fun (u : RegionTree) s => s₀.Reserves s ∧ s.Keeps u.keptSlots)
    (fun op _ u => keeps_withRethrow T u op) { regions := slotted } s₁ t s₂
    ⟨hreserves₁, by rwa [List.append_nil] at hkeeps₁⟩ ht
  refine ⟨hreserves₂, ?_⟩
  refine List.foldlRecOn (motive := fun u : RegionTree => s₂.Keeps u.keptSlots) _ _ hkeeps₂
    fun u hu op _ => ?_
  rwa [keptSlots_withLeave]

/-- What a build adds to the slots and to the regions. -/
theorem build_adds {body : Body} {T : TypeTable} {config : Config} {tree : RegionTree}
    {s s' : Slots} (hfits : s.Fits s.next) (h : build body T config s = .ok tree s') :
    s.Reserves s' ∧ s'.Keeps tree.keptSlots ∧
      (∀ r ∈ tree.regions, ∀ x ∈ r.leaveTargets, ∃ o, (o, .leave x) ∈ body.code) ∧
      (body.handlers = [] → tree.regions = []) := by
  obtain ⟨hreserves, hkeeps⟩ := keeps_build hfits h
  refine ⟨hreserves, hkeeps, ?_, fun hnone => ?_⟩
  · refine leaveTargets_build (Q := fun l => ∀ x ∈ l, ∃ o, (o, .leave x) ∈ body.code) h
      (fun _ hx => absurd hx List.not_mem_nil) fun o target hleave l _ hl x hx => ?_
    rcases List.mem_append.mp hx with hx | hx
    · exact hl x hx
    · rw [List.mem_singleton.mp hx]
      exact ⟨o, hleave⟩
  · obtain ⟨regions, hregions, houtline⟩ := outline_build h
    rw [regionsOf_nil hnone hregions, List.map_nil] at houtline
    exact List.map_eq_nil_iff.mp houtline

end RegionTree

-- ==== the slot layout

/-- A map made from entries at different slots holds them. -/
theorem SlotMap.get?_ofList {α : Type} {l : List (Nat × α)} (hnodup : (l.map Prod.fst).Nodup)
    {k : Nat} {x : α} : (SlotMap.ofList l).get? k = some x ↔ (k, x) ∈ l := by
  have hfold : ∀ m : SlotMap α, (l.foldl (fun m e => m.insert e.1 e.2) m).get? k = some x ↔
      (k, x) ∈ l ∨ k ∉ l.map Prod.fst ∧ m.get? k = some x := by
    induction l with
    | nil => simp
    | cons e l ih =>
      intro m
      obtain ⟨hnew, hnodup⟩ := List.nodup_cons.mp hnodup
      have hnot : (e.1, x) ∉ l := fun hmem => hnew (List.mem_map.mpr ⟨_, hmem, rfl⟩)
      rw [List.foldl_cons, ih hnodup, get?_insert]
      grind
  simpa [ofList] using hfold .empty

namespace Lowering

/-- The slot of a variable: above the arguments and the variables before it. -/
def variableSlot (body : Body) (index : Nat) : Nat :=
  slotsOf ((arguments body).map (·.2.1)) + slotsOf ((body.locals.take index).map (·.ty))

/-- The slot of an argument: above the arguments before it. -/
def argumentSlot (body : Body) (index : Nat) : Nat :=
  slotsOf (((arguments body).take index).map (·.2.1))

theorem addArgument_ok {ty : Ty} {name : Option String} {slot : Nat} {s s' : Slots}
    (h : Slots.addArgument ty name s = .ok slot s') :
    ∃ t, Slots.declare ⟨.argument, name, ty⟩ s = .ok slot t ∧
      s' = { t with argSlots := t.argSlots.push slot, written := t.written.insert slot } := by
  obtain ⟨_, t, hdeclare, h⟩ := state_bind_ok h
  cases h
  exact ⟨t, hdeclare, rfl⟩

theorem addVariable_ok {ty : Ty} {name : Option String} {slot : Nat} {s s' : Slots}
    (h : Slots.addVariable ty name s = .ok slot s') :
    ∃ t, Slots.declare ⟨.variable, name, ty⟩ s = .ok slot t ∧
      s' = { t with varSlots := t.varSlots.push slot } := by
  obtain ⟨_, t, hdeclare, h⟩ := state_bind_ok h
  cases h
  exact ⟨t, hdeclare, rfl⟩

/-- Arguments lie one above the other. -/
private theorem layoutArguments_ok {args : List (Option String × Ty × Ty)}
    {locals : List (Nat × Ty)} {s s' : Slots} (hfits : s.Fits s.next)
    (h : (args.mapM fun ((name, ty, initial) : Option String × Ty × Ty) =>
      (do return (← Slots.addArgument ty name, initial) : SlotM (Nat × Ty))) s
        = .ok locals s') :
    s.Extends s' ∧ s'.varSlots = s.varSlots ∧ s'.next = s.next + slotsOf (args.map (·.2.1)) ∧
      s'.argSlots = s.argSlots ++ (locals.map Prod.fst).toArray ∧
      (∀ i, locals[i]? = args[i]?.map fun arg =>
        (s.next + slotsOf ((args.take i).map (·.2.1)), arg.2.2)) ∧
      ∀ i arg, args[i]? = some arg →
        s'.declared? (s.next + slotsOf ((args.take i).map (·.2.1)))
            = some ⟨.argument, arg.1, arg.2.1⟩ ∧
          s'.written.contains (s.next + slotsOf ((args.take i).map (·.2.1))) = true := by
  induction args generalizing s locals with
  | nil =>
    rw [List.mapM_nil] at h
    cases h
    exact ⟨hfits.reserves_refl.toExtends, rfl, rfl, by simp, by simp, by simp⟩
  | cons arg args ih =>
    obtain ⟨name, ty, initial⟩ := arg
    rw [List.mapM_cons] at h
    obtain ⟨e, t, he, h⟩ := state_bind_ok h
    obtain ⟨slot, t', hslot, he⟩ := state_bind_ok he
    obtain ⟨rfl, rfl⟩ := state_pure_ok he
    obtain ⟨rest, u, hrest, h⟩ := state_bind_ok h
    obtain ⟨rfl, rfl⟩ := state_pure_ok h
    obtain ⟨v, hdeclare, hadded⟩ := addArgument_ok hslot
    obtain ⟨hfits', hgrows, hdeclared⟩ := hfits.declare hdeclare
    obtain ⟨-, -, rfl, rfl⟩ := Slots.declare_ok hdeclare
    have hextends : s.Extends t' := by
      rw [hadded]
      refine ⟨⟨hfits'.below, hfits'.apart, hfits'.next, hfits'.temps, hfits'.parked⟩, hgrows, rfl,
        fun hk => ?_⟩
      rw [Std.TreeSet.contains_insert, hk, Bool.or_true]
    obtain ⟨hextends', hvars, hnext, hslots, hrow, hplaced⟩ := ih hextends.fits hrest
    subst hadded
    refine ⟨hextends.trans hextends', hvars, ?_, by rw [hslots]; simp, fun i => ?_,
      fun i arg harg => ?_⟩
    · rw [hnext, List.map_cons, slotsOf_cons, ← Nat.add_assoc]
    · cases i with
      | zero => rfl
      | succ i =>
        rw [List.getElem?_cons_succ, List.getElem?_cons_succ, hrow, List.take_succ_cons,
          List.map_cons, slotsOf_cons, ← Nat.add_assoc]
    · cases i with
      | zero =>
        cases harg
        exact ⟨hextends'.grows _ _ hdeclared, hextends'.written Std.TreeSet.contains_insert_self⟩
      | succ i =>
        rw [List.take_succ_cons, List.map_cons, slotsOf_cons, ← Nat.add_assoc]
        exact hplaced i arg harg

/-- Variables lie one above the other, in their order. -/
private theorem layoutVariables_ok {vars : List Variable} {s s' : Slots} {a : Unit}
    (hfits : s.Fits s.next)
    (h : (vars.forM fun v => discard (Slots.addVariable v.ty v.name)) s = .ok a s') :
    s.Extends s' ∧ s'.argSlots = s.argSlots ∧
      s'.varSlots.size = s.varSlots.size + vars.length ∧
      (∀ i, i < s.varSlots.size → s'.varSlots[i]? = s.varSlots[i]?) ∧
      ∀ i v, vars[i]? = some v →
        s'.varSlots[s.varSlots.size + i]? = some (s.next + slotsOf ((vars.take i).map (·.ty))) ∧
        s'.declared? (s.next + slotsOf ((vars.take i).map (·.ty)))
          = some ⟨.variable, v.name, v.ty⟩ := by
  induction vars generalizing s with
  | nil =>
    cases h
    exact ⟨hfits.reserves_refl.toExtends, rfl, rfl, fun _ _ => rfl, by simp⟩
  | cons v vars ih =>
    obtain ⟨_, t, hfirst, h⟩ := state_bind_ok
      (x := discard (Slots.addVariable v.ty v.name))
      (f := fun _ => vars.forM fun v => discard (Slots.addVariable v.ty v.name)) h
    obtain ⟨slot, hadd⟩ := state_discard_ok hfirst
    obtain ⟨u, hdeclare, hadded⟩ := addVariable_ok hadd
    obtain ⟨hfits', hgrows, hdeclared⟩ := hfits.declare hdeclare
    obtain ⟨-, -, rfl, rfl⟩ := Slots.declare_ok hdeclare
    have hextends : s.Extends t := by
      rw [hadded]
      exact ⟨⟨hfits'.below, hfits'.apart, hfits'.next, hfits'.temps, hfits'.parked⟩, hgrows, rfl,
        id⟩
    obtain ⟨hextends', hargs, hsize, hold, hnew⟩ := ih hextends.fits h
    subst hadded
    dsimp only at hsize hold hnew
    rw [Array.size_push] at hsize hold hnew
    refine ⟨hextends.trans hextends', hargs, ?_, ?_, ?_⟩
    · rw [hsize, List.length_cons]
      omega
    · intro i hi
      rw [hold i (by omega), Array.getElem?_push_lt hi, Array.getElem?_eq_getElem hi]
    · intro i w hw
      cases i with
      | zero =>
        cases hw
        refine ⟨?_, hextends'.grows _ _ hdeclared⟩
        rw [Nat.add_zero, hold _ (by omega), Array.getElem?_push_size]
        rfl
      | succ i =>
        rw [List.take_succ_cons, List.map_cons, slotsOf_cons, ← Nat.add_assoc (n := s.next),
          ← Nat.add_assoc, Nat.add_right_comm]
        exact hnew i w hw

/-- What an argument starts with is of its declared type, or under construction. -/
private theorem initial_of_mem_arguments {body : Body} {arg : Option String × Ty × Ty}
    (h : arg ∈ arguments body) : arg.2.2 = arg.2.1 ∨ arg.2.2 = .uninitThis := by
  have hparams : arg ∈ body.params.map (fun p => (p.name, p.ty, p.ty)) → arg.2.2 = arg.2.1 := by
    intro hmem
    obtain ⟨p, -, rfl⟩ := List.mem_map.mp hmem
    rfl
  unfold arguments at h
  split at h
  · exact .inl (hparams h)
  · rcases List.mem_cons.mp h with rfl | h
    · unfold receiverType
      split
      · exact .inr rfl
      · exact .inl rfl
    · exact .inl (hparams h)

/-- The slots of a body, laid out. -/
structure LaidOut (body : Body) (locals : SlotMap Ty) (regions : RegionTree) (s : Slots) :
    Prop where
  fits : s.Fits s.next
  /-- before the first operation no variable has a default value -/
  fresh : ∀ slot, s.isDefaulted slot = false
  /-- at the start the arguments are set and nothing else -/
  set_iff : ∀ {k t}, locals.get? k = some t ↔
    ∃ i arg, (arguments body)[i]? = some arg ∧ k = argumentSlot body i ∧ t = arg.2.2
  args : ∀ {i arg}, (arguments body)[i]? = some arg →
    s.declared? (argumentSlot body i) = some ⟨.argument, arg.1, arg.2.1⟩ ∧
      s.written.contains (argumentSlot body i) = true
  vars : ∀ {i v}, body.locals[i]? = some v →
    s.variableSlot i = .ok (variableSlot body i) ∧
      s.declared? (variableSlot body i) = some ⟨.variable, v.name, v.ty⟩
  /-- there are no other arguments -/
  onlyArgs : ∀ {i slot}, s.argumentSlot i = .ok slot →
    i < (arguments body).length ∧ slot = argumentSlot body i
  /-- there are no other variables -/
  onlyVars : ∀ {i slot}, s.variableSlot i = .ok slot →
    i < body.locals.length ∧ slot = variableSlot body i
  kept : s.Keeps regions.keptSlots

theorem argumentSlot_add_le {body : Body} {j k : Nat} {arg : Option String × Ty × Ty}
    (h : (arguments body)[j]? = some arg) (hlt : j < k) :
    argumentSlot body j + arg.2.1.category ≤ argumentSlot body k := by
  unfold argumentSlot
  rw [List.map_take, List.map_take]
  refine slotsOf_take_add_le ?_ hlt
  rw [List.getElem?_map, h]
  rfl

theorem layoutSlots_ok {config : Config} {T : TypeTable} {body : Body} {locals : SlotMap Ty}
    {regions : RegionTree} {s : Slots}
    (h : layoutSlots config T body {} = .ok (locals, regions) s) :
    LaidOut body locals regions s ∧
      ∃ s₀ : Slots, s₀.Fits s₀.next ∧ build body T config s₀ = .ok regions s := by
  obtain ⟨args, s₁, hargs, h⟩ := state_bind_ok h
  obtain ⟨_, s₂, hvars, h⟩ := state_bind_ok h
  obtain ⟨tree, s₃, hbuild, h⟩ := state_bind_ok h
  obtain ⟨heq, rfl⟩ := state_pure_ok h
  cases heq
  obtain ⟨hargs, hnone, hnext, hargSlots, hrow, hplaced⟩ :=
    layoutArguments_ok (s := {}) Slots.fits_empty hargs
  obtain ⟨hvars, hsame, hsize, -, hnew⟩ := layoutVariables_ok hargs.fits hvars
  obtain ⟨hbuilt, hkeeps, -, -⟩ := build_adds hvars.fits hbuild
  have hextends := hvars.trans hbuilt.toExtends
  have hrow : ∀ i, args[i]? = (arguments body)[i]?.map fun arg => (argumentSlot body i, arg.2.2) :=
    fun i => by rw [hrow]; simp only [Nat.zero_add, argumentSlot]
  rw [hnone] at hsize hnew
  rw [hnext] at hnew
  -- no two arguments share a slot
  have hnodup : (args.map Prod.fst).Nodup := by
    refine List.pairwise_map.mpr (List.pairwise_iff_getElem.mpr fun i j hi hj hlt heq => ?_)
    obtain ⟨arg, harg, hati⟩ := Option.map_eq_some_iff.mp
      ((hrow i).symm.trans (List.getElem?_eq_getElem hi))
    obtain ⟨_, -, hatj⟩ := Option.map_eq_some_iff.mp
      ((hrow j).symm.trans (List.getElem?_eq_getElem hj))
    have hpos := arg.2.1.category_pos
    have hapart := argumentSlot_add_le harg hlt
    rw [← hati, ← hatj] at heq
    omega
  have hvarAt : ∀ {i v}, body.locals[i]? = some v → s₃.variableSlot i = .ok (variableSlot body i) ∧
      s₃.declared? (variableSlot body i) = some ⟨.variable, v.name, v.ty⟩ := by
    intro i v hv
    obtain ⟨hslot, hdeclared⟩ := hnew i v hv
    rw [Slots.next, Nat.zero_add] at hslot hdeclared
    refine ⟨?_, hbuilt.grows _ _ hdeclared⟩
    rw [show (Slots.varSlots {}).size + i = i from Nat.zero_add i, ← hbuilt.varSlots] at hslot
    unfold Slots.variableSlot
    rw [hslot]
    rfl
  refine ⟨⟨hextends.fits, fun slot => ?_, fun {k t} => ?_, fun {i arg} harg => ?_, hvarAt,
    fun {i slot} hslot => ?_, fun {i slot} hslot => ?_, hkeeps⟩, s₂, hvars.fits, hbuild⟩
  · unfold Slots.isDefaulted
    rw [hextends.defaulted, hargs.defaulted]
    exact Std.TreeSet.contains_emptyc
  · simp only [SlotMap.get?_ofList hnodup, List.mem_iff_getElem?, hrow, Option.map_eq_some_iff,
      Prod.mk.injEq]
    grind
  · obtain ⟨hdeclared, hwritten⟩ := hplaced i arg harg
    rw [Slots.next, Nat.zero_add] at hdeclared hwritten
    exact ⟨hextends.grows _ _ hdeclared, hextends.written hwritten⟩
  · unfold Slots.argumentSlot at hslot
    split at hslot
    · next hget =>
      cases hslot
      rw [hbuilt.argSlots, hsame, hargSlots] at hget
      have hget : (args.map Prod.fst)[i]? = some slot := by simpa using hget
      rw [List.getElem?_map, hrow] at hget
      obtain ⟨_, hrowi, rfl⟩ := Option.map_eq_some_iff.mp hget
      obtain ⟨arg, harg, rfl⟩ := Option.map_eq_some_iff.mp hrowi
      exact ⟨(List.getElem?_eq_some_iff.mp harg).1, rfl⟩
    · cases hslot
  · have hlt : i < body.locals.length := by
      unfold Slots.variableSlot at hslot
      rw [hbuilt.varSlots] at hslot
      split at hslot
      · next hget => simpa [hsize] using (Array.getElem?_eq_some_iff.mp hget).1
      · cases hslot
    cases (hvarAt (List.getElem?_eq_getElem hlt)).1.symm.trans hslot
    exact ⟨hlt, rfl⟩

theorem LaidOut.exists_argument {body : Body} {locals : SlotMap Ty} {regions : RegionTree}
    {s : Slots} (h : LaidOut body locals regions s) {k : Nat} {t : Ty}
    (ht : locals.get? k = some t) :
    ∃ d, s.declared? k = some d ∧ d.kind = .argument ∧ (t = d.ty ∨ t = .uninitThis) := by
  obtain ⟨i, arg, harg, rfl, rfl⟩ := h.set_iff.mp ht
  exact ⟨_, (h.args harg).1, rfl, initial_of_mem_arguments (List.mem_of_getElem? harg)⟩

/-- A condition on slots that laying them out keeps. What the lowering keeps for itself
holds what is thrown. -/
structure Laying (T : TypeTable) (J : Slots → Prop) : Prop where
  declare : ∀ d slot s s', (d.kind = .synthetic → d.ty = T.throwable) → J s →
    Slots.declare d s = .ok slot s' → J s'
  pushArg : ∀ s slot, J s →
    J { s with argSlots := s.argSlots.push slot, written := s.written.insert slot }
  pushVar : ∀ s slot, J s → J { s with varSlots := s.varSlots.push slot }

namespace Laying

variable {T : TypeTable} {J : Slots → Prop}

theorem addArgument (hJ : Laying T J) (ty : Ty) (name : Option String) :
    Yields J (Slots.addArgument ty name) fun _ => J := by
  intro s slot s' hs h
  obtain ⟨t, hdeclare, rfl⟩ := addArgument_ok h
  exact hJ.pushArg t _ (hJ.declare _ _ s t (fun h => by cases h) hs hdeclare)

theorem addVariable (hJ : Laying T J) (ty : Ty) (name : Option String) :
    Yields J (Slots.addVariable ty name) fun _ => J := by
  intro s slot s' hs h
  obtain ⟨t, hdeclare, rfl⟩ := addVariable_ok h
  exact hJ.pushVar t _ (hJ.declare _ _ s t (fun h => by cases h) hs hdeclare)

theorem throwableSlot (hJ : Laying T J) : Yields J (throwableSlot T) fun _ => J :=
  fun s slot s' hs h => hJ.declare _ slot s s' (fun _ => rfl) hs h

theorem slotWhen (hJ : Laying T J) (wanted : Bool) :
    Yields J (RegionTree.slotWhen T wanted) fun _ => J := by
  cases wanted with
  | true =>
    exact Yields.bind (x := Region.throwableSlot T) (f := fun a => pure (some a))
      hJ.throwableSlot fun _ => .pure fun _ h => h
  | false => exact .pure fun _ h => h

theorem withSlots (hJ : Laying T J) (all : List Region) (r : Region) :
    Yields J (withSlots T all r) fun _ => J := by
  rw [withSlots_eq]
  exact .bind (hJ.slotWhen _) fun _ => .bind (hJ.slotWhen _) fun _ => .pure fun _ h => h

theorem withRethrow (hJ : Laying T J) (t : RegionTree) (op : Nat × Op) :
    Yields J (withRethrow T t op) fun _ => J := by
  unfold RegionTree.withRethrow
  split
  · split
    · split
      · exact .pure fun _ h => h
      · exact .bind hJ.throwableSlot fun _ => .pure fun _ h => h
    · exact .throw
  · exact .pure fun _ h => h

/-- What handing out slots keeps, laying out all slots of a body keeps. -/
theorem layoutSlots (hJ : Laying T J) (config : Config) (body : Body) :
    Yields J (Lowering.layoutSlots config T body) fun _ => J := by
  refine .bind (.mapM fun arg _ => ?_) fun locals => ?_
  · exact .bind (hJ.addArgument _ _) fun _ => .pure fun _ h => h
  refine .bind (.forM fun v _ => ?_) fun _ => ?_
  · exact Yields.bind (x := Slots.addVariable v.ty v.name) (f := fun _ => pure ())
      (hJ.addVariable _ _) fun _ => .pure fun _ h => h
  refine .bind ?_ fun _ => .pure fun _ h => h
  refine .bind (.lift fun _ _ _ h => h) fun regions => ?_
  refine .bind (.mapM fun r _ => hJ.withSlots regions r) fun slotted => ?_
  exact .bind (.foldlM (I := fun _ => J) (fun op _ t => hJ.withRethrow t op) _)
    fun _ => .pure fun _ h => h

end Laying

variable {body : Body} {cx : Context} {s : LowerState} {config : Config} {T : TypeTable}
  {pool : Pool}

/-- The slots kept for exceptions have the type of what is thrown. -/
def HoldsThrown (T : TypeTable) (s : Slots) : Prop :=
  ∀ slot d, s.declared? slot = some d → d.kind = .synthetic → d.ty = T.throwable

private theorem laying_holdsThrown (T : TypeTable) : Laying T (HoldsThrown T) where
  declare d slot s s' hd hs h k e he hkind := by
    obtain ⟨-, -, -, rfl⟩ := Slots.declare_ok h
    change (s.declared.insert s.next d)[k]? = some e at he
    rw [Std.TreeMap.getElem?_insert] at he
    split at he
    · cases he
      exact hd hkind
    · exact hs k e he hkind
  pushArg _ _ hs := hs
  pushVar _ _ hs := hs

private theorem laying_roomy (T : TypeTable) : Laying T Slots.Roomy where
  declare _ _ _ _ _ _ h := .declare h
  pushArg _ _ hs := ⟨hs.next, hs.temps, hs.parked⟩
  pushVar _ _ hs := ⟨hs.next, hs.temps, hs.parked⟩

-- ==== targets

/-- What an operation transfers to, and what a switch falls through to, are among
its targets. -/
private theorem targetsOf_ok {offset : Nat} {op : Op} {targets : List Nat}
    (h : targetsOf body offset op = .ok targets) :
    (∀ t ∈ op.targets, t ∈ targets) ∧
      ∀ ts next, op = .switch ts → body.following offset = some next → next ∈ targets := by
  unfold targetsOf at h
  dsimp only at h
  split at h
  · obtain ⟨_, hthrow, -⟩ := except_bind_ok h
    cases hthrow
  · split at h
    · next ts =>
      cases h
      refine ⟨fun t ht => List.mem_append_left _ ht, fun _ next _ hnext => ?_⟩
      rw [hnext]
      exact List.mem_append_right _ (by simp)
    · next hne =>
      cases except_pure_ok h
      exact ⟨fun _ ht => ht, fun ts _ hop => absurd hop (hne ts)⟩

/-- The targets collected so far, with those of one more operation. -/
def withTargets (body : Body) (targets : Std.TreeSet Nat) (entry : Nat × Op) :
    Except Cause (Std.TreeSet Nat) := do
  return targets.insertMany (← targetsOf body entry.1 entry.2)

private theorem foldlM_withTargets_ok {code : List (Nat × Op)} {first last : Std.TreeSet Nat}
    (h : code.foldlM (withTargets body) first = .ok last) :
    (∀ t, first.contains t = true → last.contains t = true) ∧
      ∀ o op, (o, op) ∈ code → ∃ ts, targetsOf body o op = .ok ts ∧
        ∀ t ∈ ts, last.contains t = true := by
  induction code generalizing first with
  | nil =>
    cases h
    exact ⟨fun _ h => h, by simp⟩
  | cons entry code ih =>
    rw [List.foldlM_cons] at h
    obtain ⟨targets, htargets, h⟩ := except_bind_ok h
    obtain ⟨ts, hts, htargets⟩ := except_bind_ok htargets
    cases htargets
    obtain ⟨hmono, hall⟩ := ih h
    refine ⟨fun t ht => hmono t ?_, fun o op hmem => ?_⟩
    · rw [Std.TreeSet.contains_insertMany_list, ht, Bool.true_or]
    · rcases List.mem_cons.mp hmem with rfl | hmem
      · refine ⟨ts, hts, fun t ht => hmono t ?_⟩
        rw [Std.TreeSet.contains_insertMany_list, List.contains_iff_mem.mpr ht, Bool.or_true]
      · exact hall o op hmem

-- ==== the preparation

/-- The state right after the preparation. -/
structure Started (cx : Context) (s : LowerState) : Prop where
  prepared : Prepared cx
  laidOut : ∃ locals, s.frames = .start { locals } ∧ LaidOut cx.body locals cx.regions s.slots
  thrown : HoldsThrown cx.types s.slots
  roomy : s.slots.Roomy
  code : s.code = {}
  reachable : s.reachable = true
  noRegions : cx.body.handlers = [] → cx.regions.regions = []

theorem Started.frameOf_eq_none (h : Started cx s) (label : Label) :
    s.frames.frameOf label = none := by
  obtain ⟨_, hframes, -⟩ := h.laidOut
  rw [hframes]
  rfl

theorem Started.get?_variable (h : Started cx s) {i : Nat} {x : Variable}
    (hx : cx.body.locals[i]? = some x) :
    s.frames.live.locals.get? (variableSlot cx.body i) = none := by
  obtain ⟨_, hframes, hlaid⟩ := h.laidOut
  rw [hframes]
  refine Option.eq_none_iff_forall_ne_some.mpr fun t ht => ?_
  obtain ⟨d, hd, hargument, -⟩ := hlaid.exists_argument ht
  cases (hlaid.vars hx).2.symm.trans hd
  cases hargument

/-- The state in which lowering starts is backed. -/
theorem Started.backed (h : Started cx s) :
    Backed cx .all s := by
  obtain ⟨locals, hframes, hlaid⟩ := h.laidOut
  have hnone := h.frameOf_eq_none
  refine ⟨fun r hr slot hslot => ?_, ⟨_, hlaid.fits⟩, fun label hhas => ?_,
    fun hthin slot d hd hkind => ?_, fun _ _ => ⟨⟨fun slot d t hd hkind ht => ?_, fun l f hf => ?_⟩,
      fun l f _ hf => ?_⟩, fun _ _ _ => trivial, fun _ _ _ => trivial⟩
  · exact hlaid.kept slot (List.mem_flatMap.mpr ⟨r, hr, hslot⟩)
  · exact absurd (hnone label) (FrameStore.frameOf_ne_none hhas)
  · rw [h.thrown slot d hd hkind]
    exact hthin.throwable
  · rw [hframes] at ht
    obtain ⟨e, he, hargument, -⟩ := hlaid.exists_argument ht
    cases hd.symm.trans he
    rw [hkind] at hargument
    cases hargument
  · rw [hnone l] at hf
    cases hf
  · rw [hnone l] at hf
    cases hf

/-- The parts of a preparation: the slots are laid out, and the targets collected. -/
theorem prepare_parts (h : prepare config T body (initial pool body) = .ok cx s) :
    ∃ locals regions targets slots,
      layoutSlots config T body (initial pool body).slots = .ok (locals, regions) slots ∧
      allTargets body = .ok targets ∧
      cx = { config, types := T, body, regions, targets } ∧
      s = { initial pool body with
        slots
        frames := .start { locals }
        events := .foundRegions regions.size regions.leaveCount
          :: (initial pool body).events } := by
  obtain ⟨⟨locals, regions⟩, s₁, hslots, h⟩ := state_bind_ok h
  obtain ⟨_, s₂, hmodify, h⟩ := state_bind_ok h
  cases hmodify
  obtain ⟨targets, s₃, hlift, h⟩ := state_bind_ok h
  obtain ⟨htargets, rfl⟩ := state_lift_ok hlift
  cases h
  obtain ⟨slots, hlayout, rfl⟩ := onSlots_eq_ok.mp hslots
  exact ⟨locals, regions, targets, slots, hlayout, htargets, rfl, rfl⟩

theorem build_of_prepare (h : prepare config T body (initial pool body) = .ok cx s) :
    ∃ slots slots', build body T config slots = .ok cx.regions slots' := by
  obtain ⟨locals, regions, targets, slots, hlayout, -, rfl, -⟩ := prepare_parts h
  obtain ⟨-, s₀, -, hbuild⟩ := layoutSlots_ok hlayout
  exact ⟨s₀, slots, hbuild⟩

theorem prepare_ok (h : prepare config T body (initial pool body) = .ok cx s) :
    cx.config = config ∧ cx.types = T ∧ cx.body = body ∧ Started cx s := by
  obtain ⟨locals, regions, targets, slots, hlayout, htargets, rfl, rfl⟩ := prepare_parts h
  obtain ⟨hlaid, s₀, hfits, hbuild⟩ := layoutSlots_ok hlayout
  obtain ⟨-, -, hleaves, hnone⟩ := build_adds hfits hbuild
  have hfold : body.code.foldlM (withTargets body) {} = .ok targets := htargets
  obtain ⟨-, hall⟩ := foldlM_withTargets_ok hfold
  have htarget : ∀ o op, (o, op) ∈ body.code → ∀ t ∈ op.targets, targets.contains t = true := by
    intro o op hmem t ht
    obtain ⟨ts, hts, hin⟩ := hall o op hmem
    exact hin t ((targetsOf_ok hts).1 t ht)
  refine ⟨rfl, rfl, rfl, ⟨⟨(build_ok hbuild).1, htarget, ?_, ?_⟩,
    ⟨locals, rfl, hlaid⟩, ?_, ?_, rfl, rfl, hnone⟩⟩
  · intro o ts next hmem hnext
    obtain ⟨all, hts, hin⟩ := hall o _ hmem
    exact hin next ((targetsOf_ok hts).2 ts next rfl hnext)
  · intro r hr t ht
    obtain ⟨o, ho⟩ := hleaves r hr t ht
    exact htarget o _ ho t (.head _)
  · refine (laying_holdsThrown T).layoutSlots config body _ _ slots ?_ hlayout
    intro slot d hd
    simp [Slots.declared?, initial] at hd
  · exact (laying_roomy T).layoutSlots config body _ _ slots Slots.roomy_empty hlayout

end Lowering

end BytecodeBridge
