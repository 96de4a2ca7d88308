/-
The meaning of straight-line integer code.

While the operations of a method are lowered one after the other, the
source and the code can be run in step. `Now` relates a state of the
lowering to a moment of such a run: which numbers the cells hold and which
are on the stack. The code emitted so far comes to that stack, and leaves
every cell that the live frame has set with its number.

A variable that is read before it was stored to is given its zero in front
of the code, later than the code before it was written. So what the code
comes to is said for every set of cells that start with their zeros, as
long as it has those that were given one so far.
-/
import BytecodeBridge.Proofs.Lowering.Cells
import BytecodeBridge.Proofs.Lowering.Ranges
import BytecodeBridge.Proofs.Machine.Return
import BytecodeBridge.Proofs.TypeTable.Family

namespace BytecodeBridge.Lowering

open LowerM Machine SlotMap
open Source (Number)

-- ==== moments

/-- A moment of a run, as the source and the code have it. -/
structure Moment where
  /-- what the cells hold -/
  cells : List Number
  /-- what the code has on the stack -/
  stack : List Number
  /-- what the live frame has on the stack -/
  live : List Ty

/-- What a method starts with: numbers in the cells of arguments, and zeros in those of
variables. -/
structure Starts (body : Body) (start : List Number) : Prop where
  holds : List.Forall₂ Number.IsOf start (cellTypes body)
  zeros : ∀ {j t}, body.params.length ≤ j → (cellTypes body)[j]? = some t →
    start[j]? = Number.zero? t

/-- A cell whose number the code can rely on: the live frame has set it, or it starts with
its zero. -/
def Reliable (body : Body) (s : LowerState) (zeroed : Nat → Prop) (j : Nat) : Prop :=
  s.frames.live.locals.contains (cellSlot body j) = true ∨ zeroed (cellSlot body j)

/-- What the code so far comes to. -/
def Computes (body : Body) (start : List Number) (q : Moment) (s : LowerState) : Prop :=
  ∀ (zeroed : Nat → Prop) (locals : Nat → Option Value),
    (∀ slot, s.slots.isDefaulted slot = true → zeroed slot) →
    Agree body start (fun j => j < body.params.length ∨ zeroed (cellSlot body j)) locals →
    ∃ locals', Carries s.pool s.code.body.reverse ⟨[], locals⟩ ⟨values q.stack, locals'⟩ ∧
      Agree body q.cells (Reliable body s zeroed) locals'

/-- What the code in front of it comes to. -/
def Zeroes (body : Body) (start : List Number) (s : LowerState) : Prop :=
  ∀ locals : Nat → Option Value, Agree body start (fun j => j < body.params.length) locals →
    ∃ locals', Carries s.pool (s.code.prologue.reverse.map .instr) ⟨[], locals⟩ ⟨[], locals'⟩ ∧
      Agree body start
        (fun j => j < body.params.length ∨ s.slots.isDefaulted (cellSlot body j) = true) locals'

/-- A state of the lowering at a moment of a run. -/
structure Now (body : Body) (start : List Number) (q : Moment) (s : LowerState) : Prop where
  live : s.frames.live.stack = q.live
  reachable : s.reachable = true
  indexed : s.pool.Indexed
  cells : Cells body s.slots
  typed : InCells body s.frames.live.locals
  args : ∀ {j}, j < body.params.length → s.frames.live.locals.contains (cellSlot body j) = true
  unset : ∀ {j t}, (cellTypes body)[j]? = some t →
    s.frames.live.locals.contains (cellSlot body j) = false → q.cells[j]? = start[j]?
  holds : List.Forall₂ Number.IsOf q.cells (cellTypes body)
  labels : ∀ label, s.frames.has label = true → ∃ n, label = .synthetic n ∧ n < s.nextLabel
  deferred : s.frames.deferred = []
  front : Zeroes body start s
  code : Computes body start q s

section Now

variable {body : Body} {start : List Number} {q : Moment} {s : LowerState}

variable {j : Nat} {x : Number} {t : Ty}

/-- More code takes the run on. -/
theorem Computes.carry {q' : Moment} {s' : LowerState} (h : Computes body start q s)
    (block : List Item) (hpool : s.pool.PartOf s'.pool)
    (hcode : s'.code.body = block.reverse ++ s.code.body)
    (hdefaulted : ∀ slot, s.slots.isDefaulted slot = true → s'.slots.isDefaulted slot = true)
    (hblock : ∀ zeroed locals, (∀ slot, s'.slots.isDefaulted slot = true → zeroed slot) →
      Agree body q.cells (Reliable body s zeroed) locals →
      ∃ locals', Carries s'.pool block ⟨values q.stack, locals⟩ ⟨values q'.stack, locals'⟩ ∧
        Agree body q'.cells (Reliable body s' zeroed) locals') :
    Computes body start q' s' := by
  intro zeroed locals hzeroed hstart
  obtain ⟨locals₁, hcarries, hagree⟩ := h zeroed locals
    (fun slot hslot => hzeroed slot (hdefaulted slot hslot)) hstart
  obtain ⟨locals₂, hcarries', hagree'⟩ := hblock zeroed locals₁ hzeroed hagree
  refine ⟨locals₂, ?_, hagree'⟩
  rw [hcode, List.reverse_append, List.reverse_reverse]
  exact (hcarries.grow hpool).trans hcarries'

theorem Now.grow (h : Now body start q s) {pool : Pool} (hgrows : s.pool.Grows pool) :
    Now body start q { s with pool } := by
  obtain ⟨hindexed, hpart⟩ := hgrows.indexed h.indexed
  refine { h with
    indexed := hindexed
    front := fun locals hlocals => ?_
    code := fun zeroed locals hzeroed hlocals => ?_ }
  · obtain ⟨locals', hcarries, hagree⟩ := h.front locals hlocals
    exact ⟨locals', hcarries.grow hpart, hagree⟩
  · obtain ⟨locals', hcarries, hagree⟩ := h.code zeroed locals hzeroed hlocals
    exact ⟨locals', hcarries.grow hpart, hagree⟩

theorem Now.emit {i : Instr} {ys : List Number} (h : Now body start q s)
    (hi : Turns s.pool i q.stack ys) :
    Now body start { q with stack := ys } { s with code := s.code.emit i } := by
  refine { h with code := h.code.carry [.instr i] (.refl _) rfl (fun _ hs => hs) ?_ }
  intro zeroed locals _ hagree
  exact ⟨locals, .instr fun r c hpart => hi r c locals hpart, hagree⟩

/-- A cell that the frame has set is loaded. -/
theorem Now.load (h : Now body start q s) (hx : q.cells[j]? = some x)
    (hset : s.frames.live.locals.contains (cellSlot body j) = true) :
    Now body start { q with stack := x :: q.stack }
      { s with code := s.code.emit (.loadSlot (.num x.kind) (cellSlot body j)) } := by
  refine { h with code := h.code.carry [.instr _] (.refl _) rfl (fun _ hs => hs) ?_ }
  intro zeroed locals _ hagree
  refine ⟨locals, .instr fun r c _ => ?_, hagree⟩
  have hvalue := hagree hx (.inl hset)
  show (do
    let v ← locals (SlotForm.of (cellSlot body j)).slot
    if v.kind = StackKind.num x.kind then some (Outcome.next ⟨v :: values q.stack, locals⟩)
    else none) = _
  rw [SlotForm.slot_of, hvalue]
  show (if x.toValue.kind = StackKind.num x.kind then _ else none) = _
  rw [Number.kind_toValue, if_pos rfl]
  rfl

theorem exec_storeSlot (p : Pool) (c : Chance) (x : Number) (xs : List Number) (slot : Nat)
    (locals : Nat → Option Value) :
    exec p c (.storeSlot (.num x.kind) slot) ⟨values (x :: xs), locals⟩
      = some (.next ⟨values xs, putLocal Value.category locals slot x.toValue⟩) := by
  show (if x.toValue.kind = StackKind.num x.kind then some (Outcome.next
    ⟨values xs, putLocal Value.category locals (SlotForm.of slot).slot x.toValue⟩) else none) = _
  rw [SlotForm.slot_of, Number.kind_toValue, if_pos rfl]

private theorem forall₂_set {α β : Type} {R : α → β → Prop} {l : List α} {r : List β}
    (h : List.Forall₂ R l r) {a : α} {b : β} (hb : r[j]? = some b) (hab : R a b) :
    List.Forall₂ R (l.set j a) r := by
  induction h generalizing j with
  | nil => cases hb
  | cons hfirst hrest ih =>
    cases j with
    | zero =>
      cases hb
      exact .cons hab hrest
    | succ j => exact .cons hfirst (ih hb)

theorem contains_store {locals : SlotMap Ty} {k : Nat} {u : Ty} (ht : (cellTypes body)[j]? = some t)
    (hu : (cellTypes body)[k]? = some u)
    (h : (locals.store (cellSlot body j) t).contains (cellSlot body k) = true) :
    k = j ∨ locals.contains (cellSlot body k) = true := by
  obtain ⟨v, hv⟩ := contains_iff.mp h
  rcases get?_of_store hv with ⟨heq, -⟩ | hv
  · exact .inl (cellSlot_inj hu ht heq)
  · exact .inr (contains_iff.mpr ⟨v, hv⟩)

/-- Setting a cell unsets no other, and an argument stays set. -/
theorem Now.contains_store {k : Nat} {u : Ty} (h : Now body start q s)
    (ht : (cellTypes body)[j]? = some t) (hu : (cellTypes body)[k]? = some u)
    (hk : s.frames.live.locals.contains (cellSlot body k) = true) :
    (s.frames.live.locals.store (cellSlot body j) t).contains (cellSlot body k) = true := by
  by_cases hjk : j = k
  · subst hjk
    exact contains_iff.mpr ⟨t, get?_store_self⟩
  · unfold contains
    rw [h.typed.get?_store ht hu hjk]
    exact hk

theorem exists_cellType (h : j < body.params.length) :
    ∃ t, (cellTypes body)[j]? = some t :=
  ⟨_, getElem?_cellTypes_param (List.getElem?_eq_getElem h)⟩

/-- A number is stored into a cell of its type. -/
theorem Now.store {rest : List Number} (h : Now body start q s) (ht : (cellTypes body)[j]? = some t)
    (hx : x.IsOf t) (hstack : q.stack = x :: rest) :
    Now body start { q with cells := q.cells.set j x, stack := rest }
      { s with
        code := s.code.emit (.storeSlot (.num x.kind) (cellSlot body j))
        frames := s.frames.setLocal (cellSlot body j) t
        slots := s.slots.markWritten (cellSlot body j) } := by
  refine { h with
    cells := { h.cells with }
    typed := h.typed.store ht
    args := fun {k} hk => ?_
    unset := fun {k u} hu hk => ?_
    holds := forall₂_set h.holds ht hx
    code := h.code.carry [.instr _] (.refl _) rfl (fun _ hs => hs) ?_ }
  · obtain ⟨u, hu⟩ := exists_cellType hk
    exact h.contains_store ht hu (h.args hk)
  · have hjk : j ≠ k := by
      rintro rfl
      rw [show (s.frames.setLocal _ t).live.locals.contains _ = true from
        contains_iff.mpr ⟨t, get?_store_self⟩] at hk
      cases hk
    rw [List.getElem?_set_ne hjk]
    refine h.unset hu (Bool.eq_false_iff.mpr fun hset => ?_)
    exact Bool.eq_false_iff.mp hk (h.contains_store ht hu hset)
  · intro zeroed locals _ hagree
    refine ⟨putLocal Value.category locals (cellSlot body j) x.toValue, .instr fun r c _ => ?_, ?_⟩
    · rw [hstack]
      exact exec_storeSlot r c x rest _ locals
    · refine hagree.put h.holds ht hx fun {k u} hu hk => ?_
      rcases hk with hk | hk
      · exact (Lowering.contains_store ht hu hk).imp_right .inl
      · exact .inr (.inr hk)

/-- Giving a cell its zero in front of the code. -/
theorem Zeroes.emit {k : NumKind} (h : Zeroes body start s) (hstart : Starts body start)
    (ht : (cellTypes body)[j]? = some t) (hx : start[j]? = some x)
    (hk : ∀ p xs, Turns p (.const k 0) xs (x :: xs)) {s' : LowerState} (hpool : s'.pool = s.pool)
    (hcode : s'.code.prologue
      = .storeSlot (.num x.kind) (cellSlot body j) :: .const k 0 :: s.code.prologue)
    (hdefaulted : ∀ slot, s'.slots.isDefaulted slot = true →
      slot = cellSlot body j ∨ s.slots.isDefaulted slot = true) : Zeroes body start s' := by
  intro locals hlocals
  obtain ⟨locals', hcarries, hagree⟩ := h locals hlocals
  obtain ⟨u, hu, hisOf⟩ := forall₂_getElem?_left hstart.holds hx
  cases ht.symm.trans hu
  refine ⟨putLocal Value.category locals' (cellSlot body j) x.toValue, ?_, ?_⟩
  · rw [hcode, hpool, List.reverse_cons, List.reverse_cons, List.map_append, List.map_append]
    refine (hcarries.trans (.instr fun r c hpart => hk s.pool [] r c locals' hpart)).trans
      (.instr fun r c _ => ?_)
    exact exec_storeSlot r c x [] _ locals'
  · have hknown : ∀ {k u}, (cellTypes body)[k]? = some u →
        (k < body.params.length ∨ s'.slots.isDefaulted (cellSlot body k) = true) →
        k = j ∨ (k < body.params.length ∨ s.slots.isDefaulted (cellSlot body k) = true) := by
      rintro k u hu (hk | hk)
      · exact .inr (.inl hk)
      · rcases hdefaulted _ hk with heq | hk
        · exact .inl (cellSlot_inj hu ht heq)
        · exact .inr (.inr hk)
    have hagree' := hagree.put hstart.holds ht hisOf hknown
    obtain ⟨hj, rfl⟩ := List.getElem?_eq_some_iff.mp hx
    rwa [List.set_getElem_self hj] at hagree'

/-- A cell that starts with its zero may be taken as set. -/
theorem Now.fill (h : Now body start q s) (ht : (cellTypes body)[j]? = some t)
    (hunset : s.frames.live.locals.contains (cellSlot body j) = false)
    (hzeroed : s.slots.isDefaulted (cellSlot body j) = true) :
    Now body start q { s with frames := s.frames.materialize (cellSlot body j) t } ∧
      (s.frames.materialize (cellSlot body j) t).live.locals.contains (cellSlot body j) = true := by
  have hfill : (s.frames.materialize (cellSlot body j) t).live.locals
      = s.frames.live.locals.store (cellSlot body j) t := h.typed.fill_eq ht hunset
  refine ⟨{ h with
    typed := hfill ▸ h.typed.store ht
    args := fun {k} hk => ?_
    unset := fun {k u} hu hk => ?_
    labels := fun label hlabel => h.labels label ?_
    deferred := ?_
    code := h.code.carry [] (.refl _) rfl (fun _ hs => hs) ?_ }, ?_⟩
  · obtain ⟨u, hu⟩ := exists_cellType hk
    rw [hfill]
    exact h.contains_store ht hu (h.args hk)
  · rw [hfill] at hk
    refine h.unset hu (Bool.eq_false_iff.mpr fun hset => ?_)
    exact Bool.eq_false_iff.mp hk (h.contains_store ht hu hset)
  · rwa [← s.frames.has_materialize (cellSlot body j) t label]
  · show s.frames.deferred.map _ = []
    rw [h.deferred]
    rfl
  · intro zeroed locals hzero hagree
    refine ⟨locals, .refl _ _, fun k x hx hk => hagree hx ?_⟩
    rcases hk with hk | hk
    · rw [hfill] at hk
      obtain ⟨u, hu, -⟩ := forall₂_getElem?_left h.holds hx
      rcases Lowering.contains_store ht hu hk with rfl | hk
      · exact .inr (hzero _ hzeroed)
      · exact .inl hk
    · exact .inr hk
  · rw [hfill]
    exact contains_iff.mpr ⟨t, get?_store_self⟩

/-- A variable is given its zero in front of the code. -/
theorem Now.zero {pool : Pool} {depth : Nat} {events : List Event} (h : Now body start q s)
    (hstart : Starts body start) (hgrows : s.pool.Grows pool) (hvariable : body.params.length ≤ j)
    (ht : (cellTypes body)[j]? = some t) (hx : Number.zero? t = some x)
    (hturns : ∀ p xs, Turns p (.const x.kind 0) xs (x :: xs)) :
    Now body start q { s with
      code := [.const x.kind 0, .storeSlot (.num x.kind) (cellSlot body j)].foldl
        CodeBuffer.emitPrologue s.code
      slots := (s.slots.markDefaulted (cellSlot body j)).markWritten (cellSlot body j)
      prologueStack := depth
      pool
      events } := by
  have hgrown := h.grow hgrows
  have hmarked : ∀ slot, (s.slots.markDefaulted (cellSlot body j)).isDefaulted slot = true ↔
      slot = cellSlot body j ∨ s.slots.isDefaulted slot = true := by
    intro slot
    show (s.slots.defaulted.insert _).contains slot = true ↔ _
    rw [Std.TreeSet.contains_insert, Bool.or_eq_true]
    simp only [Std.LawfulEqCmp.compare_eq_iff_eq, beq_iff_eq]
    exact or_congr_left eq_comm
  refine { hgrown with cells := { h.cells with }, front := ?_, code := ?_ }
  · refine hgrown.front.emit hstart ht ((hstart.zeros hvariable ht).trans hx) hturns rfl rfl ?_
    exact fun slot hslot => (hmarked slot).mp hslot
  · refine hgrown.code.carry [] (.refl _) rfl
      (fun slot hslot => (hmarked slot).mpr (.inr hslot)) fun zeroed locals _ hagree => ?_
    exact ⟨locals, .refl _ _, hagree⟩

end Now

-- ==== rules

/-- `Tracks` for the moments of a run. -/
abbrev Means (cx : Context) (start : List Number) {α : Type} (q : Moment) (m : LowerM α)
    (Q : α → Moment → Prop) : Prop :=
  Tracks cx (Now cx.body start) q m Q

abbrev Brings (cx : Context) (start : List Number) {α : Type} (q : Moment) (m : LowerM α)
    (q' : Moment) : Prop :=
  TracksTo cx (Now cx.body start) q m q'

/-- The live stack of the frame is no concern of the code. -/
instance (body : Body) (start : List Number) : Stacked (Now body start) where
  stack := Moment.live
  restack q live := { q with live }
  same _ := rfl
  live h := h.live
  restacked h _ _ _ := { h with live := rfl }

section Primitives

variable {cx : Context} {start : List Number} {cells stack : List Number} {live : List Ty}

variable {α : Type} {ys : List Number}

theorem means_emit {i : Instr} (h : ∀ p, Turns p i stack ys) :
    Brings cx start ⟨cells, stack, live⟩ (emit i) ⟨cells, ys, live⟩ := by
  intro s a s' hnow hrun
  cases hrun
  exact hnow.emit (h _)

theorem means_emitOf {act : PoolM α} (f : α → Instr) (hgrow : Growing act)
    (h : ∀ p a p', p.Indexed → act p = .ok a p' → Turns p' (f a) stack ys) :
    Brings cx start ⟨cells, stack, live⟩ (onPool act >>= fun a => emit (f a))
      ⟨cells, ys, live⟩ := by
  refine Gives.bind (M := fun a s => Now cx.body start ⟨cells, stack, live⟩ s ∧
    Turns s.pool (f a) stack ys) ?_ fun a => ?_
  · refine Gives.onPool fun s a pool hnow hact => ?_
    exact ⟨hnow.grow (Pool.grows_of_ok hgrow hact), h s.pool a pool hnow.indexed hact⟩
  · rintro s b s' ⟨hnow, hturns⟩ hrun
    cases hrun
    exact hnow.emit hturns

theorem means_emitOf_bind {β : Type} {act : PoolM α} {g : Unit → LowerM β} {Q : β → Moment → Prop}
    (f : α → Instr) (hgrow : Growing act)
    (h : ∀ p a p', p.Indexed → act p = .ok a p' → Turns p' (f a) stack ys)
    (hg : Means cx start ⟨cells, ys, live⟩ (g ()) Q) :
    Means cx start ⟨cells, stack, live⟩ (onPool act >>= fun a => emit (f a) >>= g) Q := by
  rw [← bind_assoc]
  exact (means_emitOf f hgrow h).bind fun _ => hg

end Primitives

-- ==== loads and stores

section Cells

variable {cx : Context} {start cells stack : List Number} {live : List Ty} {q : Moment} {j : Nat}
  {t : Ty}

variable {x : Number} {rest : List Number}

theorem turns_zero (h : Number.zero? t = some x) :
    t.stackKind? = some (.num x.kind) ∧ t.isValue = false ∧
      ∀ p xs, Turns p (.const x.kind 0) xs (x :: xs) := by
  cases t with
  | prim k =>
    cases k <;> cases h
    all_goals exact ⟨rfl, rfl, fun p xs => turns_of_effect (fun _ _ _ => rfl) fun _ _ _ => rfl⟩
  | _ => cases h

/-- A variable that is unset is given its zero, and is set from then on. -/
private theorem materialize_cell_ok (hstart : Starts cx.body start)
    (ht : (cellTypes cx.body)[j]? = some t) (hint : t.isIntegral = true) {s s' : LowerState}
    (hnow : Now cx.body start q s)
    (hunset : s.frames.live.locals.contains (cellSlot cx.body j) = false) {ty : Ty}
    (h : materialize (cellSlot cx.body j) cx s = .ok ty s') :
    ty = t ∧ Now cx.body start q s' ∧
      s'.frames.live.locals.contains (cellSlot cx.body j) = true := by
  have hvariable : ¬ j < cx.body.params.length := fun hlt => by
    rw [hnow.args hlt] at hunset
    cases hunset
  obtain ⟨name, hd⟩ := hnow.cells.declared ht
  rw [if_neg hvariable] at hd
  obtain ⟨x, hzero, hisOf⟩ := Number.exists_zero? hint
  obtain ⟨hkind, hvalue, hturns⟩ := turns_zero hzero
  have h := get_bind_ok h
  rw [hd] at h
  have h := get_bind_ok h
  split at h
  · next hzeroed =>
    cases h
    exact ⟨rfl, hnow.fill ht hunset hzeroed⟩
  · obtain ⟨_, _, hmark, h⟩ := lower_bind_ok h
    cases hmark
    obtain ⟨_, _, hreport, h⟩ := lower_bind_ok h
    cases hreport
    obtain ⟨_, _, hdefault, h⟩ := lower_bind_ok h
    obtain ⟨kind, instrs, depth, pool, hk, hcode, hgrows, rfl⟩ := emitDefault_ok hdefault
    cases hkind.symm.trans hk
    have hinstrs : instrs = [.const x.kind 0] := by
      cases hcode with
      | zero => rfl
      | object hobject => cases hvalue.symm.trans hobject
    subst hinstrs
    cases h
    -- the variable starts with its zero
    exact ⟨rfl, (hnow.zero hstart hgrows (Nat.le_of_not_lt hvariable) ht hzero hturns).fill ht
      hunset Std.TreeSet.contains_insert_self⟩

/-- A cell is loaded, whether or not it was stored to before. -/
theorem means_load (hstart : Starts cx.body start) (ht : (cellTypes cx.body)[j]? = some t)
    (hint : t.isIntegral = true) :
    Means cx start ⟨cells, stack, live⟩ (load (cellSlot cx.body j)) fun _ q =>
      ∃ x, cells[j]? = some x ∧ x.IsOf t ∧ q = ⟨cells, x :: stack, t :: live⟩ := by
  -- the end, once the cell is set
  have hfetch : Gives cx (fun s => Now cx.body start ⟨cells, stack, live⟩ s ∧
      s.frames.live.locals.contains (cellSlot cx.body j) = true)
      (stackKind t >>= fun kind => emit (.loadSlot kind (cellSlot cx.body j)) >>= fun _ => push t)
      fun _ s => ∃ q, (∃ x, cells[j]? = some x ∧ x.IsOf t ∧
        q = ⟨cells, x :: stack, t :: live⟩) ∧ Now cx.body start q s := by
    refine Gives.bind (gives_stackKind _ t) fun kind => ?_
    rintro s a s' ⟨hkind, hnow, hset⟩ hrun
    obtain ⟨x, hx, hisOf⟩ := forall₂_getElem?_left hnow.holds.flip ht
    cases Number.IsOf.kind_eq hisOf hkind
    exact ⟨_, ⟨x, hx, hisOf, rfl⟩, tracks_push t _ a s' (hnow.load hx hset) hrun⟩
  refine Gives.bind Gives.get fun s₀ => ?_
  split
  · next ty hty =>
    rintro s a s' ⟨rfl, hnow⟩ hrun
    obtain ⟨k, hk, hslot⟩ := hnow.typed hty
    cases cellSlot_inj ht hk hslot
    cases ht.symm.trans hk
    exact hfetch s₀ a s' ⟨hnow, contains_iff.mpr ⟨t, hty⟩⟩ hrun
  · next hnone =>
    refine Gives.bind (M := fun ty s => ty = t ∧ Now cx.body start ⟨cells, stack, live⟩ s ∧
      s.frames.live.locals.contains (cellSlot cx.body j) = true) ?_ fun ty =>
      Gives.of_fact fun hty => hty ▸ hfetch
    rintro s a s' ⟨rfl, hnow⟩ hrun
    refine materialize_cell_ok hstart ht hint hnow ?_ hrun
    show (s₀.frames.live.locals.get? _).isSome = false
    rw [show s₀.frames.live.locals.get? _ = none from hnone]
    rfl

theorem means_narrow {k : Prim} (hk : k.isIntegral = true) (hkind : k.numKind = x.kind) :
    Means cx start ⟨cells, x :: rest, live⟩ (narrow k) fun _ q =>
      ∃ y, x.cut? k = some y ∧ q = ⟨cells, y :: rest, live⟩ := by
  cases x with
  | long x =>
    cases k <;> cases hkind
    all_goals exact .pure ⟨_, rfl, rfl⟩
  | int x =>
    cases k <;> cases hkind <;> cases hk
    case int.int8.refl.refl =>
      exact (means_emit fun p => turns_byte x).moves fun _ => ⟨_, rfl, rfl⟩
    case int.int16.refl.refl =>
      exact (means_emit fun p => turns_short x).moves fun _ => ⟨_, rfl, rfl⟩
    case int.char.refl.refl =>
      exact (means_emit fun p => turns_char x).moves fun _ => ⟨_, rfl, rfl⟩
    case int.uint16.refl.refl =>
      exact (means_emit fun p => turns_char x).moves fun _ => ⟨_, rfl, rfl⟩
    case int.uint8.refl.refl =>
      refine (means_emit fun p => turns_sipush 0xff _).bind fun _ => ?_
      refine (means_emit fun p => turns_mask x).bind fun _ => ?_
      exact (tracks_noteDepth 2).moves fun _ => ⟨_, rfl, rfl⟩
    all_goals exact .pure ⟨_, rfl, rfl⟩

/-- A number is made to fit a type. -/
theorem means_coerce {u : Ty} (hx : x.IsOf u) (hint : t.isIntegral = true) :
    Means cx start ⟨cells, x :: rest, live⟩ (coerce u t) fun ty q =>
      ty = t ∧ ∃ y, x.store? t = some y ∧ q = ⟨cells, y :: rest, live⟩ := by
  refine .bind (tracks_stackKind u) ?_
  rintro kind _ ⟨hkind, rfl⟩
  refine .bind (tracks_stackKind t) ?_
  rintro kind' _ ⟨hkind', rfl⟩
  cases hx.kind_eq hkind
  dsimp only
  split
  · next heq =>
    cases t with
    | prim k =>
      dsimp only
      have hnum : k.numKind = x.kind := by
        have := Option.some.inj hkind'
        rw [← heq] at this
        exact StackKind.num.inj this
      split
      · next hu =>
        -- a value known to be of the kind is left as it is
        subst hu
        exact .pure ⟨rfl, x, hx, rfl⟩
      · refine .bind (means_narrow hint hnum) ?_
        rintro _ _ ⟨y, hy, rfl⟩
        exact .pure ⟨rfl, y, hy, rfl⟩
    | _ => cases hint
  · exact .throw_bind

/-- The top of the stack is stored into a cell, as a number of its type. -/
theorem means_storeDeclared (hregions : cx.regions.regions = [])
    (ht : (cellTypes cx.body)[j]? = some t) (hint : t.isIntegral = true) {types : List Ty} {u : Ty}
    (hx : x.IsOf u) :
    Means cx start ⟨cells, x :: rest, u :: types⟩ (storeDeclared (cellSlot cx.body j)) fun _ q =>
      ∃ y, x.store? t = some y ∧ q = ⟨cells.set j y, rest, types⟩ := by
  refine .bind tracks_pop ?_
  rintro _ _ ⟨_, ⟨⟩, rfl⟩
  refine Gives.bind Gives.get fun s₀ => ?_
  rintro s a s' ⟨rfl, hnow⟩ hrun
  obtain ⟨name, hd⟩ := hnow.cells.declared ht
  have hty : s₀.slots.declaredType? (cellSlot cx.body j) = some t := by
    unfold Slots.declaredType?
    rw [hd]
    rfl
  rw [hty] at hrun
  have hrest : Means cx start ⟨cells, x :: rest, types⟩
      (coerce u t >>= fun ty => LowerM.store (cellSlot cx.body j) ty) fun _ q =>
        ∃ y, x.store? t = some y ∧ q = ⟨cells.set j y, rest, types⟩ := by
    refine .bind (means_coerce hx hint) ?_
    rintro _ _ ⟨rfl, y, hy, rfl⟩
    refine .bind (tracks_stackKind _) ?_
    rintro kind _ ⟨hkind, rfl⟩
    have hyOf := Number.isOf_of_store? hy
    cases hyOf.kind_eq hkind
    rintro s b s' hnow hrun
    exact ⟨_, ⟨y, hy, rfl⟩, tracks_noteLocalsChanged hregions _ b s' (hnow.store ht hyOf rfl) hrun⟩
  exact hrest s₀ a s' hnow hrun

end Cells

end BytecodeBridge.Lowering
