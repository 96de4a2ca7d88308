/-
The cells of a static method: its arguments and its variables.

Arguments and variables lie in one row of slots, so they are cells with
one numbering, and a cell lies behind all cells before it (`cellSlot`).
Cells do not overlap, which is why a store into one leaves what the others
hold (`Agree.put`), although a value may take two slots. Arguments
and variables are laid out in the slots of the cells (`Cells`).
-/
import BytecodeBridge.Proofs.Lowering.Preparation
import BytecodeBridge.Proofs.Machine.Number

namespace BytecodeBridge

open SlotMap

open Source (Number)
open Machine (Value)

namespace Lowering

variable {body : Body}

-- ==== cells

/-- The types of the arguments and the variables. -/
def cellTypes (body : Body) : List Ty :=
  (body.params ++ body.locals).map (·.ty)

/-- The slot of a cell: above the cells before it. -/
def cellSlot (body : Body) (j : Nat) : Nat :=
  slotsOf ((cellTypes body).take j)

private theorem cellSlot_add_le {j k : Nat} {t : Ty} (ht : (cellTypes body)[j]? = some t)
    (hlt : j < k) : cellSlot body j + t.category ≤ cellSlot body k :=
  slotsOf_take_add_le ht hlt

theorem cellSlot_apart {j k : Nat} {t u : Ty} (ht : (cellTypes body)[j]? = some t)
    (hu : (cellTypes body)[k]? = some u) (hjk : j ≠ k) :
    cellSlot body j + t.category ≤ cellSlot body k ∨
      cellSlot body k + u.category ≤ cellSlot body j := by
  rcases Nat.lt_or_gt_of_ne hjk with hlt | hlt
  · exact .inl (cellSlot_add_le ht hlt)
  · exact .inr (cellSlot_add_le hu hlt)

theorem cellSlot_inj {j k : Nat} {t u : Ty} (ht : (cellTypes body)[j]? = some t)
    (hu : (cellTypes body)[k]? = some u) (h : cellSlot body j = cellSlot body k) : j = k := by
  by_contra hjk
  have hpos := t.category_pos
  have hpos' := u.category_pos
  have hapart := cellSlot_apart ht hu hjk
  omega

theorem getElem?_cellTypes_param {i : Nat} {v : Variable} (h : body.params[i]? = some v) :
    (cellTypes body)[i]? = some v.ty := by
  obtain ⟨hi, -⟩ := List.getElem?_eq_some_iff.mp h
  unfold cellTypes
  rw [List.getElem?_map, List.getElem?_append_left hi, h]
  rfl

theorem getElem?_cellTypes_local {i : Nat} {v : Variable} (h : body.locals[i]? = some v) :
    (cellTypes body)[body.params.length + i]? = some v.ty := by
  unfold cellTypes
  rw [List.getElem?_map, List.getElem?_append_right (Nat.le_add_right _ _), Nat.add_sub_cancel_left,
    h]
  rfl

theorem argumentSlot_eq (hstatic : body.kind = .static) {i : Nat} (hi : i ≤ body.params.length) :
    argumentSlot body i = cellSlot body i := by
  unfold argumentSlot cellSlot cellTypes arguments
  rw [if_pos hstatic, List.map_append, List.take_append_of_le_length (by simpa using hi),
    ← List.map_take, ← List.map_take, List.map_map]
  rfl

private theorem variableSlot_eq (hstatic : body.kind = .static) (i : Nat) :
    variableSlot body i = cellSlot body (body.params.length + i) := by
  have hparams : (body.params.map (·.ty)).take (body.params.length + i) = body.params.map (·.ty) :=
    List.take_of_length_le (by rw [List.length_map]; exact Nat.le_add_right _ _)
  unfold variableSlot cellSlot cellTypes arguments
  rw [if_pos hstatic, List.map_append, List.map_map, List.take_append, slotsOf_append, hparams,
    List.length_map, Nat.add_sub_cancel_left, List.map_take]
  rfl

-- ==== agreement

/-- The local slots hold the numbers of those cells that are known. -/
def Agree (body : Body) (cells : List Number) (known : Nat → Prop)
    (locals : Nat → Option Value) : Prop :=
  ∀ ⦃j x⦄, cells[j]? = some x → known j → locals (cellSlot body j) = some x.toValue

variable {cells : List Number} {known known' : Nat → Prop} {locals : Nat → Option Value}

theorem Agree.mono (h : Agree body cells known locals) (hknown : ∀ j, known' j → known j) :
    Agree body cells known' locals :=
  fun _ _ hx hj => h hx (hknown _ hj)

theorem category_toValue {x : Number} {t : Ty} (h : x.IsOf t) :
    x.toValue.category = t.category := by
  cases t with
  | prim k => cases x <;> cases k <;> first | rfl | cases h
  | _ => cases h

/-- A store into one cell leaves the others as they are. -/
theorem Agree.put {j : Nat} {x : Number} {t : Ty} (h : Agree body cells known locals)
    (hcells : List.Forall₂ Number.IsOf cells (cellTypes body))
    (ht : (cellTypes body)[j]? = some t) (hx : x.IsOf t)
    (hknown : ∀ {k u}, (cellTypes body)[k]? = some u → known' k → k = j ∨ known k) :
    Agree body (cells.set j x) known'
      (putLocal Machine.Value.category locals (cellSlot body j) x.toValue) := by
  intro k y hy hk
  unfold putLocal
  by_cases hjk : j = k
  · subst hjk
    rw [List.getElem?_set_self'] at hy
    obtain ⟨_, _, rfl⟩ := Option.map_eq_some_iff.mp hy
    rw [if_pos rfl]
    rfl
  · rw [List.getElem?_set_ne hjk] at hy
    obtain ⟨u, hu, hyu⟩ := forall₂_getElem?_left hcells hy
    have hold := h hy ((hknown hu hk).resolve_left (Ne.symm hjk))
    have hxwide := category_toValue hx
    have hywide := category_toValue hyu
    have hpos := t.category_pos
    have hpos' := u.category_pos
    have hapart := cellSlot_apart ht hu hjk
    rw [if_neg (by omega), if_neg, if_neg, hold]
    · rw [hold]
      simp only [Option.any_some, Bool.and_eq_true, decide_eq_true_eq, beq_iff_eq]
      omega
    · simp only [Bool.and_eq_true, decide_eq_true_eq, beq_iff_eq]
      omega

-- ==== the frame

/-- Locals that have cells only, with their types. -/
def InCells (body : Body) (locals : SlotMap Ty) : Prop :=
  ∀ ⦃slot t⦄, locals.get? slot = some t →
    ∃ j, (cellTypes body)[j]? = some t ∧ slot = cellSlot body j

section Frame

variable {locals : SlotMap Ty} {j : Nat} {t : Ty}

/-- No cell is the upper half of another. -/
theorem InCells.not_shadowed (h : InCells body locals) (ht : (cellTypes body)[j]? = some t) :
    locals.shadowed (cellSlot body j) = false := by
  unfold shadowed
  rw [Bool.and_eq_false_iff, or_iff_not_imp_left]
  intro hpos
  split
  · next u hu =>
    obtain ⟨k, hk, hslot⟩ := h hu
    rw [Bool.not_eq_false, decide_eq_true_eq] at hpos
    have hjk : j ≠ k := by
      rintro rfl
      omega
    have hpos' := t.category_pos
    have hapart := cellSlot_apart ht hk hjk
    rw [beq_eq_false_iff_ne]
    omega
  · rfl

/-- A store sets its cell, and leaves the others as they are. -/
theorem InCells.get?_store (h : InCells body locals) (ht : (cellTypes body)[j]? = some t)
    {k : Nat} {u : Ty} (hu : (cellTypes body)[k]? = some u) (hjk : j ≠ k) :
    (locals.store (cellSlot body j) t).get? (cellSlot body k) = locals.get? (cellSlot body k) := by
  have hpos := t.category_pos
  have hpos' := u.category_pos
  have hapart := cellSlot_apart ht hu hjk
  unfold store
  rw [h.not_shadowed ht, get?_insert, if_neg (by omega)]
  simp only [Bool.false_eq_true, if_false]
  split
  · rw [get?_erase, if_neg (by omega)]
  · rfl

theorem InCells.store (h : InCells body locals) (ht : (cellTypes body)[j]? = some t) :
    InCells body (locals.store (cellSlot body j) t) := by
  intro slot u hu
  rcases get?_of_store hu with ⟨rfl, rfl⟩ | hu
  · exact ⟨j, ht, rfl⟩
  · exact h hu

theorem InCells.fill_eq (h : InCells body locals) (ht : (cellTypes body)[j]? = some t)
    (hunset : locals.contains (cellSlot body j) = false) :
    locals.fill (cellSlot body j) t = locals.store (cellSlot body j) t := by
  unfold fill
  rw [h.not_shadowed ht, hunset]
  rfl

end Frame

-- ==== layout

/-- The slots of a body are its cells. -/
structure Cells (body : Body) (s : Slots) : Prop where
  arg : ∀ {i slot}, s.argumentSlot i = .ok slot →
    i < body.params.length ∧ slot = cellSlot body i
  var : ∀ {i slot}, s.variableSlot i = .ok slot →
    i < body.locals.length ∧ slot = cellSlot body (body.params.length + i)
  declared : ∀ {j t}, (cellTypes body)[j]? = some t → ∃ name, s.declared? (cellSlot body j)
    = some ⟨if j < body.params.length then .argument else .variable, name, t⟩

private theorem arguments_of_static (hstatic : body.kind = .static) :
    arguments body = body.params.map fun p => (p.name, p.ty, p.ty) := by
  unfold arguments
  rw [if_pos hstatic]

/-- The cells of a static method are laid out, and the arguments are set and nothing else. -/
theorem cells_of_laidOut {locals : SlotMap Ty} {regions : RegionTree} {s : Slots}
    (h : LaidOut body locals regions s) (hstatic : body.kind = .static) :
    Cells body s ∧ ∀ {slot t}, locals.get? slot = some t ↔
      ∃ i v, body.params[i]? = some v ∧ slot = cellSlot body i ∧ t = v.ty := by
  have harg : ∀ {i v}, body.params[i]? = some v →
      (arguments body)[i]? = some (v.name, v.ty, v.ty) ∧ argumentSlot body i = cellSlot body i := by
    intro i v hv
    rw [arguments_of_static hstatic, List.getElem?_map, hv]
    exact ⟨rfl, argumentSlot_eq hstatic (Nat.le_of_lt (List.getElem?_eq_some_iff.mp hv).1)⟩
  refine ⟨⟨fun {i slot} hi => ?_, fun {i slot} hi => ?_, fun {j t} ht => ?_⟩,
    fun {slot t} => h.set_iff.trans ⟨?_, ?_⟩⟩
  · obtain ⟨hlt, rfl⟩ := h.onlyArgs hi
    rw [arguments_of_static hstatic, List.length_map] at hlt
    exact ⟨hlt, argumentSlot_eq hstatic (Nat.le_of_lt hlt)⟩
  · obtain ⟨hlt, rfl⟩ := h.onlyVars hi
    exact ⟨hlt, variableSlot_eq hstatic i⟩
  · unfold cellTypes at ht
    rw [List.getElem?_map] at ht
    obtain ⟨v, hv, rfl⟩ := Option.map_eq_some_iff.mp ht
    by_cases hlt : j < body.params.length
    · rw [List.getElem?_append_left hlt] at hv
      rw [if_pos hlt, ← (harg hv).2]
      exact ⟨v.name, (h.args (harg hv).1).1⟩
    · obtain ⟨i, rfl⟩ := Nat.exists_eq_add_of_le (Nat.le_of_not_lt hlt)
      rw [List.getElem?_append_right (Nat.le_add_right _ _), Nat.add_sub_cancel_left] at hv
      rw [if_neg hlt, ← variableSlot_eq hstatic]
      exact ⟨v.name, (h.vars hv).2⟩
  · rintro ⟨i, arg, hi, rfl, rfl⟩
    rw [arguments_of_static hstatic, List.getElem?_map] at hi
    obtain ⟨v, hv, rfl⟩ := Option.map_eq_some_iff.mp hi
    exact ⟨i, v, hv, (harg hv).2, rfl⟩
  · rintro ⟨i, v, hv, rfl, rfl⟩
    exact ⟨i, _, (harg hv).1, (harg hv).2.symm, rfl⟩

end Lowering

end BytecodeBridge
