/-
The local slots are tiled by what was handed out.

Below the mark `next` every slot belongs to exactly one span: a declared
slot, a temporary in use or one that is parked. A span is never split and
never moved, so a request can do only three things (`Shifts`): it puts a
span to another use, it adds one right at the mark, or it takes the topmost
one away and lowers the mark to where it began. Each of them keeps a tiling
(`Tiles`), whatever the order in which temporaries are given back.

A parked span may come to lie on top without being reclaimed; it is still
part of the tiling, and the mark stays above it. That is why the mark, and
not the number of slots in use, is what `maxLocals` follows.
-/
import Mathlib.Data.List.Induction
import Mathlib.Data.List.Pairwise
import BytecodeBridge.Proofs.Pool
import BytecodeBridge.Proofs.Slots

namespace BytecodeBridge

-- ==== spans

namespace Temp

/-- Neither of two spans reaches into the other. -/
def Apart (t u : Temp) : Prop :=
  t.slot + t.category ≤ u.slot ∨ u.slot + u.category ≤ t.slot

/-- The slot lies in the span. -/
def Holds (t : Temp) (slot : Nat) : Prop :=
  t.slot ≤ slot ∧ slot < t.slot + t.category

theorem Apart.symm {t u : Temp} (h : t.Apart u) : u.Apart t :=
  Or.symm h

instance : Std.Symm Apart :=
  ⟨fun _ _ => Apart.symm⟩

end Temp

/-- Spans that share no slot and make up all slots below the mark. -/
structure Tiles (spans : List Temp) (next : Nat) : Prop where
  pos : ∀ t ∈ spans, 0 < t.category
  apart : spans.Pairwise Temp.Apart
  covers : ∀ slot, slot < next ↔ ∃ t ∈ spans, t.Holds slot

namespace Tiles

variable {spans spans' : List Temp} {next : Nat} {t u : Temp}

theorem nil : Tiles [] 0 :=
  ⟨nofun, .nil, fun _ => ⟨nofun, nofun⟩⟩

theorem perm (h : Tiles spans next) (hperm : spans'.Perm spans) : Tiles spans' next where
  pos t ht := h.pos t (hperm.mem_iff.mp ht)
  apart := (hperm.pairwise_iff .symm).mpr h.apart
  covers slot := by
    rw [h.covers slot]
    simp only [hperm.mem_iff]

theorem le_next (h : Tiles spans next) (ht : t ∈ spans) : t.slot + t.category ≤ next := by
  have hpos := h.pos t ht
  have hlast := (h.covers (t.slot + t.category - 1)).mpr ⟨t, ht, by unfold Temp.Holds; omega⟩
  omega

theorem eq_of_slot (h : Tiles spans next) (ht : t ∈ spans) (hu : u ∈ spans)
    (hslot : t.slot = u.slot) : t = u := by
  by_contra hne
  have hapart := h.apart.forall ht hu hne
  have hposT := h.pos t ht
  have hposU := h.pos u hu
  unfold Temp.Apart at hapart
  omega

/-- A span right at the mark raises it. -/
theorem push (h : Tiles spans next) (hslot : t.slot = next) (hpos : 0 < t.category) :
    Tiles (t :: spans) (next + t.category) where
  pos := List.forall_mem_cons.mpr ⟨hpos, h.pos⟩
  apart := by
    refine List.pairwise_cons.mpr ⟨fun u hu => .inr ?_, h.apart⟩
    rw [hslot]
    exact h.le_next hu
  covers slot := by
    simp only [List.mem_cons, exists_eq_or_imp]
    rw [← h.covers slot]
    unfold Temp.Holds
    omega

/-- Without the topmost span the mark is where it began. -/
theorem pop (h : Tiles (t :: spans) next) (htop : t.slot + t.category = next) :
    Tiles spans t.slot where
  pos := (List.forall_mem_cons.mp h.pos).2
  apart := (List.pairwise_cons.mp h.apart).2
  covers slot := by
    have hcovers := h.covers slot
    simp only [List.mem_cons, exists_eq_or_imp] at hcovers
    constructor
    · intro hlt
      rcases hcovers.mp (by omega) with hself | hrest
      · exact absurd hself.1 (Nat.not_le.mpr hlt)
      · exact hrest
    · rintro ⟨u, hu, hin⟩
      -- below the old mark, and not in the span that is gone
      have hlt := hcovers.mpr (.inr ⟨u, hu, hin⟩)
      have hapart := (List.pairwise_cons.mp h.apart).1 u hu
      unfold Temp.Holds at hin
      unfold Temp.Apart at hapart
      omega

end Tiles

-- ==== requests

/-- A request to the slots of a method. -/
inductive SlotCall where
  | argument (ty : Ty) (name : Option String)
  | variable (ty : Ty) (name : Option String)
  | synthetic (ty : Ty)
  | borrow (ty : Ty)
  | release (slot : Nat)

/-- What a request is answered with: a slot, unless one is given back. -/
def SlotCall.run : SlotCall → SlotM (Option Nat)
  | .argument ty name => do return some (← Slots.addArgument ty name)
  | .variable ty name => do return some (← Slots.addVariable ty name)
  | .synthetic ty => do return some (← Slots.addSynthetic ty)
  | .borrow ty => do return some (← Slots.borrow ty)
  | .release slot => do
    Slots.release slot
    return none

namespace Slots

/-- The slots behind requests, some of which may fail, of a method that has none yet. -/
def after (calls : List SlotCall) : Slots :=
  calls.foldl (fun s call => finalState (call.run s)) {}

theorem after_concat (calls : List SlotCall) (call : SlotCall) :
    after (calls ++ [call]) = finalState (call.run (after calls)) :=
  List.foldl_concat ..

/-- All that was handed out: declared slots, temporaries in use and parked ones. -/
def spans (s : Slots) : List Temp :=
  s.declared.toList.map (fun e => ⟨e.1, e.2.ty.category⟩) ++ (s.temps ++ s.parked)

/-- What a request does to the spans. -/
inductive Shifts (s s' : Slots) : Prop where
  /-- a span is put to another use -/
  | same (hspans : s'.spans.Perm s.spans) (hnext : s'.next = s.next) (hhigh : s'.high = s.high)
  /-- a span is added at the mark -/
  | more (t : Temp) (hspans : s'.spans.Perm (t :: s.spans)) (hslot : t.slot = s.next)
      (hpos : 0 < t.category) (hnext : s'.next = s.next + t.category) (hroom : s'.next ≤ limit)
      (hhigh : s'.high = max s.high s'.next)
  /-- the topmost span is taken away -/
  | less (t : Temp) (hspans : s.spans.Perm (t :: s'.spans)) (htop : t.slot + t.category = s.next)
      (hnext : s'.next = t.slot) (hhigh : s'.high = s.high)

/-- The slots below the mark are tiled, and the mark has stayed within the limit. -/
structure Tiled (s : Slots) : Prop where
  tiles : Tiles s.spans s.next
  next : s.next ≤ s.high
  high : s.high ≤ limit

private theorem tiled_empty : ({} : Slots).Tiled :=
  ⟨.nil, Nat.le_refl 0, Nat.zero_le _⟩

theorem Shifts.tiled {s s' : Slots} (hshifts : s.Shifts s') (h : s.Tiled) : s'.Tiled := by
  cases hshifts with
  | same hspans hnext hhigh =>
    refine ⟨?_, ?_, ?_⟩
    · rw [hnext]
      exact h.tiles.perm hspans
    · rw [hnext, hhigh]
      exact h.next
    · rw [hhigh]
      exact h.high
  | more t hspans hslot hpos hnext hroom hhigh =>
    refine ⟨?_, ?_, ?_⟩
    · rw [hnext]
      exact (h.tiles.push hslot hpos).perm hspans
    · rw [hhigh]
      exact Nat.le_max_right _ _
    · rw [hhigh]
      exact Nat.max_le.mpr ⟨h.high, hroom⟩
  | less t hspans htop hnext hhigh =>
    have htiles := h.tiles.perm hspans.symm
    refine ⟨?_, ?_, ?_⟩
    · rw [hnext]
      exact htiles.pop htop
    · rw [hnext, hhigh]
      exact Nat.le_trans (Nat.le_of_add_right_le (Nat.le_of_eq htop)) h.next
    · rw [hhigh]
      exact h.high

-- ==== what requests do

section Calls

variable {s s' : Slots}

/-- Where the next slot is free, declaring it adds its span. -/
theorem Tiled.spans_insert (h : s.Tiled) (d : Declared) :
    (Slots.spans { s with declared := s.declared.insert s.next d }).Perm
      (⟨s.next, d.ty.category⟩ :: s.spans) := by
  -- what is declared at a slot covers it, and the mark is not covered
  have hfresh : ∀ e ∈ s.declared.toList, (!decide (s.next = e.1)) = true := by
    intro e he
    rw [Bool.not_eq_true', decide_eq_false_iff_not]
    intro heq
    have hmem : (⟨e.1, e.2.ty.category⟩ : Temp) ∈ s.spans :=
      List.mem_append_left _ (List.mem_map.mpr ⟨e, he, rfl⟩)
    have hle := h.tiles.le_next hmem
    have hpos := e.2.ty.category_pos
    dsimp only at hle
    omega
  have hinsert := (Std.TreeMap.toList_insert_perm (t := s.declared) (k := s.next) (v := d)).map
    fun e => (⟨e.1, e.2.ty.category⟩ : Temp)
  rw [List.filter_eq_self.mpr (by simpa using hfresh), List.map_cons] at hinsert
  exact hinsert.append_right _

theorem Tiled.declare (h : s.Tiled) {d : Declared} {slot : Nat}
    (hrun : declare d s = .ok slot s') : s.Shifts s' := by
  have hroom : s.next + d.ty.category ≤ limit := by
    unfold Slots.declare at hrun
    obtain ⟨_, _, hget, hrun⟩ := state_bind_ok hrun
    cases hget
    split at hrun
    · obtain ⟨_, _, hextend, -⟩ := state_bind_ok hrun
      exact (extend_ok hextend).1
    · cases hrun
  obtain ⟨-, -, rfl, rfl⟩ := declare_ok hrun
  exact .more ⟨s.next, d.ty.category⟩ (h.spans_insert d) rfl d.ty.category_pos rfl hroom rfl

theorem Shifts.marks {t : Slots} (h : s.Shifts t) (argSlots varSlots : Array Nat)
    (written : Std.TreeSet Nat) : s.Shifts { t with argSlots, varSlots, written } := by
  cases h with
  | same hspans hnext hhigh => exact .same hspans hnext hhigh
  | more u hspans hslot hpos hnext hroom hhigh =>
    exact .more u hspans hslot hpos hnext hroom hhigh
  | less u hspans htop hnext hhigh => exact .less u hspans htop hnext hhigh

private theorem borrow_shifts {ty : Ty} {slot : Nat} (hrun : borrow ty s = .ok slot s') :
    s.Shifts s' := by
  rcases borrow_cases hrun with ⟨t, ht, -, rfl⟩ | ⟨hroom, -, rfl⟩
  · refine .same (.append_left _ ?_) rfl rfl
    have hperm := List.perm_cons_erase ht
    exact (List.perm_middle.symm.trans (hperm.symm.append_left _) :
      (t :: (s.temps ++ s.parked.erase t)).Perm (s.temps ++ s.parked))
  · exact .more ⟨s.next, ty.category⟩ List.perm_middle rfl ty.category_pos rfl hroom rfl

private theorem park_shifts {t : Temp} (ht : t ∈ s.temps) : s.Shifts (s.park t) := by
  have hperm := (List.perm_cons_erase ht).append_right s.parked
  unfold park
  dsimp only
  split
  · next htop =>
    rw [Bool.and_eq_true, decide_eq_true_eq] at htop
    refine .less t ?_ htop.1 rfl rfl
    exact (hperm.append_left _).trans List.perm_middle
  · exact .same (.append_left _ (List.perm_middle.trans hperm.symm)) rfl rfl

private theorem release_shifts {slot : Nat} (hrun : release slot s = .ok () s') : s.Shifts s' := by
  obtain ⟨t, hmem, -, rfl⟩ := exists_of_release hrun
  exact park_shifts hmem

theorem Tiled.run (h : s.Tiled) {call : SlotCall} {answer : Option Nat}
    (hrun : call.run s = .ok answer s') : s.Shifts s' := by
  cases call with
  | argument ty name | «variable» ty name =>
    obtain ⟨_, _, hadd, hrun⟩ := state_bind_ok hrun
    obtain ⟨_, _, hdeclare, hadd⟩ := state_bind_ok hadd
    cases hrun
    cases hadd
    exact (h.declare hdeclare).marks _ _ _
  | synthetic ty =>
    obtain ⟨_, _, hdeclare, hrun⟩ := state_bind_ok hrun
    cases hrun
    exact h.declare hdeclare
  | borrow ty =>
    obtain ⟨_, _, hborrow, hrun⟩ := state_bind_ok hrun
    cases hrun
    exact borrow_shifts hborrow
  | release slot =>
    obtain ⟨_, _, hrelease, hrun⟩ := state_bind_ok hrun
    cases hrun
    exact release_shifts hrelease

/-- A request that fails changes nothing. -/
theorem eq_of_run_error {call : SlotCall} {cause : Cause}
    (hrun : call.run s = .error cause s') : s' = s := by
  have hextend : ∀ {category cause s'}, extend category s = .error cause s' → s' = s := by
    intro category cause s' h
    unfold extend at h
    dsimp only at h
    split at h
    · cases h
      rfl
    · cases h
  have hdeclare : ∀ {d cause s'}, declare d s = .error cause s' → s' = s := by
    intro d cause s' h
    unfold declare at h
    rcases state_bind_error h with h | ⟨_, _, hget, h⟩
    · cases h
    cases hget
    split at h
    · rcases state_bind_error h with h | ⟨_, _, -, h⟩
      · exact hextend h
      · cases h
    · cases h
      rfl
  -- what follows a request in a call cannot fail
  cases call with
  | argument ty name | «variable» ty name =>
    rcases state_bind_error hrun with h | ⟨_, _, -, h⟩
    · rcases state_bind_error h with h | ⟨_, _, -, h⟩
      · exact hdeclare h
      · cases h
    · cases h
  | synthetic ty =>
    rcases state_bind_error hrun with h | ⟨_, _, -, h⟩
    · exact hdeclare h
    · cases h
  | borrow ty =>
    rcases state_bind_error hrun with h | ⟨_, _, -, h⟩
    · unfold borrow at h
      rcases state_bind_error h with h | ⟨_, _, hget, h⟩
      · cases h
      cases hget
      cases hfind : s.parked.find? fun t => t.category == ty.category with
      | some t =>
        rw [hfind] at h
        cases h
      | none =>
        rw [hfind] at h
        rcases state_bind_error h with h | ⟨_, _, -, h⟩
        · exact hextend h
        · cases h
    · cases h
  | release slot =>
    rcases state_bind_error hrun with h | ⟨_, _, -, h⟩
    · unfold release at h
      rcases state_bind_error h with h | ⟨_, _, hget, h⟩
      · cases h
      cases hget
      cases hfind : s.temps.find? fun t => t.slot == slot with
      | none =>
        rw [hfind] at h
        cases h
        rfl
      | some t =>
        rw [hfind] at h
        cases h
    · cases h

/-- A temporary that is given back is the next one of its width. -/
theorem Tiled.borrow_released (h : s.Tiled) {t : Temp} (ht : t ∈ s.temps) {ty : Ty}
    (hty : ty.category = t.category) :
    ∃ s', (release t.slot >>= fun _ => borrow ty) s = .ok t.slot s' := by
  have hspan : ∀ {u}, u ∈ s.temps → u ∈ s.spans := fun hu =>
    List.mem_append_right _ (List.mem_append_left _ hu)
  have hfind : s.temps.find? (fun u => u.slot == t.slot) = some t := by
    cases hfind : s.temps.find? (fun u => u.slot == t.slot) with
    | none => exact absurd (beq_self_eq_true t.slot) (List.find?_eq_none.mp hfind t ht)
    | some u =>
      have hslot := List.find?_some hfind
      rw [h.tiles.eq_of_slot (hspan (List.mem_of_find?_eq_some hfind)) (hspan ht)
        (beq_iff_eq.mp hslot)]
  have hrelease : release t.slot s = .ok () (s.park t) := by
    unfold release
    rw [state_ok_bind (show (get : SlotM Slots) s = .ok s s from rfl), hfind]
    rfl
  rw [state_ok_bind hrelease]
  unfold borrow
  rw [state_ok_bind (show (get : SlotM Slots) (s.park t) = .ok _ (s.park t) from rfl)]
  unfold park
  dsimp only
  split
  · -- the mark went back to the slot, and nothing of the width is parked
    next htop =>
    rw [Bool.and_eq_true, decide_eq_true_eq, Bool.not_eq_true', ← hty] at htop
    obtain ⟨htop, hnone⟩ := htop
    have hroom : ¬ limit < t.slot + ty.category := by
      have hle := Nat.le_trans h.next h.high
      omega
    have hparked : s.parked.find? (fun u => u.category == ty.category) = none := by
      rw [List.find?_eq_none]
      simpa using hnone
    rw [hparked]
    have hextend : extend ty.category { s with temps := s.temps.erase t, next := t.slot }
        = .ok t.slot _ := if_neg hroom
    exact ⟨_, state_ok_bind hextend⟩
  · have hparked : (t :: s.parked).find? (fun u => u.category == ty.category) = some t :=
      List.find?_cons_of_pos (beq_iff_eq.mpr hty.symm)
    rw [hparked]
    exact ⟨_, rfl⟩

end Calls

-- ==== any requests

theorem Tiled.step {s : Slots} (h : s.Tiled) (call : SlotCall) :
    finalState (call.run s) = s ∨ s.Shifts (finalState (call.run s)) := by
  cases hrun : call.run s with
  | ok answer s' => exact .inr (h.run hrun)
  | error cause s' => exact .inl (eq_of_run_error hrun)

theorem tiled_after (calls : List SlotCall) : (after calls).Tiled := by
  induction calls using List.reverseRecOn with
  | nil => exact tiled_empty
  | append_singleton calls call ih =>
    rw [after_concat]
    rcases ih.step call with heq | hshifts
    · rw [heq]
      exact ih
    · exact hshifts.tiled ih

theorem Shifts.high_eq {s s' : Slots} (h : s.Shifts s') (hs : s.Tiled) :
    s'.high = max s.high s'.next := by
  have hle := (h.tiled hs).next
  cases h with
  | same _ _ hhigh => omega
  | more _ _ _ _ _ _ hhigh => exact hhigh
  | less _ _ _ _ hhigh => omega

/-- The high mark is the largest mark there has been. -/
private theorem high_after (calls : List SlotCall) :
    (∃ before, before <+: calls ∧ (after before).next = (after calls).high) ∧
      ∀ before, before <+: calls → (after before).next ≤ (after calls).high := by
  induction calls using List.reverseRecOn with
  | nil =>
    refine ⟨⟨[], List.prefix_rfl, rfl⟩, fun before hbefore => ?_⟩
    rw [List.prefix_nil.mp hbefore]
    exact Nat.le_refl _
  | append_singleton calls call ih =>
    obtain ⟨⟨largest, hlargest, heq⟩, hall⟩ := ih
    have hhigh : (after (calls ++ [call])).high
        = max (after calls).high (after (calls ++ [call])).next := by
      rw [after_concat]
      rcases (tiled_after calls).step call with hsame | hshifts
      · rw [hsame]
        exact (Nat.max_eq_left (tiled_after calls).next).symm
      · exact hshifts.high_eq (tiled_after calls)
    rw [hhigh]
    constructor
    · rcases Nat.le_total (after (calls ++ [call])).next (after calls).high with hle | hle
      · exact ⟨largest, hlargest.trans (List.prefix_append ..),
          heq.trans (Nat.max_eq_left hle).symm⟩
      · exact ⟨_, List.prefix_rfl, (Nat.max_eq_right hle).symm⟩
    · intro before hbefore
      rcases List.prefix_concat_iff.mp hbefore with rfl | hbefore
      · exact Nat.le_max_right _ _
      · exact Nat.le_trans (hall before hbefore) (Nat.le_max_left _ _)

/-- Behind any requests, failed ones among them, what was handed out shares no slot and
makes up all slots below the mark. The largest mark there has been is `maxLocals`, which
is within the limit. A request that fails changes nothing, and a temporary that is given
back is the next one of its width. -/
theorem tiles_after (calls : List SlotCall) :
    let s := after calls
    (s.spans.Pairwise Temp.Apart ∧ ∀ slot, slot < s.next ↔ ∃ t ∈ s.spans, t.Holds slot) ∧
      (s.next ≤ s.maxLocals ∧ s.maxLocals ≤ 65535) ∧
      ((∃ before, before <+: calls ∧ (after before).next = s.maxLocals) ∧
        ∀ before, before <+: calls → (after before).next ≤ s.maxLocals) ∧
      (∀ call cause s', SlotCall.run call s = .error cause s' → s' = s) ∧
      ∀ t ∈ s.temps, ∀ ty : Ty, ty.category = t.category →
        ∃ s', (release t.slot >>= fun _ => borrow ty) s = .ok t.slot s' := by
  intro s
  have h := tiled_after calls
  refine ⟨⟨h.tiles.apart, h.tiles.covers⟩, ⟨h.next, h.high⟩, high_after calls, ?_, ?_⟩
  · exact fun call cause s' hrun => eq_of_run_error hrun
  · exact fun t ht ty hty => h.borrow_released ht hty

/-- A wide argument and three temporaries, the lowest of which is given back first. A
temporary that is not there is given back, and a variable is asked for too late. -/
def parksBelow : List SlotCall :=
  [.argument (.prim .int64) (some "a"), .borrow (.prim .int32), .borrow (.prim .float64),
    .borrow (.prim .int32), .release 2, .release 2, .variable (.prim .int32) none]

/-- The wide temporary lies between others. It is parked, and borrowed again. -/
theorem tiles_after_parksBelow :
    (⟨3, 2⟩ : Temp) ∈ (after parksBelow).temps ∧ (after parksBelow).parked = [⟨2, 1⟩] ∧
      ∃ s', (release 3 >>= fun _ => borrow (.prim .int64)) (after parksBelow) = .ok 3 s' := by
  have htemps : (after parksBelow).temps = [⟨5, 1⟩, ⟨3, 2⟩] := by rfl
  have hmem : (⟨3, 2⟩ : Temp) ∈ (after parksBelow).temps := by
    rw [htemps]
    decide
  exact ⟨hmem, rfl, (tiles_after parksBelow).2.2.2.2 _ hmem _ rfl⟩

end Slots

end BytecodeBridge
