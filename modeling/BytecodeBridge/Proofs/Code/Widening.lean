/-
The loop that settles a layout.

A round lays the items out and makes every `goto` wide that does not reach
its label. That moves the addresses behind it and may bring other labels
into reach or out of it, so the next round lays out again. `Widening`
spells the rounds out. A round that changes something leaves fewer narrow
branches, so there are no more rounds than there were of them at first
(`exists_widening`); and in the last layout, which the addresses are taken
from, every `goto` that is still narrow reaches its label
(`Layout.fits16_of_widened`).

The loop fails only if a label is bound twice, and then in its first
round.
-/
import BytecodeBridge.Proofs.Code.Path

namespace BytecodeBridge

open Layout

-- ==== rounds

/-- Rounds of widening, counted: up to a layout in which every `goto` reaches its label,
or up to one that fails. -/
inductive Widening : List Item → Nat → Except Cause Layout → Prop where
  | failed {items : List Item} {cause : Cause} (h : ofItems items = .error cause) :
      Widening items 0 (.error cause)
  | settled {items : List Item} {l : Layout} (h : ofItems items = .ok l)
      (hreach : l.widened = items) : Widening items 0 (.ok l)
  | round {items : List Item} {l : Layout} {n : Nat} {r : Except Cause Layout}
      (h : ofItems items = .ok l) (hgrew : l.widened ≠ items)
      (hrest : Widening l.widened n r) : Widening items (n + 1) r

/-- Widening changes nothing, or it leaves fewer narrow branches. -/
private theorem eq_or_countP_lt_of_widens {items wide : List Item}
    (h : List.Forall₂ Item.Widens items wide) :
    wide = items ∨ wide.countP Item.isGoto < items.countP Item.isGoto := by
  induction h with
  | nil => exact .inl rfl
  | @cons item wideItem items wide hone _ ih =>
    have hle : wide.countP Item.isGoto ≤ items.countP Item.isGoto := by
      rcases ih with rfl | hlt
      · exact Nat.le_refl _
      · exact Nat.le_of_lt hlt
    cases hone with
    | same =>
      rcases ih with rfl | hlt
      · exact .inl rfl
      · refine .inr ?_
        rw [List.countP_cons, List.countP_cons]
        omega
    | wide offset target =>
      refine .inr ?_
      rw [List.countP_cons_of_neg (by simp [Item.isGoto]),
        List.countP_cons_of_pos (by simp [Item.isGoto])]
      omega

/-- The loop comes to an end, after no more rounds than there are narrow branches. -/
theorem exists_widening (items : List Item) :
    ∃ n ≤ items.countP Item.isGoto, Widening items n (settle items) := by
  induction items using settle.induct with
  | case1 items cause hlayout =>
    rw [settle, hlayout]
    exact ⟨0, Nat.zero_le _, .failed hlayout⟩
  | case2 items l hlayout hlt ih =>
    obtain ⟨n, hn, hrest⟩ := ih
    rw [settle, hlayout]
    dsimp only
    rw [if_pos hlt]
    refine ⟨n + 1, by omega, .round hlayout (fun heq => ?_) hrest⟩
    rw [heq] at hlt
    exact Nat.lt_irrefl _ hlt
  | case3 items l hlayout hge =>
    rw [settle, hlayout]
    dsimp only
    rw [if_neg hge]
    have hwidens := widens_widened (ofItems_ok hlayout).1
    exact ⟨0, Nat.zero_le _, .settled hlayout
      ((eq_or_countP_lt_of_widens hwidens).resolve_right hge)⟩

/-- The loop has one outcome. -/
theorem Widening.unique {items : List Item} {n n' : Nat} {r r' : Except Cause Layout}
    (h : Widening items n r) (h' : Widening items n' r') : n = n' ∧ r = r' := by
  induction h generalizing n' r' with
  | failed hlayout =>
    cases h' with
    | failed hlayout' =>
      cases hlayout.symm.trans hlayout'
      exact ⟨rfl, rfl⟩
    | settled hlayout' | round hlayout' => cases hlayout.symm.trans hlayout'
  | settled hlayout hreach =>
    cases h' with
    | failed hlayout' => cases hlayout.symm.trans hlayout'
    | settled hlayout' =>
      cases hlayout.symm.trans hlayout'
      exact ⟨rfl, rfl⟩
    | round hlayout' hgrew =>
      cases hlayout.symm.trans hlayout'
      exact absurd hreach hgrew
  | round hlayout hgrew _ ih =>
    cases h' with
    | failed hlayout' => cases hlayout.symm.trans hlayout'
    | settled hlayout' hreach =>
      cases hlayout.symm.trans hlayout'
      exact absurd hreach hgrew
    | round hlayout' _ hrest =>
      cases hlayout.symm.trans hlayout'
      obtain ⟨rfl, rfl⟩ := ih hrest
      exact ⟨rfl, rfl⟩

/-- The last layout is one of the items, some of them made wide, and no more of them would
be. -/
theorem Widening.ok {items : List Item} {n : Nat} {r : Except Cause Layout} {l : Layout}
    (h : Widening items n r) (hr : r = .ok l) : ∃ wide,
      List.Forall₂ Item.Widens items wide ∧ ofItems wide = .ok l ∧ l.widened = wide := by
  induction h with
  | failed => cases hr
  | settled hlayout hreach =>
    cases hr
    exact ⟨_, List.forall₂_same.mpr fun item _ => .same item, hlayout, hreach⟩
  | round hlayout _ _ ih =>
    obtain ⟨wide, hwide, hrest⟩ := ih hr
    have hfirst := widens_widened (ofItems_ok hlayout).1
    exact ⟨wide, forall₂_widens_trans hfirst hwide, hrest⟩

namespace Layout

variable {l : Layout} {items wide : List Item}

/-- In a layout that no round changes, every narrow `goto` reaches its label. -/
theorem fits16_of_widened (hplaced : l.placed = place 0 wide) (hreach : l.widened = wide)
    {a dest : Nat} {offset : Int} {target : Label}
    (hmem : (a, .branch (.goto offset) target) ∈ l.placed)
    (hdest : l.labels[target]? = some dest) : fits16 (relative a dest) = true := by
  have hmap : l.placed.map (fun e => widen l.labels e.1 e.2) = l.placed.map Prod.snd := by
    have hsnd := map_snd_place 0 wide
    rw [← hplaced] at hsnd
    exact hreach.trans hsnd.symm
  have hsame := List.map_inj_left.mp hmap _ hmem
  have hgetD : l.labels.getD target 0 = dest := by
    rw [Std.TreeMap.getD_eq_getD_getElem?, hdest]
    rfl
  unfold widen at hsame
  dsimp only at hsame
  rw [hgetD] at hsame
  split at hsame
  · next hfits => exact hfits
  · cases hsame

-- ==== labels

/-- Labels that are bound once, and not before, can all be noted. -/
theorem exists_foldlM_addLabel {placed : List (Nat × Item)} {first : LabelMap Nat}
    (hnodup : (boundLabels (placed.map Prod.snd)).Nodup)
    (hfresh : ∀ label ∈ boundLabels (placed.map Prod.snd), first.contains label = false) :
    ∃ last, placed.foldlM addLabel first = .ok last := by
  induction placed generalizing first with
  | nil => exact ⟨first, rfl⟩
  | cons e placed ih =>
    obtain ⟨addr, item⟩ := e
    rw [List.foldlM_cons]
    cases item with
    | bind label =>
      obtain ⟨hnew, hnodup⟩ := List.nodup_cons.mp hnodup
      obtain ⟨hlabel, hfresh⟩ := List.forall_mem_cons.mp hfresh
      have hadd : addLabel first (addr, .bind label) = .ok (first.insert label addr) := by
        unfold addLabel
        dsimp only
        rw [hlabel, if_neg Bool.false_ne_true]
        rfl
      rw [hadd]
      refine ih hnodup fun other hmem => ?_
      rw [Std.TreeMap.contains_insert, hfresh other hmem, Bool.or_false]
      refine Bool.eq_false_iff.mpr fun heq => hnew ?_
      rw [Std.LawfulEqCmp.eq_of_compare (beq_iff_eq.mp heq)]
      exact hmem
    | instr i | branch i target | table low targets default => exact ih hnodup hfresh

/-- Items have a layout unless a label is bound twice. -/
theorem exists_ofItems_iff : (∃ l, ofItems items = .ok l) ↔ (boundLabels items).Nodup := by
  constructor
  · rintro ⟨l, h⟩
    exact (ofItems_ok h).2.2.2
  · intro hnodup
    have hplaced : ((place 0 items).map Prod.snd) = items := map_snd_place 0 items
    obtain ⟨labels, hlabels⟩ : ∃ labels, (place 0 items).foldlM addLabel {} = .ok labels :=
      exists_foldlM_addLabel (by rwa [hplaced]) fun label _ => by simp
    refine ⟨⟨place 0 items, labels, stop 0 items⟩, ?_⟩
    unfold ofItems
    rw [placeFrom_eq, List.reverse_nil, List.nil_append]
    dsimp only
    rw [hlabels]
    rfl

end Layout

/-- The loop ends in a layout unless a label is bound twice. -/
theorem exists_settle_iff {items : List Item} :
    (∃ l, settle items = .ok l) ↔ (boundLabels items).Nodup := by
  constructor
  · rintro ⟨l, h⟩
    obtain ⟨wide, hwide, hlayout⟩ := settle_ok h
    rw [← boundLabels_widens hwide]
    exact exists_ofItems_iff.mp ⟨l, hlayout⟩
  · intro hnodup
    obtain ⟨n, -, hrounds⟩ := exists_widening items
    generalize settle items = r at hrounds
    induction hrounds with
    | failed hlayout =>
      obtain ⟨l, hl⟩ := exists_ofItems_iff.mpr hnodup
      cases hlayout.symm.trans hl
    | @settled items l => exact ⟨l, rfl⟩
    | round hlayout _ _ ih =>
      refine ih ?_
      rwa [boundLabels_widens (widens_widened (ofItems_ok hlayout).1)]

end BytecodeBridge
