/-
What assembly gives, and what makes it fail.

Once a layout is settled its addresses are final. `Laid` says what the
patched code is, item by item, without the layout it came from: the same
instructions in the same order and without gaps, branches and jump tables
with the distances to their labels, and each label at the instruction that
follows it.

The checks that are left concern what cannot be repaired: a label that is
bound twice or not at all, an instruction that is no branch, a length, and
the reach of conditional branches, which have no wide form. A `goto` is
never too far from its label, because the loop and the patching measure
the same distance.
-/
import BytecodeBridge.Proofs.Code.Widening

namespace BytecodeBridge

open Layout

-- ==== branches

namespace Instr

/-- The branch with another offset, whether or not it fits. -/
def redirect (i : Instr) (offset : Int) : Instr :=
  match i with
  | goto _ => goto offset
  | gotoW _ => gotoW offset
  | ifZero way _ => ifZero way offset
  | ifInt way _ => ifInt way offset
  | ifSame same _ => ifSame same offset
  | ifNull null _ => ifNull null offset
  | other => other

/-- Whether the instruction is a `goto` or a conditional branch. -/
def isBranch : Instr → Bool
  | goto _ | gotoW _ => true
  | i => i.isConditional

/-- Whether an offset fits the operand of the branch. -/
def holds (i : Instr) (offset : Int) : Bool :=
  match i with
  | gotoW _ => true
  | _ => fits16 offset

/-- Patching keeps the operation; it fails for want of a branch or of room. -/
theorem withOffset_eq_ok_iff {i j : Instr} {offset : Int} :
    i.withOffset offset = .ok j ↔
      i.isBranch = true ∧ i.holds offset = true ∧ j = i.redirect offset := by
  have hshort : ∀ make : Int → Instr, shortBranch offset make = .ok j ↔
      fits16 offset = true ∧ j = make offset := by
    intro make
    unfold shortBranch
    cases fits16 offset with
    | true =>
      rw [if_pos rfl]
      exact ⟨fun h => ⟨rfl, (except_pure_ok h).symm⟩, fun h => congrArg Except.ok h.2.symm⟩
    | false =>
      rw [if_neg Bool.false_ne_true]
      exact ⟨nofun, nofun⟩
  cases i with
  | gotoW o =>
    exact ⟨fun h => ⟨rfl, rfl, (except_pure_ok h).symm⟩, fun h => congrArg Except.ok h.2.2.symm⟩
  | goto o => exact (hshort .goto).trans (and_iff_right rfl).symm
  | ifZero way o => exact (hshort (.ifZero way)).trans (and_iff_right rfl).symm
  | ifInt way o => exact (hshort (.ifInt way)).trans (and_iff_right rfl).symm
  | ifSame same o => exact (hshort (.ifSame same)).trans (and_iff_right rfl).symm
  | ifNull null o => exact (hshort (.ifNull null)).trans (and_iff_right rfl).symm
  | _ => exact ⟨nofun, nofun⟩

/-- Patching fails for want of a branch, or of room at one. -/
private theorem withOffset_error {i : Instr} {offset : Int} {cause : Cause}
    (h : i.withOffset offset = .error cause) :
    i.isBranch = false ∧ cause = .internal (.notBranch i) ∨
      i.isBranch = true ∧ i.holds offset = false ∧ cause = .unsupported (.branchTooFar offset) := by
  have hshort : ∀ make : Int → Instr, shortBranch offset make = .error cause →
      fits16 offset = false ∧ cause = .unsupported (.branchTooFar offset) := by
    intro make h
    unfold shortBranch at h
    split at h
    · cases h
    · next hfits =>
      cases h
      exact ⟨Bool.eq_false_iff.mpr hfits, rfl⟩
  cases i with
  | goto o => exact .inr ⟨rfl, hshort .goto h⟩
  | gotoW o => cases h
  | ifZero way o => exact .inr ⟨rfl, hshort (.ifZero way) h⟩
  | ifInt way o => exact .inr ⟨rfl, hshort (.ifInt way) h⟩
  | ifSame same o => exact .inr ⟨rfl, hshort (.ifSame same) h⟩
  | ifNull null o => exact .inr ⟨rfl, hshort (.ifNull null) h⟩
  | _ =>
    cases h
    exact .inl ⟨rfl, rfl⟩

end Instr

-- ==== patching

theorem exists_mapM_ok {ε α β : Type} {f : α → Except ε β} {l : List α}
    (h : ∀ a ∈ l, ∃ b, f a = .ok b) : ∃ r, l.mapM f = .ok r := by
  induction l with
  | nil => exact ⟨[], rfl⟩
  | cons a l ih =>
    obtain ⟨⟨b, hb⟩, hrest⟩ := List.forall_mem_cons.mp h
    obtain ⟨r, hr⟩ := ih hrest
    refine ⟨b :: r, ?_⟩
    rw [List.mapM_cons, hb, hr]
    rfl

namespace Layout

variable {l : Layout} {a : Nat} {item : Item}

theorem find_eq_ok_iff {label : Label} {addr : Nat} :
    l.find label = .ok addr ↔ l.labels[label]? = some addr := by
  refine ⟨find_ok, fun h => ?_⟩
  unfold find
  rw [h]
  rfl

/-- What has to hold of an item so that it can be patched. -/
structure Fits (l : Layout) (a : Nat) (item : Item) : Prop where
  bound : ∀ target ∈ item.targets, ∃ dest, l.labels[target]? = some dest
  branch : ∀ i target, item = .branch i target → i.isBranch = true
  reach : ∀ i target dest, item = .branch i target → l.labels[target]? = some dest →
    i.holds (relative a dest) = true

theorem exists_patch_iff : (∃ r, l.patch a item = .ok r) ↔ l.Fits a item := by
  cases item with
  | bind label | instr i => exact ⟨fun _ => ⟨nofun, nofun, nofun⟩, fun _ => ⟨_, rfl⟩⟩
  | branch i target =>
    constructor
    · rintro ⟨r, h⟩
      cases patched_of_patch h with
      | @branch _ _ _ dest hdest hoffset =>
      obtain ⟨hbranch, hholds, -⟩ := Instr.withOffset_eq_ok_iff.mp hoffset
      refine ⟨fun t ht => ?_, fun i' t heq => ?_, fun i' t dest' heq hdest' => ?_⟩
      · cases List.mem_singleton.mp ht
        exact ⟨dest, hdest⟩
      · cases heq
        exact hbranch
      · cases heq
        cases hdest'.symm.trans hdest
        exact hholds
    · intro h
      obtain ⟨dest, hdest⟩ := h.bound target List.mem_cons_self
      have hoffset := Instr.withOffset_eq_ok_iff.mpr
        ⟨h.branch i target rfl, h.reach i target dest rfl hdest, rfl⟩
      refine ⟨some (i.redirect (relative a dest)), ?_⟩
      show (l.find target >>= fun dest =>
        i.withOffset (relative a dest) >>= fun j => pure (some j)) = _
      rw [find_eq_ok_iff.mpr hdest]
      show (i.withOffset (relative a dest) >>= fun j => pure (some j)) = _
      rw [hoffset]
      rfl
  | table low targets default =>
    constructor
    · rintro ⟨r, h⟩
      cases patched_of_patch h with
      | @table _ _ _ _ fallback harms hdefault =>
      refine ⟨fun t ht => ?_, nofun, nofun⟩
      rcases List.mem_append.mp ht with ht | ht
      · obtain ⟨_, _, dest, hdest, -⟩ := forall₂_mem_left harms ht
        exact ⟨dest, hdest⟩
      · cases List.mem_singleton.mp ht
        exact ⟨fallback, hdefault⟩
    · intro h
      obtain ⟨fallback, hfallback⟩ := h.bound default (List.mem_append_right _ List.mem_cons_self)
      obtain ⟨offsets, hoffsets⟩ := exists_mapM_ok
        (f := fun t => return relative a (← l.find t)) (l := targets) fun t ht => by
          obtain ⟨dest, hdest⟩ := h.bound t (List.mem_append_left _ ht)
          rw [find_eq_ok_iff.mpr hdest]
          exact ⟨_, rfl⟩
      refine ⟨some (.tableSwitch (relative a fallback) low (low + offsets.length - 1) offsets), ?_⟩
      show (targets.mapM (fun t => return relative a (← l.find t)) >>= fun offsets =>
        l.find default >>= fun fallback => pure (some
          (Instr.tableSwitch (relative a fallback) low (low + offsets.length - 1) offsets))) = _
      rw [hoffsets]
      rw [find_eq_ok_iff.mpr hfallback]
      rfl

theorem exists_patchAll_iff :
    (∃ code, l.patchAll = .ok code) ↔ ∀ e ∈ l.placed, l.Fits e.1 e.2 := by
  constructor
  · rintro ⟨code, h⟩ e he
    exact exists_patch_iff.mp ((patchAll_ok h).1 e.1 e.2 he)
  · intro h
    obtain ⟨patched, hpatched⟩ := exists_mapM_ok (l := l.placed)
      (f := fun e => return (← l.patch e.1 e.2).map fun i => (e.1, i)) fun e he => by
        obtain ⟨r, hr⟩ := exists_patch_iff.mpr (h e he)
        rw [hr]
        exact ⟨_, rfl⟩
    refine ⟨patched.filterMap id, ?_⟩
    unfold patchAll
    rw [hpatched]
    rfl

end Layout

theorem CodeBuffer.assemble_eq_ok_iff {b : CodeBuffer} {asm : Assembly} :
    b.assemble = .ok asm ↔ ∃ l code, settle b.items = .ok l ∧ l.length ≤ maxCodeLength ∧
      l.patchAll = .ok code ∧ asm = ⟨code, l.labels, l.length⟩ := by
  constructor
  · intro h
    obtain ⟨l, hsettle, h⟩ := except_bind_ok h
    split at h
    · obtain ⟨_, hthrow, _⟩ := except_bind_ok h
      cases hthrow
    · next hlength =>
      obtain ⟨code, hcode, h⟩ := except_bind_ok h
      cases h
      exact ⟨l, code, hsettle, Nat.le_of_not_lt hlength, hcode, rfl⟩
  · rintro ⟨l, code, hsettle, hlength, hcode, rfl⟩
    unfold assemble
    rw [hsettle]
    show (if l.length > maxCodeLength then _ else _) = _
    rw [if_neg (Nat.not_lt.mpr hlength)]
    rw [hcode]
    rfl

-- ==== the assembled code

/-- The instruction that an item becomes at an address, when labels lie where they do. -/
inductive Becomes (labels : LabelMap Nat) (a : Nat) : Item → Instr → Prop where
  | instr (i : Instr) : Becomes labels a (.instr i) i
  | branch {i : Instr} {target : Label} {dest : Nat} {offset : Int} (hi : i.isBranch = true)
      (hdest : labels[target]? = some dest) (hoffset : (a : Int) + offset = dest)
      (hholds : i.holds offset = true) : Becomes labels a (.branch i target) (i.redirect offset)
  | wide {old : Int} {target : Label} {dest : Nat} {offset : Int}
      (hdest : labels[target]? = some dest) (hoffset : (a : Int) + offset = dest) :
      Becomes labels a (.branch (.goto old) target) (.gotoW offset)
  | table {low : Int} {targets : List Label} {default : Label} {dest : Nat} {offset : Int}
      {offsets : List Int}
      (harms : List.Forall₂ (fun target o => ∃ d : Nat, labels[target]? = some d ∧
        (a : Int) + o = d) targets offsets)
      (hdest : labels[default]? = some dest) (hoffset : (a : Int) + offset = dest) :
      Becomes labels a (.table low targets default)
        (.tableSwitch offset low (low + targets.length - 1) offsets)

/-- Instructions that lie one behind the other, from an address up to another. -/
def Contiguous (addr stop : Nat) : List (Nat × Instr) → Prop
  | [] => addr = stop
  | (a, i) :: rest => a = addr ∧ Contiguous (a + i.size a) stop rest

/-- The address of an instruction, given its number; behind the last lies the end. -/
def Assembly.addressOf? (asm : Assembly) (n : Nat) : Option Nat :=
  (asm.code.map Prod.fst ++ [asm.length])[n]?

/-- The code is a layout of the items. -/
structure Laid (items : List Item) (asm : Assembly) : Prop where
  code : List.Forall₂ (fun item e => Becomes asm.labels e.1 item e.2)
    (items.filter fun item => item.label?.isNone) asm.code
  contiguous : Contiguous 0 asm.length asm.code
  labels : ∀ (label : Label) (a : Nat), asm.labels[label]? = some a ↔
    ∃ pre post, items = pre ++ .bind label :: post ∧
      asm.addressOf? (pre.countP fun item => item.label?.isNone) = some a

namespace Layout

variable {l : Layout} {a : Nat} {item : Item}

theorem becomes_of_patch {i : Instr} (h : l.patch a item = .ok (some i)) :
    Becomes l.labels a item i := by
  cases patched_of_patch h with
  | instr => exact .instr i
  | @branch j _ target dest hdest hoffset =>
    obtain ⟨hbranch, hholds, rfl⟩ := Instr.withOffset_eq_ok_iff.mp hoffset
    exact .branch hbranch hdest (add_relative a dest) hholds
  | @table low targets default offsets fallback harms hdefault =>
    rw [← harms.length_eq]
    refine .table (harms.imp fun target o hone => ?_) hdefault (add_relative a fallback)
    obtain ⟨dest, hdest, rfl⟩ := hone
    exact ⟨dest, hdest, add_relative a dest⟩

theorem becomes_of_widens {labels : LabelMap Nat} {wide : Item} {i : Instr}
    (hwide : item.Widens wide) (h : Becomes labels a wide i) : Becomes labels a item i := by
  cases hwide with
  | same => exact h
  | wide old target =>
    cases h with
    | branch _ hdest hoffset _ => exact .wide hdest hoffset

theorem forall₂_becomes {items wide : List Item} {addr : Nat} {code : List (Nat × Instr)}
    (hwide : List.Forall₂ Item.Widens items wide)
    (hcode : List.Forall₂ (fun e c => c.1 = e.1 ∧ l.patch e.1 e.2 = .ok (some c.2))
      ((place addr wide).filter fun e => e.2.label?.isNone) code) :
    List.Forall₂ (fun item e => Becomes l.labels e.1 item e.2)
      (items.filter fun item => item.label?.isNone) code := by
  induction hwide generalizing addr code with
  | nil =>
    cases hcode
    exact .nil
  | @cons item wideItem items wide hone _ ih =>
    rw [place] at hcode
    cases hlabel : item.label? with
    | some label =>
      rw [List.filter_cons_of_neg (by simp [hone.label?, hlabel])] at hcode
      rw [List.filter_cons_of_neg (by simp [hlabel])]
      exact ih hcode
    | none =>
      rw [List.filter_cons_of_pos (by simp [hone.label?, hlabel])] at hcode
      rw [List.filter_cons_of_pos (by simp [hlabel])]
      cases hcode with
      | @cons _ c _ _ hpatch hrest =>
        obtain ⟨rfl, hpatch⟩ := hpatch
        exact .cons (becomes_of_widens hone (becomes_of_patch hpatch)) (ih hrest)

/-- Patching keeps sizes, so the code is as contiguous as the layout. -/
theorem contiguous_of_patched {items : List Item} {addr : Nat} {code : List (Nat × Instr)}
    (hcode : List.Forall₂ (fun e c => c.1 = e.1 ∧ l.patch e.1 e.2 = .ok (some c.2))
      ((place addr items).filter fun e => e.2.label?.isNone) code) :
    Contiguous addr (stop addr items) code := by
  induction items generalizing addr code with
  | nil =>
    cases hcode
    exact rfl
  | cons item items ih =>
    rw [place] at hcode
    cases hlabel : item.label? with
    | some label =>
      cases Item.eq_bind_of_label? hlabel
      rw [List.filter_cons_of_neg (by simp [hlabel])] at hcode
      exact ih hcode
    | none =>
      rw [List.filter_cons_of_pos (by simp [hlabel])] at hcode
      cases hcode with
      | @cons _ c _ _ hpatch hrest =>
        obtain ⟨a, i⟩ := c
        obtain ⟨rfl, hpatch⟩ := hpatch
        refine ⟨rfl, ?_⟩
        rw [(patch_ok hpatch).1]
        exact ih hrest

/-- The address behind some items is that of the first instruction from there on. -/
theorem getElem?_addresses (addr : Nat) (pre post : List Item) :
    (addresses addr (pre ++ post) ++ [stop addr (pre ++ post)])[
      pre.countP fun item => item.label?.isNone]? = some (stop addr pre) := by
  have hcons : ∀ (addr : Nat) (item : Item) (items : List Item), addresses addr (item :: items) =
      if item.label?.isNone then addr :: addresses (addr + item.size addr) items
      else addresses (addr + item.size addr) items := by
    intro addr item items
    unfold addresses
    rw [place, List.filter_cons]
    split <;> rfl
  induction pre generalizing addr with
  | nil =>
    -- labels in front of the first instruction take no room
    induction post generalizing addr with
    | nil => rfl
    | cons item post ih =>
      rw [List.nil_append, hcons]
      cases hlabel : item.label? with
      | none => rfl
      | some label =>
        cases Item.eq_bind_of_label? hlabel
        exact ih addr
  | cons item pre ih =>
    rw [List.cons_append, hcons]
    cases hlabel : item.label? with
    | none =>
      rw [List.countP_cons_of_pos (by simp [hlabel])]
      exact ih _
    | some label =>
      cases Item.eq_bind_of_label? hlabel
      exact ih addr

end Layout

private theorem exists_cut_of_widens_left {wide pre post : List Item} {label : Label}
    (h : List.Forall₂ Item.Widens (pre ++ .bind label :: post) wide) :
    ∃ preW postW, wide = preW ++ .bind label :: postW ∧ List.Forall₂ Item.Widens pre preW := by
  induction pre generalizing wide with
  | nil =>
    cases h with
    | cons hone _ =>
      cases hone
      exact ⟨[], _, rfl, .nil⟩
  | cons item pre ih =>
    cases h with
    | cons hone hrest =>
      obtain ⟨preW, postW, rfl, hpre⟩ := ih hrest
      exact ⟨_ :: preW, postW, rfl, .cons hone hpre⟩

private theorem exists_cut_of_widens_right {items preW postW : List Item} {label : Label}
    (h : List.Forall₂ Item.Widens items (preW ++ .bind label :: postW)) :
    ∃ pre post, items = pre ++ .bind label :: post ∧ List.Forall₂ Item.Widens pre preW := by
  induction preW generalizing items with
  | nil =>
    cases h with
    | cons hone _ =>
      cases hone
      exact ⟨[], _, rfl, .nil⟩
  | cons item preW ih =>
    cases h with
    | cons hone hrest =>
      obtain ⟨pre, post, rfl, hpre⟩ := ih hrest
      exact ⟨_ :: pre, post, rfl, .cons hone hpre⟩

private theorem countP_of_widens {items wide : List Item}
    (h : List.Forall₂ Item.Widens items wide) :
    wide.countP (fun item => item.label?.isNone) = items.countP fun item => item.label?.isNone := by
  induction h with
  | nil => rfl
  | cons hone _ ih => rw [List.countP_cons, List.countP_cons, ih, hone.label?]

theorem CodeBuffer.laid_of_assemble {b : CodeBuffer} {asm : Assembly} (h : b.assemble = .ok asm) :
    Laid b.items asm := by
  obtain ⟨l, code, hsettle, -, hcode, rfl⟩ := assemble_eq_ok_iff.mp h
  obtain ⟨wide, hwide, hlayout⟩ := settle_ok hsettle
  obtain ⟨hplaced, hlength, hlabels, -⟩ := ofItems_ok hlayout
  have hall := forall₂_of_patchAll hcode
  have horder := addresses_of_patchAll hcode
  rw [hplaced] at hall horder
  have haddress : ∀ preW postW label, wide = preW ++ .bind label :: postW →
      Assembly.addressOf? ⟨code, l.labels, l.length⟩ (preW.countP fun item => item.label?.isNone)
        = some (stop 0 preW) := by
    intro preW postW label heq
    have hget := getElem?_addresses 0 preW (.bind label :: postW)
    rw [← heq] at hget
    unfold Assembly.addressOf?
    rw [horder, hlength]
    exact hget
  refine ⟨forall₂_becomes hwide hall, ?_, fun label a => ?_⟩
  · rw [hlength]
    exact contiguous_of_patched hall
  · rw [hlabels, mem_place]
    constructor
    · rintro ⟨preW, postW, rfl, rfl⟩
      obtain ⟨pre, post, heq, hpre⟩ := exists_cut_of_widens_right hwide
      refine ⟨pre, post, heq, ?_⟩
      rw [← countP_of_widens hpre]
      exact haddress preW postW label rfl
    · rintro ⟨pre, post, heq, ha⟩
      rw [heq] at hwide
      obtain ⟨preW, postW, rfl, hpre⟩ := exists_cut_of_widens_left hwide
      rw [← countP_of_widens hpre, haddress preW postW label rfl] at ha
      exact ⟨preW, postW, rfl, Option.some.inj ha⟩

/-- Assembly is a correct layout: the loop that widens branches comes to an end, and what
comes out of it is the code of the items, patched and without gaps, with each label at the
instruction that follows it. -/
theorem CodeBuffer.assemble_lays_out (b : CodeBuffer) :
    (∃ n ≤ b.items.countP Item.isGoto, Widening b.items n (settle b.items)) ∧
      ∀ asm, b.assemble = .ok asm → Laid b.items asm :=
  ⟨exists_widening b.items, fun _ => laid_of_assemble⟩

/-- A jump over far more than its narrow form reaches, to the end of a jump table. -/
def farGoto : CodeBuffer where
  prologue := [.store (.num .int) (.short 1), .const .int 0]
  body :=
    [.instr .returnVoid, .bind (.synthetic 0), .table 7 [.source 0, .synthetic 0] (.source 0)] ++
      List.replicate 33 (.instr (.lookupSwitch 0 (List.replicate 124 (0, 0)))) ++
    [.branch (.goto 0) (.synthetic 0), .bind (.source 0)]

private theorem assembled_farGoto :
    (farGoto.assemble.toOption.map fun asm => (asm.code[2]?, asm.code[36]?)) =
      some (some (2, .gotoW 33158),
        some (33136, .tableSwitch (-33134) 7 8 [-33134, 24])) := by
  decide +kernel

/-- One round makes the jump wide, and the code is laid out with the wide form. -/
theorem CodeBuffer.assemble_lays_out_farGoto :
    ∃ asm, farGoto.assemble = .ok asm ∧ asm.code[2]? = some (2, .gotoW 33158) ∧
      asm.code[36]? = some (33136, .tableSwitch (-33134) 7 8 [-33134, 24]) ∧
      Laid farGoto.items asm ∧
      ∃ n ≤ 1, Widening farGoto.items n (settle farGoto.items) := by
  have hcode := assembled_farGoto
  cases hasm : farGoto.assemble with
  | error cause =>
    rw [hasm] at hcode
    cases hcode
  | ok asm =>
    rw [hasm] at hcode
    obtain ⟨hjump, htable⟩ := Prod.mk.inj (Option.some.inj hcode)
    obtain ⟨⟨n, hn, hrounds⟩, hlaid⟩ := assemble_lays_out farGoto
    exact ⟨asm, rfl, hjump, htable, hlaid asm hasm, n, hn, hrounds⟩

-- ==== failures

namespace Layout

variable {l : Layout} {items wide : List Item}

/-- The final layout can be patched if labels are bound, branches are branches, and the
conditional ones reach their labels. -/
theorem forall_fits_iff (hwide : List.Forall₂ Item.Widens items wide)
    (hlayout : ofItems wide = .ok l) (hreach : l.widened = wide) :
    (∀ e ∈ l.placed, l.Fits e.1 e.2) ↔
      (∀ item ∈ items, ∀ target ∈ item.targets, target ∈ boundLabels items) ∧
      (∀ i target, .branch i target ∈ items → i.isBranch = true) ∧
      ∀ a i target dest, (a, .branch i target) ∈ l.placed → i.isConditional = true →
        l.labels[target]? = some dest → fits16 (relative a dest) = true := by
  obtain ⟨hplaced, -, hlabels, -⟩ := ofItems_ok hlayout
  have hbound : ∀ label, (∃ a, l.labels[label]? = some a) ↔ label ∈ boundLabels items := by
    intro label
    rw [← boundLabels_widens hwide, mem_boundLabels, ← map_snd_place 0 wide, List.mem_map]
    constructor
    · rintro ⟨a, ha⟩
      exact ⟨_, (hlabels label a).mp ha, rfl⟩
    · rintro ⟨⟨a, item⟩, hmem, rfl⟩
      exact ⟨a, (hlabels label a).mpr hmem⟩
  have hmem : ∀ w ∈ wide, ∃ a, (a, w) ∈ l.placed := by
    intro w hw
    rw [← map_snd_place 0 wide, List.mem_map] at hw
    obtain ⟨⟨a, w⟩, hw, rfl⟩ := hw
    exact ⟨a, hplaced ▸ hw⟩
  constructor
  · intro h
    refine ⟨fun item hitem target ht => ?_, fun i target hi => ?_, ?_⟩
    · obtain ⟨w, hw, hone⟩ := forall₂_mem_left hwide hitem
      obtain ⟨a, ha⟩ := hmem w hw
      rw [← hone.targets] at ht
      exact (hbound target).mp ((h _ ha).bound target ht)
    · obtain ⟨w, hw, hone⟩ := forall₂_mem_left hwide hi
      obtain ⟨a, ha⟩ := hmem w hw
      cases hone with
      | same => exact (h _ ha).branch i target rfl
      | wide => rfl
    · intro a i target dest ha hi hdest
      have hholds := (h _ ha).reach i target dest rfl hdest
      cases i with
      | gotoW => cases hi
      | _ => exact hholds
  · rintro ⟨htargets, hbranches, hconditional⟩ ⟨a, w⟩ ha
    obtain ⟨item, hitem, hone⟩ : ∃ item ∈ items, item.Widens w := by
      refine forall₂_mem_right hwide ?_
      rw [← map_snd_place 0 wide, ← hplaced]
      exact List.mem_map_of_mem ha
    have hbranch : ∀ i target, w = .branch i target → i.isBranch = true := by
      intro i target heq
      cases hone with
      | same => exact hbranches i target (heq ▸ hitem)
      | wide =>
        cases heq
        rfl
    refine ⟨fun target ht => ?_, hbranch, fun i target dest heq hdest => ?_⟩
    · rw [hone.targets] at ht
      exact (hbound target).mpr (htargets item hitem target ht)
    · subst heq
      have hi := hbranch i target rfl
      cases i with
      | gotoW => rfl
      | goto => exact fits16_of_widened hplaced hreach ha hdest
      | ifZero | ifInt | ifSame | ifNull => exact hconditional a _ target dest ha rfl hdest
      | _ => cases hi

-- what each part of the assembly fails with

theorem foldlM_addLabel_error {placed : List (Nat × Item)} {first : LabelMap Nat} {cause : Cause}
    (h : placed.foldlM addLabel first = .error cause) :
    ∃ label, (first.contains label = true ∧ label ∈ boundLabels (placed.map Prod.snd) ∨
      2 ≤ (boundLabels (placed.map Prod.snd)).count label) ∧
      cause = .internal (.boundTwice label) := by
  induction placed generalizing first with
  | nil => cases h
  | cons e placed ih =>
    rw [List.foldlM_cons] at h
    rw [List.map_cons, boundLabels_cons]
    unfold addLabel at h
    split at h
    · next addr label =>
      rcases except_bind_error h with h | ⟨labels, hadd, h⟩
      · split at h
        · next hlabel =>
          cases h
          exact ⟨label, .inl ⟨hlabel, .head _⟩, rfl⟩
        · cases h
      · split at hadd
        · cases hadd
        · cases hadd
          obtain ⟨twice, hcases, rfl⟩ := ih h
          refine ⟨twice, ?_, rfl⟩
          dsimp only [Item.label?, Option.toList_some, List.singleton_append]
          rw [List.count_cons]
          rcases hcases with ⟨hcontains, hmem⟩ | htwice
          · rw [Std.TreeMap.contains_insert, Bool.or_eq_true, beq_iff_eq,
              Std.compare_eq_iff_eq] at hcontains
            rcases hcontains with rfl | hfirst
            · have hpos := List.count_pos_iff.mpr hmem
              exact .inr (by rw [beq_self_eq_true, if_pos rfl]; omega)
            · exact .inl ⟨hfirst, .tail _ hmem⟩
          · exact .inr (by omega)
    · next hother =>
      have hnone : e.2.label? = none := by
        obtain ⟨addr, item⟩ := e
        cases item with
        | bind label => exact absurd rfl (hother addr label)
        | _ => rfl
      rw [hnone]
      exact ih h

theorem find_error {label : Label} {cause : Cause} (h : l.find label = .error cause) :
    l.labels[label]? = none ∧ cause = .internal (.branchUnbound label) := by
  unfold find at h
  split at h
  · cases h
  · next hnone =>
    cases h
    exact ⟨hnone, rfl⟩

theorem patchAll_error {cause : Cause} (h : l.patchAll = .error cause) :
    ∃ e ∈ l.placed, l.patch e.1 e.2 = .error cause := by
  rcases except_bind_error h with h | ⟨patched, -, h⟩
  · obtain ⟨e, he, hone⟩ := except_mapM_error h
    rcases except_bind_error hone with hone | ⟨_, -, hone⟩
    · exact ⟨e, he, hone⟩
    · cases hone
  · cases h

/-- An item is not patched if it names a label that is not bound, or if a branch is none or
does not reach its label. -/
theorem patch_error {a : Nat} {item : Item} {cause : Cause} (h : l.patch a item = .error cause) :
    (∃ target ∈ item.targets, l.labels[target]? = none ∧
      cause = .internal (.branchUnbound target)) ∨
    ∃ i target dest, item = .branch i target ∧ l.labels[target]? = some dest ∧
      (i.isBranch = false ∧ cause = .internal (.notBranch i) ∨
        i.isBranch = true ∧ i.holds (relative a dest) = false ∧
          cause = .unsupported (.branchTooFar (relative a dest))) := by
  cases item with
  | bind label | instr i => cases h
  | branch i target =>
    rcases except_bind_error h with h | ⟨dest, hdest, h⟩
    · exact .inl ⟨target, List.mem_singleton_self _, find_error h⟩
    rcases except_bind_error h with h | ⟨_, -, h⟩
    · exact .inr ⟨i, target, dest, rfl, find_ok hdest, Instr.withOffset_error h⟩
    · cases h
  | table low targets default =>
    rcases except_bind_error h with h | ⟨_, -, h⟩
    · obtain ⟨target, hmem, h⟩ := except_mapM_error h
      rcases except_bind_error h with h | ⟨_, -, h⟩
      · exact .inl ⟨target, List.mem_append_left _ hmem, find_error h⟩
      · cases h
    · rcases except_bind_error h with h | ⟨_, -, h⟩
      · exact .inl ⟨default, List.mem_append_right _ (List.mem_singleton_self _), find_error h⟩
      · cases h

theorem patch_tooFar {a : Nat} {item : Item} {offset : Int}
    (h : l.patch a item = .error (.unsupported (.branchTooFar offset))) :
    ∃ i target dest, item = .branch i target ∧ l.labels[target]? = some dest ∧
      relative a dest = offset ∧ i.isBranch = true ∧ i.holds offset = false := by
  obtain ⟨_, -, -, hcause⟩ | ⟨i, target, dest, heq, hdest, ⟨-, hcause⟩ | ⟨hi, hfar, hcause⟩⟩ :=
    patch_error h
  · cases hcause
  · cases hcause
  · cases hcause
    exact ⟨i, target, dest, heq, hdest, rfl, hi, hfar⟩

end Layout

theorem settle_twice {items : List Item} {cause : Cause} (h : settle items = .error cause) :
    ∃ label, 2 ≤ (boundLabels items).count label ∧ cause = .internal (.boundTwice label) := by
  obtain ⟨n, -, hrounds⟩ := exists_widening items
  rw [h] at hrounds
  clear h
  generalize hr : (Except.error cause : Except Cause Layout) = r at hrounds
  induction hrounds with
  | failed hlayout =>
    cases hr
    unfold ofItems at hlayout
    rw [placeFrom_eq] at hlayout
    rcases except_bind_error hlayout with h | ⟨_, -, h⟩
    · obtain ⟨label, ⟨hfirst, -⟩ | htwice, hcause⟩ := foldlM_addLabel_error h
      · rw [Std.TreeMap.contains_emptyc] at hfirst
        cases hfirst
      · rw [List.reverse_nil, List.nil_append, map_snd_place] at htwice
        exact ⟨label, htwice, hcause⟩
    · cases h
  | settled => cases hr
  | round hlayout _ _ ih =>
    rw [← boundLabels_widens (widens_widened (ofItems_ok hlayout).1)]
    exact ih hr

/-- Assembly fails exactly when it must. It succeeds if and only if no label is bound twice,
every label that is branched to is bound, every branch is a branch, the final layout is not
too long, and its conditional branches reach their labels. No `goto` is ever too far from its
label: where assembly fails for a distance, it is that of a conditional branch. -/
theorem CodeBuffer.exists_assemble_iff (b : CodeBuffer) :
    ((∃ asm, b.assemble = .ok asm) ↔
      (boundLabels b.items).Nodup ∧
      (∀ item ∈ b.items, ∀ target ∈ item.targets, target ∈ boundLabels b.items) ∧
      (∀ i target, .branch i target ∈ b.items → i.isBranch = true) ∧
      ∃ n l, Widening b.items n (.ok l) ∧ l.length ≤ 65535 ∧
        ∀ a i target dest, (a, .branch i target) ∈ l.placed → i.isConditional = true →
          l.labels[target]? = some dest → fits16 (relative a dest) = true) ∧
    ∀ offset, b.assemble = .error (.unsupported (.branchTooFar offset)) →
      ∃ n l a i target dest, Widening b.items n (.ok l) ∧ (a, .branch i target) ∈ l.placed ∧
        i.isConditional = true ∧ l.labels[target]? = some dest ∧ relative a dest = offset ∧
        fits16 offset = false := by
  obtain ⟨n, -, hrounds⟩ := exists_widening b.items
  refine ⟨⟨?_, ?_⟩, ?_⟩
  · rintro ⟨asm, h⟩
    obtain ⟨l, code, hsettle, hlength, hcode, -⟩ := assemble_eq_ok_iff.mp h
    rw [hsettle] at hrounds
    obtain ⟨wide, hwide, hlayout, hreach⟩ := hrounds.ok rfl
    obtain ⟨htargets, hbranches, hconditional⟩ :=
      (Layout.forall_fits_iff hwide hlayout hreach).mp (Layout.exists_patchAll_iff.mp ⟨code, hcode⟩)
    exact ⟨exists_settle_iff.mp ⟨l, hsettle⟩, htargets, hbranches, n, l, hrounds, hlength,
      hconditional⟩
  · rintro ⟨-, htargets, hbranches, n', l, hfinal, hlength, hconditional⟩
    obtain ⟨-, hsettle⟩ := hrounds.unique hfinal
    obtain ⟨wide, hwide, hlayout, hreach⟩ := hfinal.ok rfl
    obtain ⟨code, hcode⟩ := Layout.exists_patchAll_iff.mpr
      ((Layout.forall_fits_iff hwide hlayout hreach).mpr ⟨htargets, hbranches, hconditional⟩)
    exact ⟨_, assemble_eq_ok_iff.mpr ⟨l, code, hsettle, hlength, hcode, rfl⟩⟩
  · intro offset h
    unfold assemble at h
    cases hsettle : settle b.items with
    | error cause =>
      rw [hsettle] at h
      cases h
      obtain ⟨label, -, hcause⟩ := settle_twice hsettle
      cases hcause
    | ok l =>
      rw [hsettle] at h hrounds
      change (if l.length > maxCodeLength then _ else _) = _ at h
      split at h
      · cases h
      · change (l.patchAll >>= fun code => _) = _ at h
        cases hcode : l.patchAll with
        | ok code =>
          rw [hcode] at h
          cases h
        | error cause =>
          rw [hcode] at h
          cases h
          obtain ⟨wide, hwide, hlayout, hreach⟩ := hrounds.ok rfl
          obtain ⟨⟨a, item⟩, hmem, hpatch⟩ := Layout.patchAll_error hcode
          obtain ⟨i, target, dest, heq, hdest, rfl, hi, hfar⟩ := Layout.patch_tooFar hpatch
          dsimp only at heq hfar
          subst heq
          refine ⟨n, l, a, i, target, dest, hrounds, hmem, ?_, hdest, rfl, ?_⟩
          · cases i with
            | goto =>
              have hfits := Layout.fits16_of_widened (Layout.ofItems_ok hlayout).1 hreach hmem
                hdest
              cases hfits.symm.trans hfar
            | gotoW => cases hfar
            | _ => exact hi
          · cases i with
            | gotoW => cases hfar
            | _ => exact hfar

end BytecodeBridge
