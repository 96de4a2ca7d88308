/-
Where assembly puts the code.

An item lies right behind the items before it, so a place in the code is a
way of cutting the items in two, and its address is the size of the part
in front (`Layout.stop`). Assembly may first make some branches wide
(`Item.Widens`), which changes addresses but neither the order of the
items nor the labels they name. `CodeBuffer.assemble_ok` says what is left
to know: which items the layout is of, where labels and instructions lie,
and that no label lies in two places.
-/
import BytecodeBridge.Proofs.Instr.Control
import BytecodeBridge.Proofs.Run

namespace BytecodeBridge

namespace Item

/-- The labels that an item transfers to. -/
def targets : Item → List Label
  | branch _ target => [target]
  | table _ targets default => targets ++ [default]
  | instr _ | bind _ => []

/-- The label that an item binds. -/
def label? : Item → Option Label
  | bind label => some label
  | _ => none

theorem eq_bind_of_label? {item : Item} {label : Label} (h : item.label? = some label) :
    item = .bind label := by
  cases item with
  | bind l =>
    cases h
    rfl
  | _ => cases h

/-- The same item, or a `goto` made wide. -/
inductive Widens : Item → Item → Prop where
  | same (item : Item) : Widens item item
  | wide (offset : Int) (target : Label) :
      Widens (.branch (.goto offset) target) (.branch (.gotoW 0) target)

theorem Widens.trans {a b c : Item} (hab : Widens a b) (hbc : Widens b c) : Widens a c := by
  cases hab with
  | same => exact hbc
  | wide offset target =>
    cases hbc
    exact .wide offset target

theorem Widens.targets {a b : Item} (h : Widens a b) : b.targets = a.targets := by
  cases h <;> rfl

theorem Widens.label? {a b : Item} (h : Widens a b) : b.label? = a.label? := by
  cases h <;> rfl

end Item

namespace Layout

-- ==== addresses

/-- The address behind items that lie from an address on. -/
def stop (addr : Nat) : List Item → Nat
  | [] => addr
  | item :: rest => stop (addr + item.size addr) rest

/-- Items with the addresses they have from an address on. -/
def place (addr : Nat) : List Item → List (Nat × Item)
  | [] => []
  | item :: rest => (addr, item) :: place (addr + item.size addr) rest

/-- The addresses of the items that stand for instructions, in order. -/
def addresses (addr : Nat) (items : List Item) : List Nat :=
  ((place addr items).filter fun e => e.2.label?.isNone).map Prod.fst

theorem stop_append (addr : Nat) (a b : List Item) :
    stop addr (a ++ b) = stop (stop addr a) b := by
  induction a generalizing addr with
  | nil => rfl
  | cons item a ih => exact ih _

theorem stop_concat (addr : Nat) (a : List Item) (item : Item) :
    stop addr (a ++ [item]) = stop addr a + item.size (stop addr a) := by
  rw [stop_append]
  rfl

theorem le_stop (addr : Nat) (items : List Item) : addr ≤ stop addr items := by
  induction items generalizing addr with
  | nil => exact Nat.le_refl addr
  | cons item items ih => exact Nat.le_trans (Nat.le_add_right _ _) (ih _)

theorem placeFrom_eq (addr : Nat) (done : List (Nat × Item)) (items : List Item) :
    placeFrom addr done items = (done.reverse ++ place addr items, stop addr items) := by
  induction items generalizing addr done with
  | nil => rw [placeFrom, place, stop, List.append_nil]
  | cons item items ih =>
    rw [placeFrom, ih, List.reverse_cons, List.append_assoc]
    rfl

/-- An item lies at the address behind the items before it. -/
theorem mem_place {addr a : Nat} {item : Item} {items : List Item} :
    (a, item) ∈ place addr items ↔
      ∃ pre post, items = pre ++ item :: post ∧ stop addr pre = a := by
  induction items generalizing addr with
  | nil =>
    refine ⟨fun h => absurd h List.not_mem_nil, ?_⟩
    rintro ⟨pre, post, h, -⟩
    exact absurd h.symm (List.append_ne_nil_of_right_ne_nil pre (List.cons_ne_nil _ _))
  | cons first items ih =>
    rw [place, List.mem_cons, ih]
    constructor
    · rintro (h | ⟨pre, post, rfl, rfl⟩)
      · cases h
        exact ⟨[], items, rfl, rfl⟩
      · exact ⟨first :: pre, post, rfl, rfl⟩
    · rintro ⟨pre, post, h, rfl⟩
      cases pre with
      | nil =>
        cases h
        exact .inl rfl
      | cons other pre =>
        cases h
        exact .inr ⟨pre, post, rfl, rfl⟩

theorem size_pos {item : Item} (h : item.label? = none) (addr : Nat) : 0 < item.size addr := by
  cases item with
  | bind label => cases h
  | instr i | branch i target => exact i.size_pos addr
  | table low targets default =>
    show 0 < Instr.tableSize addr targets.length
    unfold Instr.tableSize
    omega

-- ==== labels

/-- The labels of placed items, noted on top of those known before. -/
theorem foldlM_addLabel {placed : List (Nat × Item)} {first last : LabelMap Nat}
    (h : placed.foldlM addLabel first = .ok last) :
    (∀ (label : Label) (a : Nat), last[label]? = some a ↔
      first[label]? = some a ∨ (a, .bind label) ∈ placed) ∧
    ((placed.map Prod.snd).filterMap Item.label?).Nodup ∧
    ∀ label ∈ (placed.map Prod.snd).filterMap Item.label?, first.contains label = false := by
  induction placed generalizing first with
  | nil =>
    cases h
    exact ⟨fun _ _ => by simp, List.nodup_nil, by simp⟩
  | cons e placed ih =>
    obtain ⟨addr, item⟩ := e
    rw [List.foldlM_cons] at h
    obtain ⟨labels, hadd, h⟩ := except_bind_ok h
    obtain ⟨hlook, hnodup, hfresh⟩ := ih h
    cases hlabel : item.label? with
    | none =>
      have heq : labels = first := by
        cases item with
        | bind l => cases hlabel
        | _ => exact (except_pure_ok hadd).symm
      subst heq
      rw [List.map_cons, List.filterMap_cons_none hlabel]
      refine ⟨fun label a => ?_, hnodup, hfresh⟩
      rw [hlook, List.mem_cons]
      refine or_congr_right (or_iff_right fun heq => ?_).symm
      cases heq
      cases hlabel
    | some l =>
      cases Item.eq_bind_of_label? hlabel
      rw [List.map_cons, List.filterMap_cons_some hlabel]
      unfold addLabel at hadd
      dsimp only at hadd
      split at hadd
      · cases hadd
      · next hnew =>
        cases hadd
        have hinsert : ∀ label : Label, (first.insert l addr)[label]?
            = if l = label then some addr else first[label]? := by
          intro label
          rw [Std.TreeMap.getElem?_insert]
          simp only [Std.LawfulEqCmp.compare_eq_iff_eq]
        have hnone : first[l]? = none := by
          rw [Bool.not_eq_true, Std.TreeMap.contains_eq_isSome_getElem?,
            Option.isSome_eq_false_iff, Option.isNone_iff_eq_none] at hnew
          exact hnew
        have hcontains : ∀ label : Label, (first.insert l addr).contains label = false →
            l ≠ label ∧ first.contains label = false := by
          intro label hlabel
          rw [Std.TreeMap.contains_insert, Bool.or_eq_false_iff] at hlabel
          refine ⟨fun heq => ?_, hlabel.2⟩
          subst heq
          simp at hlabel
        refine ⟨fun label a => ?_, List.nodup_cons.mpr ⟨fun hmem => ?_, hnodup⟩,
          List.forall_mem_cons.mpr ⟨Bool.eq_false_iff.mpr hnew, fun label hmem => ?_⟩⟩
        · rw [hlook, hinsert, List.mem_cons]
          by_cases hl : l = label
          · subst hl
            rw [if_pos rfl, hnone]
            simp only [reduceCtorEq, false_or, Option.some.injEq, Prod.mk.injEq, and_true]
            exact or_congr_left eq_comm
          · rw [if_neg hl]
            refine or_congr_right (or_iff_right fun heq => hl ?_).symm
            cases heq
            rfl
        · exact (hcontains l (hfresh l hmem)).1 rfl
        · exact (hcontains label (hfresh label hmem)).2

theorem map_snd_place (addr : Nat) (items : List Item) :
    (place addr items).map Prod.snd = items := by
  induction items generalizing addr with
  | nil => rfl
  | cons item items ih => rw [place, List.map_cons, ih]

theorem ofItems_ok {items : List Item} {l : Layout} (h : ofItems items = .ok l) :
    l.placed = place 0 items ∧ l.length = stop 0 items ∧
      (∀ (label : Label) (a : Nat), l.labels[label]? = some a ↔
        (a, .bind label) ∈ place 0 items) ∧
      (items.filterMap Item.label?).Nodup := by
  unfold ofItems at h
  rw [placeFrom_eq] at h
  obtain ⟨labels, hlabels, h⟩ := except_bind_ok h
  cases h
  obtain ⟨hlook, hnodup, -⟩ := foldlM_addLabel hlabels
  rw [List.reverse_nil, List.nil_append] at hlook hnodup ⊢
  rw [map_snd_place] at hnodup
  refine ⟨rfl, rfl, fun label a => ?_, hnodup⟩
  rw [hlook, Std.TreeMap.getElem?_emptyc]
  simp

-- ==== widening

theorem widens_widen (labels : LabelMap Nat) (addr : Nat) (item : Item) :
    item.Widens (widen labels addr item) := by
  unfold widen
  split
  · split
    · exact .same _
    · exact .wide _ _
  · exact .same _

theorem widens_widened {l : Layout} {items : List Item} (h : l.placed = place 0 items) :
    List.Forall₂ Item.Widens items l.widened := by
  have hfrom : ∀ (items : List Item) (addr : Nat), List.Forall₂ Item.Widens items
      ((place addr items).map fun e => widen l.labels e.1 e.2) := by
    intro items
    induction items with
    | nil => exact fun _ => .nil
    | cons item items ih => exact fun addr => .cons (widens_widen _ addr item) (ih _)
  unfold widened
  rw [h]
  exact hfrom items 0

end Layout

theorem forall₂_widens_trans {a b c : List Item} (hab : List.Forall₂ Item.Widens a b)
    (hbc : List.Forall₂ Item.Widens b c) : List.Forall₂ Item.Widens a c := by
  induction hab generalizing c with
  | nil =>
    cases hbc
    exact .nil
  | cons h _ ih =>
    cases hbc with
    | cons h' hrest => exact .cons (h.trans h') (ih hrest)

/-- The settled layout is a layout of the items, some of them made wide. -/
theorem settle_ok {items : List Item} {l : Layout} (h : settle items = .ok l) :
    ∃ wide, List.Forall₂ Item.Widens items wide ∧ Layout.ofItems wide = .ok l := by
  induction items using settle.induct with
  | case1 items e hlayout =>
    rw [settle, hlayout] at h
    cases h
  | case2 items l' hlayout hlt ih =>
    rw [settle, hlayout] at h
    dsimp only at h
    rw [if_pos hlt] at h
    obtain ⟨wide, hwide, hok⟩ := ih h
    exact ⟨wide, forall₂_widens_trans (Layout.widens_widened (Layout.ofItems_ok hlayout).1) hwide,
      hok⟩
  | case3 items l' hlayout hge =>
    rw [settle, hlayout] at h
    dsimp only at h
    rw [if_neg hge] at h
    cases h
    exact ⟨items, List.forall₂_same.mpr fun item _ => .same item, hlayout⟩

-- ==== patching

namespace Layout

variable {l : Layout} {a : Nat} {item : Item} {i : Instr}

theorem find_ok {label : Label} {addr : Nat} (h : l.find label = .ok addr) :
    l.labels[label]? = some addr := by
  unfold find at h
  split at h
  · next hlabel =>
    cases h
    exact hlabel
  · cases h

theorem add_relative (a dest : Nat) : (a : Int) + relative a dest = dest := by
  unfold relative
  omega

/-- What an item at an address is patched to. -/
inductive Patched (l : Layout) (a : Nat) : Item → Option Instr → Prop where
  | bind (label : Label) : Patched l a (.bind label) none
  | instr (i : Instr) : Patched l a (.instr i) (some i)
  | branch {i j : Instr} {target : Label} {dest : Nat} (hdest : l.labels[target]? = some dest)
      (hoffset : i.withOffset (relative a dest) = .ok j) : Patched l a (.branch i target) (some j)
  | table {low : Int} {targets : List Label} {default : Label} {offsets : List Int}
      {fallback : Nat} (harms : List.Forall₂ (fun target o => ∃ dest,
        l.labels[target]? = some dest ∧ o = relative a dest) targets offsets)
      (hdefault : l.labels[default]? = some fallback) :
      Patched l a (.table low targets default)
        (some (.tableSwitch (relative a fallback) low (low + offsets.length - 1) offsets))

theorem patched_of_patch {r : Option Instr} (h : l.patch a item = .ok r) : Patched l a item r := by
  cases item with
  | bind label =>
    cases h
    exact .bind label
  | instr i =>
    cases except_pure_ok h
    exact .instr i
  | branch i target =>
    obtain ⟨dest, hfind, h⟩ := except_bind_ok h
    obtain ⟨j, hoffset, h⟩ := except_bind_ok h
    cases h
    exact .branch (find_ok hfind) hoffset
  | table low targets default =>
    obtain ⟨offsets, hoffsets, h⟩ := except_bind_ok h
    obtain ⟨fallback, hfallback, h⟩ := except_bind_ok h
    cases except_pure_ok h
    refine .table ((except_mapM_ok hoffsets).imp fun target o hone => ?_) (find_ok hfallback)
    obtain ⟨dest, hfind, hone⟩ := except_bind_ok hone
    exact ⟨dest, find_ok hfind, (except_pure_ok hone).symm⟩

/-- A patched item jumps to the labels it names, and nowhere else. -/
theorem target_of_patch (h : l.patch a item = .ok (some i))
    (hplain : ∀ j, item = .instr j → j.offsets = []) {o : Int} (ho : o ∈ i.offsets) :
    ∃ label ∈ item.targets, ∃ dest : Nat, l.labels[label]? = some dest ∧ (a : Int) + o = dest := by
  cases patched_of_patch h with
  | instr =>
    rw [hplain i rfl] at ho
    cases ho
  | @branch j _ target dest hdest hoffset =>
    rw [Instr.offsets_of_withOffset hoffset] at ho
    cases List.mem_singleton.mp ho
    exact ⟨target, .head _, dest, hdest, add_relative a dest⟩
  | @table low targets default offsets fallback harms hdefault =>
    rcases List.mem_cons.mp ho with rfl | ho
    · exact ⟨default, List.mem_append_right _ (.head _), fallback, hdefault,
        add_relative a fallback⟩
    · obtain ⟨target, htarget, dest, hdest, rfl⟩ := forall₂_mem_right harms ho
      exact ⟨target, List.mem_append_left _ htarget, dest, hdest, add_relative a dest⟩

theorem isNone_of_patch {r : Option Instr} (h : l.patch a item = .ok r) :
    r.isNone = item.label?.isSome := by
  cases patched_of_patch h <;> rfl

theorem label?_of_patch (h : l.patch a item = .ok (some i)) : item.label? = none := by
  have hsome := isNone_of_patch h
  cases hlabel : item.label? with
  | none => rfl
  | some label =>
    rw [hlabel] at hsome
    cases hsome

/-- The instructions are the patched items that are no labels, one by one. -/
theorem forall₂_of_patchAll {code : List (Nat × Instr)} (h : l.patchAll = .ok code) :
    List.Forall₂ (fun e c => c.1 = e.1 ∧ l.patch e.1 e.2 = .ok (some c.2))
      (l.placed.filter fun e => e.2.label?.isNone) code := by
  have hfrom : ∀ {placed : List (Nat × Item)} {patched : List (Option (Nat × Instr))},
      List.Forall₂ (fun e entry => (do
        return (← l.patch e.1 e.2).map fun i => (e.1, i)) = Except.ok entry) placed patched →
      List.Forall₂ (fun e c => c.1 = e.1 ∧ l.patch e.1 e.2 = .ok (some c.2))
        (placed.filter fun e => e.2.label?.isNone) (patched.filterMap id) := by
    intro placed patched hall
    induction hall with
    | nil => exact .nil
    | @cons e entry placed patched hone _ ih =>
      obtain ⟨r, hpatch, hone⟩ := except_bind_ok hone
      cases hone
      have hnone := isNone_of_patch hpatch
      cases r with
      | none =>
        have hlabel : e.2.label?.isNone = false := by simpa using hnone
        rw [List.filter_cons_of_neg (by simp [hlabel])]
        exact ih
      | some i =>
        have hlabel : e.2.label?.isNone = true := by simpa using hnone
        rw [List.filter_cons_of_pos (by simp [hlabel])]
        exact .cons ⟨rfl, hpatch⟩ ih
  obtain ⟨patched, hpatched, h⟩ := except_bind_ok h
  cases h
  exact hfrom (except_mapM_ok hpatched)

theorem addresses_of_patchAll {code : List (Nat × Instr)} (h : l.patchAll = .ok code) :
    code.map Prod.fst = (l.placed.filter fun e => e.2.label?.isNone).map Prod.fst := by
  have hall := (forall₂_of_patchAll h).flip.imp fun _ _ hone => hone.1
  rw [← List.forall₂_eq_eq_eq, List.forall₂_map_left_iff, List.forall₂_map_right_iff]
  exact hall

/-- The instructions are the patched items, at the addresses of the items. -/
theorem patchAll_ok {code : List (Nat × Instr)} (h : l.patchAll = .ok code) :
    (∀ a item, (a, item) ∈ l.placed → ∃ r, l.patch a item = .ok r) ∧
      ∀ a i, (a, i) ∈ code ↔ ∃ item, (a, item) ∈ l.placed ∧ l.patch a item = .ok (some i) := by
  obtain ⟨patched, hpatched, h⟩ := except_bind_ok h
  cases h
  have hall := except_mapM_ok hpatched
  refine ⟨fun a item hmem => ?_, fun a i => ⟨fun hmem => ?_, fun hmem => ?_⟩⟩
  · obtain ⟨_, _, hone⟩ := forall₂_mem_left hall hmem
    obtain ⟨r, hpatch, _⟩ := except_bind_ok hone
    exact ⟨r, hpatch⟩
  · obtain ⟨_, hmem, rfl⟩ := List.mem_filterMap.mp hmem
    obtain ⟨⟨a', item⟩, hplaced, hone⟩ := forall₂_mem_right hall hmem
    obtain ⟨r, hpatch, hone⟩ := except_bind_ok hone
    obtain ⟨i', hr, heq⟩ := Option.map_eq_some_iff.mp (except_pure_ok hone)
    cases heq
    exact ⟨item, hplaced, hr ▸ hpatch⟩
  · obtain ⟨item, hplaced, hpatch⟩ := hmem
    obtain ⟨entry, hentry, hone⟩ := forall₂_mem_left hall hplaced
    dsimp only at hone
    rw [hpatch] at hone
    cases hone
    exact List.mem_filterMap.mpr ⟨_, hentry, rfl⟩

end Layout

-- ==== assembly

/-- What assembly makes of items: `l` is their layout, `asm` the patched code. -/
structure Assembled (items : List Item) (l : Layout) (asm : Assembly) : Prop where
  length : asm.length = Layout.stop 0 items
  labels : ∀ (label : Label) (a : Nat), asm.labels[label]? = some a ↔
    ∃ pre post, items = pre ++ .bind label :: post ∧ Layout.stop 0 pre = a
  /-- no label is bound twice -/
  nodup : (items.filterMap Item.label?).Nodup
  patched : ∀ pre item post, items = pre ++ item :: post →
    ∃ r, l.patch (Layout.stop 0 pre) item = .ok r
  code : ∀ a i, (a, i) ∈ asm.code ↔ ∃ pre item post, items = pre ++ item :: post ∧
    Layout.stop 0 pre = a ∧ l.patch a item = .ok (some i)
  order : asm.code.map Prod.fst = Layout.addresses 0 items
  layout : l.labels = asm.labels

theorem CodeBuffer.assemble_ok {b : CodeBuffer} {asm : Assembly} (h : b.assemble = .ok asm) :
    ∃ items l, List.Forall₂ Item.Widens b.items items ∧ Assembled items l asm := by
  obtain ⟨l, hsettle, h⟩ := except_bind_ok h
  split at h
  · obtain ⟨_, hthrow, _⟩ := except_bind_ok h
    cases hthrow
  · obtain ⟨code, hcode, h⟩ := except_bind_ok h
    cases h
    obtain ⟨items, hwide, hlayout⟩ := settle_ok hsettle
    obtain ⟨hplaced, hlength, hlabels, hnodup⟩ := Layout.ofItems_ok hlayout
    obtain ⟨hpatched, hmem⟩ := Layout.patchAll_ok hcode
    have horder := Layout.addresses_of_patchAll hcode
    rw [hplaced] at hpatched hmem horder
    refine ⟨items, l, hwide, ⟨hlength, fun label a => ?_, hnodup, fun pre item post heq => ?_,
      fun a i => ?_, horder, rfl⟩⟩
    · rw [hlabels, Layout.mem_place]
    · exact hpatched _ _ (Layout.mem_place.mpr ⟨pre, post, heq, rfl⟩)
    · rw [hmem]
      constructor
      · rintro ⟨item, hplace, hpatch⟩
        obtain ⟨pre, post, heq, haddr⟩ := Layout.mem_place.mp hplace
        exact ⟨pre, item, post, heq, haddr, hpatch⟩
      · rintro ⟨pre, item, post, heq, haddr, hpatch⟩
        exact ⟨item, Layout.mem_place.mpr ⟨pre, post, heq, haddr⟩, hpatch⟩

namespace Assembled

variable {items : List Item} {l : Layout} {asm : Assembly}

/-- An item that is no label stands for an instruction at its address. -/
theorem exists_instr (h : Assembled items l asm) {pre post : List Item} {item : Item}
    (heq : items = pre ++ item :: post) (hitem : item.label? = none) :
    ∃ i, l.patch (Layout.stop 0 pre) item = .ok (some i) := by
  obtain ⟨r, hr⟩ := h.patched pre item post heq
  have hsome := Layout.isNone_of_patch hr
  rw [hitem] at hsome
  cases r with
  | none => cases hsome
  | some i => exact ⟨i, hr⟩

/-- Behind a label, at the same address, lies the next instruction. -/
theorem instr_at_label (h : Assembled items l asm) {pre post : List Item} {label : Label}
    (heq : items = pre ++ .bind label :: post) (hpost : ∃ item ∈ post, item.label? = none) :
    ∃ i, (Layout.stop 0 pre, i) ∈ asm.code := by
  induction post generalizing pre label with
  | nil =>
    obtain ⟨_, hmem, _⟩ := hpost
    cases hmem
  | cons item post ih =>
    have hbehind : items = (pre ++ [.bind label]) ++ item :: post := by
      rw [heq, List.append_assoc]
      rfl
    have hsame : Layout.stop 0 (pre ++ [.bind label]) = Layout.stop 0 pre := by
      rw [Layout.stop_concat]
      rfl
    cases hitem : item.label? with
    | none =>
      obtain ⟨i, hi⟩ := h.exists_instr hbehind hitem
      rw [hsame] at hi
      exact ⟨i, (h.code _ i).mpr ⟨_, item, post, hbehind, hsame, hi⟩⟩
    | some other =>
      cases Item.eq_bind_of_label? hitem
      have hlater : ∃ item ∈ post, item.label? = none := by
        obtain ⟨x, hmem, hx⟩ := hpost
        rcases List.mem_cons.mp hmem with rfl | hmem
        · cases hx
        · exact ⟨x, hmem, hx⟩
      obtain ⟨i, hi⟩ := ih hbehind hlater
      rw [hsame] at hi
      exact ⟨i, hi⟩

theorem lt_length (h : Assembled items l asm) {a : Nat} {i : Instr} (hmem : (a, i) ∈ asm.code) :
    a < asm.length := by
  obtain ⟨pre, item, post, heq, haddr, hpatch⟩ := (h.code a i).mp hmem
  have hsize := Layout.size_pos (Layout.label?_of_patch hpatch) a
  have hstop : Layout.stop 0 (pre ++ [item]) ≤ Layout.stop 0 items := by
    rw [heq, show pre ++ item :: post = (pre ++ [item]) ++ post by simp,
      Layout.stop_append 0 (pre ++ [item]) post]
    exact Layout.le_stop _ post
  rw [Layout.stop_concat, haddr] at hstop
  rw [h.length]
  omega

end Assembled

end BytecodeBridge
