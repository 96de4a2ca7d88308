/-
Paths through assembled code, and what has happened on all of them.

`Path` follows control through the instructions of a method: from one to
the next, and along every offset that an instruction may jump by. To know
that some instruction was executed on every path to a place it is enough
to look at the items in front of that place. `Sure` does so backwards: the
instruction stands there, or control cannot come from there, or it is sure
further up; and at a label it is sure from above *and* from wherever the
label is branched to. For the latter a set of labels is assumed, and the
assumption is checked where branches name them (`Guarded`).

The two together form an inductive invariant of paths: with guarded code,
no path leads to a place that is sure unless the instruction was executed
(`Path.of_sure`). The labels in the set may lie anywhere, behind the branch
or before it, so that loops need no argument of their own.
-/
import BytecodeBridge.Proofs.Code.Layout

namespace BytecodeBridge

open CodeBuffer Layout

-- ==== paths

/-- The instructions executed on some way from the start of the code to an address,
the latest first. -/
inductive Path (code : List (Nat × Instr)) : List Instr → Nat → Prop where
  | start : Path code [] 0
  | next {trace : List Instr} {a : Nat} {i : Instr} (h : Path code trace a)
      (hi : (a, i) ∈ code) (hgo : i.isUnconditional = false) :
      Path code (i :: trace) (a + i.size a)
  | jump {trace : List Instr} {a dest : Nat} {i : Instr} {o : Int} (h : Path code trace a)
      (hi : (a, i) ∈ code) (ho : o ∈ i.offsets) (hdest : (a : Int) + o = dest) :
      Path code (i :: trace) dest

-- ==== patching

namespace Instr

/-- Filling in an offset changes neither the length of a branch nor where control
may go on. -/
theorem withOffset_ok {i j : Instr} {offset : Int} (h : i.withOffset offset = .ok j) (a : Nat) :
    j.size a = i.size a ∧ j.isUnconditional = i.isUnconditional := by
  have hshort : ∀ make : Int → Instr, (∀ o, (make o).size a = i.size a ∧
      (make o).isUnconditional = i.isUnconditional) → shortBranch offset make = .ok j →
      j.size a = i.size a ∧ j.isUnconditional = i.isUnconditional := by
    intro make hmake h
    unfold shortBranch at h
    split at h
    · cases h
      exact hmake offset
    · cases h
  cases i with
  | gotoW o =>
    cases h
    exact ⟨rfl, rfl⟩
  | goto o => exact hshort .goto (fun _ => ⟨rfl, rfl⟩) h
  | ifZero way o => exact hshort (.ifZero way) (fun _ => ⟨rfl, rfl⟩) h
  | ifInt way o => exact hshort (.ifInt way) (fun _ => ⟨rfl, rfl⟩) h
  | ifSame same o => exact hshort (.ifSame same) (fun _ => ⟨rfl, rfl⟩) h
  | ifNull null o => exact hshort (.ifNull null) (fun _ => ⟨rfl, rfl⟩) h
  | _ => cases h

end Instr

/-- Whether control never goes on behind the item. -/
def Item.leaves : Item → Bool
  | instr i | branch i _ => i.isUnconditional
  | table _ _ _ => true
  | bind _ => false

namespace Layout

variable {l : Layout} {a : Nat} {item : Item} {i : Instr}

theorem patch_ok (h : l.patch a item = .ok (some i)) :
    i.size a = item.size a ∧ i.isUnconditional = item.leaves ∧
      (item = .instr i ∨ i.offsets ≠ []) := by
  cases patched_of_patch h with
  | instr => exact ⟨rfl, rfl, .inl rfl⟩
  | branch _ hoffset =>
    obtain ⟨hsize, hgo⟩ := Instr.withOffset_ok hoffset a
    refine ⟨hsize, hgo, .inr ?_⟩
    rw [Instr.offsets_of_withOffset hoffset]
    exact List.cons_ne_nil _ _
  | @table low targets default offsets fallback harms =>
    refine ⟨?_, rfl, .inr (List.cons_ne_nil _ _)⟩
    show Instr.tableSize a offsets.length = Instr.tableSize a targets.length
    rw [harms.length_eq]

-- ==== cuts

/-- Items that take no room are labels. -/
theorem labels_of_stop_eq {addr : Nat} {items : List Item} (h : stop addr items = addr) :
    ∀ item ∈ items, item.label? ≠ none := by
  induction items generalizing addr with
  | nil => simp
  | cons item items ih =>
    have hle := le_stop (addr + item.size addr) items
    change stop (addr + item.size addr) items = addr at h
    have hzero : item.size addr = 0 := by omega
    have hrest : stop (addr + item.size addr) items = addr + item.size addr := by omega
    refine List.forall_mem_cons.mpr ⟨fun hnone => ?_, ih hrest⟩
    have hpos := size_pos hnone addr
    omega

/-- Of two cuts at one address, the one right in front of an item that is no label is
the later one, and only labels lie between them. -/
theorem labels_between {pre₀ post₀ pre post : List Item}
    (heq : pre₀ ++ post₀ = pre ++ item :: post) (hitem : item.label? = none)
    (hstop : stop 0 pre = stop 0 pre₀) :
    ∃ mid, pre = pre₀ ++ mid ∧ ∀ x ∈ mid, x.label? ≠ none := by
  rcases List.append_eq_append_iff.mp heq with ⟨mid, rfl, -⟩ | ⟨mid, rfl, hpost⟩
  · rw [stop_append] at hstop
    exact ⟨mid, rfl, labels_of_stop_eq hstop⟩
  · cases mid with
    | nil => exact ⟨[], by simp, by simp⟩
    | cons first mid =>
      cases hpost
      rw [stop_append] at hstop
      exact absurd hitem (labels_of_stop_eq hstop.symm item (.head _))

end Layout

variable {items rest : List Item} {i : Instr} {passable : Label → Bool}

-- ==== labels in items

/-- The labels that items bind. -/
def boundLabels (items : List Item) : List Label :=
  items.filterMap Item.label?

theorem mem_boundLabels {label : Label} :
    label ∈ boundLabels items ↔ .bind label ∈ items := by
  unfold boundLabels
  rw [List.mem_filterMap]
  constructor
  · rintro ⟨item, hmem, hlabel⟩
    rwa [← Item.eq_bind_of_label? hlabel]
  · exact fun hmem => ⟨_, hmem, rfl⟩

theorem boundLabels_cons (item : Item) (items : List Item) :
    boundLabels (item :: items) = item.label?.toList ++ boundLabels items := by
  unfold boundLabels
  rw [List.filterMap_cons]
  cases item.label? <;> rfl

theorem CodeBuffer.reverse_items (b : CodeBuffer) :
    b.items.reverse = b.body ++ b.prologue.map .instr := by
  unfold items
  rw [List.reverse_append, List.reverse_reverse, ← List.map_reverse, List.reverse_reverse]

theorem boundLabels_widens {wide : List Item} (h : List.Forall₂ Item.Widens items wide) :
    boundLabels wide = boundLabels items := by
  unfold boundLabels
  induction h with
  | nil => rfl
  | cons hone _ ih => rw [List.filterMap_cons, List.filterMap_cons, hone.label?, ih]

theorem boundLabels_items (b : CodeBuffer) :
    boundLabels b.items = (boundLabels b.body).reverse := by
  have hprologue : (b.prologue.reverse.map Item.instr).filterMap Item.label? = [] := by
    rw [List.filterMap_map]
    exact List.filterMap_eq_nil_iff.mpr fun _ _ => rfl
  unfold boundLabels items
  rw [List.filterMap_append, List.filterMap_reverse, hprologue, List.nil_append]

/-- What retracting takes away lies behind labels only, ones that it may pass. -/
theorem CodeBuffer.retractFrom_passable (h : retractFrom i passable items = some rest) :
    ∃ mid tail, (∀ x ∈ mid, ∃ label, x = .bind label ∧ passable label = true) ∧
      items = mid ++ .instr i :: tail ∧ rest = mid ++ tail := by
  induction items generalizing rest with
  | nil => cases h
  | cons first items ih =>
    cases first with
    | bind label =>
      unfold retractFrom at h
      split at h
      · next hpass =>
        obtain ⟨rest', hrest, rfl⟩ := Option.map_eq_some_iff.mp h
        obtain ⟨mid, tail, hmid, rfl, rfl⟩ := ih hrest
        exact ⟨.bind label :: mid, tail,
          List.forall_mem_cons.mpr ⟨⟨label, rfl, hpass⟩, hmid⟩, rfl, rfl⟩
      · cases h
    | instr last =>
      unfold retractFrom at h
      split at h
      · next heq =>
        cases h
        subst heq
        exact ⟨[], items, by simp, rfl, rfl⟩
      · cases h
    | branch j target | table low targets default => cases h

theorem CodeBuffer.retractFrom_ok (h : retractFrom i passable items = some rest) :
    ∃ mid tail, (∀ x ∈ mid, x.label? ≠ none) ∧ items = mid ++ .instr i :: tail ∧
      rest = mid ++ tail := by
  obtain ⟨mid, tail, hmid, hitems, hrest⟩ := retractFrom_passable h
  refine ⟨mid, tail, fun x hx => ?_, hitems, hrest⟩
  obtain ⟨label, rfl, -⟩ := hmid x hx
  nofun

theorem CodeBuffer.mem_of_retractFrom (h : retractFrom i passable items = some rest) {item : Item}
    (hmem : item ∈ rest) : item ∈ items := by
  obtain ⟨mid, tail, -, rfl, rfl⟩ := retractFrom_ok h
  exact List.mem_append.mpr ((List.mem_append.mp hmem).imp_right (List.mem_cons_of_mem _))

theorem boundLabels_retractFrom (h : retractFrom i passable items = some rest) :
    boundLabels rest = boundLabels items := by
  obtain ⟨mid, tail, -, rfl, rfl⟩ := retractFrom_ok h
  unfold boundLabels
  rw [List.filterMap_append, List.filterMap_append]
  rfl

-- ==== closed code

/-- Items, the latest first, that control does not fall out of. -/
def Closed : List Item → Prop
  | [] => False
  | .instr i :: rest | .branch i _ :: rest => i.isUnconditional = true ∨ Closed rest
  | .table _ _ _ :: _ => True
  | .bind _ :: _ => False

theorem Closed.head (h : Closed items) :
    ∃ item rest, items = item :: rest ∧ item.label? = none := by
  cases items with
  | nil => exact h.elim
  | cons item rest =>
    cases item with
    | bind label => exact h.elim
    | _ => exact ⟨_, rest, rfl, rfl⟩

/-- Taking back an instruction that goes on leaves closed code closed. -/
theorem Closed.retract (hi : i.isUnconditional = false) (h : Closed items)
    (hretract : retractFrom i passable items = some rest) : Closed rest := by
  obtain ⟨mid, tail, hmid, rfl, rfl⟩ := retractFrom_ok hretract
  cases mid with
  | nil =>
    refine Or.resolve_left h fun hgo => ?_
    cases hi.symm.trans hgo
  | cons item mid =>
    cases item with
    | bind label => exact h.elim
    | _ => exact absurd rfl (hmid _ (.head _))

-- ==== sure execution

section Sure

variable {R R' : Label → Prop} {stores reads : Instr → Prop}

variable {rest items : List Item} {i : Instr}

/-- Control that comes to the end of the items, given the latest first, has executed an
instruction that stores, if it has wherever it branched to a label with `R`. -/
def Sure (R : Label → Prop) (stores : Instr → Prop) : List Item → Prop
  | [] => False
  | .bind label :: rest => R label ∧ Sure R stores rest
  | .instr i :: rest => stores i ∨ i.isUnconditional = true ∨ Sure R stores rest
  | .branch i _ :: rest => i.isUnconditional = true ∨ Sure R stores rest
  | .table _ _ _ :: _ => True

/-- Branches to labels with `R`, and instructions that read, stand only where an
instruction that stores was executed. -/
def Guarded (R : Label → Prop) (stores reads : Instr → Prop) : List Item → Prop
  | [] => True
  | item :: rest =>
    ((∃ label ∈ item.targets, R label) → Sure R stores rest) ∧
      (∀ i, item = .instr i → reads i → Sure R stores rest) ∧ Guarded R stores reads rest

theorem Sure.cons {item : Item} (h : Sure R stores rest)
    (hlabel : ∀ label, item = .bind label → R label) : Sure R stores (item :: rest) := by
  cases item with
  | bind label => exact ⟨hlabel label rfl, h⟩
  | instr i => exact .inr (.inr h)
  | branch i target => exact .inr h
  | table low targets default => trivial

/-- What is sure behind an item that control goes through is sure in front of it,
unless the item stores. -/
theorem Sure.of_cons {item : Item} (h : Sure R stores (item :: rest))
    (hleaves : item.leaves = false) :
    Sure R stores rest ∨ ∃ i, item = .instr i ∧ stores i := by
  cases item with
  | bind label => exact .inl h.2
  | instr i =>
    rcases h with hstore | hgo | h
    · exact .inr ⟨i, rfl, hstore⟩
    · cases hleaves.symm.trans hgo
    · exact .inl h
  | branch i target =>
    rcases h with hgo | h
    · cases hleaves.symm.trans hgo
    · exact .inl h
  | table low targets default => cases hleaves

/-- Labels add nothing but their own condition. -/
theorem sure_labels {mid : List Item} (hmid : ∀ x ∈ mid, x.label? ≠ none) :
    Sure R stores (mid ++ rest) ↔
      (∀ label, .bind label ∈ mid → R label) ∧ Sure R stores rest := by
  induction mid with
  | nil => simp
  | cons item mid ih =>
    obtain ⟨hitem, hrest⟩ := List.forall_mem_cons.mp hmid
    cases item with
    | bind label =>
      show R label ∧ Sure R stores (mid ++ rest) ↔ _
      rw [ih hrest, ← and_assoc]
      refine and_congr_left fun _ => ⟨fun h l hl => ?_, fun h =>
        ⟨h label (.head _), ?_⟩⟩
      · rcases List.mem_cons.mp hl with heq | hl
        · cases heq
          exact h.1
        · exact h.2 l hl
      · exact fun l hl => h l (.tail _ hl)
    | _ => exact absurd rfl hitem

theorem Sure.append (h : Sure R stores items) (more : List Item) :
    Sure R stores (items ++ more) := by
  induction items with
  | nil => exact h.elim
  | cons item items ih =>
    cases item with
    | bind label => exact ⟨h.1, ih h.2⟩
    | instr i => exact h.imp_right (Or.imp_right ih)
    | branch i target => exact h.imp_right ih
    | table low targets default => trivial

theorem Sure.mono (h : Sure R stores items)
    (hlabels : ∀ label, .bind label ∈ items → R label → R' label) : Sure R' stores items := by
  induction items with
  | nil => exact h
  | cons item items ih =>
    have hrest := fun h => ih h fun label hl => hlabels label (.tail _ hl)
    cases item with
    | bind label => exact ⟨hlabels label (.head _) h.1, hrest h.2⟩
    | instr i => exact h.imp_right (Or.imp_right hrest)
    | branch i target => exact h.imp_right hrest
    | table low targets default => trivial

/-- Control does not come to the end of closed code, so everything is sure there. -/
theorem Closed.sure (h : Closed items) : Sure R stores items := by
  induction items with
  | nil => exact h
  | cons item items ih =>
    cases item with
    | bind label => exact h.elim
    | instr i => exact .inr (h.imp_right ih)
    | branch i target => exact h.imp_right ih
    | table low targets default => trivial

theorem Sure.widens {wide : List Item} (hwide : List.Forall₂ Item.Widens items wide)
    (h : Sure R stores items) : Sure R stores wide := by
  induction hwide with
  | nil => exact h
  | @cons item _ _ _ hone _ ih =>
    cases hone with
    | wide => exact .inl rfl
    | same =>
      cases item with
      | bind label => exact ⟨h.1, ih h.2⟩
      | instr i => exact h.imp_right (Or.imp_right ih)
      | branch i target => exact h.imp_right ih
      | table low targets default => trivial

-- ==== guarded code

theorem Guarded.append {more : List Item} (h : Guarded R stores reads items)
    (hmore : Guarded R stores reads more) : Guarded R stores reads (items ++ more) := by
  induction items with
  | nil => exact hmore
  | cons item items ih =>
    obtain ⟨htargets, hreads, hrest⟩ := h
    exact ⟨fun ht => (htargets ht).append more, fun i hi hr => (hreads i hi hr).append more,
      ih hrest⟩

/-- Fewer labels to branch to, as long as the bound ones remain. -/
theorem Guarded.mono (h : Guarded R stores reads items) (hsub : ∀ label, R' label → R label)
    (hlabels : ∀ label, .bind label ∈ items → R label → R' label) :
    Guarded R' stores reads items := by
  induction items with
  | nil => trivial
  | cons item items ih =>
    obtain ⟨htargets, hreads, hrest⟩ := h
    have hbound := fun label hl => hlabels label (.tail _ hl)
    refine ⟨fun ⟨label, hl, hR⟩ => (htargets ⟨label, hl, hsub label hR⟩).mono hbound,
      fun i hi hr => (hreads i hi hr).mono hbound, ih hrest hbound⟩

theorem Guarded.widens {wide : List Item} (hwide : List.Forall₂ Item.Widens items wide)
    (h : Guarded R stores reads items) : Guarded R stores reads wide := by
  induction hwide with
  | nil => trivial
  | cons hone hrest ih =>
    obtain ⟨htargets, hreads, hguard⟩ := h
    refine ⟨fun ht => (htargets ?_).widens hrest, fun i hi hr => (hreads i ?_ hr).widens hrest,
      ih hguard⟩
    · rwa [hone.targets] at ht
    · cases hone with
      | same => exact hi
      | wide => cases hi

theorem sure_instrs {instrs : List Instr} (hi : i ∈ instrs) (hstores : stores i) :
    Sure R stores (instrs.map .instr) := by
  induction instrs with
  | nil => cases hi
  | cons j instrs ih =>
    rcases List.mem_cons.mp hi with rfl | hi
    · exact .inl hstores
    · exact .inr (.inr (ih hi))

theorem guarded_instrs {instrs : List Instr} (h : ∀ i ∈ instrs, ¬ reads i) :
    Guarded R stores reads (instrs.map .instr) := by
  induction instrs with
  | nil => trivial
  | cons i instrs ih =>
    obtain ⟨hi, hrest⟩ := List.forall_mem_cons.mp h
    refine ⟨?_, fun j hj hreads => ?_, ih hrest⟩
    · rintro ⟨label, hl, -⟩
      cases hl
    · cases hj
      exact absurd hreads hi

theorem guarded_of_sure (hsure : Sure (fun _ => True) stores rest)
    (hguard : Guarded (fun _ => True) stores reads rest) :
    Sure (fun _ => True) stores (items ++ rest) ∧
      Guarded (fun _ => True) stores reads (items ++ rest) := by
  induction items with
  | nil => exact ⟨hsure, hguard⟩
  | cons item items ih =>
    exact ⟨ih.1.cons fun _ _ => trivial, fun _ => ih.1, fun _ _ _ => ih.1, ih.2⟩

/-- Labels need no guard. -/
private theorem guarded_labels {mid : List Item} (hmid : ∀ x ∈ mid, x.label? ≠ none)
    (h : Guarded R stores reads rest) : Guarded R stores reads (mid ++ rest) := by
  induction mid with
  | nil => exact h
  | cons item mid ih =>
    obtain ⟨hitem, hrest⟩ := List.forall_mem_cons.mp hmid
    cases item with
    | bind label =>
      refine ⟨?_, nofun, ih hrest⟩
      rintro ⟨l, hl, -⟩
      cases hl
    | _ => exact absurd rfl hitem

theorem Guarded.of_append {before : List Item} (h : Guarded R stores reads (before ++ rest)) :
    Guarded R stores reads rest := by
  induction before with
  | nil => exact h
  | cons first before ih => exact ih h.2.2

-- ==== retracting

/-- Taking back an instruction that goes on and does not store leaves what is sure. -/
theorem Sure.retract {passable : Label → Bool} (hi : i.isUnconditional = false)
    (hstore : ¬ stores i) (h : Sure R stores items)
    (hretract : retractFrom i passable items = some rest) : Sure R stores rest := by
  obtain ⟨mid, tail, hmid, rfl, rfl⟩ := retractFrom_ok hretract
  obtain ⟨hlabels, hsure⟩ := (sure_labels hmid).mp h
  refine (sure_labels hmid).mpr ⟨hlabels, (hsure.of_cons hi).resolve_right ?_⟩
  rintro ⟨j, hj, hstores⟩
  cases hj
  exact hstore hstores

theorem Guarded.retract {passable : Label → Bool} (h : Guarded R stores reads items)
    (hretract : retractFrom i passable items = some rest) :
    Guarded R stores reads rest := by
  obtain ⟨mid, tail, hmid, rfl, rfl⟩ := retractFrom_ok hretract
  exact guarded_labels hmid h.of_append.2.2

end Sure

-- ==== soundness

section Paths

variable {R : Label → Prop} {stores reads : Instr → Prop} {items : List Item} {l : Layout}
  {asm : Assembly}

/-- Guarded code keeps its word: a path to a place that is sure has executed an
instruction that stores. -/
theorem Path.of_sure (h : Assembled items l asm)
    (hplain : ∀ i, .instr i ∈ items → i.offsets = [])
    (hguard : Guarded R stores reads items.reverse) {trace : List Instr} {a : Nat}
    (hpath : Path asm.code trace a) {pre post : List Item} {item : Item}
    (heq : items = pre ++ item :: post) (hitem : item.label? = none)
    (haddr : stop 0 pre = a) (hsure : Sure R stores pre.reverse) :
    ∃ i ∈ trace, stores i := by
  -- by induction on the path: whatever the last step was, the place it came from is sure too
  induction hpath generalizing pre post item with
  | start =>
    have hcut : [] ++ items = pre ++ item :: post := heq
    obtain ⟨mid, rfl, hmid⟩ := labels_between hcut hitem haddr
    rw [← List.append_nil pre.reverse] at hsure
    exact ((sure_labels fun x hx => hmid x (List.mem_reverse.mp hx)).mp hsure).2.elim
  | @next trace a i hpath hi hgo ih =>
    obtain ⟨pre₀, item₀, post₀, heq₀, rfl, hpatch⟩ := (h.code a i).mp hi
    obtain ⟨hsize, hleaves, -⟩ := patch_ok hpatch
    have hsplit : (pre₀ ++ [item₀]) ++ post₀ = pre ++ item :: post := by
      rw [← heq, heq₀, List.append_assoc]
      rfl
    obtain ⟨mid, rfl, hmid⟩ := labels_between hsplit hitem
      (by rw [haddr, stop_concat, hsize])
    rw [List.reverse_append, List.reverse_append] at hsure
    have hbehind := ((sure_labels fun x hx => hmid x (List.mem_reverse.mp hx)).mp hsure).2
    rcases hbehind.of_cons (hleaves.symm.trans hgo) with hfront | ⟨j, rfl, hstore⟩
    · obtain ⟨j, hj, hstore⟩ := ih heq₀ (label?_of_patch hpatch) rfl hfront
      exact ⟨j, .tail _ hj, hstore⟩
    · cases hpatch
      exact ⟨i, .head _, hstore⟩
  | @jump trace a dest i o hpath hi ho hdest ih =>
    obtain ⟨pre₀, item₀, post₀, heq₀, rfl, hpatch⟩ := (h.code a i).mp hi
    obtain ⟨label, hlabel, dest', hfind, hsum⟩ := target_of_patch hpatch
      (fun j hj => hplain j (hj ▸ heq₀ ▸ List.mem_append_right _ (.head _))) ho
    obtain rfl : dest = dest' := by omega
    rw [h.layout] at hfind
    obtain ⟨preL, postL, heqL, haddrL⟩ := (h.labels label dest).mp hfind
    have hsplit : (preL ++ [.bind label]) ++ postL = pre ++ item :: post := by
      rw [← heq, heqL, List.append_assoc]
      rfl
    obtain ⟨mid, rfl, hmid⟩ := labels_between hsplit hitem
      (by rw [haddr, stop_concat, haddrL]; rfl)
    rw [List.reverse_append, List.reverse_append] at hsure
    have hbehind := ((sure_labels fun x hx => hmid x (List.mem_reverse.mp hx)).mp hsure).2
    -- the label is one to branch to, so the branch is guarded
    have hrev : items.reverse = post₀.reverse ++ item₀ :: pre₀.reverse := by
      rw [heq₀]
      simp
    rw [hrev] at hguard
    have hfront := hguard.of_append.1 ⟨label, hlabel, hbehind.1⟩
    obtain ⟨j, hj, hstore⟩ := ih heq₀ (label?_of_patch hpatch) rfl hfront
    exact ⟨j, .tail _ hj, hstore⟩

/-- On every path to an instruction that reads, one that stores was executed. -/
theorem Path.stores_of_reads (h : Assembled items l asm)
    (hplain : ∀ i, .instr i ∈ items → i.offsets = [])
    (hguard : Guarded R stores reads items.reverse) {trace : List Instr} {a : Nat}
    (hpath : Path asm.code trace a) {i : Instr} (hi : (a, i) ∈ asm.code) (hread : reads i)
    (hoffsets : i.offsets = []) : ∃ j ∈ trace, stores j := by
  obtain ⟨pre, item, post, heq, haddr, hpatch⟩ := (h.code a i).mp hi
  have hinstr := (patch_ok hpatch).2.2.resolve_right fun hne => hne hoffsets
  have hrev : items.reverse = post.reverse ++ item :: pre.reverse := by
    rw [heq]
    simp
  have hguarded := hrev ▸ hguard
  exact Path.of_sure h hplain hguard hpath heq (label?_of_patch hpatch) haddr
    (hguarded.of_append.2.1 i hinstr hread)

end Paths

end BytecodeBridge
