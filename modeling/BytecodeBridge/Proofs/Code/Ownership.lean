/-
Which label an instruction belongs to.

The labels of operations and of handlers mark where new code begins: what
follows such a *mark*, up to the next one, was emitted for it. `owners`
reads this off code under construction, one owner for each instruction and
none before the first mark.

Assembly keeps the order of the items, so an instruction of the finished
code and its owner stand at the same place in their lists
(`Assembled.owners`). It also keeps what comes before what: a label has an
address at or below that of an instruction exactly if it is bound in front
of it (`Assembled.le_iff_mem`). Labels take no room, so an address alone
would not tell a label in front of an instruction from one behind the
instruction before it; that every instruction takes some room does.
-/
import BytecodeBridge.Proofs.Code.Path

namespace BytecodeBridge

open Layout

-- ==== marks

/-- The labels of operations and of handlers. -/
def Label.isMark : Label → Bool
  | .source _ | .handler _ => true
  | _ => false

/-- The marks that items bind, in order. -/
def marks (items : List Item) : List Label :=
  (boundLabels items).filter Label.isMark

theorem mem_marks {items : List Item} {label : Label} :
    label ∈ marks items ↔ .bind label ∈ items ∧ label.isMark = true := by
  unfold marks
  rw [List.mem_filter, mem_boundLabels]

theorem marks_append (a b : List Item) : marks (a ++ b) = marks a ++ marks b := by
  simp [marks, boundLabels]

private theorem marks_cons_of_none {item : Item} (h : item.label? = none) (items : List Item) :
    marks (item :: items) = marks items := by
  simp [marks, boundLabels, h]

theorem marks_bind (label : Label) (items : List Item) :
    marks (.bind label :: items)
      = if label.isMark then label :: marks items else marks items := by
  show ((label :: boundLabels items).filter Label.isMark) = _
  rw [List.filter_cons]
  rfl

theorem marks_widens {items wide : List Item} (h : List.Forall₂ Item.Widens items wide) :
    marks wide = marks items := by
  unfold marks
  rw [boundLabels_widens h]

theorem marks_items (b : CodeBuffer) : marks b.items = (marks b.body).reverse := by
  unfold marks
  rw [boundLabels_items, List.filter_reverse]

-- ==== owners

/-- For each instruction among the items the last mark in front of it, where `owner`
is the last one before the items. -/
def owners (owner : Option Label) : List Item → List (Option Label)
  | [] => []
  | .bind label :: rest => owners (if label.isMark then some label else owner) rest
  | _ :: rest => owner :: owners owner rest

theorem owners_cons_of_none {item : Item} (h : item.label? = none) (owner : Option Label)
    (items : List Item) : owners owner (item :: items) = owner :: owners owner items := by
  cases item with
  | bind label => cases h
  | _ => rfl

/-- Owners depend on the labels, which no item loses by becoming wide. -/
theorem owners_widens {items wide : List Item} (h : List.Forall₂ Item.Widens items wide)
    (owner : Option Label) : owners owner wide = owners owner items := by
  induction h generalizing owner with
  | nil => rfl
  | @cons item item' items wide hone _ ih =>
    cases hlabel : item.label? with
    | none =>
      rw [owners_cons_of_none hlabel, owners_cons_of_none (hone.label?.trans hlabel), ih]
    | some label =>
      rw [Item.eq_bind_of_label? hlabel, Item.eq_bind_of_label? (hone.label?.trans hlabel)]
      exact ih _

/-- The owner of an instruction is the last mark of the items in front of it. -/
private theorem forall₂_owners (items : List Item) (owner : Option Label) (addr : Nat) :
    List.Forall₂ (fun w a => ∃ pre item post, items = pre ++ item :: post ∧
        item.label? = none ∧ stop addr pre = a ∧ w = (marks pre).getLast?.or owner)
      (owners owner items) (addresses addr items) := by
  induction items generalizing owner addr with
  | nil => exact .nil
  | cons first items ih =>
    cases hlabel : first.label? with
    | none =>
      have haddr : addresses addr (first :: items)
          = addr :: addresses (addr + first.size addr) items := by
        simp [addresses, place, hlabel]
      rw [owners_cons_of_none hlabel, haddr]
      refine .cons ⟨[], first, items, rfl, hlabel, rfl, rfl⟩ ?_
      refine (ih owner (addr + first.size addr)).imp fun w a hcut => ?_
      obtain ⟨pre, item, post, rfl, hitem, hstop, howner⟩ := hcut
      refine ⟨first :: pre, item, post, rfl, hitem, hstop, ?_⟩
      rw [marks_cons_of_none hlabel, howner]
    | some label =>
      rw [Item.eq_bind_of_label? hlabel]
      have haddr : addresses addr (.bind label :: items)
          = addresses addr items := by
        simp [addresses, place, Item.label?, Item.size]
      rw [haddr]
      refine (ih _ addr).imp fun w a hcut => ?_
      obtain ⟨pre, item, post, rfl, hitem, hstop, howner⟩ := hcut
      refine ⟨.bind label :: pre, item, post, rfl, hitem, hstop, ?_⟩
      rw [howner, marks_bind]
      by_cases hmark : label.isMark = true
      · rw [if_pos hmark, if_pos hmark, List.getLast?_cons]
        cases (marks pre).getLast? with
        | none | some last => rfl
      · rw [if_neg hmark, if_neg hmark]

-- ==== addresses

namespace Assembled

variable {items : List Item} {l : Layout} {asm : Assembly}

variable {label : Label} {a : Nat} {pre post : List Item}

theorem owners (h : Assembled items l asm) :
    List.Forall₂ (fun w e => ∃ pre item post, items = pre ++ item :: post ∧
        item.label? = none ∧ stop 0 pre = e.1 ∧ w = (marks pre).getLast?)
      (owners none items) asm.code := by
  have hall := forall₂_owners items none 0
  rw [← h.order, List.forall₂_map_right_iff] at hall
  simpa using hall

/-- A label that is bound in front of a place lies at or below it. -/
theorem le_of_mem (h : Assembled items l asm) (hlabel : asm.labels[label]? = some a)
    (heq : items = pre ++ post) (hmem : .bind label ∈ pre) : a ≤ stop 0 pre := by
  obtain ⟨front, back, rfl⟩ := List.append_of_mem hmem
  have hat : asm.labels[label]? = some (stop 0 front) := by
    rw [h.labels]
    exact ⟨front, back ++ post, by rw [heq, List.append_assoc]; rfl, rfl⟩
  rw [hlabel] at hat
  rw [Option.some.inj hat, stop_append]
  exact le_stop _ _

/-- A label that is bound behind an instruction lies above it. -/
theorem lt_of_not_mem (h : Assembled items l asm) (hlabel : asm.labels[label]? = some a)
    {item : Item} (heq : items = pre ++ item :: post) (hitem : item.label? = none)
    (hnot : .bind label ∉ pre) : stop 0 pre < a := by
  obtain ⟨front, back, hcut, hstop⟩ := (h.labels label a).mp hlabel
  rw [heq] at hcut
  rcases List.append_eq_append_iff.mp hcut with ⟨mid, rfl, hmid⟩ | ⟨mid, rfl, hmid⟩
  · cases mid with
    | nil =>
      rw [List.nil_append] at hmid
      obtain ⟨rfl, -⟩ := List.cons.inj hmid
      cases hitem
    | cons first mid =>
      obtain ⟨rfl, -⟩ := List.cons.inj hmid
      have hsize := size_pos hitem (stop 0 pre)
      have hle := le_stop (stop 0 pre + item.size (stop 0 pre)) mid
      rw [stop_append] at hstop
      change stop (stop 0 pre + item.size (stop 0 pre)) mid = a at hstop
      omega
  · cases mid with
    | nil =>
      rw [List.nil_append] at hmid
      obtain ⟨rfl, -⟩ := List.cons.inj hmid
      cases hitem
    | cons first mid =>
      obtain ⟨rfl, -⟩ := List.cons.inj hmid
      exact absurd (by simp) hnot

/-- A label lies at or below an instruction exactly if it is bound in front of it. -/
theorem le_iff_mem (h : Assembled items l asm) (hlabel : asm.labels[label]? = some a) {item : Item}
    (heq : items = pre ++ item :: post) (hitem : item.label? = none) :
    a ≤ stop 0 pre ↔ .bind label ∈ pre := by
  constructor
  · intro hle
    by_contra hnot
    have hlt := h.lt_of_not_mem hlabel heq hitem hnot
    omega
  · intro hmem
    exact h.le_of_mem hlabel heq hmem

end Assembled

-- ==== ordered marks

section Ordered

variable {key : Label → Nat}

/-- In a list that a key orders, what stands in a front part is what has no greater
key than the last member of that part. -/
theorem mem_front_iff {front l : List Label} {last x : Label}
    (hordered : l.Pairwise fun a b => key a < key b) (hfront : front <+: l)
    (hlast : front.getLast? = some last) (hx : x ∈ l) : x ∈ front ↔ key x ≤ key last := by
  obtain ⟨init, rfl⟩ := List.getLast?_eq_some_iff.mp hlast
  obtain ⟨back, rfl⟩ := hfront
  obtain ⟨hinit, -, hback⟩ := List.pairwise_append.mp hordered
  obtain ⟨-, -, hbefore⟩ := List.pairwise_append.mp hinit
  constructor
  · intro hmem
    rcases List.mem_append.mp hmem with hmem | hmem
    · exact Nat.le_of_lt (hbefore x hmem last (by simp))
    · exact Nat.le_of_eq (congrArg key (List.mem_singleton.mp hmem))
  · intro hle
    rcases List.mem_append.mp hx with hmem | hmem
    · exact hmem
    · have hlt := hback last (by simp) x hmem
      omega

variable {items : List Item} {l : Layout} {asm : Assembly}

theorem Assembled.mem_marks (h : Assembled items l asm) {label : Label} {a : Nat}
    (hlabel : asm.labels[label]? = some a) (hmark : label.isMark = true) :
    label ∈ marks items := by
  obtain ⟨front, back, rfl, -⟩ := (h.labels label a).mp hlabel
  exact BytecodeBridge.mem_marks.mpr ⟨by simp, hmark⟩

/-- Marks that a key orders have addresses in that order. -/
theorem Assembled.le_of_key_le (h : Assembled items l asm)
    (hordered : (marks items).Pairwise fun a b => key a < key b) {a b : Label} {p q : Nat}
    (ha : asm.labels[a]? = some p) (hb : asm.labels[b]? = some q) (hmark : a.isMark = true)
    (hmark' : b.isMark = true) (hle : key a ≤ key b) : p ≤ q := by
  have hin := h.mem_marks ha hmark
  obtain ⟨front, back, heq, hstop⟩ := (h.labels b q).mp hb
  rw [heq, marks_append, marks_bind, if_pos hmark'] at hordered hin
  rcases List.mem_append.mp hin with hin | hin
  · rw [← hstop]
    exact h.le_of_mem ha heq (BytecodeBridge.mem_marks.mp hin).1
  · rcases List.mem_cons.mp hin with rfl | hin
    · exact Nat.le_of_eq (Option.some.inj (ha.symm.trans hb))
    · -- behind `b` the keys are greater
      obtain ⟨-, hback, -⟩ := List.pairwise_append.mp hordered
      have hlt := (List.pairwise_cons.mp hback).1 a hin
      omega

end Ordered

end BytecodeBridge
