/-
Code that is left at a label.

A block of branches has no one end: where control leaves it depends on the
values it finds. `Departs` says of a block that it leads to a label,
wherever it comes to lie within a method of admissible length. Straight
code may go in front (`Carries.departs`), a branch goes to its label or
through what follows it, and a jump table goes by an unsigned number: its
length is bounded by that of the code, so that no number with the sign bit
set is one of its arms.

The values that a block works with lie on top of others. `Replaces` and
`Tested` say what instructions do to them, whatever lies below.
-/
import BytecodeBridge.Proofs.Machine.Number
import BytecodeBridge.Proofs.Machine.Objects

namespace BytecodeBridge

open Relation (ReflTransGen)
open Source (Number)

-- ==== lengths

theorem Assembled.length_of_table {pre post : List Item} {l : Layout} {asm : Assembly} {low : Int}
    {targets : List Label} {default : Label}
    (h : Assembled (pre ++ .table low targets default :: post) l asm) :
    4 * targets.length ≤ asm.length := by
  have hend := Layout.le_stop (Layout.stop 0 (pre ++ [.table low targets default])) post
  rw [← Layout.stop_append, List.append_assoc, List.singleton_append, ← h.length,
    Layout.stop_concat] at hend
  have hsize : (Item.table low targets default).size (Layout.stop 0 pre)
      = 1 + Instr.switchPadding (Layout.stop 0 pre) + 12 + 4 * targets.length := rfl
  omega

namespace Machine

variable {p q : Pool} {s t u : State} {label next : Label}

-- ==== blocks

/-- A block of code leads from its start to a label, wherever it is assembled. -/
def Departs (p : Pool) (block : List Item) (s : State) (label : Label) (t : State) : Prop :=
  ∀ ⦃q : Pool⦄, p.PartOf q → ∀ ⦃pre wide post : List Item⦄ ⦃l : Layout⦄ ⦃asm : Assembly⦄,
    List.Forall₂ Item.Widens block wide → Assembled (pre ++ (wide ++ post)) l asm →
    asm.length ≤ maxCodeLength → ∃ b, asm.labels[label]? = some b ∧
      ReflTransGen (Goes asm.code q) (Layout.stop 0 pre, s) (b, t)

theorem departs_bind {back : List Item} : Departs p (.bind label :: back) s label s := by
  intro q _ pre wide post l asm hwide hasm _
  cases hwide with
  | @cons _ _ _ wideBack hone _ =>
    cases hone
    exact ⟨_, (hasm.labels _ _).mpr ⟨pre, wideBack ++ post, rfl, rfl⟩, .refl⟩

theorem Carries.departs {a b : List Item} (ha : Carries p a s t) (hb : Departs p b t label u) :
    Departs p (a ++ b) s label u := by
  intro q hq pre wide post l asm hwide hasm hlength
  obtain ⟨wideA, wideB, rfl, hwideA, hwideB⟩ := widens_append hwide
  rw [List.append_assoc] at hasm
  have hfirst := ha hq hwideA hasm
  rw [← List.append_assoc] at hasm
  obtain ⟨dest, hdest, hsecond⟩ := hb hq hwideB hasm hlength
  exact ⟨dest, hdest, hfirst.trans hsecond⟩

/-- A branch that is not always taken goes to its label, or on through what follows it. -/
private theorem departs_branch {i : Instr} {back : List Item} {taken : Bool} {stack : List Value}
    (hi : i.isUnconditional = false) (htest : ∀ c, test? c i s.stack = some (taken, stack))
    (hback : taken = false → Departs p back { s with stack } next t)
    (hjump : taken = true → label = next ∧ { s with stack } = t) :
    Departs p (.branch i label :: back) s next t := by
  intro q hq pre wide post l asm hwide hasm hlength
  cases hwide with
  | @cons _ _ _ wideBack hone hwideBack =>
  cases hone with
  | wide => cases hi
  | same =>
  have hplace : pre ++ (.branch i label :: wideBack ++ post)
      = pre ++ .branch i label :: (wideBack ++ post) := rfl
  -- code that is assembled has the label that the branch names
  obtain ⟨j, hpatch⟩ := hasm.exists_instr hplace rfl
  cases Layout.patched_of_patch hpatch with
  | @branch _ _ _ dest hdest =>
  rw [hasm.layout] at hdest
  obtain ⟨preL, postL, heqL, haddrL⟩ := (hasm.labels label dest).mp hdest
  have hstep := goes_branch (p := q) hasm hplace heqL htest
  cases taken with
  | true =>
    obtain ⟨rfl, rfl⟩ := hjump rfl
    refine ⟨dest, hdest, .single ?_⟩
    rw [← haddrL]
    exact hstep
  | false =>
    have hbehind : Assembled ((pre ++ [.branch i label]) ++ (wideBack ++ post)) l asm := by
      simpa using hasm
    obtain ⟨b, hb, hreach⟩ := hback rfl hq hwideBack hbehind hlength
    exact ⟨b, hb, .head hstep hreach⟩

/-- The arm of a jump table from zero on is found by the number without its sign. -/
private theorem tableLabel_of_length {targets : List Label} (h : targets.length ≤ 2 ^ 31)
    (default : Label) (x : BitVec 32) :
    Objects.tableLabel default 0 targets x.toInt = targets.getD x.toNat default := by
  unfold Objects.tableLabel
  have hx := BitVec.toInt_eq_toNat_cond x
  have hlt := x.isLt
  split
  · next hneg =>
    have hlarge : targets.length ≤ x.toNat := by
      split at hx <;> omega
    rw [List.getD_eq_getElem?_getD, List.getElem?_eq_none hlarge]
    rfl
  · next hpos =>
    have hsame : (x.toInt - 0).toNat = x.toNat := by
      split at hx <;> omega
    rw [hsame]

/-- A jump table from zero on goes to the arm that an unsigned number counts, and to its
default beyond the last. -/
theorem departs_table {targets : List Label} {default : Label} {back : List Item}
    {x : BitVec 32} {stack : List Value} (hstack : s.stack = .int (.ofBitVec x) :: stack) :
    Departs p (.table 0 targets default :: back) s (targets.getD x.toNat default)
      { s with stack } := by
  intro q hq pre wide post l asm hwide hasm hlength
  cases hwide with
  | @cons _ _ _ wideBack hone _ =>
  cases hone
  have hplace : pre ++ (.table 0 targets default :: wideBack ++ post)
      = pre ++ .table 0 targets default :: (wideBack ++ post) := rfl
  obtain ⟨j, hpatch⟩ := hasm.exists_instr hplace rfl
  have hlookup := hasm.lookup hplace hpatch
  cases Layout.patched_of_patch hpatch with
  | table harms hdefault =>
  obtain ⟨d, hd, hoffset⟩ := Objects.find_tableLabel 0 harms hdefault x.toInt
  rw [tableLabel_of_length] at hd
  · refine ⟨d, hasm.layout ▸ hd,
      .single ⟨_, hlookup, .inr ⟨_, fun c => ?_, Layout.add_relative _ d⟩⟩⟩
    unfold exec
    rw [hstack, ← hoffset]
    rfl
  · have hroom := Assembled.length_of_table hasm
    have hmost : maxCodeLength = 65535 := rfl
    omega

/-- Assembled code goes from a label to where the block behind it departs to. -/
theorem exists_goes_of_departs {code : CodeBuffer} {asm : Assembly} {front block : List Item}
    (hasm : code.assemble = .ok asm) (hitems : code.items = front ++ .bind label :: block)
    (h : Departs p block s next t) (hq : p.PartOf q) :
    ∃ a b, asm.labels[label]? = some a ∧ asm.labels[next]? = some b ∧
      ReflTransGen (Goes asm.code q) (a, s) (b, t) := by
  have hlength : asm.length ≤ maxCodeLength := by
    obtain ⟨_, _, -, hlength, -, rfl⟩ := CodeBuffer.assemble_eq_ok_iff.mp hasm
    exact hlength
  obtain ⟨items, l, hwide, hassembled⟩ := CodeBuffer.assemble_ok hasm
  rw [hitems] at hwide
  obtain ⟨wideFront, _, rfl, -, hblock⟩ := widens_append hwide
  cases hblock with
  | @cons _ _ _ wide hone hrest =>
  cases hone
  have hbehind : Assembled ((wideFront ++ [.bind label]) ++ (wide ++ [])) l asm := by
    simpa using hassembled
  obtain ⟨b, hb, hreach⟩ := h hq hrest hbehind hlength
  rw [stop_bind] at hreach
  exact ⟨_, b, (hassembled.labels _ _).mpr ⟨_, _, rfl, rfl⟩, hb, hreach⟩

-- ==== numbers

section Numbers

variable {i : Instr} {xs ys : List Number}

theorem Replaces.carries (h : Replaces p i xs ys) (below : List Value)
    (locals : Nat → Option Value) :
    Carries p [.instr i] ⟨values xs ++ below, locals⟩ ⟨values ys ++ below, locals⟩ :=
  .instr fun q c hq => h q c below locals hq

theorem replaces_zero (xs : List Number) : Replaces p (.const .long 0) xs (.long 0 :: xs) :=
  fun _ _ _ _ _ => rfl

-- ==== tests

/-- Code that takes some numbers off the stack and ends with a test. -/
structure Tested (p : Pool) (code : List Item) (test : Instr) (xs : List Number) (taken : Bool) :
    Prop where
  conditional : test.isUnconditional = false
  reaches : ∀ below locals, ∃ stack,
    Carries p code ⟨values xs ++ below, locals⟩ ⟨stack, locals⟩ ∧
      ∀ c, test? c test stack = some (taken, below)

theorem holds_toInt (way : Comparison) (x y : BitVec 32) :
    way.holds x.toInt y.toInt = Source.compareBits way false x y := by
  have hdecides : Decides (.ifInt way 0) [.int y, .int x] (Source.compareBits way false x y) [] :=
    decides_ifInt way 0 x y
  exact congrArg Prod.fst (Option.some.inj (hdecides ⟨0, .eq, true⟩))

theorem tested_ifInt {way : Comparison} {x y : BitVec 32} :
    Tested p [] (.ifInt way 0) [.int y, .int x] (Source.compareBits way false x y) := by
  refine ⟨rfl, fun below locals => ⟨_, .refl p _, fun c => ?_⟩⟩
  rw [← holds_toInt]
  rfl

theorem tested_ifZero {way : Comparison} {x : BitVec 32} :
    Tested p [] (.ifZero way 0) [.int x] (Source.compareBits way false x 0) := by
  refine ⟨rfl, fun below locals => ⟨_, .refl p _, fun c => ?_⟩⟩
  rw [← holds_toInt]
  rfl

theorem tested_result {way : Comparison} {n : BitVec 32} (h : Replaces p i xs [.int n])
    {taken : Bool} (hholds : way.holds (Int32.ofBitVec n).toInt 0 = taken) :
    Tested p [.instr i] (.ifZero way 0) xs taken := by
  refine ⟨rfl, fun below locals => ⟨_, h.carries below locals, fun c => ?_⟩⟩
  rw [← hholds]
  rfl

namespace Tested

variable {code back : List Item} {test : Instr} {taken : Bool}

theorem cons (h : Tested p code test ys taken) (hi : Replaces p i xs ys) :
    Tested p (.instr i :: code) test xs taken := by
  refine ⟨h.conditional, fun below locals => ?_⟩
  obtain ⟨stack, hcarries, htest⟩ := h.reaches below locals
  exact ⟨stack, (hi.carries below locals).trans hcarries, htest⟩

theorem grow (h : Tested p code test xs taken) (hpart : p.PartOf q) :
    Tested q code test xs taken := by
  refine ⟨h.conditional, fun below locals => ?_⟩
  obtain ⟨stack, hcarries, htest⟩ := h.reaches below locals
  exact ⟨stack, hcarries.grow hpart, htest⟩

/-- Control goes from a test to its label, or to the label behind it. -/
theorem departs (h : Tested p code test xs taken) (below : List Value)
    (locals : Nat → Option Value) :
    Departs p (code ++ .branch test label :: .bind next :: back) ⟨values xs ++ below, locals⟩
      (if taken then label else next) ⟨below, locals⟩ := by
  obtain ⟨stack, hcarries, htest⟩ := h.reaches below locals
  refine hcarries.departs (departs_branch h.conditional htest (fun hnot => ?_) fun htaken => ?_)
  · subst hnot
    exact departs_bind
  · subst htaken
    exact ⟨rfl, rfl⟩

end Tested

end Numbers

end Machine

end BytecodeBridge
