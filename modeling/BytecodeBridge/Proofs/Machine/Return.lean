/-
Executions that return.

`Goes` is a step of an execution that does not depend on what is left
open: whatever the chances, the code goes on to that address in that
state. Code that goes so from its start to a return is bound to return the
value it finds there (`Returns`), and no other.

A block of code is a part of the items that are assembled later, so what
it does is said before its addresses are known: `Carries` holds of a block
that leads from its start to its end wherever it comes to lie, whichever
of its branches are made wide, and whatever is added to the pool. Blocks
that follow each other compose.
-/
import BytecodeBridge.Proofs.Machine.Flow

namespace BytecodeBridge

namespace Machine

open Relation (ReflTransGen)

-- ==== steps

/-- A step that is taken whatever is left open. -/
def Goes (code : List (Nat × Instr)) (p : Pool) (a b : Nat × State) : Prop :=
  ∃ i, code.lookup a.1 = some i ∧
    ((∀ c, exec p c i a.2 = some (.next b.2)) ∧ b.1 = a.1 + i.size a.1 ∨
      ∃ o : Int, (∀ c, exec p c i a.2 = some (.jump o b.2)) ∧ (a.1 : Int) + o = b.1)

/-- An execution from an address on comes to return a value. -/
def Returns (code : List (Nat × Instr)) (p : Pool) (a : Nat) (s : State) (v : Value) : Prop :=
  ∃ b t rest, ReflTransGen (Goes code p) (a, s) (b, t) ∧
    code.lookup b = some (.returnValue v.kind) ∧ t.stack = v :: rest

section Unique

variable {code : List (Nat × Instr)} {p : Pool}

private theorem goes_rightUnique : Relator.RightUnique (Goes code p) := by
  rintro ⟨a, s⟩ ⟨b, t⟩ ⟨b', t'⟩ ⟨i, hi, h⟩ ⟨i', hi', h'⟩
  cases hi.symm.trans hi'
  -- any chance will do to compare the two outcomes
  have c : Chance := ⟨0, .eq, true⟩
  rcases h with ⟨hnext, rfl⟩ | ⟨o, hjump, ho⟩ <;> rcases h' with ⟨hnext', rfl⟩ | ⟨o', hjump', ho'⟩
  · cases (hnext c).symm.trans (hnext' c)
    rfl
  · cases (hnext c).symm.trans (hjump' c)
  · cases (hjump c).symm.trans (hnext' c)
  · cases (hjump c).symm.trans (hjump' c)
    obtain rfl : b = b' := by omega
    rfl

private theorem not_goes_of_return {a : Nat} {s : State} {k : StackKind}
    (h : code.lookup a = some (.returnValue k)) (b : Nat × State) : ¬ Goes code p (a, s) b := by
  rintro ⟨i, hi, hgoes⟩
  cases h.symm.trans hi
  rcases hgoes with ⟨hnext, -⟩ | ⟨o, hjump, -⟩
  · cases hnext ⟨0, .eq, true⟩
  · cases hjump ⟨0, .eq, true⟩

/-- What is returned is determined. -/
theorem Returns.unique {a : Nat} {s : State} {v w : Value} (hv : Returns code p a s v)
    (hw : Returns code p a s w) : v = w := by
  obtain ⟨b, t, rest, hreach, hret, hstack⟩ := hv
  obtain ⟨b', t', rest', hreach', hret', hstack'⟩ := hw
  have hsame : (b, t) = (b', t') := by
    rcases ReflTransGen.total_of_right_unique goes_rightUnique hreach hreach' with h | h
    · rcases ReflTransGen.cases_head h with heq | ⟨_, hstep, -⟩
      · exact heq
      · exact (not_goes_of_return hret _ hstep).elim
    · rcases ReflTransGen.cases_head h with heq | ⟨_, hstep, -⟩
      · exact heq.symm
      · exact (not_goes_of_return hret' _ hstep).elim
  cases hsame
  rw [hstack] at hstack'
  exact (List.cons.inj hstack').1

end Unique

end Machine

-- ==== addresses

theorem Layout.le_of_mem_addresses {addr a : Nat} {items : List Item}
    (h : a ∈ addresses addr items) : addr ≤ a := by
  obtain ⟨⟨a', item⟩, hmem, rfl⟩ := List.mem_map.mp h
  obtain ⟨pre, post, -, hstop⟩ := mem_place.mp (List.mem_filter.mp hmem).1
  rw [← hstop]
  exact le_stop addr pre

/-- No two instructions have one address. -/
theorem Layout.nodup_addresses (addr : Nat) (items : List Item) :
    (addresses addr items).Nodup := by
  induction items generalizing addr with
  | nil => exact List.nodup_nil
  | cons item items ih =>
    unfold addresses place
    cases hitem : item.label? with
    | none =>
      rw [List.filter_cons_of_pos (by simp [hitem]), List.map_cons]
      refine List.nodup_cons.mpr ⟨fun hmem => ?_, ih _⟩
      have hle := le_of_mem_addresses hmem
      have hpos := size_pos hitem addr
      omega
    | some label =>
      rw [List.filter_cons_of_neg (by simp [hitem])]
      exact ih _

theorem lookup_of_mem {α : Type} {l : List (Nat × α)} {a : Nat} {x : α}
    (hnodup : (l.map Prod.fst).Nodup) (h : (a, x) ∈ l) : l.lookup a = some x := by
  obtain ⟨pre, post, rfl⟩ := List.append_of_mem h
  refine List.lookup_eq_some_iff.mpr ⟨pre, post, rfl, fun e he => ?_⟩
  rw [List.map_append, List.map_cons] at hnodup
  have hne := (List.nodup_append.mp hnodup).2.2 e.1 (List.mem_map_of_mem he) a (.head _)
  simpa using Ne.symm hne

namespace Assembled

variable {items : List Item} {l : Layout} {asm : Assembly}

theorem lookup (h : Assembled items l asm) {pre post : List Item} {item : Item} {i : Instr}
    (heq : items = pre ++ item :: post) (hpatch : l.patch (Layout.stop 0 pre) item = .ok (some i)) :
    asm.code.lookup (Layout.stop 0 pre) = some i := by
  refine lookup_of_mem ?_ ((h.code _ i).mpr ⟨pre, item, post, heq, rfl, hpatch⟩)
  rw [h.order]
  exact Layout.nodup_addresses 0 items

end Assembled

namespace Machine

open Relation (ReflTransGen)

section Places

variable {items : List Item} {l : Layout} {asm : Assembly} {p : Pool} {s t : State}

private theorem goes_instr (h : Assembled items l asm) {pre post : List Item} {i : Instr}
    (heq : items = pre ++ .instr i :: post) (hexec : ∀ c, exec p c i s = some (.next t)) :
    Goes asm.code p (Layout.stop 0 pre, s) (Layout.stop 0 (pre ++ [.instr i]), t) := by
  refine ⟨i, h.lookup heq rfl, .inl ⟨hexec, ?_⟩⟩
  rw [Layout.stop_concat]
  rfl

/-- The test of a branch does not depend on its offset. -/
private theorem test?_of_withOffset {i j : Instr} {o : Int} (h : i.withOffset o = .ok j)
    (c : Chance) (stack : List Value) : test? c j stack = test? c i stack := by
  have hshort : ∀ make : Int → Instr, (∀ o, test? c (make o) stack = test? c i stack) →
      Instr.shortBranch o make = .ok j → test? c j stack = test? c i stack := by
    intro make hmake h
    unfold Instr.shortBranch at h
    split at h
    · cases h
      exact hmake o
    · cases h
  cases i with
  | gotoW o' =>
    cases h
    rfl
  | goto o' => exact hshort .goto (fun _ => rfl) h
  | ifZero way o' =>
    refine hshort (.ifZero way) (fun _ => ?_) h
    rcases stack with _ | ⟨_ | _, _⟩ <;> rfl
  | ifInt way o' =>
    refine hshort (.ifInt way) (fun _ => ?_) h
    rcases stack with _ | ⟨_ | _, _ | ⟨_ | _, _⟩⟩ <;> rfl
  | ifSame same o' =>
    refine hshort (.ifSame same) (fun _ => ?_) h
    rcases stack with _ | ⟨_ | _, _ | ⟨_ | _, _⟩⟩ <;> rfl
  | ifNull null o' =>
    refine hshort (.ifNull null) (fun _ => ?_) h
    rcases stack with _ | ⟨_ | _, _⟩ <;> rfl
  | _ => cases h

/-- A branch goes to its label or on, as its test says. -/
theorem goes_branch (h : Assembled items l asm) {pre post preL postL : List Item} {i : Instr}
    {label : Label} {taken : Bool} {stack : List Value}
    (heq : items = pre ++ .branch i label :: post) (hlabel : items = preL ++ .bind label :: postL)
    (htest : ∀ c, test? c i s.stack = some (taken, stack)) :
    Goes asm.code p (Layout.stop 0 pre, s)
      (if taken then Layout.stop 0 preL else Layout.stop 0 (pre ++ [.branch i label]),
        { s with stack }) := by
  obtain ⟨j, hpatch⟩ := h.exists_instr heq rfl
  have hlookup := h.lookup heq hpatch
  have hsize := (Layout.patch_ok hpatch).1
  cases Layout.patched_of_patch hpatch with
  | @branch _ _ _ dest hfind hoffset =>
  have hdest : dest = Layout.stop 0 preL := by
    have hbound := (h.labels label _).mpr ⟨preL, postL, hlabel, rfl⟩
    rw [← h.layout, hfind] at hbound
    exact Option.some.inj hbound
  have hexec : ∀ c, exec p c j s = some (if taken
      then .jump (relative (Layout.stop 0 pre) dest) { s with stack }
      else .next { s with stack }) := by
    intro c
    rw [(exec_of_withOffset hoffset p s).2, test?_of_withOffset hoffset, htest]
    rfl
  refine ⟨j, hlookup, ?_⟩
  cases taken with
  | true =>
    refine .inr ⟨_, hexec, ?_⟩
    rw [← hdest]
    exact Layout.add_relative _ dest
  | false =>
    refine .inl ⟨hexec, ?_⟩
    show Layout.stop 0 (pre ++ [.branch i label]) = _
    rw [Layout.stop_concat, hsize]

theorem stop_bind (pre : List Item) (label : Label) :
    Layout.stop 0 (pre ++ [Item.bind label]) = Layout.stop 0 pre := by
  rw [Layout.stop_concat]
  rfl

/-- A test chooses one of two blocks: if it fails, the first, which ends with a jump over
the second. -/
private theorem reaches_choice {pre no block post : List Item} {i j : Instr} {yes done : Label}
    {taken : Bool} {stack : List Value}
    (h : Assembled items l asm)
    (heq : items = pre ++ [Item.branch i yes] ++ no ++ [Item.branch j done] ++ [Item.bind yes]
      ++ block ++ [Item.bind done] ++ post)
    (htest : ∀ c, test? c i s.stack = some (taken, stack))
    (hjump : ∀ c stack, test? c j stack = some (true, stack))
    (hno : taken = false → ReflTransGen (Goes asm.code p)
      (Layout.stop 0 (pre ++ [Item.branch i yes]), { s with stack })
      (Layout.stop 0 (pre ++ [Item.branch i yes] ++ no), t))
    (hyes : taken = true → ReflTransGen (Goes asm.code p)
      (Layout.stop 0 (pre ++ [Item.branch i yes] ++ no ++ [Item.branch j done] ++ [Item.bind yes]),
        { s with stack })
      (Layout.stop 0 (pre ++ [Item.branch i yes] ++ no ++ [Item.branch j done] ++ [Item.bind yes]
        ++ block), t)) :
    ReflTransGen (Goes asm.code p) (Layout.stop 0 pre, s)
      (Layout.stop 0 (pre ++ [Item.branch i yes] ++ no ++ [Item.branch j done] ++ [Item.bind yes]
        ++ block ++ [Item.bind done]), t) := by
  have hplace : items = pre ++ .branch i yes
      :: (no ++ [Item.branch j done] ++ [Item.bind yes] ++ block ++ [Item.bind done] ++ post) := by
    simp [heq]
  have htarget : items = (pre ++ [Item.branch i yes] ++ no ++ [Item.branch j done])
      ++ .bind yes :: (block ++ [Item.bind done] ++ post) := by
    simp [heq]
  have hbranch := goes_branch (p := p) h hplace htarget htest
  rw [stop_bind]
  refine .head hbranch ?_
  cases taken with
  | true =>
    have hblock := hyes rfl
    rwa [stop_bind] at hblock
  | false =>
    have hplace : items = (pre ++ [Item.branch i yes] ++ no) ++ .branch j done
        :: ([Item.bind yes] ++ block ++ [Item.bind done] ++ post) := by
      simp [heq]
    have htarget : items = (pre ++ [Item.branch i yes] ++ no ++ [Item.branch j done]
        ++ [Item.bind yes] ++ block) ++ .bind done :: post := by
      simp [heq]
    have hover := goes_branch (p := p) h hplace htarget fun c => hjump c t.stack
    exact (hno rfl).trans (.single hover)

end Places

-- ==== blocks

/-- A block of code leads from its start in one state to its end in another, wherever it
is assembled. -/
def Carries (p : Pool) (block : List Item) (s t : State) : Prop :=
  ∀ ⦃q : Pool⦄, p.PartOf q → ∀ ⦃pre wide post : List Item⦄ ⦃l : Layout⦄ ⦃asm : Assembly⦄,
    List.Forall₂ Item.Widens block wide → Assembled (pre ++ (wide ++ post)) l asm →
    ReflTransGen (Goes asm.code q) (Layout.stop 0 pre, s) (Layout.stop 0 (pre ++ wide), t)

theorem widens_append {a b wide : List Item} (h : List.Forall₂ Item.Widens (a ++ b) wide) :
    ∃ wideA wideB, wide = wideA ++ wideB ∧ List.Forall₂ Item.Widens a wideA ∧
      List.Forall₂ Item.Widens b wideB := by
  refine ⟨wide.take a.length, wide.drop a.length, (List.take_append_drop _ _).symm, ?_, ?_⟩
  · simpa using List.forall₂_take a.length h
  · simpa using List.forall₂_drop a.length h

theorem widens_singleton {item : Item} {wide : List Item}
    (h : List.Forall₂ Item.Widens [item] wide) : ∃ w, wide = [w] ∧ item.Widens w := by
  cases h with
  | cons hone hnil =>
    cases hnil
    exact ⟨_, rfl, hone⟩

namespace Carries

variable {p : Pool} {s t u : State} {a b : List Item}

theorem refl (p : Pool) (s : State) : Carries p [] s s := by
  intro q _ pre wide post l asm hwide _
  cases hwide
  rw [List.append_nil]

theorem trans (ha : Carries p a s t) (hb : Carries p b t u) : Carries p (a ++ b) s u := by
  intro q hq pre wide post l asm hwide hasm
  obtain ⟨wideA, wideB, rfl, hwideA, hwideB⟩ := widens_append hwide
  rw [List.append_assoc] at hasm
  have hfirst := ha hq hwideA hasm
  rw [← List.append_assoc] at hasm
  have hsecond := hb hq hwideB hasm
  rw [List.append_assoc] at hsecond
  exact hfirst.trans hsecond

theorem grow {p' : Pool} (h : Carries p a s t) (hpart : p.PartOf p') : Carries p' a s t :=
  fun _ hq => h (hpart.trans hq)

theorem instr {i : Instr} (h : ∀ q c, p.PartOf q → exec q c i s = some (.next t)) :
    Carries p [.instr i] s t := by
  intro q hq pre wide post l asm hwide hasm
  obtain ⟨_, rfl, hone⟩ := widens_singleton hwide
  cases hone
  exact .single (goes_instr hasm rfl fun c => h q c hq)

theorem bind (label : Label) (s : State) : Carries p [Item.bind label] s s := by
  intro q _ pre wide post l asm hwide _
  obtain ⟨_, rfl, hone⟩ := widens_singleton hwide
  cases hone
  rw [stop_bind]

/-- Code that makes a choice goes through one of two blocks, as a test says. -/
theorem choose {i : Instr} {yes done : Label} {no block : List Item} {taken : Bool}
    {stack : List Value} (hi : i.isUnconditional = false)
    (htest : ∀ c, test? c i s.stack = some (taken, stack))
    (hno : taken = false → Carries p no { s with stack } t)
    (hyes : taken = true → Carries p block { s with stack } t) :
    Carries p ([Item.branch i yes] ++ no ++ [Item.branch (.goto 0) done] ++ [Item.bind yes]
      ++ block ++ [Item.bind done]) s t := by
  intro q hq pre wide post l asm hwide hasm
  -- the items as they are assembled: only the jump over the second block may be wide
  obtain ⟨_, last, rfl, hwide, h₄⟩ := widens_append hwide
  obtain ⟨_, wideYes, rfl, hwide, hwideYes⟩ := widens_append hwide
  obtain ⟨_, entry, rfl, hwide, h₃⟩ := widens_append hwide
  obtain ⟨_, around, rfl, hwide, h₂⟩ := widens_append hwide
  obtain ⟨first, wideNo, rfl, h₁, hwideNo⟩ := widens_append hwide
  obtain ⟨_, rfl, hfirst⟩ := widens_singleton h₁
  obtain ⟨jump, rfl, hover⟩ := widens_singleton h₂
  obtain ⟨_, rfl, hentry⟩ := widens_singleton h₃
  obtain ⟨_, rfl, hlast⟩ := widens_singleton h₄
  cases hentry
  cases hlast
  cases hfirst with
  | wide => cases hi
  | same =>
    obtain ⟨j, rfl, hj⟩ : ∃ j, jump = .branch j done ∧
        ∀ c stack, test? c j stack = some (true, stack) := by
      cases hover with
      | same => exact ⟨.goto 0, rfl, fun _ _ => rfl⟩
      | wide => exact ⟨.gotoW 0, rfl, fun _ _ => rfl⟩
    simp only [← List.append_assoc] at hasm ⊢
    refine reaches_choice hasm rfl htest hj (fun h => ?_) (fun h => ?_)
    · have hpart : Assembled (pre ++ [Item.branch i yes] ++ (wideNo ++ ([Item.branch j done]
          ++ [Item.bind yes] ++ wideYes ++ [Item.bind done] ++ post))) l asm := by
        simpa using hasm
      exact hno h hq hwideNo hpart
    · have hpart : Assembled (pre ++ [Item.branch i yes] ++ wideNo ++ [Item.branch j done]
          ++ [Item.bind yes] ++ (wideYes ++ ([Item.bind done] ++ post))) l asm := by
        simpa using hasm
      exact hyes h hq hwideYes hpart

end Carries

end Machine

end BytecodeBridge
