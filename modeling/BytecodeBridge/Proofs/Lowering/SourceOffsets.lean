/-
Where the operations of a body end up.

A method lists an address for each offset of its body. Labels are bound
amid the code of handlers, in front of instructions that are taken back
again and of operations that have no code, and the prologue grows until
the last operation is lowered. The list is right all the same: the marks
of the code are known from the offsets alone (`marks_of_lowerAll`), so each
offset has a label and the labels come in the order of the offsets. Behind
the last label there is code, because a lowering may only end in code that
control does not leave (`Mapped.closed`), and the prologue binds no label.
-/
import BytecodeBridge.Proofs.Code.Assembly
import BytecodeBridge.Proofs.Lowering.Publication
import BytecodeBridge.Proofs.Lowering.Marks
import BytecodeBridge.Proofs.Lowering.StackMap

namespace BytecodeBridge

-- ==== the code behind a prologue

/-- Instructions that lie one behind the other have ascending addresses. -/
theorem Contiguous.ascending {addr stop : Nat} {code : List (Nat × Instr)}
    (h : Contiguous addr stop code) :
    (∀ e ∈ code, addr ≤ e.1) ∧ code.Pairwise fun c d => c.1 < d.1 := by
  induction code generalizing addr with
  | nil => exact ⟨nofun, .nil⟩
  | cons e code ih =>
    obtain ⟨rfl, hrest⟩ := h
    obtain ⟨hle, hpairwise⟩ := ih hrest
    have hsize := e.2.size_pos e.1
    have hlt : ∀ d ∈ code, e.1 < d.1 := fun d hd => by
      have hbehind := hle d hd
      omega
    exact ⟨List.forall_mem_cons.mpr ⟨Nat.le_refl _, fun d hd => Nat.le_of_lt (hlt d hd)⟩,
      .cons hlt hpairwise⟩

namespace Laid

variable {b : CodeBuffer} {asm : Assembly}

/-- The code starts with the prologue, instruction by instruction. -/
theorem take_prologue (h : Laid b.items asm) :
    (asm.code.take b.prologue.length).map Prod.snd = b.prologue.reverse := by
  have hcode := h.code
  rw [CodeBuffer.items, List.filter_append, List.filter_eq_self.mpr (by simp [Item.label?])]
    at hcode
  have hfront := List.forall₂_take_append _ _ _ hcode.flip
  rw [List.length_map, List.length_reverse, List.forall₂_map_right_iff] at hfront
  rw [← List.forall₂_eq_eq_eq, List.forall₂_map_left_iff]
  refine hfront.imp fun e i hbecomes => ?_
  cases hbecomes
  rfl

/-- A label has the address of an instruction behind the prologue, if there is code behind
the label. -/
theorem label_behind_prologue (h : Laid b.items asm) (hclosed : Closed b.body) {label : Label}
    {a : Nat} (ha : asm.labels[label]? = some a) :
    ∃ i, (a, i) ∈ asm.code.drop b.prologue.length := by
  obtain ⟨pre, post, heq, haddress⟩ := (h.labels label a).mp ha
  obtain ⟨item, hitem, hcode⟩ :=
    Lowering.exists_item_behind (List.forall₂_same.mpr fun _ _ => .same _) hclosed heq
  -- no label is bound in the prologue
  obtain ⟨mid, rfl⟩ : b.prologue.reverse.map Item.instr <+: pre := by
    rw [CodeBuffer.items] at heq
    rcases List.append_eq_append_iff.mp heq with ⟨mid, hpre, -⟩ | ⟨mid, hprologue, hmid⟩
    · exact ⟨mid, hpre.symm⟩
    · cases mid with
      | nil => exact ⟨[], by rw [List.append_nil, hprologue, List.append_nil]⟩
      | cons first mid =>
        obtain ⟨rfl, -⟩ := List.cons.inj hmid
        have hbind : Item.bind label ∈ b.prologue.reverse.map Item.instr := by simp [hprologue]
        simp at hbind
  have hprologue : (b.prologue.reverse.map Item.instr).countP (fun item => item.label?.isNone)
      = b.prologue.length := by
    rw [List.countP_eq_length.mpr (by simp [Item.label?]), List.length_map, List.length_reverse]
  have hbehind : 0 < post.countP fun item => item.label?.isNone :=
    List.countP_pos_iff.mpr ⟨item, hitem, by rw [hcode]; rfl⟩
  have hlength := h.code.length_eq
  rw [← List.countP_eq_length_filter, heq, List.countP_append, List.countP_append, hprologue,
    List.countP_cons] at hlength
  rw [List.countP_append, hprologue] at haddress
  unfold Assembly.addressOf? at haddress
  rw [List.getElem?_append_left (by rw [List.length_map]; omega), List.getElem?_map,
    Option.map_eq_some_iff] at haddress
  obtain ⟨⟨a, i⟩, hget, rfl⟩ := haddress
  refine ⟨i, List.mem_of_getElem? (i := mid.countP fun item => item.label?.isNone) ?_⟩
  rw [List.getElem?_drop, hget]

end Laid

namespace Lowering

-- ==== the list of addresses

private theorem eq_of_ascending {l r : List Nat} (hl : l.Pairwise (· < ·)) (hr : r.Pairwise (· < ·))
    (h : ∀ n, n ∈ l ↔ n ∈ r) : l = r := by
  refine List.Perm.eq_of_pairwise (fun a b _ _ hab hba => ?_) hl hr
    ((List.perm_ext_iff_of_nodup (hl.imp Nat.ne_of_lt) (hr.imp Nat.ne_of_lt)).mpr h)
  omega

variable {config : Config} {T : TypeTable} {pool : Pool} {body : Body} {m : Method}

/-- A method lists exactly the offsets of its body, if these ascend. Their addresses ascend
with them, and each is the address of an instruction that stands behind the prologue. -/
theorem sourceOffsets_ascend (h : (lowerMethod config T pool body).result = .ok m)
    (hordered : body.code.Pairwise fun a b => a.1 < b.1) :
    m.sourceOffsets.map Prod.fst = body.code.map Prod.fst ∧
    (m.sourceOffsets.Pairwise fun e d => e.1 < d.1 ∧ e.2 ≤ d.2) ∧
    ∃ final front rest, completed? config T pool body = some final ∧ m.code = front ++ rest ∧
      front.map Prod.snd = final.code.prologue.reverse ∧
      ∀ e ∈ m.sourceOffsets, (∃ i, (e.2, i) ∈ rest) ∧ ∀ c ∈ front, c.1 < e.2 := by
  obtain ⟨cx, start, final, _, hprepare, hlower, hfinish⟩ := run_ok h
  obtain ⟨-, -, rfl, hstarted⟩ := prepare_ok hprepare
  obtain ⟨hcode, hreach⟩ := lowerAll_ok hlower
  obtain ⟨p, hsteps⟩ :=
    codeSteps_of_forM hstarted.prepared (fun e he => he) hstarted.backed hcode []
  have hmapped : Mapped (final, p) :=
    hsteps.keeps (fun _ _ _ _ ha hstep => ha.step hstep) hstarted.mapped
  obtain ⟨⟨asm, frames, hfinished⟩, -⟩ := exists_finished hfinish
  obtain ⟨items, l, hwide, hassembled⟩ := CodeBuffer.assemble_ok hfinished.assembled
  have hlaid := CodeBuffer.laid_of_assemble hfinished.assembled
  have hmarks := marks_of_lowerAll hstarted hlower hfinished.assembled
  rw [← marks_widens hwide] at hmarks
  rw [hfinished.sourceOffsets]
  refine ⟨?_, ?_, final, asm.code.take final.code.prologue.length,
    asm.code.drop final.code.prologue.length, ?_, ?_, hlaid.take_prologue, ?_⟩
  · refine eq_of_ascending (List.pairwise_map.mpr (ascending_sourceOffsets _))
      (List.pairwise_map.mpr hordered) fun o => ?_
    -- an offset has an address exactly if its label is among the marks
    have hlabel : (∃ a, asm.labels[Label.source o]? = some a) ↔ .source o ∈ marks items := by
      constructor
      · exact fun ⟨a, ha⟩ => hassembled.mem_marks ha rfl
      · intro hmem
        obtain ⟨pre, post, rfl⟩ := List.append_of_mem (mem_marks.mp hmem).1
        exact ⟨_, (hassembled.labels _ _).mpr ⟨pre, post, rfl, rfl⟩⟩
    simp only [List.mem_map, Prod.exists, mem_sourceOffsets_iff, exists_and_right,
      exists_eq_right, hlabel, hmarks, List.mem_flatMap, marksOf]
    simp
  · refine (ascending_sourceOffsets asm.labels).imp_of_mem fun {e d} he hd hlt => ⟨hlt, ?_⟩
    have hkeys := pairwise_place cx.regions hordered
    rw [← hmarks] at hkeys
    refine hassembled.le_of_key_le hkeys (mem_sourceOffsets_iff.mp he)
      (mem_sourceOffsets_iff.mp hd) rfl rfl ?_
    rw [place_source, place_source]
    omega
  · simp only [completed?, hprepare, hlower]
  · rw [hfinished.code, List.take_append_drop]
  · rintro ⟨o, a⟩ he
    obtain ⟨i, hi⟩ :=
      hlaid.label_behind_prologue (hmapped.closed hreach) (mem_sourceOffsets_iff.mp he)
    have hascending := hlaid.contiguous.ascending.2
    rw [← List.take_append_drop final.code.prologue.length asm.code,
      List.pairwise_append] at hascending
    exact ⟨⟨i, hi⟩, fun c hc => hascending.2.2 c hc _ hi⟩

/-- The loop has a default value to store first, at 0 and 1. -/
theorem sourceOffsets_ascend_testLast :
    ∃ m, (lowerMethod {} (.ofConfig {}) .empty testLast).result = .ok m ∧
      m.sourceOffsets.map Prod.fst = [0, 1, 2, 3, 4, 5] ∧
      (m.sourceOffsets.Pairwise fun e d => e.1 < d.1 ∧ e.2 ≤ d.2) ∧
      ∀ e ∈ m.sourceOffsets, 1 < e.2 ∧ ∃ i, (e.2, i) ∈ m.code := by
  obtain ⟨m, hm, hcode⟩ := exists_of_preview preview_testLast
  obtain ⟨hkeys, hascend, final, front, rest, hfinal, hsplit, hfront, hbehind⟩ :=
    sourceOffsets_ascend hm (by decide)
  have hprologue : (completed? {} (.ofConfig {}) .empty testLast).map
      (fun s => s.code.prologue.length) = some 2 := by cbv
  rw [hfinal, Option.map_some, Option.some_inj, ← List.length_reverse, ← hfront,
    List.length_map] at hprologue
  have hstore : front[1]? = some (1, .store (.num .int) (.short 1)) := by
    have hleft : (front ++ rest)[1]? = front[1]? := List.getElem?_append_left (by omega)
    rw [← hleft, ← hsplit, hcode]
    rfl
  refine ⟨m, hm, hkeys, hascend, fun e he => ?_⟩
  obtain ⟨⟨i, hi⟩, hlt⟩ := hbehind e he
  exact ⟨hlt _ (List.mem_of_getElem? hstore), i, hsplit ▸ List.mem_append_right _ hi⟩

end Lowering

end BytecodeBridge
