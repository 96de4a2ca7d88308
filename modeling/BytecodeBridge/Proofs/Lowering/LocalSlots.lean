/-
How many local slots a method needs.

The number that is given for a method is the high mark of its slots, which
only handing out slots raises. What an instruction or a stack map says
about locals comes from the types in the frames, and those change without
slots being handed out: by stores, by joins where paths meet, by widening
to the declared type, and when the receiver is initialised. So what is
handed out for a slot has to have room for whatever its type becomes. It
has, as long as no join and no receiver is wider than what it is made from
(`Thin`), and then everything lies below the high mark (`Roomed`). A table
in which a class is declared below a 64-bit number has wider joins, and
a reference that is loaded as such reaches beyond the slots of its method
(`load_exceeds_joinsClasses`).
-/
import BytecodeBridge.Proofs.Frame.StackMap
import BytecodeBridge.Proofs.Lowering.Assignment
import BytecodeBridge.Proofs.Lowering.StackDepth

namespace BytecodeBridge

-- ==== instructions

/-- The first slot above those that an instruction uses. -/
def Instr.localsEnd : Instr → Nat
  | load kind form | store kind form => form.slot + kind.category
  | iinc slot _ | iincWide slot _ | ret slot | retWide slot => slot + 1
  | _ => 0

theorem Instr.localsEnd_of_slot? {i : Instr} (h : i.slot? = none) : i.localsEnd = 0 := by
  cases i <;> first | rfl | cases h

theorem Instr.localsEnd_of_offsets {i : Instr} (h : i.offsets ≠ []) : i.localsEnd = 0 := by
  cases i <;> first | rfl | exact absurd rfl h

theorem Instr.localsEnd_loadSlot (kind : StackKind) (slot : Nat) :
    (loadSlot kind slot).localsEnd = slot + kind.category := by
  show (SlotForm.of slot).slot + _ = _
  rw [SlotForm.slot_of]

theorem Instr.localsEnd_storeSlot (kind : StackKind) (slot : Nat) :
    (storeSlot kind slot).localsEnd = slot + kind.category := by
  show (SlotForm.of slot).slot + _ = _
  rw [SlotForm.slot_of]

/-- All instructions of the code keep to the slots below a bound. -/
structure CodeBuffer.Below (bound : Nat) (b : CodeBuffer) : Prop where
  prologue : ∀ i ∈ b.prologue, i.localsEnd ≤ bound
  body : ∀ i, .instr i ∈ b.body → i.localsEnd ≤ bound

namespace CodeBuffer.Below

variable {b : CodeBuffer} {bound : Nat}

theorem mono (h : b.Below bound) {larger : Nat} (hle : bound ≤ larger) : b.Below larger :=
  ⟨fun i hi => Nat.le_trans (h.prologue i hi) hle, fun i hi => Nat.le_trans (h.body i hi) hle⟩

theorem emit (h : b.Below bound) {i : Instr} (hi : i.localsEnd ≤ bound) :
    (b.emit i).Below bound := by
  refine ⟨h.prologue, fun j hj => ?_⟩
  rcases List.mem_cons.mp hj with heq | hj
  · cases heq
    exact hi
  · exact h.body j hj

theorem push (h : b.Below bound) {item : Item} (hitem : ∀ i, item ≠ .instr i) :
    (b.push item).Below bound := by
  refine ⟨h.prologue, fun j hj => ?_⟩
  rcases List.mem_cons.mp hj with heq | hj
  · exact absurd heq.symm (hitem j)
  · exact h.body j hj

theorem emitPrologue (h : b.Below bound) {instrs : List Instr}
    (hinstrs : ∀ i ∈ instrs, i.localsEnd ≤ bound) :
    (instrs.foldl CodeBuffer.emitPrologue b).Below bound := by
  rw [foldl_emitPrologue]
  refine ⟨fun i hi => ?_, h.body⟩
  rcases List.mem_append.mp hi with hi | hi
  · exact hinstrs i (List.mem_reverse.mp hi)
  · exact h.prologue i hi

/-- What is assembled keeps to the slots that the code keeps to. -/
theorem assemble (h : b.Below bound) {asm : Assembly} (hasm : b.assemble = .ok asm) :
    ∀ e ∈ asm.code, e.2.localsEnd ≤ bound := by
  rintro ⟨a, i⟩ he
  obtain ⟨items, l, hwide, hassembled⟩ := assemble_ok hasm
  obtain ⟨pre, item, post, hitems, -, hpatch⟩ := (hassembled.code a i).mp he
  obtain ⟨-, -, rfl | hoffsets⟩ := Layout.patch_ok hpatch
  · obtain ⟨original, hmem, hwidens⟩ := forall₂_mem_right hwide (b := .instr i) (by simp [hitems])
    cases hwidens
    have hreverse := List.mem_reverse.mpr hmem
    rw [reverse_items, List.mem_append] at hreverse
    rcases hreverse with hbody | hprologue
    · exact h.body i hbody
    · obtain ⟨j, hj, heq⟩ := List.mem_map.mp hprologue
      cases heq
      exact h.prologue i hj
  · rw [Instr.localsEnd_of_offsets hoffsets]
    exact Nat.zero_le bound

end CodeBuffer.Below

-- ==== entries

/-- All locals lie below a bound. -/
def SlotMap.Below (bound : Nat) (locals : SlotMap Ty) : Prop :=
  ∀ slot t, locals.get? slot = some t → slot + t.category ≤ bound

theorem SlotMap.Below.mono {bound larger : Nat} {locals : SlotMap Ty} (h : locals.Below bound)
    (hle : bound ≤ larger) : locals.Below larger :=
  fun slot t ht => Nat.le_trans (h slot t ht) hle

/-- A list of locals reaches as far as the locals do. -/
theorem StackMapEntry.end_layoutFrom {T : TypeTable} {bound : Nat} {entries : List (Nat × Ty)}
    (h : ∀ e ∈ entries, e.1 + e.2.category ≤ bound) {next : Nat} (hnext : next ≤ bound) :
    Yields (fun _ => True) (layoutFrom T next entries)
      fun locals _ => next + (locals.map VType.category).sum ≤ bound := by
  induction entries generalizing next with
  | nil => exact .pure fun _ _ => hnext
  | cons e entries ih =>
    obtain ⟨slot, t⟩ := e
    have hfirst : slot + t.category ≤ bound := h (slot, t) (.head _)
    have hrest : ∀ e ∈ entries, e.1 + e.2.category ≤ bound :=
      fun e he => h e (.tail _ he)
    unfold layoutFrom
    split
    · exact ih hrest hnext
    · next hslot =>
      intro pool locals pool' _ hrun
      obtain ⟨v, pool₁, hv, hrun⟩ := state_bind_ok hrun
      obtain ⟨others, pool₂, hothers, hrun⟩ := state_bind_ok hrun
      obtain ⟨rfl, rfl⟩ := state_pure_ok hrun
      have hcategory := VType.category_ofTy t pool v pool₁ trivial hv
      have hend := ih hrest hfirst pool₁ others pool₂ trivial hothers
      -- the gap is filled with entries of one slot each
      have hgap : ((List.replicate (slot - next) VType.top).map VType.category).sum
          = slot - next := by
        rw [List.map_replicate, List.sum_replicate_nat]
        exact Nat.mul_one _
      rw [List.map_append, List.sum_append, List.map_cons, List.sum_cons, hgap, hcategory]
      omega

theorem StackMapEntry.end_ofFrame {T : TypeTable} {offset bound : Nat} {frame : Frame}
    (h : frame.locals.Below bound) :
    Yields (fun _ => True) (StackMapEntry.ofFrame T offset frame)
      fun entry _ => entry.localsEnd ≤ bound := by
  have hentries : ∀ e ∈ frame.locals.entries, e.1 + e.2.category ≤ bound :=
    fun e he => h e.1 e.2 (SlotMap.mem_entries.mp he)
  unfold StackMapEntry.ofFrame
  split
  · exact Yields.bind (M := fun _ _ => False) Yields.throw fun _ _ _ _ hfalse => hfalse.elim
  intro pool entry pool' _ hrun
  obtain ⟨locals, pool₁, hlocals, hrun⟩ := state_bind_ok hrun
  obtain ⟨stack, pool₂, -, hrun⟩ := state_bind_ok hrun
  cases hrun
  have hend : 0 + (locals.map VType.category).sum ≤ bound :=
    end_layoutFrom hentries (Nat.zero_le bound) pool locals pool₁ trivial hlocals
  rwa [Nat.zero_add] at hend

-- ==== marks

/-- Slots that differ in their marks only; what was written stays so. -/
def Slots.Remarked (s s' : Slots) : Prop :=
  ∃ defaulted written, s' = { s with defaulted, written } ∧
    ∀ slot, s.written.contains slot = true → written.contains slot = true

theorem Slots.Remarked.refl (s : Slots) : s.Remarked s :=
  ⟨_, _, rfl, fun _ h => h⟩

theorem Slots.remarked_insert (s : Slots) (slot : Nat) (defaulted : Std.TreeSet Nat) :
    s.Remarked { s with defaulted, written := s.written.insert slot } := by
  refine ⟨_, _, rfl, fun other h => ?_⟩
  rw [Std.TreeSet.contains_insert, h, Bool.or_true]

theorem Slots.Remarked.trans {a b c : Slots} (hab : a.Remarked b) (hbc : b.Remarked c) :
    a.Remarked c := by
  obtain ⟨_, _, rfl, hwritten⟩ := hab
  obtain ⟨defaulted, written, rfl, hwritten'⟩ := hbc
  exact ⟨defaulted, written, rfl, fun slot h => hwritten' slot (hwritten slot h)⟩

theorem Slots.Remarked.roomy {s s' : Slots} (h : s.Remarked s') (hs : s.Roomy) :
    s'.Roomy ∧ s'.high = s.high := by
  obtain ⟨_, _, rfl, -⟩ := h
  exact ⟨⟨hs.next, hs.temps, hs.parked⟩, rfl⟩

namespace Lowering

open LowerM (widen)

variable {cx : Context} {s s' : LowerState} {bound : Nat}

theorem Repair.remarked (h : Repair s s') : s.slots.Remarked s'.slots := by
  cases h with
  | fill => exact .refl _
  | default =>
    exact (Slots.remarked_insert _ _ _).trans (Slots.remarked_insert _ _ _)

theorem Saves.remarked {label : Label} {frame : Frame} (h : Saves cx label frame s s') :
    s.slots.Remarked s'.slots :=
  h.keeps (I := fun t => s.slots.Remarked t.slots) (fun _ => .refl _)
    fun _ _ ht hrepair => ht.trans hrepair.remarked

theorem HandlerSaves.remarked {rs : List Nat} (h : HandlerSaves cx rs s s') :
    s.slots.Remarked s'.slots :=
  h.keeps (I := fun t => s.slots.Remarked t.slots)
    (fun _ _ _ _ _ ht hsave => ht.trans hsave.remarked) (.refl _)

theorem Change.remarked (h : Change cx s s') : s.slots.Remarked s'.slots := by
  cases h with
  | put => exact Slots.remarked_insert _ _ _
  | replace => exact .refl _

/-- The high mark is never lowered, and everything handed out stays below it. -/
theorem Step.roomy {a b : Stage} (hstep : Step cx a b) (h : a.1.slots.Roomy) :
    b.1.slots.Roomy ∧ a.1.slots.high ≤ b.1.slots.high := by
  have hmarks : ∀ {slots : Slots}, a.1.slots.Remarked slots →
      slots.Roomy ∧ a.1.slots.high ≤ slots.high :=
    fun hmarked => (hmarked.roomy h).imp_right (Nat.le_of_eq ∘ Eq.symm)
  cases hstep with
  | borrow hborrow => exact h.borrow hborrow
  | release hrelease => exact (h.release hrelease).imp_right (Nat.le_of_eq ∘ Eq.symm)
  | change hchange htold => exact hmarks (hchange.remarked.trans htold.remarked)
  | repair hrepair => exact hmarks hrepair.remarked
  | save _ _ hsave | bindNew _ _ _ hsave => exact hmarks hsave.remarked
  | _ => exact ⟨h, Nat.le_refl _⟩

-- ==== frames

/-- All declared slots lie below a bound. -/
def DeclaredBelow (bound : Nat) (slots : Slots) : Prop :=
  ∀ slot d, slots.declared? slot = some d → slot + d.ty.category ≤ bound

theorem DeclaredBelow.of_declared {slots slots' : Slots} (h : DeclaredBelow bound slots)
    (hsame : slots'.declared = slots.declared) : DeclaredBelow bound slots' := by
  intro slot d hd
  rw [Slots.declared?_congr hsame] at hd
  exact h slot d hd

/-- What may be stored in a slot takes no more room than the slot has. -/
theorem le_of_writable (hthin : Thin cx) (hdeclared : DeclaredBelow bound s.slots)
    (htemps : ∀ t ∈ s.slots.temps, t.slot + t.category ≤ bound) {ty : Ty} {kind : StackKind}
    {slot : Nat} (hkind : ty.stackKind? = some kind) (hwritable : Writable s kind slot)
    (hkept : Thin cx → ∀ d, s.slots.declared? slot = some d → d.kind = .synthetic →
      ty.category = 1) : slot + ty.category ≤ bound := by
  rcases hwritable with ⟨d, hd, hsynthetic | hsame⟩ | ⟨t, ht, rfl, hcategory⟩
  · rw [hkept hthin d hd hsynthetic]
    exact Nat.le_trans (Nat.add_le_add_left d.ty.category_pos slot) (hdeclared slot d hd)
  · rw [Ty.category_congr (hkind.trans hsame.symm)]
    exact hdeclared slot d hd
  · rw [Ty.category_of_stackKind? hkind, ← hcategory]
    exact htemps t ht

/-- Types change in ways that need no more room. -/
private theorem stable_below (hthin : Thin cx) (hdeclared : DeclaredBelow bound s.slots)
    (htemps : ∀ t ∈ s.slots.temps, t.slot + t.category ≤ bound) :
    Stable cx s (SlotMap.Below bound) where
  erase m k h slot t ht := by
    rw [SlotMap.get?_erase] at ht
    split at ht
    · cases ht
    · exact h slot t ht
  replace m h slot t ht := by
    rw [SlotMap.get?_map, Option.map_eq_some_iff] at ht
    obtain ⟨x, hx, rfl⟩ := ht
    refine Nat.le_trans (Nat.add_le_add_left ?_ slot) (h slot x hx)
    split
    · rw [hthin.owner]
      exact x.category_pos
    · exact Nat.le_refl _
  fill m k d hd _ h slot t ht := by
    rcases SlotMap.get?_of_fill ht with ⟨rfl, rfl⟩ | hold
    · exact hdeclared slot d hd
    · exact h slot t hold
  store m k ty kind hkind hwritable hkept h slot t ht := by
    rcases SlotMap.get?_of_store ht with ⟨rfl, rfl⟩ | hold
    · exact le_of_writable hthin hdeclared htemps hkind hwritable hkept
    · exact h slot t hold
  widen f h slot t ht := by
    obtain ⟨x, hx, heq⟩ := LowerM.get?_widen.mp ht
    have hx := h slot x hx
    unfold Slots.declaredType? at heq
    cases hd : s.slots.declared? slot with
    | none =>
      rw [hd] at heq
      exact heq ▸ hx
    | some d =>
      rw [hd] at heq
      dsimp only [Option.map_some] at heq
      split at heq
      · exact heq ▸ hdeclared slot d hd
      · exact heq ▸ hx
  merge old frame new h _ hmerge slot t ht := by
    obtain ⟨x, y, hx, -, rfl, -⟩ := (Frame.merge_ok hmerge).2.mp ht
    exact Nat.le_trans (Nat.add_le_add_left (TypeTable.category_join_le hthin.slim x y) slot)
      (h slot x hx)

-- ==== code

theorem Repair.codeBelow (hrepair : Repair s s') (hdeclared : DeclaredBelow bound s.slots)
    (h : s.code.Below bound) : s'.code.Below bound := by
  cases hrepair with
  | fill => exact h
  | @default slot d kind instrs _ _ hd _ _ hkind hcode _ =>
    refine h.emitPrologue fun i hi => ?_
    rcases List.mem_append.mp hi with hi | hi
    · rw [Instr.localsEnd_of_slot? (hcode.plain i hi).slot]
      exact Nat.zero_le bound
    · rw [List.mem_singleton.mp hi, Instr.localsEnd_storeSlot, ← Ty.category_of_stackKind? hkind]
      exact hdeclared slot d hd

theorem Saves.codeBelow {label : Label} {frame : Frame} (hsave : Saves cx label frame s s')
    (hdeclared : DeclaredBelow bound s.slots) (h : s.code.Below bound) : s'.code.Below bound := by
  obtain ⟨frames, saved, events, made, -, -, hrepairs, -⟩ := hsave.exists_save
  exact hrepairs.keeps (I := fun t => t.code.Below bound)
    (fun _ _ ht h hrepair => hrepair.codeBelow (hdeclared.of_declared ht.declared) h) h

theorem HandlerSaves.codeBelow {rs : List Nat} (hsaves : HandlerSaves cx rs s s')
    (hdeclared : DeclaredBelow bound s.slots) (h : s.code.Below bound) : s'.code.Below bound :=
  hsaves.keeps (I := fun t => t.code.Below bound)
    (fun _ _ _ _ ht h hsave => hsave.codeBelow (hdeclared.of_declared ht.declared) h) h

private theorem le_of_readable (hdeclared : DeclaredBelow bound s.slots)
    (hlive : s.frames.live.locals.Below bound) {kind : StackKind} {slot : Nat}
    (h : Readable s kind slot) : slot + kind.category ≤ bound := by
  rcases h with ⟨ty, hty, hkind⟩ | ⟨d, hd, hkind, -⟩
  · rw [← Ty.category_of_stackKind? hkind]
    exact hlive slot ty hty
  · rw [← Ty.category_of_stackKind? hkind]
    exact hdeclared slot d hd

theorem Step.codeBelow {a b : Stage} (hstep : Step cx a b) (hthin : Thin cx)
    (hdeclared : DeclaredBelow bound a.1.slots)
    (htemps : ∀ t ∈ a.1.slots.temps, t.slot + t.category ≤ bound)
    (hlive : a.1.frames.live.locals.Below bound) (h : a.1.code.Below bound) :
    b.1.code.Below bound := by
  cases hstep with
  | change hchange htold =>
    refine htold.codeBelow (hdeclared.of_declared hchange.outline.1) ?_
    cases hchange with
    | put hkind hwritable hkept =>
      refine h.emit ?_
      rw [Instr.localsEnd_storeSlot, ← Ty.category_of_stackKind? hkind]
      exact le_of_writable hthin hdeclared htemps hkind hwritable hkept
    | replace => exact h
  | repair hrepair => exact hrepair.codeBelow hdeclared h
  | save _ _ hsave => exact hsave.codeBelow hdeclared h
  | emit hplain =>
    refine h.emit ?_
    rw [Instr.localsEnd_of_slot? hplain.slot]
    exact Nat.zero_le bound
  | fetch hreadable =>
    refine h.emit ?_
    rw [Instr.localsEnd_loadSlot]
    exact le_of_readable hdeclared hlive hreadable
  | retract hretract =>
    obtain ⟨rest, hrest, rfl⟩ := Option.map_eq_some_iff.mp hretract
    exact ⟨h.prologue, fun i hi => h.body i (CodeBuffer.mem_of_retractFrom hrest hi)⟩
  | exit hexit =>
    refine h.emit ?_
    rw [Instr.localsEnd_of_slot? hexit.slot]
    exact Nat.zero_le bound
  | branch | jump | table | bindLoaded => exact h.push nofun
  | bindNew _ _ _ hsave => exact (hsave.codeBelow hdeclared h).push nofun
  | pass | defer => exact h.push nofun
  | _ => exact h

-- ==== runs

/-- All that is said about locals lies below the high mark. -/
structure Roomed (base : Nat) (s : LowerState) : Prop where
  fits : s.slots.Fits base
  roomy : s.slots.Roomy
  frames : s.frames.Throughout (SlotMap.Below s.slots.high)
  code : s.code.Below s.slots.high

variable {base : Nat}

theorem Roomed.step {a b : Stage} (h : Roomed base a.1) (hthin : Thin cx)
    (hstep : Step cx a b) : Roomed base b.1 := by
  have hdeclared : DeclaredBelow a.1.slots.high a.1.slots :=
    fun _ _ hd => h.fits.le_high h.roomy hd
  obtain ⟨hroomy, hhigh⟩ := hstep.roomy h.roomy
  have hframes := (stable_below hthin hdeclared h.roomy.temps).throughout_step h.frames hstep
  have hcode := hstep.codeBelow hthin hdeclared h.roomy.temps h.frames.live h.code
  exact ⟨hstep.fits h.fits, hroomy,
    ⟨hframes.live.mono hhigh, fun l f hf => (hframes.frames l f hf).mono hhigh⟩,
    hcode.mono hhigh⟩

theorem Started.roomed (h : Started cx s) : ∃ base, Roomed base s := by
  obtain ⟨locals, hframes, hlaid⟩ := h.laidOut
  refine ⟨_, hlaid.fits, h.roomy, ⟨fun slot t ht => ?_, fun l f hf => ?_⟩, ?_⟩
  · rw [hframes] at ht
    obtain ⟨d, hd, -, hty⟩ := hlaid.exists_argument ht
    have hend := hlaid.fits.le_high h.roomy hd
    -- the receiver of a constructor takes one slot
    rcases hty with rfl | rfl
    · exact hend
    · exact Nat.le_trans (Nat.add_le_add_left d.ty.category_pos slot) hend
  · rw [hframes] at hf
    cases hf
  · rw [h.code]
    exact ⟨nofun, nofun⟩

theorem Finished.localsEnd_le {asm : Assembly} {frames : Std.TreeMap Nat Frame} {m : Method}
    (hfinished : Finished cx s asm frames m) (hT : cx.types.Slim) (h : Roomed base s)
    {e : StackMapEntry} (he : e ∈ m.stackMap) : e.localsEnd ≤ m.maxLocals := by
  have hframes : ∀ e ∈ frames.toList, e.2.locals.Below s.slots.high := by
    refine FrameStore.resolve_keeps (P := fun f => f.locals.Below s.slots.high)
      (fun a b c ha _ hmerge slot t ht => ?_) (fun l f hf => ?_) hfinished.resolved
    · obtain ⟨x, y, hx, -, rfl, -⟩ := (Frame.merge_ok hmerge).2.mp ht
      exact Nat.le_trans (Nat.add_le_add_left (TypeTable.category_join_le hT x y) slot)
        (ha slot x hx)
    · rw [FrameStore.recorded?_backfill] at hf
      exact h.frames.frames l f hf
  obtain ⟨p, hp, pool, pool', hentry⟩ := forall₂_mem_right hfinished.entries he
  rw [hfinished.maxLocals]
  exact StackMapEntry.end_ofFrame (hframes p (List.mem_of_mem_filter hp)) pool e pool' trivial
    hentry

/-- The slots that are given for a method are enough for all its instructions and for
every entry of its stack map. -/
theorem localsEnd_le_maxLocals {config c : Config} {T : TypeTable} {pool : Pool} {body : Body}
    {m : Method} (hT : T.Built c) (hslim : T.Slim) (howner : body.owner.category = 1)
    (h : (lowerMethod config T pool body).result = .ok m) :
    (∀ e ∈ m.code, e.2.localsEnd ≤ m.maxLocals) ∧
      ∀ e ∈ m.stackMap, e.localsEnd ≤ m.maxLocals := by
  obtain ⟨cx, s₁, s₂, s₃, p, rfl, rfl, hstarted, hsteps, -, hfinish⟩ := exists_run h
  obtain ⟨⟨asm, frames, hfinished⟩, -⟩ := exists_finished hfinish
  have hthrown : cx.types.throwable.category = 1 := by
    rw [hT.equipped.throwable]
    rfl
  obtain ⟨base, hstart⟩ := hstarted.roomed
  have hthin : ∀ o, Thin (cx.atOffset o) := fun _ => ⟨hslim, hthrown, howner⟩
  have hroomed : Roomed base s₂ :=
    hsteps.keeps (I := fun a => Roomed base a.1)
      (fun e _ _ _ ha hstep => ha.step (hthin e.1) hstep) hstart
  refine ⟨fun e he => ?_, fun e he => hfinished.localsEnd_le hslim hroomed he⟩
  rw [hfinished.code] at he
  rw [hfinished.maxLocals]
  exact hroomed.code.assemble hfinished.assembled e he

/-- Sets a variable of two slots in a protected range, and reads it behind. -/
def setsLong : Body where
  owner := .ref "Long"
  name := "set"
  kind := .static
  params := [⟨none, .prim .int32⟩]
  locals := [⟨none, .prim .int64⟩]
  returns := none
  code := [(0, .loadInt64 1), (1, .storeLocal 0), (2, .leave 5), (3, .nop), (4, .endFinally),
    (5, .loadLocal 0), (6, .pop), (7, .ret)]
  handlers :=
    [{ kind := .fault, tryStart := 0, tryStop := 3, handlerStart := 3, handlerStop := 5,
       catchType := none, filterStart := none }]

theorem previewed_setsLong :
    (previewed {} (.ofConfig {}) setsLong).map (fun p =>
      (p.asm.code.map Prod.snd, p.listed.map Prod.fst, p.state.slots.maxLocals))
      = some ([.const .long 1, .store (.num .long) (.short 1), .goto 7, .goto 3, .athrow,
          .load (.num .long) (.short 1), .pop2, .returnVoid], [5, 8, 9], 3) := by
  cbv

/-- The variable takes the last two of three slots. -/
theorem localsEnd_le_maxLocals_setsLong :
    ∃ m a, (lowerMethod {} (.ofConfig {}) .empty setsLong).result = .ok m ∧
      (a, .load (.num .long) (.short 1)) ∈ m.code ∧ m.maxLocals = 3 ∧ m.stackMap.length = 3 ∧
      (∀ e ∈ m.code, e.2.localsEnd ≤ m.maxLocals) ∧
      ∀ e ∈ m.stackMap, e.localsEnd ≤ m.maxLocals := by
  obtain ⟨p, hp, heq⟩ := Option.map_eq_some_iff.mp previewed_setsLong
  obtain ⟨hcode, hlisted, hmax⟩ : p.asm.code.map Prod.snd = _ ∧ p.listed.map Prod.fst = _ ∧
      p.state.slots.maxLocals = _ := by
    simpa only [Prod.mk.injEq] using heq
  obtain ⟨m, frames, hm, -, -, hfinished, hsame⟩ := exists_of_previewedFrom hp
  obtain ⟨⟨a, i⟩, hload, rfl⟩ : ∃ e ∈ p.asm.code, e.2 = .load (.num .long) (.short 1) :=
    List.mem_map.mp (by rw [hcode]; decide)
  refine ⟨m, a, hm, hfinished.code ▸ hload, hfinished.maxLocals.trans hmax, ?_, ?_⟩
  · have hoffsets := congrArg List.length hfinished.offsets
    rw [← hsame, hlisted, List.length_map] at hoffsets
    exact hoffsets
  · exact localsEnd_le_maxLocals .start (TypeTable.slim_of_classes (by decide)) rfl hm

theorem previewed_joinsClasses :
    (previewed {} FrameStore.belowLong joinsClasses).map (fun p =>
      (p.asm.code.map Prod.snd, p.state.slots.maxLocals))
      = some ([.load (.num .int) (.short 0), .ifZero .ne 8, .load .reference (.short 1),
          .store .reference (.short 3), .goto 5, .load .reference (.short 2),
          .store .reference (.short 3), .load (.num .long) (.short 3), .pop2, .returnVoid], 4) := by
  cbv

/-- Where the join of two classes takes two slots, a variable that has one slot is read
as if it had two, the second of which the method does not have. -/
theorem load_exceeds_joinsClasses :
    ∃ m a, (lowerMethod {} FrameStore.belowLong .empty joinsClasses).result = .ok m ∧
      (a, .load (.num .long) (.short 3)) ∈ m.code ∧
      m.maxLocals < (Instr.load (.num .long) (.short 3)).localsEnd := by
  obtain ⟨p, hp, heq⟩ := Option.map_eq_some_iff.mp previewed_joinsClasses
  obtain ⟨hcode, hmax⟩ := Prod.mk.inj heq
  obtain ⟨m, frames, hm, -, -, hfinished, -⟩ := exists_of_previewedFrom hp
  obtain ⟨⟨a, i⟩, hload, rfl⟩ : ∃ e ∈ p.asm.code, e.2 = .load (.num .long) (.short 3) :=
    List.mem_map.mp (by rw [hcode]; decide)
  refine ⟨m, a, hm, hfinished.code ▸ hload, ?_⟩
  rw [hfinished.maxLocals, hmax]
  decide

end Lowering

end BytecodeBridge
