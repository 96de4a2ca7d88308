/-
The stack map of a lowered method is complete.

The verifier of the target machine wants a frame at every address that
control can reach other than by falling into it: the destinations of all
branches and jump tables, the handlers, and whatever follows an
instruction that does not go on. One emitter that forgets to save a frame
would break the method, so the argument is an invariant of the whole run
(`Mapped`): what is named by a branch has a frame, what is bound inside an
operation has a frame, and code that is not left ends with a transfer.

The last part is needed because an entry must lie at an instruction. A
label that nothing follows would have an address just past the code; but
binding a label makes the code reachable, and the run ends in code that is
not, so that an instruction follows every label.
-/
import BytecodeBridge.Proofs.Lowering.Completion

namespace BytecodeBridge

namespace Lowering

open FrameStore

-- ==== the invariant

/-- What the code emitted so far has to do with the frames saved so far. -/
structure Mapped (a : Stage) : Prop where
  listed : a.1.frames.Listed
  saved : ∀ label ∈ a.2, a.1.frames.has label = true
  /-- whatever is transferred to has a frame -/
  named : ∀ item ∈ a.1.code.body, ∀ label ∈ item.targets, a.1.frames.has label = true
  /-- what is bound inside an operation has a frame -/
  bound : ∀ label, .bind label ∈ a.1.code.body → (∀ o, label ≠ .source o) →
    a.1.frames.has label = true
  /-- offsets stand in branches and tables only -/
  plain : ∀ i, .instr i ∈ a.1.code.body → i.offsets = []
  prologue : ∀ i ∈ a.1.code.prologue, i.offsets = []
  closed : a.1.reachable = false → Closed a.1.code.body

namespace Mapped

variable {cx : Context} {s s' : LowerState} {p : List Label}

variable {label : Label} {frames : FrameStore} {reachable : Bool}

/-- Steps that leave the code and the recorded frames alone. -/
theorem of_same (h : Mapped (s, p)) (hrecorded : s'.frames.recorded = s.frames.recorded)
    (hcode : s'.code = s.code) (hreach : s'.reachable = s.reachable) : Mapped (s', []) := by
  have hhas : ∀ label, s'.frames.has label = s.frames.has label := by
    intro label
    unfold has
    rw [hrecorded]
  refine ⟨?_, by simp, ?_, ?_, ?_, ?_, ?_⟩
  · intro label r hr
    rw [hrecorded] at hr
    exact h.listed label r hr
  · intro item hitem label hlabel
    rw [hcode] at hitem
    exact (hhas label).trans (h.named item hitem label hlabel)
  · intro label hlabel hne
    rw [hcode] at hlabel
    exact (hhas label).trans (h.bound label hlabel hne)
  · rw [hcode]
    exact h.plain
  · rw [hcode]
    exact h.prologue
  · rw [hcode, hreach]
    exact h.closed

theorem repair (h : Mapped (s, p)) (hrepair : Repair s s') : Mapped (s', p) := by
  have hhas := hrepair.has
  have hlisted : s'.frames.Listed := by
    cases hrepair with
    | fill => exact h.listed.materialize _ _
    | default => exact h.listed
  have hprologue : ∀ i ∈ s'.code.prologue, i.offsets = [] := by
    cases hrepair with
    | fill => exact h.prologue
    | default hdeclared hvariable hnew hkind hcode =>
      intro i hi
      rw [CodeBuffer.foldl_emitPrologue, List.reverse_append] at hi
      rcases List.mem_append.mp hi with hi | hi
      · rcases List.mem_append.mp hi with hi | hi
        · cases List.mem_singleton.mp hi
          rfl
        · exact (hcode.plain i (List.mem_reverse.mp hi)).offsets
      · exact h.prologue i hi
  refine ⟨hlisted, fun label hl => (hhas label).trans (h.saved label hl), ?_, ?_, ?_,
    hprologue, ?_⟩
  · rw [hrepair.mends.body]
    exact fun item hitem label hl => (hhas label).trans (h.named item hitem label hl)
  · rw [hrepair.mends.body]
    exact fun label hl hne => (hhas label).trans (h.bound label hl hne)
  · rw [hrepair.mends.body]
    exact h.plain
  · rw [hrepair.mends.body, hrepair.mends.reachable]
    exact h.closed

theorem saves {frame : Frame} (h : Mapped (s, p)) (hsave : Saves cx label frame s s') :
    Mapped (s', label :: p) := by
  obtain ⟨frames, saved, events, made, hok, -, hrepairs, -⟩ := hsave.exists_save
  refine hrepairs.keeps (I := fun t => Mapped (t, label :: p)) (fun _ _ _ ht h => ht.repair h) ?_
  have hstored := FrameStore.save_ok hok
  refine ⟨h.listed.save hok, List.forall_mem_cons.mpr
    ⟨hstored.has, fun l hl => hstored.has_mono (h.saved l hl)⟩, ?_, ?_, h.plain, h.prologue,
    h.closed⟩
  · exact fun item hitem l hl => hstored.has_mono (h.named item hitem l hl)
  · exact fun l hl hne => hstored.has_mono (h.bound l hl hne)

/-- An item that goes on is added at the end. -/
theorem push (h : Mapped (s, p)) (item : Item) (hplain : ∀ i, item = .instr i → i.offsets = [])
    (htargets : ∀ label ∈ item.targets, label ∈ p) (hbind : item.label? = none)
    (hrecorded : frames.recorded = s.frames.recorded) {slots : Slots}
    (hclosed : reachable = false → Closed (item :: s.code.body)) :
    Mapped ({ s with code := s.code.push item, frames, slots, reachable }, []) := by
  have hsame : Mapped ({ s with frames, slots }, []) := h.of_same hrecorded rfl rfl
  have hhas : ∀ label, s.frames.has label = true → frames.has label = true := by
    intro label hl
    unfold has
    rw [hrecorded]
    exact hl
  refine ⟨hsame.listed, by simp, ?_, ?_, ?_, h.prologue, hclosed⟩
  · exact List.forall_mem_cons.mpr
      ⟨fun label hl => hhas label (h.saved label (htargets label hl)), hsame.named⟩
  · intro label hmem hne
    rcases List.mem_cons.mp hmem with rfl | hmem
    · cases hbind
    · exact hsame.bound label hmem hne
  · intro i hmem
    rcases List.mem_cons.mp hmem with heq | hmem
    · exact hplain i heq.symm
    · exact h.plain i hmem

theorem emit (h : Mapped (s, p)) {i : Instr} (hi : i.offsets = [])
    (hrecorded : frames.recorded = s.frames.recorded) {slots : Slots}
    (hclosed : reachable = false → i.isUnconditional = true ∨ Closed s.code.body) :
    Mapped ({ s with code := s.code.emit i, frames, slots, reachable }, []) := by
  refine h.push (.instr i) (fun j hj => ?_) (by simp [Item.targets]) rfl hrecorded hclosed
  cases hj
  exact hi

theorem branch (h : Mapped (s, p)) (hlabel : label ∈ p) {i : Instr}
    (hclosed : reachable = false → i.isUnconditional = true ∨ Closed s.code.body) :
    Mapped ({ s with code := s.code.branch i label, reachable }, []) :=
  h.push (.branch i label) (fun j hj => by cases hj) (by simpa [Item.targets] using hlabel) rfl rfl
    hclosed

/-- A label is bound at the end. -/
theorem bind (h : Mapped (s, p)) (hlabel : (∀ o, label ≠ .source o) → s.frames.has label = true)
    (hrecorded : frames.recorded = s.frames.recorded) :
    Mapped ({ s with code := s.code.bind label, frames, reachable := true }, []) := by
  have hsame : Mapped ({ s with frames }, []) := h.of_same hrecorded rfl rfl
  refine ⟨hsame.listed, by simp, ?_, ?_, ?_, h.prologue, fun hfalse => by cases hfalse⟩
  · exact List.forall_mem_cons.mpr ⟨by simp [Item.targets], hsame.named⟩
  · intro other hmem hne
    rcases List.mem_cons.mp hmem with heq | hmem
    · cases heq
      unfold has
      rw [hrecorded]
      exact hlabel hne
    · exact hsame.bound other hmem hne
  · intro i hmem
    rcases List.mem_cons.mp hmem with heq | hmem
    · cases heq
    · exact h.plain i hmem

end Mapped

/-- Every step keeps code and frames in accord. -/
theorem Mapped.step {cx : Context} {a b : Stage} (h : Mapped a) (hstep : Step cx a b) :
    Mapped b := by
  cases hstep with
  | push hpush =>
    obtain ⟨-, rfl⟩ := FrameStore.push_ok hpush
    exact h.of_same rfl rfl rfl
  | pop hpop =>
    obtain ⟨_, -, rfl⟩ := FrameStore.pop_ok hpop
    exact h.of_same rfl rfl rfl
  | @change s t s' p hchange htold =>
    have hchanged : Mapped (t, []) := by
      cases hchange with
      | put => exact h.emit (by rfl) (by rfl) fun hreach => .inr (h.closed hreach)
      | replace => exact h.of_same rfl rfl rfl
    exact htold.keeps (I := fun u => Mapped (u, []))
      (fun _ _ _ _ _ hu hsave => (hu.saves hsave).of_same rfl rfl rfl) hchanged
  | repair hrepair => exact (h.repair hrepair).of_same rfl rfl rfl
  | save _ _ hsave => exact h.saves hsave
  | emit hi => exact h.emit hi.offsets rfl fun hreach => .inr (h.closed hreach)
  | fetch _ => exact h.emit rfl rfl fun hreach => .inr (h.closed hreach)
  | retract hretract =>
    obtain ⟨rest, hrest, rfl⟩ := Option.map_eq_some_iff.mp hretract
    have hmem : ∀ item ∈ rest, item ∈ _ := fun item => CodeBuffer.mem_of_retractFrom hrest
    exact ⟨h.listed, by simp, fun item hitem => h.named item (hmem item hitem),
      fun label hlabel => h.bound label (hmem _ hlabel), fun i hi => h.plain i (hmem _ hi),
      h.prologue, fun hreach => (h.closed hreach).retract rfl hrest⟩
  | branch hi hlabel => exact h.branch hlabel fun hreach => .inr (h.closed hreach)
  | exit hi => exact h.emit hi.offsets rfl fun _ => .inl hi.leaves
  | jump hlabel => exact h.branch hlabel fun _ => .inl rfl
  | table hlabels =>
    exact h.push (.table _ _ _) (fun _ heq => by cases heq) hlabels rfl rfl fun _ => trivial
  | bindLoaded _ _ hframe => exact h.bind (fun _ => FrameStore.has_of_recorded? hframe) rfl
  | bindNew _ _ _ hsave => exact (h.saves hsave).bind (fun _ => hsave.has.1) rfl
  | pass | defer => exact h.bind (fun hne => absurd rfl (hne _)) rfl
  | _ => exact h.of_same rfl rfl rfl

theorem Started.mapped {cx : Context} {s : LowerState} (h : Started cx s) : Mapped (s, []) := by
  obtain ⟨locals, hframes, -⟩ := h.laidOut
  refine ⟨fun label r hr => ?_, by simp, ?_, ?_, ?_, ?_, fun hfalse => ?_⟩
  · rw [hframes] at hr
    exact absurd hr (by simp [start])
  · simp [h.code]
  · simp [h.code]
  · simp [h.code]
  · simp [h.code]
  · rw [h.reachable] at hfalse
    cases hfalse

-- ==== the stack map

/-- The check on frames covers everything behind a transfer that does not go on. -/
private theorem contains_of_checkFrames {frames : Std.TreeMap Nat Frame} {code : List (Nat × Instr)}
    (h : checkFrames frames code = .ok ()) {n a b : Nat} {i j : Instr}
    (hi : code[n]? = some (a, i)) (hj : code[n + 1]? = some (b, j))
    (hunconditional : i.isUnconditional = true) : frames.contains b = true := by
  induction code generalizing n with
  | nil => cases hi
  | cons e code ih =>
    cases code with
    | nil => cases hj
    | cons e' code =>
      unfold checkFrames at h
      split at h
      · cases h
      · next hcheck =>
        cases n with
        | zero =>
          cases hi
          cases hj
          rw [hunconditional, Bool.true_and, Bool.not_eq_true, Bool.not_eq_false'] at hcheck
          exact hcheck
        | succ n => exact ih h hi hj

/-- Behind every label of closed code lies an item that is no label. -/
theorem exists_item_behind {b : CodeBuffer} {items : List Item}
    (hwide : List.Forall₂ Item.Widens b.items items) (hclosed : Closed b.body)
    {pre post : List Item} {label : Label} (heq : items = pre ++ .bind label :: post) :
    ∃ item ∈ post, item.label? = none := by
  obtain ⟨last, rest, hbody, hlast⟩ := hclosed.head
  have hreverse := List.forall₂_reverse_iff.mpr hwide
  rw [b.reverse_items, hbody, heq, List.reverse_append, List.reverse_cons] at hreverse
  -- the last item is found behind the label, since it is none itself
  cases hpost : post.reverse with
  | nil =>
    rw [hpost] at hreverse
    cases hreverse with
    | cons hfirst _ =>
      have hlabel := hfirst.label?
      rw [hlast] at hlabel
      cases hlabel
  | cons item more =>
    rw [hpost] at hreverse
    cases hreverse with
    | cons hfirst _ =>
      refine ⟨item, ?_, hfirst.label?.trans hlast⟩
      rw [← List.mem_reverse, hpost]
      exact .head _

/-- An item of the assembled code was emitted, or stands in the prologue. -/
theorem mem_body_of_widens {b : CodeBuffer} {items : List Item}
    (hwide : List.Forall₂ Item.Widens b.items items) {item : Item} (hmem : item ∈ items) :
    (∃ i ∈ b.prologue, item = .instr i) ∨ ∃ original ∈ b.body, original.Widens item := by
  obtain ⟨original, horiginal, hwidens⟩ := forall₂_mem_right hwide hmem
  rcases List.mem_append.mp horiginal with hprologue | hbody
  · obtain ⟨i, hi, rfl⟩ := List.mem_map.mp hprologue
    cases hwidens
    exact .inl ⟨i, List.mem_reverse.mp hi, rfl⟩
  · exact .inr ⟨original, List.mem_reverse.mp hbody, hwidens⟩

theorem Mapped.plain_of_widens (h : Mapped (s, p)) {items : List Item}
    (hwide : List.Forall₂ Item.Widens s.code.items items) :
    ∀ i, .instr i ∈ items → i.offsets = [] := by
  intro i hi
  rcases mem_body_of_widens hwide hi with ⟨j, hj, heq⟩ | ⟨original, hmem, hwidens⟩
  · cases heq
    exact h.prologue i hj
  · cases hwidens
    exact h.plain i hmem

end Lowering

namespace Method

/-- An instruction starts at the address. -/
def IsAddress (m : Method) (addr : Nat) : Prop :=
  ∃ i, (addr, i) ∈ m.code

/-- The stack map has an entry at the address. -/
def HasFrame (m : Method) (addr : Nat) : Prop :=
  ∃ e ∈ m.stackMap, e.offset = addr

end Method

namespace Lowering

/-- The stack map of every lowered method is complete: all destinations of jumps,
everything behind a transfer that does not go on, and all handlers have an entry,
and the entries lie at instructions, in ascending order. -/
theorem stackMap_complete {config : Config} {T : TypeTable} {pool : Pool} {body : Body}
    {m : Method} (h : (lowerMethod config T pool body).result = .ok m) :
    (∀ a i, (a, i) ∈ m.code → ∀ o ∈ i.offsets,
      ∃ dest : Nat, (a : Int) + o = dest ∧ m.IsAddress dest ∧ m.HasFrame dest) ∧
    (∀ n a i b j, m.code[n]? = some (a, i) → m.code[n + 1]? = some (b, j) →
      i.isUnconditional = true → m.HasFrame b) ∧
    (∀ e ∈ m.exceptions, m.HasFrame e.handlerPc) ∧
    (m.stackMap.map (·.offset)).Pairwise (· < ·) ∧
    ∀ e ∈ m.stackMap, m.IsAddress e.offset := by
  obtain ⟨cx, s₁, s₂, s₃, p, -, -, hstarted, hsteps, hreach, hfinish⟩ := exists_run h
  have hmapped : Mapped (s₂, p) :=
    hsteps.keeps (fun _ _ _ _ ha hstep => ha.step hstep) hstarted.mapped
  obtain ⟨⟨asm, frames, hfinished⟩, -⟩ := exists_finished hfinish
  have hmcode := hfinished.code
  have hoffsets := hfinished.offsets
  obtain ⟨items, l, hwide, hassembled⟩ := CodeBuffer.assemble_ok hfinished.assembled
  obtain ⟨hall, hback⟩ := FrameStore.resolve_ok hmapped.listed.backfill hfinished.resolved
  -- every label lies at an instruction, and an address that has a frame is listed
  have hat : ∀ (label : Label) a, asm.labels[label]? = some a → m.IsAddress a := by
    intro label a ha
    obtain ⟨pre, post, heq, rfl⟩ := (hassembled.labels label a).mp ha
    obtain ⟨i, hi⟩ := hassembled.instr_at_label heq
      (exists_item_behind hwide (hmapped.closed hreach) heq)
    exact ⟨i, hmcode ▸ hi⟩
  have hframe : ∀ a, frames.contains a = true → m.HasFrame a := by
    intro a ha
    obtain ⟨label, hlabel⟩ := hback a ha
    obtain ⟨i, hi⟩ := hat label a hlabel
    have hlt := hassembled.lt_length (hmcode ▸ hi)
    rw [Std.TreeMap.contains_eq_isSome_getElem?, Option.isSome_iff_exists] at ha
    obtain ⟨frame, hget⟩ := ha
    have hmem : a ∈ m.stackMap.map (·.offset) := by
      rw [hoffsets]
      exact List.mem_map.mpr ⟨(a, frame), List.mem_filter.mpr
        ⟨Std.TreeMap.mem_toList_iff_getElem?_eq_some.mpr hget, decide_eq_true hlt⟩, rfl⟩
    exact List.mem_map.mp hmem
  have hlabelled : ∀ (label : Label) a, s₂.frames.has label = true →
      asm.labels[label]? = some a → m.HasFrame a := by
    intro label a hhas ha
    have hrecorded := s₂.frames.recorded?_backfill label
    rw [← FrameStore.recorded?_of_has hhas] at hrecorded
    have hhas' : s₂.frames.backfill.1.has label = true := by
      rw [FrameStore.has_eq_isSome] at hhas ⊢
      unfold FrameStore.recorded? at hrecorded
      rw [← Option.isSome_map, hrecorded, Option.isSome_map]
      exact hhas
    obtain ⟨a', ha', hcontains⟩ := hall label hhas'
    cases ha.symm.trans ha'
    exact hframe a hcontains
  refine ⟨fun a i hi o ho => ?_, fun n a i b j hi hj hunconditional => ?_, fun e he => ?_, ?_,
    fun e he => ?_⟩
  · -- a destination is the address of a label that the item names
    rw [hmcode] at hi
    obtain ⟨pre, item, post, heq, -, hpatch⟩ := (hassembled.code a i).mp hi
    have hitem : item ∈ items := heq ▸ List.mem_append_right _ List.mem_cons_self
    obtain ⟨label, hlabel, dest, hdest, hsum⟩ := Layout.target_of_patch hpatch
      (fun j hj => hmapped.plain_of_widens hwide j (hj ▸ hitem)) ho
    rw [hassembled.layout] at hdest
    refine ⟨dest, hsum, hat label dest hdest, hlabelled label dest ?_ hdest⟩
    rcases mem_body_of_widens hwide hitem with ⟨i', hi', rfl⟩ | ⟨original, hmem, hwidens⟩
    · cases hlabel
    · rw [hwidens.targets] at hlabel
      exact hmapped.named original hmem label hlabel
  · rw [hmcode] at hi hj
    exact hframe b (contains_of_checkFrames hfinished.checked hi hj hunconditional)
  · -- the handler of a region is bound inside an operation
    obtain ⟨r, hr⟩ := hfinished.exceptions e he
    obtain ⟨pre, post, heq, -⟩ := (hassembled.labels _ _).mp hr
    have hitem : .bind (.handler r) ∈ items := heq ▸ List.mem_append_right _ List.mem_cons_self
    rcases mem_body_of_widens hwide hitem with ⟨_, _, hinstr⟩ | ⟨original, hmem, hwidens⟩
    · cases hinstr
    · cases hwidens
      exact hlabelled _ _ (hmapped.bound _ hmem fun o ho => by cases ho) hr
  · rw [hoffsets, List.pairwise_map]
    refine (Std.TreeMap.ordered_keys_toList.filter _).imp fun {x y} hxy => ?_
    exact Nat.compare_eq_lt.mp hxy
  · have hmem : e.offset ∈ m.stackMap.map (·.offset) := List.mem_map_of_mem he
    rw [hoffsets] at hmem
    obtain ⟨⟨a, frame⟩, hentry, heq⟩ := List.mem_map.mp hmem
    have hget := Std.TreeMap.mem_toList_iff_getElem?_eq_some.mp (List.mem_filter.mp hentry).1
    obtain ⟨label, hlabel⟩ := hback a (by
      rw [Std.TreeMap.contains_eq_isSome_getElem?, hget]
      rfl)
    rw [← heq]
    exact hat label a hlabel

/-- The body of the loop is entered by the branch behind it, and the test by the jump
in front of both. -/
theorem stackMap_complete_testLast :
    ∃ m, (lowerMethod {} (.ofConfig {}) .empty testLast).result = .ok m ∧
      m.HasFrame 5 ∧ m.HasFrame 7 ∧ (m.stackMap.map (·.offset)).Pairwise (· < ·) ∧
      ∀ e ∈ m.stackMap, m.IsAddress e.offset := by
  obtain ⟨m, hm, hcode⟩ := exists_of_preview preview_testLast
  obtain ⟨hjumps, -, -, hascending, haddress⟩ := stackMap_complete hm
  obtain ⟨dest, hdest, -, hbody⟩ := hjumps 8 (.ifZero .ne (-3)) (by simp [hcode]) (-3)
    List.mem_cons_self
  obtain ⟨dest', hdest', -, htest⟩ := hjumps 2 (.goto 5) (by simp [hcode]) 5 List.mem_cons_self
  obtain rfl : dest = 5 := by omega
  obtain rfl : dest' = 7 := by omega
  exact ⟨m, hm, hbody, htest, hascending, haddress⟩

end Lowering

end BytecodeBridge
