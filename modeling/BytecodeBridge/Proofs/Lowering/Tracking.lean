/-
The code of a method, followed with its types while it is written.

A lowering keeps two things in step: the code it emits, and the frame that
says what is on the stack behind that code. `Point` is what is known of
both between two steps: the types that the code has led to, and those that
the live frame has. Inside the lowering of an operation the two differ,
since a value is popped from the frame before the instruction is emitted
that takes it from the stack.

`At` says that a state is at a point, and with it everything that makes the
point right. The code so far has a `Flow` that ends there, in the view that
the state itself gives: the pool, the declared slots and the frames of the
labels. The state changes in a handful of ways, and each of them moves the
point (`At.append`, `At.saves`, `At.bind`, and the like). The hard one is a
save, which changes the frame of a label that code was written for already.
Either the types stay, or the change is reported and the label counts as
changed from then on.

The flow is known only for code that binds no label twice. Code that does
is refused in the end, when it is assembled.
-/
import BytecodeBridge.Proofs.Lowering.Publication
import BytecodeBridge.Proofs.Machine.Flow

namespace BytecodeBridge.Lowering

open LowerM (widen)
open Machine FrameStore

variable {cx : Context} {s s' : LowerState} {label : Label}

-- ==== slots of primitive types

/-- A slot that is declared with a primitive type has no other type, unless it is the
object under construction. -/
def Typed (slots : Slots) (locals : SlotMap Ty) : Prop :=
  ∀ slot k t, slots.declaredType? slot = some (.prim k) → locals.get? slot = some t →
    t = .prim k ∨ t = .uninitThis

section Typed

variable {slots : Slots} {locals : SlotMap Ty}

theorem Typed.fill (h : Typed slots locals) {slot : Nat} {d : Declared}
    (hd : slots.declared? slot = some d) : Typed slots (locals.fill slot d.ty) := by
  intro k p t hk ht
  rcases SlotMap.get?_of_fill ht with ⟨rfl, rfl⟩ | hold
  · unfold Slots.declaredType? at hk
    rw [hd] at hk
    exact .inl (Option.some_inj.mp hk)
  · exact h k p t hk hold

theorem Typed.store (h : Typed slots locals) {slot : Nat} {ty : Ty}
    (hty : ∀ k, slots.declaredType? slot = some (.prim k) → ty = .prim k) :
    Typed slots (locals.store slot ty) := by
  intro k p t hk ht
  rcases SlotMap.get?_of_store ht with ⟨rfl, rfl⟩ | hold
  · exact .inl (hty p hk)
  · exact h k p t hk hold

theorem Typed.widen {frame : Frame} (h : Typed slots frame.locals) (T : TypeTable) :
    Typed slots (widen T slots frame).locals := by
  intro k p t hk ht
  obtain ⟨x, hx, rfl⟩ := LowerM.get?_widen.mp ht
  rw [hk]
  dsimp only
  split
  · exact .inl rfl
  · exact h k p x hk hx

theorem Typed.merge {T : TypeTable} {a b c : Frame} (ha : Typed slots a.locals)
    (hb : Typed slots b.locals) (hmerge : a.merge T b = .ok c) : Typed slots c.locals := by
  intro k p t hk ht
  obtain ⟨x, y, hx, hy, rfl, htop⟩ := (Frame.merge_ok hmerge).2.mp ht
  have hx' := ha k p x hk hx
  have hy' := hb k p y hk hy
  by_cases heq : x = y
  · have hjoin : T.join x y = x := if_pos heq
    rw [hjoin]
    exact hx'
  · rcases TypeTable.join_cases T x y with ⟨heq', -⟩ | hjoin | ⟨m, n, rfl, rfl, -⟩ | ⟨hrx, hry, -⟩
    · exact absurd heq' heq
    · rw [hjoin] at htop
      cases htop
    · rcases hx' with hx' | hx' <;> rcases hy' with hy' | hy' <;> simp_all
    · rcases hx' with rfl | rfl
      · cases hrx
      · rcases hy' with rfl | rfl
        · cases hry
        · exact absurd rfl heq

end Typed

-- ==== views

/-- The types on the stack of the frame of a label. -/
def stackOf (frames : FrameStore) (label : Label) : Option (List Ty) :=
  (frames.frameOf label).map (·.stack)

/-- What a state knows that the types of code refer to. -/
def view (s : LowerState) : View where
  pool := s.pool
  declared := s.slots.declaredType?
  recorded := stackOf s.frames
  changed label := StackChanged label s

theorem declaredType?_congr {slots slots' : Slots} (h : slots'.declared = slots.declared) :
    slots'.declaredType? = slots.declaredType? := by
  funext slot
  unfold Slots.declaredType? Slots.declared?
  rw [h]

theorem Typed.of_declared {slots slots' : Slots} (h : slots'.declared = slots.declared) :
    Typed slots' = Typed slots := by
  unfold Typed
  rw [declaredType?_congr h]

-- ==== repairs

theorem Repairs.stackOf (h : Repairs s s') (label : Label) :
    stackOf s'.frames label = stackOf s.frames label := by
  refine h.keeps (I := fun t => Lowering.stackOf t.frames label = Lowering.stackOf s.frames label)
    (fun t t' _ ht hrepair => ?_) rfl
  rw [← ht]
  cases hrepair with
  | fill =>
    unfold Lowering.stackOf
    rw [frameOf_materialize, Option.map_map]
    rfl
  | default => rfl

theorem Repair.stackChanged (h : Repair s s') (hl : StackChanged label s') :
    StackChanged label s := by
  cases h with
  | fill => exact hl
  | default =>
    obtain ⟨locals, hevent⟩ := hl
    rcases List.mem_cons.mp hevent with heq | hevent
    · cases heq
    · exact ⟨locals, hevent⟩

/-- The prologue starts and ends with nothing on the stack, whatever else is known. -/
def Neutral (s : LowerState) : Prop :=
  ∀ w : View, w.declared = s.slots.declaredType? →
    Flow w (s.code.prologue.map .instr) (some [])

/-- A default value has the type of the slot it is stored in. -/
theorem Neutral.repair (h : Neutral s) (hrepair : Repair s s') : Neutral s' := by
  cases hrepair with
  | fill => exact h
  | @default slot d kind instrs depth pool hd hvariable hnew hkind hcode =>
    intro w hw
    have hslot : w.declared slot = some d.ty := by
      rw [hw]
      show (s.slots.declared? slot).map (·.ty) = _
      rw [hd]
      rfl
    have hstore : ∀ types, Edge w (.instr (.storeSlot kind slot)) (some (d.ty :: types))
        (some types) :=
      fun types => .instr (sound_storeSlot hslot hkind (fun _ _ => rfl) types)
    have hbase := h w hw
    rw [CodeBuffer.foldl_emitPrologue]
    generalize hty : d.ty = ty at *
    cases hcode with
    | @object _ index init hvalue =>
      cases ty with
      | value name =>
        have hone : (Ty.value name).category = 1 := rfl
        have hnew := hbase.item (.instr (sound_reference (.inr ⟨index, rfl⟩) hone []))
        have hdup := hnew.item (.instr (sound_dupOf (.value name) []))
        have hinit := hdup.item (.instr (sound_construct init _ [.value name]))
        exact hinit.item (hstore [])
      | _ => cases hvalue
    | zero =>
      cases ty with
      | prim k =>
        cases hkind
        exact .item (.item hbase (.instr (sound_zero k []))) (hstore [])
      | top | _ => cases hkind
    | null =>
      have hone : ty.category = 1 := Ty.category_of_stackKind? hkind
      exact .item (.item hbase (.instr (sound_reference (.inl rfl) hone []))) (hstore [])

-- ==== saves

/-- What a save does to the stacks of labels: those of other labels stay, and the one of
its own label takes what was saved and what it took before. -/
theorem Saves.stackOf {frame : Frame} (hT : cx.types.Slim) (h : Saves cx label frame s s') :
    (∀ l, l ≠ label → stackOf s'.frames l = stackOf s.frames l) ∧
    ∃ types, stackOf s'.frames label = some types ∧ Subsumes frame.stack types ∧
      (stackOf s.frames label = none → types = frame.stack) ∧
      ∀ old, stackOf s.frames label = some old → Subsumes old types ∧
        (types = old ∨ s.frames.isBound label = false ∨ StackChanged label s') := by
  obtain ⟨frames, saved, events, made, hok, -, hrepairs, hreport⟩ := h.exists_save
  have hstored := FrameStore.save_ok hok
  refine ⟨fun l hl => ?_, ?_⟩
  · rw [hrepairs.stackOf]
    unfold Lowering.stackOf
    rw [(hstored.others l hl).1]
  rw [hrepairs.stackOf]
  unfold Lowering.stackOf
  rcases hstored.frame with ⟨hnone, hnew⟩ | ⟨old, new, hold, hnew, hmerge, hsaved⟩
  · rw [hnone, hnew]
    exact ⟨_, rfl, .refl _, fun _ => rfl, by simp⟩
  · rw [hold, hnew]
    obtain ⟨hleft, hright⟩ := subsumes_of_stackMerge hT (Frame.merge_eq_ok_iff.mp hmerge).1
    refine ⟨_, rfl, hright, by simp, fun _ hsome => ?_⟩
    cases hsome
    refine ⟨hleft, ?_⟩
    rcases hsaved with rfl | hunbound | rfl
    · exact .inl rfl
    · exact .inr (.inl hunbound)
    · by_cases heq : new.stack = old.stack
      · exact .inl heq
      · obtain ⟨hevent, -⟩ := hreport _ _ rfl
        rw [bne_iff_ne.mpr heq] at hevent
        exact .inr (.inr ⟨_, hevent⟩)

/-- A save reports changes of its own label only, and only if that is bound. -/
theorem Saves.stackChanged {frame : Frame} (h : Saves cx label frame s s') {l : Label}
    (hl : StackChanged l s') : StackChanged l s ∨ l = label ∧ s.frames.isBound label = true := by
  cases h with
  | kept => exact .inl hl
  | changed hok hrepairs =>
    have hbound := isBound_of_invalidated hok
    have hbefore := hrepairs.keeps (I := fun t => StackChanged l t → StackChanged l _)
      (fun _ _ _ ht hrepair hl => ht (hrepair.stackChanged hl)) id hl
    obtain ⟨locals, hevent⟩ := hbefore
    rcases List.mem_cons.mp hevent with heq | hevent
    · cases heq
      exact .inr ⟨rfl, hbound⟩
    · exact .inl ⟨locals, hevent⟩

theorem Neutral.saves {frame : Frame} (h : Neutral s) (hsave : Saves cx label frame s s') :
    Neutral s' :=
  hsave.keeps (I := Neutral) (fun _ => h) fun _ _ ht hrepair => ht.repair hrepair

-- ==== points

/-- What is known between two steps of a lowering. -/
structure Point where
  /-- the types that the code leads to; absent where control does not come -/
  code : Option (List Ty)
  /-- the types that the live frame has -/
  live : List Ty
  /-- labels in use that are not bound -/
  unbound : List Label := []

/-- A state is at a point. -/
structure At (targets : Std.TreeSet Nat) (pt : Point) (s : LowerState) : Prop where
  live : s.frames.live.stack = pt.live
  reachable : s.reachable = pt.code.isSome
  flow : (boundLabels s.code.body).Nodup → Flow (view s) s.code.body pt.code
  prologue : Neutral s
  settled : Settled targets (s, [])
  typed : s.frames.Throughout (Typed s.slots)
  indexed : s.pool.Indexed
  unbound : ∀ label ∈ pt.unbound, ∃ n, label = .synthetic n ∧ n < s.nextLabel ∧
    s.frames.isBound label = false
  fresh : ∀ n, s.frames.isBound (.synthetic n) = true → n < s.nextLabel
  /-- only labels of the source change behind their code -/
  reports : ∀ label, StackChanged label s → ∃ o, label = .source o
  noNull : .instr .constNull ∉ s.code.body

namespace At

variable {targets : Std.TreeSet Nat} {pt : Point}

theorem weaken (h : At targets pt s) {known : Option (List Ty)} (hbelow : Below pt.code known)
    (hsome : known.isSome = pt.code.isSome) : At targets { pt with code := known } s :=
  { h with
    reachable := h.reachable.trans hsome.symm
    flow := fun honce => (h.flow honce).weaken hbelow }

/-- The live stack changes, and nothing else of the frames. -/
theorem restack (h : At targets pt s) (stack : List Ty) (depth : Nat) (made : List Ty) :
    At targets { pt with live := stack }
      { s with
        frames := { s.frames with live := { s.frames.live with stack }, maxStack := depth }
        made } where
  live := rfl
  reachable := h.reachable
  flow := h.flow
  prologue := h.prologue
  settled := h.settled.of_live rfl rfl rfl rfl
  typed := ⟨h.typed.live, h.typed.frames⟩
  indexed := h.indexed
  unbound := h.unbound
  fresh := h.fresh
  reports := h.reports
  noNull := h.noNull

theorem grow (h : At targets pt s) {pool : Pool} (hpool : s.pool.Grows pool) :
    At targets pt { s with pool } := by
  obtain ⟨hindexed, hpart⟩ := hpool.indexed h.indexed
  refine { h with flow := fun honce => ?_, indexed := hindexed, settled := ?_ }
  · refine (h.flow honce).extend ⟨hpart, rfl, fun _ => .refl _, fun _ _ => .inl (.refl _), ?_⟩
    exact fun _ h => h
  · exact h.settled.of_live rfl rfl rfl rfl

theorem freshLabel (h : At targets pt s) :
    At targets { pt with unbound := .synthetic s.nextLabel :: pt.unbound }
      { s with nextLabel := s.nextLabel + 1 } := by
  refine { h with settled := h.settled.of_live rfl rfl rfl rfl, unbound := ?_, fresh := ?_ }
  · refine List.forall_mem_cons.mpr ⟨⟨_, rfl, Nat.lt_succ_self _, ?_⟩, fun label hl => ?_⟩
    · exact Bool.eq_false_iff.mpr fun hb => Nat.lt_irrefl _ (h.fresh _ hb)
    · obtain ⟨n, hn, hlt, hfree⟩ := h.unbound label hl
      exact ⟨n, hn, Nat.lt_succ_of_lt hlt, hfree⟩
  · exact fun n hb => Nat.lt_succ_of_lt (h.fresh n hb)

/-- An item is added to the code. -/
theorem append (h : At targets pt s) {item : Item} {known : Option (List Ty)} {reachable : Bool}
    (he : Edge (view s) item pt.code known) (hreach : reachable = known.isSome)
    (hlabel : item.label? = none) (hnull : item ≠ .instr .constNull) :
    At targets { pt with code := known } { s with code := s.code.push item, reachable } := by
  have hlabels : boundLabels (item :: s.code.body) = boundLabels s.code.body := by
    unfold boundLabels
    rw [List.filterMap_cons_none hlabel]
  refine { h with reachable := hreach, flow := fun honce => ?_, settled := ?_, noNull := ?_ }
  · change (boundLabels (item :: s.code.body)).Nodup at honce
    rw [hlabels] at honce
    exact (h.flow honce).item he
  · exact h.settled.of_live hlabels rfl rfl rfl
  · exact fun hmem => (List.mem_cons.mp hmem).elim (fun heq => hnull heq.symm) h.noNull

theorem store (h : At targets pt s) {slot : Nat} {ty : Ty}
    (hty : ∀ k, s.slots.declaredType? slot = some (.prim k) → ty = .prim k) :
    At targets pt
      { s with frames := s.frames.setLocal slot ty, slots := s.slots.markWritten slot } :=
  { h with
    settled := h.settled.of_live rfl rfl rfl rfl
    typed := ⟨h.typed.live.store hty, h.typed.frames⟩ }

/-- The frames of labels change, and what the code refers to is still there. -/
theorem mends (h : At targets pt s) (hmends : Mends s s')
    (hextends : (view s).Extends (view s') fun l => l ∈ boundLabels s.code.body)
    (hprologue : Neutral s') (hsettled : Settled targets (s', []))
    (htyped : s'.frames.Throughout (Typed s.slots))
    (hreports : ∀ l, StackChanged l s' → ∃ o, l = .source o) : At targets pt s' := by
  constructor
  case live => exact hmends.stack.trans h.live
  case reachable => exact hmends.reachable.trans h.reachable
  case flow =>
    intro honce
    rw [hmends.body] at honce ⊢
    exact (h.flow honce).extend ⟨hextends.pool, hextends.declared, hextends.recorded,
      fun l hl => hextends.kept l (mem_boundLabels.mpr hl), hextends.changed⟩
  case prologue => exact hprologue
  case settled => exact hsettled
  case typed =>
    rw [Typed.of_declared hmends.declared]
    exact htyped
  case indexed => exact (hmends.grows.indexed h.indexed).1
  case unbound =>
    simp only [hmends.isBound, hmends.made.1]
    exact h.unbound
  case fresh =>
    simp only [hmends.isBound, hmends.made.1]
    exact h.fresh
  case reports => exact hreports
  case noNull =>
    rw [hmends.body]
    exact h.noNull

/-- A slot is given a value wherever it is unset. -/
theorem repair (h : At targets pt s) (hrepair : Repair s s') : At targets pt s' := by
  have hstacks := fun l => Repairs.stackOf (.single hrepair) l
  refine h.mends hrepair.mends ⟨(hrepair.mends.grows.indexed h.indexed).2, ?_, fun l => ?_,
    fun l _ => .inl ?_, fun l hl => ?_⟩ (h.prologue.repair hrepair) ?_ ?_
    fun l hl => h.reports l (hrepair.stackChanged hl)
  · exact declaredType?_congr hrepair.mends.declared
  · exact .of_eq (hstacks l).symm
  · exact .of_eq (hstacks l)
  · obtain ⟨locals, hevent⟩ := hl
    exact ⟨locals, hrepair.mends.events hevent⟩
  · exact h.settled.of_same (by rw [hrepair.mends.body]) hrepair.mends.bound hrepair.has
      hrepair.frameOf_eq_none []
  · exact hrepair.throughout (fun _ _ _ hd _ hm => hm.fill hd) h.typed

theorem repairs (h : At targets pt s) (hrepairs : Repairs s s') : At targets pt s' :=
  hrepairs.keeps (I := At targets pt) (fun _ _ _ ht hrepair => ht.repair hrepair) h

/-- The view of a state after a save: the label takes more, and if it is bound it takes
the same as before or has changed. -/
theorem extends_saves (h : At targets pt s) {frame : Frame} (hT : cx.types.Slim)
    (hopen : stackOf s.frames label = none → label ∉ boundLabels s.code.body)
    (hsave : Saves cx label frame s s') :
    (view s).Extends (view s') fun l => l ∈ boundLabels s.code.body := by
  obtain ⟨-, hpart⟩ := hsave.mends.grows.indexed h.indexed
  obtain ⟨hothers, types, htypes, -, -, hold⟩ := hsave.stackOf hT
  refine ⟨hpart, declaredType?_congr hsave.mends.declared, fun l => ?_, fun l hl => ?_,
    fun l hl => ?_⟩
  · by_cases heq : l = label
    · subst heq
      show Below (stackOf s.frames l) (stackOf s'.frames l)
      rw [htypes]
      cases hstack : stackOf s.frames l with
      | none => exact .none _
      | some old => exact (hold old hstack).1.below
    · exact .of_eq (hothers l heq).symm
  · by_cases heq : l = label
    · subst heq
      show Below (stackOf s'.frames l) (stackOf s.frames l) ∨ _
      rw [htypes]
      cases hstack : stackOf s.frames l with
      | none => exact absurd hl (hopen hstack)
      | some old =>
        rcases (hold old hstack).2 with rfl | hunbound | hchanged
        · exact .inl (.refl _)
        · cases (h.settled.bound l hl).symm.trans hunbound
        · exact .inr hchanged
    · exact .inl (.of_eq (hothers l heq))
  · obtain ⟨locals, hevent⟩ := hl
    exact ⟨locals, hsave.mends.events hevent⟩

/-- The live frame is saved at a label that may be saved to. -/
theorem saves (h : At targets pt s) (hT : cx.types.Slim)
    (hopen : stackOf s.frames label = none → label ∉ boundLabels s.code.body)
    (hlabel : (∃ o, label = .source o) ∨ label ∈ pt.unbound)
    (hsave : Saves cx label (widen cx.types s.slots s.frames.live) s s') : At targets pt s' := by
  have hsettled := h.settled.saves hsave
  refine h.mends hsave.mends (h.extends_saves hT hopen hsave) (h.prologue.saves hsave)
    ⟨hsettled.bound, hsettled.framed, hsettled.aside⟩ ?_ fun l hl => ?_
  · exact hsave.throughout h.typed (h.typed.live.widen _) (fun _ _ _ hd _ hm => hm.fill hd)
      fun _ _ _ => .merge
  · rcases hsave.stackChanged hl with hold | ⟨rfl, hbound⟩
    · exact h.reports l hold
    · refine hlabel.resolve_right fun hmem => ?_
      obtain ⟨n, -, -, hfree⟩ := h.unbound l hmem
      cases hbound.symm.trans hfree

/-- A label is bound, with the live frame that the code goes on with. -/
theorem bind (h : At targets pt s) (frames : FrameStore) {unbound : List Label}
    (hbound : frames.bound = s.frames.bound.insert label)
    (hothers : ∀ l, l ≠ label → frames.has l = s.frames.has l ∧
      frames.frameOf l = s.frames.frameOf l)
    (hframe : frames.frameOf label = none →
      ∃ o, label = .source o ∧ targets.contains o = false)
    (hsource : frames.has label = false → ∃ o, label = .source o)
    (hlabel : (∃ o, label = .source o) ∨ label ∈ pt.unbound)
    (hunbound : ∀ l ∈ unbound, l ∈ pt.unbound ∧ l ≠ label)
    (htyped : frames.Throughout (Typed s.slots))
    (hfall : Below pt.code (some frames.live.stack))
    (hjump : label ∉ boundLabels s.code.body →
      Below (stackOf s.frames label) (stackOf frames label) ∧
        Below (stackOf frames label) (some frames.live.stack)) :
    At targets ⟨some frames.live.stack, frames.live.stack, unbound⟩
      { s with frames, code := s.code.bind label, reachable := true } := by
  have hisBound : ∀ l, l ≠ label → frames.isBound l = s.frames.isBound l := by
    intro l hl
    unfold isBound
    rw [hbound, Std.TreeSet.contains_insert]
    have hne : compare label l ≠ .eq := fun heq => hl (Std.LawfulEqCmp.eq_of_compare heq).symm
    simp [hne]
  constructor
  case live => rfl
  case reachable => rfl
  case flow =>
    intro honce
    obtain ⟨hnew, honce⟩ := List.nodup_cons.mp honce
    obtain ⟨hgrows, hown⟩ := hjump hnew
    refine .item ?_ (.bind hfall (.inl hown))
    refine (h.flow honce).extend ⟨.refl _, rfl, fun l => ?_, fun l hl => .inl ?_, fun l hl => hl⟩
    · by_cases heq : l = label
      · subst heq
        exact hgrows
      · exact .of_eq (congrArg (Option.map _) (hothers l heq).2.symm)
    · have hne : l ≠ label := fun heq => hnew (heq ▸ mem_boundLabels.mpr hl)
      exact .of_eq (congrArg (Option.map _) (hothers l hne).2)
  case prologue => exact h.prologue
  case settled =>
    exact h.settled.bind hbound (fun l hl => ⟨(hothers l hl).1, by rw [(hothers l hl).2]⟩) hframe
      hsource
  case typed => exact htyped
  case indexed => exact h.indexed
  case unbound =>
    intro l hl
    obtain ⟨hmem, hne⟩ := hunbound l hl
    obtain ⟨n, hn, hlt, hfree⟩ := h.unbound l hmem
    exact ⟨n, hn, hlt, (hisBound l hne).trans hfree⟩
  case fresh =>
    intro n hn
    by_cases heq : .synthetic n = label
    · rcases hlabel with ⟨o, rfl⟩ | hmem
      · cases heq
      · obtain ⟨m, hm, hlt, -⟩ := h.unbound label hmem
        cases heq.trans hm
        exact hlt
    · exact h.fresh n ((hisBound _ heq).symm.trans hn)
  case reports => exact h.reports
  case noNull =>
    intro hmem
    rcases List.mem_cons.mp hmem with heq | hmem
    · cases heq
    · exact h.noNull hmem

theorem ne_source (h : At targets pt s) {l : Label} (hl : l ∈ pt.unbound) (o : Nat) :
    l ≠ .source o := by
  obtain ⟨n, rfl, -⟩ := h.unbound l hl
  exact nofun

/-- The frame recorded for a label is loaded, and the label is bound. -/
theorem bindLoaded (h : At targets pt s) {frame : Frame} {unbound : List Label}
    (hframe : s.frames.recorded? label = some frame)
    (hfall : Below pt.code (some frame.stack))
    (hlabel : (∃ o, label = .source o) ∨ label ∈ pt.unbound)
    (hunbound : ∀ l ∈ unbound, l ∈ pt.unbound ∧ l ≠ label) :
    At targets ⟨some frame.stack, frame.stack, unbound⟩
      { s with
        frames := { s.frames with live := frame }.markBound label
        code := s.code.bind label
        reachable := true } := by
  have hof := frameOf_of_recorded? hframe
  refine h.bind ({ s.frames with live := frame }.markBound label) rfl (fun _ _ => ⟨rfl, rfl⟩)
    (fun hnone => ?_) (fun hhas => ?_) hlabel hunbound
    ⟨h.typed.frames label frame hof, h.typed.frames⟩ hfall fun _ => ⟨.refl _, .of_eq ?_⟩
  · cases hnone.symm.trans hof
  · cases hhas.symm.trans (has_of_recorded? hframe)
  · exact congrArg (Option.map _) hof

/-- The operation at the current offset is entered. -/
theorem arrival (h : At cx.targets pt s) (hT : cx.types.Slim)
    (hready : Below pt.code (some pt.live)) (harrive : Arrival cx s s') :
    ∃ types, At cx.targets ⟨some types, types, pt.unbound⟩ s' := by
  have hunbound : ∀ l ∈ pt.unbound, l ∈ pt.unbound ∧ l ≠ .source cx.current :=
    fun l hl => ⟨hl, h.ne_source hl cx.current⟩
  cases harrive with
  | @merged t frame hreach hopen hsave hframe =>
    have hnone : stackOf s.frames (.source cx.current) = none →
        .source cx.current ∉ boundLabels s.code.body := by
      intro hnone hmem
      rw [stackOf, Option.map_eq_none_iff] at hnone
      obtain ⟨o, ho, htarget⟩ := h.settled.framed _ hmem hnone
      cases ho
      rcases hopen with hhas | hin
      · exact frameOf_ne_none hhas hnone
      · cases hin.symm.trans htarget
    have hsaved := h.saves hT hnone (.inl ⟨_, rfl⟩) hsave
    obtain ⟨-, types, htypes, hsubsumes, -⟩ := hsave.stackOf hT
    rw [stackOf, frameOf_of_recorded? hframe] at htypes
    cases htypes
    change Subsumes s.frames.live.stack frame.stack at hsubsumes
    rw [h.live] at hsubsumes
    exact ⟨_, hsaved.bindLoaded hframe (hready.trans hsubsumes.below) (.inl ⟨_, rfl⟩) hunbound⟩
  | loaded hreach hframe =>
    have hcode : pt.code = none := by
      rw [← Option.not_isSome_iff_eq_none, ← h.reachable, hreach]
      exact Bool.false_ne_true
    refine ⟨_, h.bindLoaded hframe ?_ (.inl ⟨_, rfl⟩) hunbound⟩
    rw [hcode]
    exact .none _
  | pass hhas hreach htarget =>
    refine ⟨_, h.bind (s.frames.markBound _) rfl (fun _ _ => ⟨rfl, rfl⟩)
      (fun _ => ⟨_, rfl, htarget⟩) (fun _ => ⟨_, rfl⟩) (.inl ⟨_, rfl⟩) hunbound
      ⟨h.typed.live, h.typed.frames⟩ ?_ fun hnew => ?_⟩
    · show Below pt.code (some s.frames.live.stack)
      rw [h.live]
      exact hready
    · have hnone : stackOf s.frames (.source cx.current) = none :=
        congrArg (Option.map _) (h.settled.frameOf_eq_none hnew hhas)
      refine ⟨.refl _, ?_⟩
      show Below (stackOf s.frames _) _
      rw [hnone]
      exact .none _
  | defer hhas hreach =>
    have hcode : pt.code = none := by
      rw [← Option.not_isSome_iff_eq_none, ← h.reachable, hreach]
      exact Bool.false_ne_true
    have hframeOf := s.frames.frameOf_defer (.source cx.current)
      (widen cx.types s.slots s.frames.live)
    refine ⟨_, h.bind ((s.frames.defer _ _).markBound _) rfl (fun l hl => ⟨rfl, ?_⟩)
      (fun hnone => ?_) (fun _ => ⟨_, rfl⟩) (.inl ⟨_, rfl⟩) hunbound
      ⟨h.typed.live, fun l f hf => ?_⟩ ?_ fun hnew => ?_⟩
    · show (s.frames.defer _ _).frameOf l = _
      rw [hframeOf, if_neg (Ne.symm hl), Option.or_none]
    · change (s.frames.defer _ _).frameOf _ = none at hnone
      rw [hframeOf, if_pos rfl, Option.or_eq_none_iff] at hnone
      cases hnone.2
    · change (s.frames.defer _ _).frameOf l = some f at hf
      rw [hframeOf, Option.or_eq_some_iff] at hf
      rcases hf with hold | ⟨-, hnew⟩
      · exact h.typed.frames l f hold
      · split at hnew
        · cases hnew
          exact h.typed.live.widen _
        · cases hnew
    · rw [hcode]
      exact .none _
    · have hnone := h.settled.frameOf_eq_none hnew hhas
      constructor
      · rw [stackOf, hnone]
        exact .none _
      · show Below (((s.frames.defer _ _).frameOf _).map (·.stack)) _
        rw [hframeOf, hnone, if_pos rfl]
        exact .refl _

end At

end BytecodeBridge.Lowering
