/-
The types of code for numbers.

The scalar operations are those that work on numbers, variables and
arguments, and transfer control. Each of them keeps the code and the frame
in step: `moves_lowerOp` has one case for each, and `moves_code` follows a
whole body. What makes a variable keep to its declared kind is in the
stores. A value of another type is cut down by `narrow`, and only a value
that the frame already gives the declared type is stored as it is.
-/
import BytecodeBridge.Proofs.Lowering.Moves

namespace BytecodeBridge

/-- Operations on numbers, variables and arguments, and transfers. -/
def Op.isScalar : Op → Bool
  | nop | loadArg _ | loadLocal _ | storeArg _ | storeLocal _ | loadInt32 _ | loadInt64 _
  | loadFloat32 _ | loadFloat64 _ | dup | pop | arithmetic _ | convert _ _ | compare _ _
  | branch _ _ _ | branchIf _ _ | jump _ | switch _ | ret => true
  | _ => false

/-- What is taken back is there. -/
theorem CodeBuffer.mem_of_retract? {b b' : CodeBuffer} {i : Instr} {passable : Label → Bool}
    (h : b.retract? i passable = some b') : .instr i ∈ b.body := by
  obtain ⟨rest, hrest, -⟩ := Option.map_eq_some_iff.mp h
  clear h
  revert hrest
  generalize b.body = items
  intro hrest
  induction items generalizing rest with
  | nil => cases hrest
  | cons item items ih =>
    cases item with
    | bind label =>
      unfold retractFrom at hrest
      split at hrest
      · obtain ⟨rest', hrest', -⟩ := Option.map_eq_some_iff.mp hrest
        exact .tail _ (ih _ hrest')
      · cases hrest
    | instr last =>
      unfold retractFrom at hrest
      split at hrest
      · next heq =>
        rw [heq]
        exact .head _
      · cases hrest
    | branch | table => cases hrest

namespace Lowering

open LowerM Machine

variable {cx : Context} {pt : Point} {types live : List Ty} {unbound : List Label}

variable {x : Ty} {k : NumKind} {target : Nat}

/-- Between operations what the code leaves may go by the types of the frame, and no label
inside an operation is in use. -/
def Ready (pt : Point) : Prop :=
  Below pt.code (some pt.live) ∧ pt.unbound = []

theorem ready_same (types : List Ty) : Ready ⟨some types, types, []⟩ :=
  ⟨.refl _, rfl⟩

theorem ready_none (types : List Ty) : Ready ⟨none, types, []⟩ :=
  ⟨.none _, rfl⟩

theorem subsumes_prim {k : Prim} (hx : x.stackKind? = some k.stackKind) (hrange : k.range? = none)
    (types : List Ty) :
    Subsumes (x :: types) (.prim k :: types) :=
  .cons (fun _ hv => hv.of_kind hx hrange) types

-- ==== loads and stores

theorem gives_fetch (live : List Ty) (slot : Nat) (ty : Ty) :
    Gives cx (fun s => At cx.targets ⟨some live, live, unbound⟩ s ∧
        ∀ k k', s.slots.declaredType? slot = some (.prim k) → ty = .prim k' → k' = k)
      (stackKind ty >>= fun kind => emit (.loadSlot kind slot) >>= fun _ => push ty)
      fun _ s => ∃ q, (∃ types, q = ⟨some types, types, unbound⟩) ∧ At cx.targets q s := by
  refine .bind (gives_stackKind _ ty) fun kind => .of_fact fun hkind => ?_
  refine .bind (M := fun _ => At cx.targets ⟨some (ty :: live), live, unbound⟩) ?_
    fun _ => (tracks_push ty).moves fun _ => ⟨ty :: live, rfl⟩
  rintro s a s' ⟨hat, hsame⟩ hrun
  cases hrun
  exact hat.append (.instr (sound_loadSlot hkind hsame live)) hat.reachable rfl nofun

theorem moves_load (slot : Nat) : Moves cx ⟨some live, live, unbound⟩ (load slot) fun _ q =>
    ∃ types, q = ⟨some types, types, unbound⟩ := by
  refine Gives.bind Gives.get fun s₀ => ?_
  split
  · next ty hty =>
    refine Gives.weaken (gives_fetch live slot ty) ?_ fun _ _ h => h
    rintro s ⟨rfl, hat⟩
    refine ⟨hat, fun k k' hk hk' => ?_⟩
    rcases hat.typed.live slot k ty hk hty with h | h
    · cases hk'.symm.trans h
      rfl
    · cases hk'.symm.trans h
  · refine Gives.bind ?_ fun ty => gives_fetch live slot ty
    rintro s ty s' ⟨-, hat⟩ hrun
    obtain ⟨hrepairs, -, d, hd, rfl, -⟩ := materialize_ok hrun
    refine ⟨hat.repairs hrepairs, fun k k' hk hk' => ?_⟩
    unfold Slots.declaredType? at hk
    rw [hd] at hk
    cases hk'.symm.trans (Option.some_inj.mp hk)
    rfl

/-- A value is cut down to a kind that is narrower than an `int`. -/
theorem leads_narrow {k : Prim} (hx : x.stackKind? = some k.stackKind) :
    Leads cx ⟨some (x :: types), live, unbound⟩ (narrow k)
      ⟨some (.prim k :: types), live, unbound⟩ := by
  have hcut : ∀ target : Narrow, k.stackKind = .num .int → (∀ n, k.Holds (target.cut n).toInt) →
      Leads cx ⟨some (x :: types), live, unbound⟩ (emit (.narrow target))
        ⟨some (.prim k :: types), live, unbound⟩ :=
    fun target hkind hholds => leads_emit (fun _ _ => sound_narrow hkind hholds x types) nofun
  have hkeep : k.range? = none → Leads cx ⟨some (x :: types), live, unbound⟩
      (.pure () : LowerM Unit) ⟨some (.prim k :: types), live, unbound⟩ :=
    fun hrange => .pure fun _ hs => hs.weaken (subsumes_prim hx hrange types).below rfl
  cases k with
  | int8 => exact hcut .byte rfl fun n => (Narrow.holds_cut n).1
  | int16 => exact hcut .short rfl fun n => (Narrow.holds_cut n).2.1
  | char => exact hcut .char rfl fun n => (Narrow.holds_cut n).2.2.1
  | uint16 => exact hcut .char rfl fun n => (Narrow.holds_cut n).2.2.2
  | uint8 =>
    refine (leads_emit (fun _ _ => sound_mask (x :: types)) nofun).trans fun _ => ?_
    refine (leads_emit (fun _ _ => sound_and_mask x types) nofun).trans fun _ => ?_
    exact tracks_noteDepth 2
  | _ => exact hkeep rfl

/-- A value that fits a primitive type goes by that type afterwards. -/
theorem moves_coerce (value target : Ty) :
    Moves cx ⟨some (value :: types), live, unbound⟩ (coerce value target) fun ty q =>
      ty.stackKind? = target.stackKind? ∧ ∃ x, q = ⟨some (x :: types), live, unbound⟩ ∧
        ∀ k, target = .prim k → ty = target ∧ x = target := by
  refine .bind (tracks_stackKind value) ?_
  rintro valueKind _ ⟨hvalue, rfl⟩
  refine .bind (tracks_stackKind target) ?_
  rintro targetKind _ ⟨htarget, rfl⟩
  cases target with
  | prim k =>
    dsimp only
    split
    · next heq =>
      have hx : value.stackKind? = some k.stackKind := by rw [hvalue, heq, ← htarget]; rfl
      split
      · next hsame =>
        subst hsame
        exact .pure ⟨rfl, .prim k, rfl, fun _ _ => ⟨rfl, rfl⟩⟩
      · refine (leads_narrow hx).bind fun _ => ?_
        exact .pure ⟨rfl, .prim k, rfl, fun _ _ => ⟨rfl, rfl⟩⟩
    · exact .throw_bind
  | _ =>
    dsimp only
    split
    · next heq =>
      refine .pure ⟨?_, value, rfl, nofun⟩
      split
      · rw [hvalue, htarget, heq]
      · rfl
    · exact .throw_bind

/-- Slots have no part in a coercion. -/
theorem gives_coerce (value target : Ty) (slots : Slots) :
    Gives cx (fun s => s.slots = slots) (coerce value target) fun _ s => s.slots = slots := by
  have hmodify : ∀ {g : LowerState → LowerState}, (∀ s, (g s).slots = s.slots) →
      Gives cx (fun s => s.slots = slots) (modify g) fun _ s => s.slots = slots :=
    fun hg => .modify fun s hs => (hg s).trans hs
  have hnarrow : ∀ k : Prim,
      Gives cx (fun s => s.slots = slots) (narrow k) fun _ s => s.slots = slots := by
    intro k
    cases k with
    | int8 | int16 | char | uint16 => exact hmodify fun _ => rfl
    | uint8 =>
      exact .bind (hmodify fun _ => rfl) fun _ => .bind (hmodify fun _ => rfl)
        fun _ => hmodify fun _ => rfl
    | _ => exact .pure fun _ hs => hs
  refine .bind (gives_stackKind _ value) fun _ => .of_fact fun _ => ?_
  refine .bind (gives_stackKind _ target) fun _ => .of_fact fun _ => ?_
  have hthrow : ∀ {e : Cause} {f : Unit → LowerM Ty},
      Gives cx (fun s => s.slots = slots) ((throw e : LowerM Unit) >>= f)
        fun _ s => s.slots = slots :=
    .bind (M := fun _ _ => False) .throw fun _ _ _ _ hfalse => hfalse.elim
  cases target with
  | prim k =>
    dsimp only
    split
    · split
      · exact .pure fun _ hs => hs
      · exact .bind (hnarrow k) fun _ => .pure fun _ hs => hs
    · exact hthrow
  | _ =>
    dsimp only
    split
    · exact .pure fun _ hs => hs
    · exact hthrow

/-- A value is stored that goes by the type of the slot, if that is primitive. -/
theorem gives_store (hregions : cx.regions.regions = []) {slot : Nat} {ty d : Ty}
    (hkind : ty.stackKind? = d.stackKind?) (hprim : ∀ k, d = .prim k → ty = d ∧ x = d) :
    Gives cx (fun s => At cx.targets ⟨some (x :: types), live, unbound⟩ s ∧
        s.slots.declaredType? slot = some d)
      (store slot ty) fun _ => At cx.targets ⟨some types, live, unbound⟩ := by
  refine .bind (gives_stackKind _ ty) fun kind => .of_fact fun hty => ?_
  rintro s a s' ⟨hat, hslot⟩ hrun
  have hedge : Sound s.pool s.slots.declaredType? (.storeSlot kind slot) (x :: types) types :=
    sound_storeSlot hslot (hkind.symm.trans hty) (fun k hk => (hprim k hk).2) types
  have hemit := hat.append (.instr hedge) hat.reachable rfl nofun
  have hty : ∀ k, s.slots.declaredType? slot = some (.prim k) → ty = .prim k := by
    intro k hk
    have hd : d = .prim k := Option.some_inj.mp (hslot.symm.trans hk)
    exact (hprim k hd).1.trans hd
  exact tracks_noteLocalsChanged hregions _ a s' (hemit.store hty) hrun

theorem moves_storeDeclared (hregions : cx.regions.regions = []) (slot : Nat) :
    Moves cx ⟨some live, live, unbound⟩ (storeDeclared slot) fun _ q =>
      ∃ types, q = ⟨some types, types, unbound⟩ := by
  refine .bind tracks_pop ?_
  rintro value _ ⟨rest, rfl, rfl⟩
  refine Gives.bind Gives.get fun s₀ => ?_
  split
  · next declared hdeclared =>
    rintro s a s' ⟨rfl, hat⟩ hrun
    obtain ⟨ty, t, hcoerce, hrun⟩ := lower_bind_ok hrun
    obtain ⟨_, ⟨hkind, x, rfl, hprim⟩, ht⟩ := moves_coerce value declared s₀ ty t hat hcoerce
    have hslot : t.slots.declaredType? slot = some declared := by
      rw [gives_coerce value declared s₀.slots s₀ ty t rfl hcoerce]
      exact hdeclared
    exact ⟨_, ⟨rest, rfl⟩, gives_store hregions hkind hprim t a s' ⟨ht, hslot⟩ hrun⟩
  · exact Gives.throw

-- ==== arithmetic

theorem moves_constant {act : PoolM Instr} (h : Instr.Chooses k act) {β : Type}
    {f : Unit → LowerM β} {Q : β → Point → Prop}
    (hf : ∀ a, Moves cx ⟨some (.prim k.prim :: types), live, unbound⟩ (f a) Q) :
    Moves cx ⟨some types, live, unbound⟩ (onPool act >>= fun i => emit i >>= f) Q := by
  rw [← bind_assoc]
  exact (leads_constant h).bind hf

theorem moves_result {ty : Ty} (hsub : Subsumes types (ty :: live)) :
    Moves cx ⟨some types, live, []⟩ (pushNew ty) fun _ => Ready :=
  (tracks_pushNew ty).moves fun _ => ⟨hsub.below, rfl⟩

theorem moves_unary (op : Arith) :
    Moves cx ⟨some live, live, []⟩ (unary op) fun _ => Ready := by
  refine .bind tracks_popKind ?_
  rintro ⟨ty, kind⟩ _ ⟨rest, hlive, -, rfl⟩
  dsimp only at hlive ⊢
  subst hlive
  split
  · next k =>
    refine (leads_emit (fun _ _ => sound_neg k ty rest) nofun).bind fun _ => ?_
    exact moves_result (.refl _)
  · refine (leads_emit (fun _ _ => sound_const .int (-1) (ty :: rest)) nofun).bind fun _ => ?_
    refine (leads_emit (fun _ _ => sound_binary .xor .int ty _ rest) nofun).bind fun _ => ?_
    exact (tracks_noteDepth 2).bind fun _ => moves_result (.refl _)
  · refine moves_constant (Instr.chooses_longConstant _) fun _ => ?_
    refine (leads_emit (fun _ _ => sound_binary .xor .long ty _ rest) nofun).bind fun _ => ?_
    exact (tracks_noteDepth 4).bind fun _ => moves_result (.refl _)
  · exact .throw

theorem moves_shift (op : Arith) (a b : Ty) (aKind bKind : StackKind) :
    Moves cx ⟨some (b :: a :: live), live, []⟩ (shift op a b aKind bKind) fun _ => Ready := by
  have hemit : ∀ (i : BinOp) (k : NumKind), Moves cx ⟨some (b :: a :: live), live, []⟩
      (emit (.binary i k) >>= fun _ => pushNew (.prim k.prim)) fun _ => Ready :=
    fun i k => (leads_emit (fun _ _ => sound_binary i k a b live) nofun).bind
      fun _ => moves_result (.refl _)
  unfold shift
  split
  · exact hemit _ .int
  · exact hemit _ .long
  · exact .throw

/-- The library method for an unsigned operation has the kind of the operands. -/
private theorem answers_of_binaryForm? {op : Arith} {m : MethodSpec}
    (h : binaryForm? op k = some (.call m)) : Answers m k := by
  unfold binaryForm? bitwise unsignedCall at h
  split at h
  all_goals first
    | cases h
    | split at h <;> cases h <;> first
        | exact .int rfl
        | exact .long rfl

theorem moves_binary (op : Arith) (a b : Ty) (aKind bKind : StackKind) :
    Moves cx ⟨some (b :: a :: live), live, []⟩ (binary op a b aKind bKind) fun _ => Ready := by
  unfold binary
  dsimp only
  split
  · split
    · next k _ =>
      split
      · next i _ =>
        refine (leads_emit (fun _ _ => sound_binary i k a b live) nofun).bind fun _ => ?_
        exact moves_result (.refl _)
      · next m hm =>
        refine (leads_invokeStatic (answers_of_binaryForm? hm) a b).bind fun _ => ?_
        exact moves_result (.refl _)
      · exact .throw_bind
    · exact .throw
  · exact .throw_bind

theorem moves_arithmetic (op : Arith) :
    Moves cx ⟨some live, live, []⟩ (arithmetic op) fun _ => Ready := by
  unfold arithmetic
  split
  · exact moves_unary op
  · refine .bind tracks_popKind ?_
    rintro ⟨b, bKind⟩ _ ⟨rest, hlive, -, rfl⟩
    refine .bind tracks_popKind ?_
    rintro ⟨a, aKind⟩ _ ⟨rest', hrest, -, rfl⟩
    dsimp only at hlive hrest ⊢
    subst hlive hrest
    split
    · exact moves_shift op a b aKind bKind
    · exact moves_binary op a b aKind bKind

theorem moves_cutDown {target : Prim} {rest : List Ty} (hx : x.stackKind? = some target.stackKind)
    (source : NumKind) :
    Moves cx ⟨some (x :: rest), rest, []⟩ (cutDown target source) fun _ => Ready := by
  unfold cutDown
  split
  · exact (leads_narrow hx).bind fun _ => moves_result (.refl _)
  · next hwide =>
    have hrange : target.range? = none := by
      cases target <;> first | rfl | exact absurd rfl hwide
    split
    · next hmask =>
      have htarget : target = .uint64 := of_decide_eq_true (Bool.and_eq_true_iff.mp hmask).2
      refine moves_constant (Instr.chooses_longConstant _) fun _ => ?_
      refine (leads_emit (fun _ _ => sound_binary .and .long x _ rest) nofun).bind fun _ => ?_
      refine (tracks_noteDepth 4).bind fun _ => moves_result (subsumes_prim ?_ hrange rest)
      rw [htarget]
      rfl
    · exact moves_result (subsumes_prim hx hrange rest)

theorem moves_convert (target : Prim) (checked : Bool) :
    Moves cx ⟨some live, live, []⟩ (convert target checked) fun _ => Ready := by
  unfold convert
  dsimp only
  split
  · refine .bind (R := fun _ _ => True) ?_ fun _ _ _ => .throw_bind
    exact Gives.bind (tracks_make _) fun _ => Gives.pure fun s ⟨q, _, hs⟩ => ⟨q, trivial, hs⟩
  · refine .bind tracks_popKind ?_
    rintro ⟨ty, kind⟩ _ ⟨rest, hlive, hkind, rfl⟩
    subst hlive
    cases kind with
    | num source =>
      dsimp only
      split
      · next hsource =>
        subst hsource
        exact moves_cutDown hkind _
      · refine (leads_emit (fun _ _ => sound_convert source target.numKind ty rest) nofun).bind
          fun _ => moves_cutDown ?_ source
        cases target <;> rfl
    | reference => exact .throw

-- ==== comparisons

theorem moves_retractNull : Moves cx pt retractNull fun taken q => taken = false ∧ q = pt := by
  refine Gives.bind Gives.read fun cx' => Gives.bind Gives.get fun s₀ => ?_
  dsimp only
  split
  · next code hretract =>
    rintro s a s' ⟨rfl, -, hat⟩ -
    exact absurd (CodeBuffer.mem_of_retract? hretract) hat.noNull
  · exact Gives.pure fun s ⟨_, _, hat⟩ => ⟨pt, ⟨rfl, rfl⟩, hat⟩

/-- The branch that a comparison gives takes what is left of the operands. -/
theorem moves_comparison (way : Comparison) (unsigned : Bool) :
    Moves cx ⟨some live, live, unbound⟩ (comparison way unsigned) fun i q =>
      ∃ types, q = ⟨some types, types.drop i.tested, unbound⟩ := by
  refine .bind tracks_popKind ?_
  rintro ⟨b, bKind⟩ _ ⟨rest, hlive, -, rfl⟩
  refine .bind tracks_popKind ?_
  rintro ⟨a, aKind⟩ _ ⟨rest', hrest, -, rfl⟩
  dsimp only at hlive hrest ⊢
  subst hlive hrest
  -- the operands are reduced to an `int`, which is compared with zero
  have hzero : ∀ {m : LowerM Unit}, Leads cx ⟨some (b :: a :: rest'), rest', unbound⟩ m
      ⟨some (.prim .int32 :: rest'), rest', unbound⟩ →
      Moves cx ⟨some (b :: a :: rest'), rest', unbound⟩
        (m >>= fun _ => Pure.pure (Instr.ifZero way 0)) fun i q =>
        ∃ types, q = ⟨some types, types.drop i.tested, unbound⟩ :=
    fun hm => hm.bind fun _ => .pure ⟨_, rfl⟩
  have hboth : ∀ i : Instr, i.tested = 2 → Moves cx ⟨some (b :: a :: rest'), rest', unbound⟩
      (Pure.pure i : LowerM Instr) fun i q =>
        ∃ types, q = ⟨some types, types.drop i.tested, unbound⟩ := by
    refine fun i hi => .pure ⟨b :: a :: rest', ?_⟩
    rw [hi]
    rfl
  split
  · split
    · split
      · exact hzero (leads_invokeStatic (.int rfl) a b)
      · exact hboth _ rfl
    · split
      · exact hzero (leads_invokeStatic (.order rfl) a b)
      · exact hzero (leads_emit (fun _ _ => sound_order (.inl rfl) a b rest') nofun)
    · exact hzero (leads_emit (fun _ _ => sound_order (.inr ⟨_, .inl rfl⟩) a b rest') nofun)
    · exact hzero (leads_emit (fun _ _ => sound_order (.inr ⟨_, .inr rfl⟩) a b rest') nofun)
    · split
      · split
        · refine .bind moves_retractNull ?_
          rintro taken _ ⟨rfl, rfl⟩
          exact hboth _ rfl
        · exact hboth _ rfl
      · exact .throw
  · exact .throw_bind

theorem aimed_of_target (h : cx.targets.contains target = true) :
    Aimed cx unbound (.source target) :=
  .inl ⟨target, rfl, h⟩

theorem moves_branchWhen (hT : cx.types.Slim) (way : Comparison) (unsigned : Bool)
    (htarget : cx.targets.contains target = true) :
    Moves cx ⟨some live, live, []⟩ (branchWhen way unsigned target) fun _ => Ready := by
  refine .bind (moves_comparison way unsigned) ?_
  rintro i _ ⟨types, rfl⟩
  exact (leads_branchTo hT (aimed_of_target htarget) (.refl _)).moves fun _ => ready_same _

theorem moves_branchIf (hT : cx.types.Slim) (truth : Bool)
    (htarget : cx.targets.contains target = true) :
    Moves cx ⟨some live, live, []⟩ (branchIf truth target) fun _ => Ready := by
  refine .bind tracks_popKind ?_
  rintro ⟨ty, kind⟩ _ ⟨rest, hlive, -, rfl⟩
  dsimp only at hlive ⊢
  subst hlive
  have hbranch : ∀ {i : Instr} {x : Ty}, i.tested = 1 → Moves cx ⟨some (x :: rest), rest, []⟩
      (branchTo i (.source target)) fun _ => Ready := by
    intro i x hi
    have hdrop : (x :: rest).drop i.tested = rest := by
      rw [hi]
      rfl
    have hsub : Subsumes ((x :: rest).drop i.tested) rest := hdrop.symm ▸ .refl rest
    refine (leads_branchTo hT (aimed_of_target htarget) hsub).moves fun _ => ?_
    exact ⟨hsub.below, rfl⟩
  split
  · exact hbranch rfl
  · refine (leads_emit (fun _ _ => sound_const .long 0 (ty :: rest)) nofun).bind fun _ => ?_
    refine (leads_emit (fun _ _ => sound_order (.inl rfl) ty _ rest) nofun).bind fun _ => ?_
    exact (tracks_noteDepth 4).bind fun _ => hbranch rfl
  · exact hbranch rfl
  · exact .throw_bind

theorem moves_compare (hT : cx.types.Slim) (way : Comparison) (unsigned : Bool) :
    Moves cx ⟨some live, live, []⟩ (compare way unsigned) fun _ => Ready := by
  refine .bind (moves_comparison way unsigned) ?_
  rintro test _ ⟨types, rfl⟩
  refine .bind moves_freshLabel ?_
  rintro yes _ ⟨-, rfl⟩
  refine .bind moves_freshLabel ?_
  rintro done _ ⟨hdone, rfl⟩
  have hne : done ≠ yes := fun heq => hdone (heq ▸ (.head _))
  refine .bind (tracks_make _) ?_
  rintro int _ ⟨rfl, rfl⟩
  -- the answer if the comparison fails
  refine (leads_branchTo hT (.inr (by simp)) (.refl _)).bind fun _ => ?_
  refine (leads_emit (fun _ _ => sound_const .int 0 _) nofun).bind fun _ => ?_
  refine (tracks_push _).bind fun _ => ?_
  refine (leads_jump hT (.inr (by simp)) (.refl _)).bind fun _ => ?_
  -- the answer if it holds
  refine .bind (moves_bindLabel hT [done] (by simp) (by simpa) (.none _)) ?_
  rintro _ _ ⟨types', rfl⟩
  refine (leads_emit (fun _ _ => sound_const .int 1 types') nofun).bind fun _ => ?_
  refine (tracks_push _).bind fun _ => ?_
  refine (moves_bindLabel hT [] (by simp) (by simp) (.refl _)).weaken ?_
  rintro _ _ ⟨types'', rfl⟩
  exact ready_same types''

theorem moves_switch (hT : cx.types.Slim) {offset : Nat} {targets : List Nat}
    (htargets : ∀ t ∈ targets, cx.targets.contains t = true)
    (hfalls : ∀ next, cx.body.following offset = some next → cx.targets.contains next = true) :
    Moves cx ⟨some live, live, []⟩ (switch offset targets) fun _ => Ready := by
  refine .bind .read ?_
  rintro _ _ ⟨rfl, rfl⟩
  split
  · next next hnext =>
    split
    · refine moves_dropTop.weaken ?_
      rintro _ _ ⟨ty, rest, -, rfl⟩
      exact ready_same rest
    · refine (moves_switchTo hT fun label hlabel => ?_).weaken ?_
      · rcases List.mem_append.mp hlabel with hlabel | hlabel
        · obtain ⟨t, ht, rfl⟩ := List.mem_map.mp hlabel
          exact aimed_of_target (htargets t ht)
        · cases List.mem_singleton.mp hlabel
          exact aimed_of_target (hfalls next hnext)
      · rintro _ _ ⟨rest, rfl⟩
        exact ready_none rest
  · exact .throw

-- ==== one operation

theorem moves_returnAs (returns : Option Ty) :
    Moves cx ⟨some live, live, []⟩ (returnAs returns) fun _ => Ready := by
  have hleave : ∀ (i : Instr) (types rest : List Ty),
      (∀ p c s out, exec p c i s = some out → out = .leave) → i ≠ .constNull →
      Moves cx ⟨some types, rest, []⟩ (emit i >>= fun _ => endBlock) fun _ => Ready :=
    fun i types rest hi hnull => (leads_exit hi hnull).moves fun _ => ready_none rest
  cases returns with
  | none =>
    refine hleave _ _ _ (fun p c s out h => ?_) nofun
    cases h
    rfl
  | some ty =>
    refine .bind tracks_pop ?_
    rintro value _ ⟨rest, rfl, rfl⟩
    have hcoerce : Moves cx ⟨some (value :: rest), rest, []⟩ (discard (coerce value ty))
        fun _ q => ∃ x, q = ⟨some (x :: rest), rest, []⟩ := by
      refine .bind (moves_coerce value ty) ?_
      rintro _ _ ⟨-, x, rfl, -⟩
      exact .pure ⟨x, rfl⟩
    refine .bind hcoerce ?_
    rintro _ _ ⟨x, rfl⟩
    refine .bind (tracks_stackKind ty) ?_
    rintro kind _ ⟨-, rfl⟩
    refine hleave _ _ _ (fun p c s out h => ?_) nofun
    cases h
    rfl

theorem moves_ret : Moves cx ⟨some live, live, []⟩ ret fun _ => Ready := by
  refine .bind .read ?_
  rintro _ _ ⟨rfl, rfl⟩
  dsimp only
  split
  · refine .bind .get ?_
    rintro _ _ rfl
    split
    · exact .throw_bind
    · exact moves_returnAs _
  · exact moves_returnAs _

theorem moves_number {act : PoolM Instr} (h : Instr.Chooses k act) :
    Moves cx ⟨some live, live, []⟩
      (onPool act >>= fun i => emitNew (.prim k.prim) i) fun _ => Ready :=
  moves_constant h fun _ => moves_result (.refl _)

theorem moves_dup : Moves cx ⟨some live, live, []⟩
    (peek >>= fun ty => emitPush ty (.dupOf ty.category)) fun _ => Ready := by
  refine .bind tracks_peek ?_
  rintro ty _ ⟨rest, rfl, rfl⟩
  refine (leads_emit (fun _ _ => sound_dupOf ty rest) ?_).bind fun _ => ?_
  · unfold Instr.dupOf
    split <;> exact nofun
  · exact (tracks_push ty).moves fun _ => ready_same _

/-- The code of a scalar operation keeps to the types of the frame. -/
theorem moves_lowerOp (hT : cx.types.Slim) (hregions : cx.regions.regions = [])
    (hprepared : Prepared cx) {op : Op} (hop : (cx.current, op) ∈ cx.body.code)
    (hscalar : op.isScalar = true) :
    Moves cx ⟨some live, live, []⟩ (lowerOp cx.current op) fun _ => Ready := by
  have htarget : ∀ t ∈ op.targets, cx.targets.contains t = true := hprepared.targets _ op hop
  -- loads and stores find their slot first
  have hslot : ∀ (find : Slots → Except Cause Nat) {f : Nat → LowerM Unit},
      (∀ slot, Moves cx ⟨some live, live, []⟩ (f slot) fun _ q =>
        ∃ types, q = ⟨some types, types, []⟩) →
      Moves cx ⟨some live, live, []⟩
        (do f (← find (← get).slots)) fun _ => Ready := by
    intro find f hf
    refine .bind .get ?_
    rintro s₀ _ rfl
    refine .bind .lift ?_
    rintro slot _ ⟨-, rfl⟩
    refine (hf slot).weaken ?_
    rintro _ _ ⟨types, rfl⟩
    exact ready_same types
  cases op with
  | nop => exact .pure (ready_same live)
  | loadArg i => exact hslot (·.argumentSlot i) moves_load
  | loadLocal i => exact hslot (·.variableSlot i) moves_load
  | storeArg i => exact hslot (·.argumentSlot i) (moves_storeDeclared hregions)
  | storeLocal i => exact hslot (·.variableSlot i) (moves_storeDeclared hregions)
  | loadInt32 v => exact moves_number (k := .int) (Instr.chooses_intConstant v)
  | loadInt64 v => exact moves_number (k := .long) (Instr.chooses_longConstant v)
  | loadFloat32 bits => exact moves_number (k := .float) (Instr.chooses_floatConstant bits)
  | loadFloat64 bits => exact moves_number (k := .double) (Instr.chooses_doubleConstant bits)
  | dup => exact moves_dup
  | pop =>
    refine moves_dropTop.weaken ?_
    rintro _ _ ⟨ty, rest, -, rfl⟩
    exact ready_same rest
  | arithmetic op => exact moves_arithmetic op
  | convert target checked => exact moves_convert target checked
  | compare way unsigned => exact moves_compare hT way unsigned
  | branch way unsigned target =>
    exact moves_branchWhen hT way unsigned (htarget target List.mem_cons_self)
  | branchIf truth target => exact moves_branchIf hT truth (htarget target List.mem_cons_self)
  | jump target =>
    exact (leads_jump hT (aimed_of_target (htarget target List.mem_cons_self)) (.refl _)).moves
      fun _ => ready_none live
  | switch targets => exact moves_switch hT htarget fun next => hprepared.falls _ targets next hop
  | ret => exact moves_ret
  | _ => cases hscalar

-- ==== whole code

/-- An operation is entered without anything in front of it. -/
theorem moves_enter (hT : cx.types.Slim) (hregions : cx.regions.regions = [])
    (hready : Ready pt) :
    Moves cx pt (enter cx.current) fun _ q => ∃ types, q = ⟨some types, types, []⟩ := by
  intro s a s' hat hrun
  rw [enter_eq, RegionTree.handlerAt?_of_nil hregions] at hrun
  obtain ⟨t, harrive, hsaves⟩ := arrive_ok hrun
  obtain ⟨types, ht⟩ := hat.arrival hT hready.1 harrive
  rw [hready.2] at ht
  -- there are no handlers to tell
  rw [RegionTree.startingAt_of_nil hregions] at hsaves
  cases hsaves
  exact ⟨_, ⟨types, rfl⟩, ht⟩

/-- Lowering scalar operations one after the other keeps the code and the frame in step. -/
theorem moves_code (hT : cx.types.Slim) (hregions : cx.regions.regions = [])
    (hprepared : Prepared cx) {code : List (Nat × Op)} (hcode : ∀ e ∈ code, e ∈ cx.body.code)
    (hscalar : ∀ e ∈ code, e.2.isScalar = true) (hready : Ready pt) :
    Moves cx pt (code.forM fun (o, op) => lowerAt o op) fun _ => Ready := by
  induction code generalizing pt with
  | nil => exact .pure hready
  | cons e code ih =>
    obtain ⟨o, op⟩ := e
    obtain ⟨hop, hcode⟩ := List.forall_mem_cons.mp hcode
    obtain ⟨hfirst, hscalar⟩ := List.forall_mem_cons.mp hscalar
    have hat : Moves (cx.atOffset o) pt (enter o >>= fun _ => lowerOp o op) fun _ => Ready := by
      have hT : (cx.atOffset o).types.Slim := hT
      have henter : Moves (cx.atOffset o) pt (enter o) fun _ q =>
          ∃ types, q = ⟨some types, types, []⟩ := moves_enter hT hregions hready
      refine henter.bind ?_
      rintro _ _ ⟨types, rfl⟩
      exact moves_lowerOp hT hregions (hprepared.atOffset o) hop hfirst
    have hone : Moves cx pt (lowerAt o op) fun _ => Ready := hat
    exact .bind hone fun _ _ hq => ih hcode hscalar hq

end Lowering

end BytecodeBridge
