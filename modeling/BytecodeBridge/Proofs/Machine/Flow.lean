/-
Code with types: what is on the stack at every place of it.

`Flow` goes through code from its first item to its last and says of which
types the stack is behind them, one `Edge` for each item. An edge looks at
its item alone. What a branch needs to know about the place it goes to,
and what a label needs to know about the branches that come to it, is the
stack recorded for the label, and a branch fits that.

Recorded stacks grow while code is written. Behind a branch this does not
matter, since what fitted the stack still fits it. A label whose code is
there already is another matter: the code goes on with the types it was
written for. Such labels are `changed`, and nothing is said about a run
that has jumped to one.

All other runs are sound (`Run.sound`): at every place the stack is of the
types that the flow gives, and the slots keep the types they are declared
with. An annotation of all places at once (`Annotated`) is what this is
proved with, so that a jump backwards comes to the types that were found
there before.
-/
import BytecodeBridge.Proofs.Code.Path
import BytecodeBridge.Proofs.Machine.Typing

namespace BytecodeBridge

open Layout

-- ==== branches

/-- How many values a branch takes from the stack. -/
def Instr.tested : Instr → Nat
  | ifZero _ _ | ifNull _ _ => 1
  | ifInt _ _ | ifSame _ _ => 2
  | _ => 0

namespace Machine

variable {stack : List Value} {c : Chance} {i j : Instr}

private theorem test?_ok {r : Bool × List Value} (h : test? c i stack = some r) :
    r.2 = stack.drop i.tested ∧ (i.isUnconditional = true → r.1 = true) := by
  unfold test? at h
  split at h
  all_goals
    cases h
    try exact ⟨rfl, by simp [Instr.isUnconditional]⟩

theorem exec_eq_map_test? {p : Pool} {s : State} {o : Int} (h : exec p c i s = (do
      let (taken, stack) ← test? c i s.stack
      return if taken then .jump o { s with stack } else .next { s with stack })) :
    exec p c i s = (test? c i s.stack).map fun r =>
      if r.1 then .jump o { s with stack := r.2 } else .next { s with stack := r.2 } := by
  rw [h]
  cases test? c i s.stack <;> rfl

/-- A branch is executed by its test. -/
theorem exec_of_withOffset {o : Int} (h : i.withOffset o = .ok j) (p : Pool) (s : State) :
    j.tested = i.tested ∧ exec p c j s = (test? c j s.stack).map fun r =>
      if r.1 then .jump o { s with stack := r.2 } else .next { s with stack := r.2 } := by
  have hshort : ∀ make : Int → Instr, (∀ o, (make o).tested = i.tested ∧
      exec p c (make o) s = (test? c (make o) s.stack).map fun r =>
        if r.1 then .jump o { s with stack := r.2 } else .next { s with stack := r.2 }) →
      Instr.shortBranch o make = .ok j → j.tested = i.tested ∧
        exec p c j s = (test? c j s.stack).map fun r =>
          if r.1 then .jump o { s with stack := r.2 } else .next { s with stack := r.2 } := by
    intro make hmake h
    unfold Instr.shortBranch at h
    split at h
    · cases h
      exact hmake o
    · cases h
  cases i with
  | gotoW o' =>
    cases h
    exact ⟨rfl, exec_eq_map_test? rfl⟩
  | goto o' => exact hshort .goto (fun o => ⟨rfl, exec_eq_map_test? rfl⟩) h
  | ifZero way o' => exact hshort (.ifZero way) (fun o => ⟨rfl, exec_eq_map_test? rfl⟩) h
  | ifInt way o' => exact hshort (.ifInt way) (fun o => ⟨rfl, exec_eq_map_test? rfl⟩) h
  | ifSame same o' => exact hshort (.ifSame same) (fun o => ⟨rfl, exec_eq_map_test? rfl⟩) h
  | ifNull null o' => exact hshort (.ifNull null) (fun o => ⟨rfl, exec_eq_map_test? rfl⟩) h
  | _ => cases h

private theorem tableOffset_mem (default low : Int) (offsets : List Int) (n : Int) :
    tableOffset default low offsets n ∈ default :: offsets := by
  unfold tableOffset
  split
  · exact .head _
  · rw [List.getD_eq_getElem?_getD]
    cases hget : offsets[(n - low).toNat]? with
    | none => exact .head _
    | some o => exact .tail _ (List.mem_of_getElem? hget)

-- ==== places

/-- The stack fits what is known at a place. Where nothing is known, nothing comes. -/
def FitAt (stack : List Value) (known : Option (List Ty)) : Prop :=
  ∃ types, known = some types ∧ Fit stack types

/-- What fits the first place fits the second. -/
def Below (known known' : Option (List Ty)) : Prop :=
  ∀ stack, FitAt stack known → FitAt stack known'

variable {a b : Option (List Ty)} {types types' : List Ty}

theorem Below.refl (a : Option (List Ty)) : Below a a :=
  fun _ h => h

theorem Below.trans {d : Option (List Ty)} (hab : Below a b) (hbd : Below b d) : Below a d :=
  fun stack h => hbd stack (hab stack h)

theorem Below.of_eq (h : a = b) : Below a b :=
  h ▸ .refl a

theorem Below.none (a : Option (List Ty)) : Below none a := by
  rintro stack ⟨types, h, -⟩
  cases h

theorem Subsumes.below (h : Subsumes types types') : Below (some types) (some types') := by
  rintro stack ⟨_, ⟨⟩, hfit⟩
  exact ⟨types', rfl, h stack hfit⟩

theorem fitAt_some {stack : List Value} : FitAt stack (some types) ↔ Fit stack types :=
  ⟨by rintro ⟨_, ⟨⟩, h⟩; exact h, fun h => ⟨types, rfl, h⟩⟩

-- ==== edges

/-- What the types of code refer to. -/
structure View where
  pool : Pool
  /-- the types of the slots -/
  declared : Nat → Option Ty
  /-- the stacks recorded for labels -/
  recorded : Label → Option (List Ty)
  /-- labels whose recorded stack is not the one their code was written for -/
  changed : Label → Prop

/-- The types of the stack in front of an item, and behind it. -/
inductive Edge (w : View) : Item → Option (List Ty) → Option (List Ty) → Prop where
  | instr {i : Instr} {types types' : List Ty} (h : Sound w.pool w.declared i types types') :
      Edge w (.instr i) (some types) (some types')
  | exit {i : Instr} {types : List Ty}
      (h : ∀ p c s out, exec p c i s = some out → out = .leave) :
      Edge w (.instr i) (some types) none
  | branch {i : Instr} {label : Label} {types : List Ty}
      (h : Below (some (types.drop i.tested)) (w.recorded label)) :
      Edge w (.branch i label) (some types) (some (types.drop i.tested))
  | jump {i : Instr} {label : Label} {types : List Ty} (hi : i.isUnconditional = true)
      (h : Below (some (types.drop i.tested)) (w.recorded label)) :
      Edge w (.branch i label) (some types) none
  | table {low : Int} {targets : List Label} {default : Label} {t : Ty} {types : List Ty}
      (h : ∀ label ∈ targets ++ [default], Below (some types) (w.recorded label)) :
      Edge w (.table low targets default) (some (t :: types)) none
  | bind {label : Label} {known : Option (List Ty)} {types : List Ty}
      (hfall : Below known (some types))
      (hjump : Below (w.recorded label) (some types) ∨ w.changed label) :
      Edge w (.bind label) known (some types)

/-- The types of the stack behind items, the latest first. -/
inductive Flow (w : View) : List Item → Option (List Ty) → Prop where
  | start : Flow w [] (some [])
  | item {item : Item} {items : List Item} {known known' : Option (List Ty)}
      (h : Flow w items known) (he : Edge w item known known') : Flow w (item :: items) known'
  | weaken {items : List Item} {known known' : Option (List Ty)} (h : Flow w items known)
      (hbelow : Below known known') : Flow w items known'

variable {w w' : View} {item : Item} {items : List Item} {known known' : Option (List Ty)}

/-- The second view knows more than the first, and has not changed the stacks of labels
that are bound, other than those it says. -/
structure View.Extends (w w' : View) (bound : Label → Prop) : Prop where
  pool : w.pool.PartOf w'.pool
  declared : w'.declared = w.declared
  recorded : ∀ label, Below (w.recorded label) (w'.recorded label)
  kept : ∀ label, bound label → Below (w'.recorded label) (w.recorded label) ∨ w'.changed label
  changed : ∀ label, w.changed label → w'.changed label

theorem Edge.extend (h : Edge w item known known') {bound : Label → Prop}
    (hw : w.Extends w' bound) (hbound : ∀ label, item = .bind label → bound label) :
    Edge w' item known known' := by
  cases h with
  | instr h =>
    refine .instr fun q c s out hpart => ?_
    rw [hw.declared]
    exact h q c s out (hw.pool.trans hpart)
  | exit h => exact .exit h
  | branch h => exact .branch (h.trans (hw.recorded _))
  | jump hi h => exact .jump hi (h.trans (hw.recorded _))
  | table h => exact .table fun label hl => (h label hl).trans (hw.recorded label)
  | @bind label _ _ hfall hjump =>
    refine .bind hfall ?_
    rcases hw.kept label (hbound label rfl) with hsame | hchanged
    · exact hjump.imp (hsame.trans ·) (hw.changed label)
    · exact .inr hchanged

theorem Flow.extend (h : Flow w items known)
    (hw : w.Extends w' fun label => .bind label ∈ items) : Flow w' items known := by
  induction h with
  | start => exact .start
  | item _ he ih =>
    refine .item (ih ?_) (he.extend hw fun label hl => hl ▸ (.head _))
    exact ⟨hw.pool, hw.declared, hw.recorded,
      fun label hl => hw.kept label (.tail _ hl), hw.changed⟩
  | weaken _ hbelow ih => exact .weaken (ih hw) hbelow

theorem Flow.append {before : List Item} (h : Flow w items known)
    (hbefore : Flow w before (some [])) : Flow w (items ++ before) known := by
  induction h with
  | start => exact hbefore
  | item _ he ih => exact .item ih he
  | weaken _ hbelow ih => exact .weaken ih hbelow

theorem Edge.widens {wide : Item} (h : Edge w item known known') (hwide : item.Widens wide) :
    Edge w wide known known' := by
  cases hwide with
  | same => exact h
  | wide offset target =>
    cases h with
    | branch h => exact .branch h
    | jump hi h => exact .jump rfl h

theorem Flow.widens {wide : List Item} (h : Flow w items known)
    (hwide : List.Forall₂ Item.Widens items wide) : Flow w wide known := by
  induction h generalizing wide with
  | start =>
    cases hwide
    exact .start
  | item _ he ih =>
    cases hwide with
    | cons hone hrest => exact .item (ih hrest) (he.widens hone)
  | weaken _ hbelow ih => exact .weaken (ih hwide) hbelow

-- ==== annotations

/-- Types for every place of code, which its items are given the latest first: what is
known at a place fits the edge behind it, and what the edge gives fits the next. -/
structure Annotated (w : View) (typesAt : Nat → Option (List Ty)) (items : List Item) : Prop where
  start : Below (some []) (typesAt 0)
  edge : ∀ post item pre, items = post ++ item :: pre → ∃ known known',
    Below (typesAt pre.length) known ∧ Edge w item known known' ∧
      Below known' (typesAt (pre.length + 1))

theorem Flow.exists_typesAt (h : Flow w items known) :
    ∃ typesAt, Annotated w typesAt items ∧ Below (typesAt items.length) known := by
  induction h with
  | start => exact ⟨fun _ => some [], ⟨.refl _, by simp⟩, .refl _⟩
  | @item item items known known' _ he ih =>
    obtain ⟨typesAt, hat, hend⟩ := ih
    refine ⟨fun n => if n ≤ items.length then typesAt n else known', ⟨?_, ?_⟩, ?_⟩
    · rw [if_pos (Nat.zero_le _)]
      exact hat.start
    · intro post item' pre heq
      cases post with
      | nil =>
        cases heq
        refine ⟨known, known', ?_, he, ?_⟩
        · rw [if_pos (Nat.le_refl _)]
          exact hend
        · rw [if_neg (Nat.not_succ_le_self _)]
          exact .refl _
      | cons first post =>
        rw [List.cons_append] at heq
        obtain ⟨-, hitems⟩ := List.cons.inj heq
        have hle : pre.length + 1 ≤ items.length := by
          rw [hitems, List.length_append, List.length_cons]
          omega
        rw [if_pos (Nat.le_of_succ_le hle), if_pos hle]
        exact hat.edge post item' pre hitems
    · dsimp only
      rw [List.length_cons, if_neg (Nat.not_succ_le_self _)]
      exact .refl _
  | weaken _ hbelow ih =>
    obtain ⟨typesAt, hat, hend⟩ := ih
    exact ⟨typesAt, hat, hend.trans hbelow⟩

variable {typesAt : Nat → Option (List Ty)}

theorem Annotated.edge_at (h : Annotated w typesAt items.reverse) {pre post : List Item}
    (heq : items = pre ++ item :: post) : ∃ known known', Below (typesAt pre.length) known ∧
      Edge w item known known' ∧ Below known' (typesAt (pre.length + 1)) := by
  have hrev : items.reverse = post.reverse ++ item :: pre.reverse := by
    rw [heq]
    simp
  have hedge := h.edge _ _ _ hrev
  rwa [List.length_reverse] at hedge

/-- Control falls through labels. -/
theorem Annotated.through (h : Annotated w typesAt items.reverse) {pre mid post : List Item}
    (heq : items = pre ++ mid ++ post) (hmid : ∀ x ∈ mid, x.label? ≠ none) :
    Below (typesAt pre.length) (typesAt (pre ++ mid).length) := by
  induction mid generalizing pre with
  | nil =>
    rw [List.append_nil]
    exact .refl _
  | cons first mid ih =>
    obtain ⟨hfirst, hmid⟩ := List.forall_mem_cons.mp hmid
    have hsplit : pre ++ first :: mid = pre ++ [first] ++ mid := by simp
    rw [hsplit] at heq ⊢
    refine .trans ?_ (ih heq hmid)
    have hcut : items = pre ++ first :: (mid ++ post) := by
      rw [heq]
      simp
    obtain ⟨known, known', hbelow, hedge, hbelow'⟩ := h.edge_at hcut
    rw [List.length_append]
    cases hedge with
    | bind hfall => exact hbelow.trans (hfall.trans hbelow')
    | _ => exact absurd rfl hfirst

-- ==== soundness

section Soundness

variable {l : Layout} {asm : Assembly} {p : Pool}

/-- Where an outcome leads: on, with the types behind the item, or to a label, with the
types recorded for it. -/
def Arrives (w : View) (l : Layout) (addr : Nat) (known : Option (List Ty)) : Outcome → Prop
  | .next s => Kept w.declared s.locals ∧ FitAt s.stack known
  | .jump o s => Kept w.declared s.locals ∧ ∃ label, ∃ dest : Nat,
      l.labels[label]? = some dest ∧ (addr : Int) + o = dest ∧ FitAt s.stack (w.recorded label)
  | .leave => True

/-- An instruction does what the edge of its item says. -/
theorem Edge.arrives (h : Edge w item known known') {addr : Nat} {i : Instr}
    (hpatch : l.patch addr item = .ok (some i)) (hp : w.pool.PartOf p) {s : State}
    (hfit : FitAt s.stack known) (hkept : Kept w.declared s.locals) {out : Outcome}
    (hexec : exec p c i s = some out) : Arrives w l addr known' out := by
  have hbranch : ∀ {j : Instr} {label : Label} {types : List Ty} {known' : Option (List Ty)},
      item = .branch j label → known = some types →
      Below (some (types.drop j.tested)) (w.recorded label) →
      (j.isUnconditional = false → known' = some (types.drop j.tested)) →
      Arrives w l addr known' out := by
    rintro j label types known' rfl rfl hlabel hnext
    cases patched_of_patch hpatch with
    | @branch _ _ _ dest hdest hoffset =>
    obtain ⟨htested, hrun⟩ := exec_of_withOffset (c := c) hoffset p s
    rw [hrun] at hexec
    obtain ⟨⟨taken, stack⟩, htest, rfl⟩ := Option.map_eq_some_iff.mp hexec
    obtain ⟨hstack, htaken⟩ := test?_ok htest
    rw [htested] at hstack
    dsimp only at hstack
    have hdrop : Fit stack (types.drop j.tested) := by
      rw [hstack]
      exact List.forall₂_drop _ (fitAt_some.mp hfit)
    cases taken with
    | true =>
      exact ⟨hkept, label, dest, hdest, add_relative addr dest,
        hlabel _ (fitAt_some.mpr hdrop)⟩
    | false =>
      have hgo : j.isUnconditional = false := by
        rw [← (Instr.withOffset_ok hoffset 0).2]
        exact Bool.eq_false_iff.mpr fun hgo => nomatch htaken hgo
      rw [hnext hgo]
      exact ⟨hkept, fitAt_some.mpr hdrop⟩
  cases h with
  | instr h =>
    cases hpatch
    obtain ⟨s', rfl, hfit', hkept'⟩ := h p c s out hp (fitAt_some.mp hfit) hkept hexec
    exact ⟨hkept', fitAt_some.mpr hfit'⟩
  | exit h =>
    cases except_pure_ok hpatch
    rw [h p c s out hexec]
    trivial
  | branch h => exact hbranch rfl rfl h fun _ => rfl
  | jump hi h => exact hbranch rfl rfl h fun hgo => nomatch hi.symm.trans hgo
  | @table low targets default t types h =>
    cases patched_of_patch hpatch with
    | @table _ _ _ offsets =>
    obtain ⟨stack, locals⟩ := s
    cases fitAt_some.mp hfit with
    | @cons v _ rest _ hv hrest =>
      cases v with
      | int n =>
        cases hexec
        obtain ⟨label, hlabel, dest, hfind, hsum⟩ := target_of_patch hpatch
          (fun j hj => by cases hj) (tableOffset_mem _ low offsets n.toInt)
        exact ⟨hkept, label, dest, hfind, hsum, h label hlabel _ (fitAt_some.mpr hrest)⟩
      | _ => cases hexec
  | bind => cases except_pure_ok hpatch

/-- Runs of assembled code keep to the types of an annotation, unless they have jumped to
a label that has changed. -/
theorem Run.sound (h : Assembled items l asm) (hat : Annotated w typesAt items.reverse)
    (hp : w.pool.PartOf p) {start s : State} (hstack : start.stack = [])
    (hstart : Kept w.declared start.locals) {jumps : List Nat} {addr : Nat}
    (hrun : Run asm.code p start jumps addr s)
    (hjumps : ∀ dest ∈ jumps, ∀ label, asm.labels[label]? = some dest → ¬ w.changed label) :
    Kept w.declared s.locals ∧ ∀ pre item post, items = pre ++ item :: post →
      item.label? = none → stop 0 pre = addr → FitAt s.stack (typesAt pre.length) := by
  -- by induction on the run: the last step started at an item, with the types there
  induction hrun with
  | start =>
    refine ⟨hstart, fun pre item post heq hitem haddr => ?_⟩
    have hcut : [] ++ items = pre ++ item :: post := heq
    obtain ⟨mid, rfl, hmid⟩ := labels_between hcut hitem haddr
    have hempty : FitAt start.stack (typesAt ([] : List Item).length) := by
      rw [hstack]
      exact hat.start _ (fitAt_some.mpr .nil)
    exact hat.through heq hmid _ hempty
  | @next jumps addr i c s s' _ hi hexec ih =>
    obtain ⟨hkept, hplace⟩ := ih hjumps
    obtain ⟨pre₀, item₀, post₀, heq₀, rfl, hpatch⟩ := (h.code addr i).mp hi
    have hfit := hplace pre₀ item₀ post₀ heq₀ (label?_of_patch hpatch) rfl
    obtain ⟨known, known', hbelow, hedge, hbelow'⟩ := hat.edge_at heq₀
    obtain ⟨hkept', hfit'⟩ := hedge.arrives hpatch hp (hbelow _ hfit) hkept hexec
    refine ⟨hkept', fun pre item post heq hitem haddr => ?_⟩
    have hsplit : (pre₀ ++ [item₀]) ++ post₀ = pre ++ item :: post := by
      rw [← heq, heq₀, List.append_assoc]
      rfl
    obtain ⟨mid, rfl, hmid⟩ := labels_between hsplit hitem
      (by rw [haddr, stop_concat, (patch_ok hpatch).1])
    refine hat.through heq hmid _ ?_
    rw [List.length_append]
    exact hbelow' _ hfit'
  | @jump jumps addr dest i c o s s' _ hi hexec hdest ih =>
    obtain ⟨hnew, hold⟩ := List.forall_mem_cons.mp hjumps
    obtain ⟨hkept, hplace⟩ := ih hold
    obtain ⟨pre₀, item₀, post₀, heq₀, rfl, hpatch⟩ := (h.code addr i).mp hi
    have hfit := hplace pre₀ item₀ post₀ heq₀ (label?_of_patch hpatch) rfl
    obtain ⟨known, known', hbelow, hedge, -⟩ := hat.edge_at heq₀
    obtain ⟨hkept', label, dest', hfind, hsum, hfit'⟩ :=
      hedge.arrives hpatch hp (hbelow _ hfit) hkept hexec
    obtain rfl : dest = dest' := by omega
    refine ⟨hkept', fun pre item post heq hitem haddr => ?_⟩
    rw [h.layout] at hfind
    obtain ⟨preL, postL, heqL, haddrL⟩ := (h.labels label dest).mp hfind
    -- the label is bound for the types that are recorded for it
    obtain ⟨knownL, knownL', -, hbind, hbelowL⟩ := hat.edge_at heqL
    have hfitL : FitAt s'.stack (typesAt (preL.length + 1)) := by
      cases hbind with
      | bind _ hjump => exact hbelowL _ ((hjump.resolve_right (hnew label hfind)) _ hfit')
    have hsplit : (preL ++ [.bind label]) ++ postL = pre ++ item :: post := by
      rw [← heq, heqL, List.append_assoc]
      rfl
    obtain ⟨mid, rfl, hmid⟩ := labels_between hsplit hitem
      (by rw [haddr, stop_concat, haddrL]; rfl)
    refine hat.through heq hmid _ ?_
    rw [List.length_append]
    exact hfitL

end Soundness

end Machine

end BytecodeBridge
