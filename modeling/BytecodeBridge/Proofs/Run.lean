/-
Computations that succeed, taken apart.

Everything the library computes with a chance of failure runs in one of
three monads: `Except` for the checks, `EStateM` for steps on a pool or on
slots, and `LowerM` on top of that for the lowering. What the theory says
about such a computation it says about its successful runs, and a
successful run of a sequence is a successful run of each of its members.
This file states that once for every way of sequencing the library uses;
the files after it never open a bind themselves.

Where a computation branches it is easier to speak about it before it is
applied to a state: `Yields` relates the states it may start in to its
results, with one rule for each way of building a computation.
-/
import Mathlib.Data.List.Forall2
import BytecodeBridge.Lowering.State

namespace BytecodeBridge

variable {ε σ α β : Type}

variable {x : EStateM ε σ α} {f : α → EStateM ε σ β} {b : β} {c : ε} {a : α} {l : List α}
  {r : List β} {R : α → β → Prop} {s s' : σ}

-- ==== checks

theorem except_bind_ok {x : Except ε α} {f : α → Except ε β} (h : (x >>= f) = .ok b) :
    ∃ a, x = .ok a ∧ f a = .ok b := by
  cases x with
  | error e => cases h
  | ok a => exact ⟨a, rfl, h⟩

theorem except_bind_error {x : Except ε α} {f : α → Except ε β} (h : (x >>= f) = .error c) :
    x = .error c ∨ ∃ a, x = .ok a ∧ f a = .error c := by
  cases x with
  | error d =>
    cases h
    exact .inl rfl
  | ok a => exact .inr ⟨a, rfl, h⟩

theorem except_pure_ok {b : α} (h : (pure a : Except ε α) = .ok b) : a = b :=
  Except.ok.inj h

/-- Checks made along a list succeed one by one. -/
theorem except_mapM_ok {f : α → Except ε β} (h : l.mapM f = .ok r) :
    List.Forall₂ (fun a b => f a = .ok b) l r := by
  induction l generalizing r with
  | nil =>
    rw [List.mapM_nil] at h
    cases except_pure_ok h
    exact .nil
  | cons a l ih =>
    rw [List.mapM_cons] at h
    obtain ⟨b, hb, h⟩ := except_bind_ok h
    obtain ⟨bs, hbs, h⟩ := except_bind_ok h
    cases except_pure_ok h
    exact .cons hb (ih hbs)

/-- Checks made along a list fail where one of them does. -/
theorem except_mapM_error {f : α → Except ε β} (h : l.mapM f = .error c) :
    ∃ a ∈ l, f a = .error c := by
  induction l with
  | nil =>
    rw [List.mapM_nil] at h
    cases h
  | cons a l ih =>
    rw [List.mapM_cons] at h
    rcases except_bind_error h with h | ⟨b, -, h⟩
    · exact ⟨a, .head _, h⟩
    · rcases except_bind_error h with h | ⟨_, -, h⟩
      · obtain ⟨a', ha', h⟩ := ih h
        exact ⟨a', .tail _ ha', h⟩
      · cases h

theorem forall₂_mem_right (h : List.Forall₂ R l r) (hb : b ∈ r) : ∃ a ∈ l, R a b := by
  induction h with
  | nil => cases hb
  | cons hab _ ih =>
    rcases List.mem_cons.mp hb with rfl | hb
    · exact ⟨_, .head _, hab⟩
    · obtain ⟨a, ha, hr⟩ := ih hb
      exact ⟨a, .tail _ ha, hr⟩

theorem forall₂_mem_left (h : List.Forall₂ R l r) (ha : a ∈ l) : ∃ b ∈ r, R a b :=
  forall₂_mem_right h.flip ha

theorem forall₂_getElem?_left (h : List.Forall₂ R l r) {i : Nat} (ha : l[i]? = some a) :
    ∃ b, r[i]? = some b ∧ R a b := by
  induction h generalizing i with
  | nil => cases ha
  | cons hab _ ih =>
    cases i with
    | zero =>
      cases ha
      exact ⟨_, rfl, hab⟩
    | succ i => exact ih ha

-- ==== steps on a state

/-- The state that a computation leaves, whether or not it succeeds. -/
def finalState {ε σ α : Type} : EStateM.Result ε σ α → σ
  | .ok _ s | .error _ s => s

theorem state_bind_ok (h : (x >>= f) s = .ok b s') : ∃ a t, x s = .ok a t ∧ f a t = .ok b s' := by
  change (match x s with
    | .ok a t => f a t
    | .error e t => .error e t) = _ at h
  split at h
  · next a t hx => exact ⟨a, t, hx, h⟩
  · cases h

theorem state_ok_bind {t : σ} (h : x s = .ok a t) : (x >>= f) s = f a t := by
  show (match x s with
    | .ok a t => f a t
    | .error e t => .error e t) = _
  rw [h]

theorem state_error_bind {t : σ} {e : ε} (h : x s = .error e t) : (x >>= f) s = .error e t := by
  show (match x s with
    | .ok a t => f a t
    | .error e t => .error e t) = _
  rw [h]

theorem state_pure_ok {b : α} (h : (pure a : EStateM ε σ α) s = .ok b s') : a = b ∧ s = s' := by
  cases h
  exact ⟨rfl, rfl⟩

theorem state_discard_ok {u : Unit} (h : discard x s = .ok u s') : ∃ a, x s = .ok a s' := by
  obtain ⟨a, t, ha, hpure⟩ := state_bind_ok (x := x) (f := fun _ => pure u) h
  cases hpure
  exact ⟨a, ha⟩

theorem state_mapM_ok (h : l.mapM f s = .ok r s') :
    List.Forall₂ (fun a b => ∃ t t', f a t = .ok b t') l r := by
  induction l generalizing r s s' with
  | nil =>
    rw [List.mapM_nil] at h
    obtain ⟨rfl, -⟩ := state_pure_ok h
    exact .nil
  | cons a l ih =>
    rw [List.mapM_cons] at h
    obtain ⟨b, t, hb, h⟩ := state_bind_ok h
    obtain ⟨bs, t', hbs, h⟩ := state_bind_ok h
    obtain ⟨rfl, -⟩ := state_pure_ok h
    exact .cons ⟨s, t, hb⟩ (ih hbs)

theorem state_lift_ok {x : Except Cause α} (h : (liftM x : EStateM Cause σ α) s = .ok a s') :
    x = .ok a ∧ s' = s := by
  cases x with
  | error e => cases h
  | ok b =>
    cases h
    exact ⟨rfl, rfl⟩

/-- A sequence of two steps fails where the first does, or where the second does behind
it. -/
theorem state_bind_error (h : (x >>= f) s = .error c s') :
    x s = .error c s' ∨ ∃ a t, x s = .ok a t ∧ f a t = .error c s' := by
  change (match x s with
    | .ok a t => f a t
    | .error e t => .error e t) = _ at h
  split at h
  · next a t hx => exact .inr ⟨a, t, hx, h⟩
  · next hx =>
    cases h
    exact .inl hx

-- ==== what steps yield

/-- Started in a state with `P`, a step succeeds only with a result and a state
that satisfy `Q`. -/
def Yields (P : σ → Prop) (x : EStateM ε σ α) (Q : α → σ → Prop) : Prop :=
  ∀ s a s', P s → x s = .ok a s' → Q a s'

namespace Yields

variable {P : σ → Prop} {x : EStateM ε σ α} {f : α → EStateM ε σ β}

theorem bind {M : α → σ → Prop} {Q : β → σ → Prop} (hx : Yields P x M)
    (hf : ∀ a, Yields (M a) (f a) Q) : Yields P (x >>= f) Q := by
  intro s b s' hP h
  obtain ⟨a, t, ha, hb⟩ := state_bind_ok h
  exact hf a t b s' (hx s a t hP ha) hb

theorem pure {Q : α → σ → Prop} {a : α} (h : ∀ s, P s → Q a s) :
    Yields P (pure a : EStateM ε σ α) Q := by
  intro s b s' hP hrun
  obtain ⟨rfl, rfl⟩ := state_pure_ok hrun
  exact h s hP

theorem throw {e : ε} {Q : α → σ → Prop} : Yields P (throw e : EStateM ε σ α) Q := by
  intro s a s' _ h
  cases h

theorem lift {y : Except Cause α} {P : σ → Prop} {Q : α → σ → Prop}
    (h : ∀ a, y = .ok a → ∀ s, P s → Q a s) : Yields P (liftM y : EStateM Cause σ α) Q := by
  intro s a s' hP hrun
  obtain ⟨hy, rfl⟩ := state_lift_ok hrun
  exact h a hy _ hP

theorem any : Yields P x fun _ _ => True :=
  fun _ _ _ _ _ => trivial

theorem foldlM {f : β → α → EStateM ε σ β} {I : β → σ → Prop} {l : List α}
    (step : ∀ a ∈ l, ∀ b, Yields (I b) (f b a) I) (b : β) : Yields (I b) (l.foldlM f b) I := by
  induction l generalizing b with
  | nil => exact pure fun _ h => h
  | cons a l ih =>
    rw [List.foldlM_cons]
    exact bind (step a (.head _) b)
      fun c => ih (fun a' ha' => step a' (.tail _ ha')) c

theorem mapM {l : List α} (h : ∀ a ∈ l, Yields P (f a) fun _ => P) :
    Yields P (l.mapM f) fun _ => P := by
  induction l with
  | nil =>
    rw [List.mapM_nil]
    exact pure fun _ hP => hP
  | cons a l ih =>
    rw [List.mapM_cons]
    refine bind (h a (.head _)) fun b => ?_
    exact bind (ih fun a' ha' => h a' (.tail _ ha')) fun bs => pure fun _ hP => hP

theorem forM {g : α → EStateM ε σ Unit} {l : List α} (h : ∀ a ∈ l, Yields P (g a) fun _ => P) :
    Yields P (l.forM g) fun _ => P := by
  induction l with
  | nil => exact pure fun _ hP => hP
  | cons a l ih =>
    exact bind (x := g a) (f := fun _ => l.forM g) (h a (.head _))
      fun _ => ih fun a' ha' => h a' (.tail _ ha')

end Yields

-- ==== what a lowering yields

section Sequences

variable {cx : Context} {s s' : LowerState} {b : β}

theorem lower_ok_bind {x : LowerM α} {f : α → LowerM β} {t : LowerState} (h : x cx s = .ok a t) :
    (x >>= f) cx s = f a cx t :=
  state_ok_bind (x := x cx) (f := fun a => f a cx) h

/-- A step on the slots changes nothing else. -/
theorem onSlots_eq_ok {act : SlotM α} : LowerState.onSlots act s = .ok a s' ↔
    ∃ slots, act s.slots = .ok a slots ∧ s' = { s with slots } := by
  unfold LowerState.onSlots
  dsimp only
  constructor
  · intro h
    split at h
    · next slots hact =>
      cases h
      exact ⟨slots, hact, rfl⟩
    · cases h
  · rintro ⟨slots, hact, rfl⟩
    rw [hact]

theorem lower_bind_ok {x : LowerM α} {f : α → LowerM β} (h : (x >>= f) cx s = .ok b s') :
    ∃ a t, x cx s = .ok a t ∧ f a cx t = .ok b s' :=
  state_bind_ok (x := x cx) (f := fun a => f a cx) h

theorem read_bind_ok {f : Context → LowerM β} (h : (read >>= f) cx s = .ok b s') :
    f cx cx s = .ok b s' :=
  h

theorem get_bind_ok {f : LowerState → LowerM β} (h : (get >>= f) cx s = .ok b s') :
    f s cx s = .ok b s' :=
  h

theorem lift_bind_ok {y : Except Cause α} {f : α → LowerM β}
    (h : (liftM y >>= f) cx s = .ok b s') : ∃ x, y = .ok x ∧ f x cx s = .ok b s' := by
  cases y with
  | error e => cases h
  | ok x => exact ⟨x, rfl, h⟩

theorem onPool_ok {act : PoolM α} {a : α} (h : LowerM.onPool act cx s = .ok a s') :
    ∃ pool, act s.pool = .ok a pool ∧ s' = { s with pool } := by
  change LowerState.onPool act s = _ at h
  unfold LowerState.onPool at h
  dsimp only at h
  split at h
  · next hact =>
    cases h
    exact ⟨_, hact, rfl⟩
  · cases h

theorem discard_ok {x : LowerM α} {u : Unit} (h : discard x cx s = .ok u s') :
    ∃ a, x cx s = .ok a s' :=
  state_discard_ok (x := x cx) h

end Sequences

/-- `Yields` for a computation that reads a context. -/
def Gives (cx : Context) (P : LowerState → Prop) (m : LowerM α) (Q : α → LowerState → Prop) :
    Prop :=
  Yields P (m cx) Q

namespace Gives

variable {cx : Context} {P : LowerState → Prop} {x : LowerM α} {f : α → LowerM β}

variable {Q : α → LowerState → Prop}

theorem bind {M : α → LowerState → Prop} {Q : β → LowerState → Prop} (hx : Gives cx P x M)
    (hf : ∀ a, Gives cx (M a) (f a) Q) : Gives cx P (x >>= f) Q :=
  Yields.bind (x := x cx) (f := fun a => f a cx) hx hf

theorem pure {a : α} (h : ∀ s, P s → Q a s) :
    Gives cx P (pure a) Q := by
  intro s b s' hP hrun
  cases hrun
  exact h s hP

theorem throw {e : Cause} : Gives cx P (throw e) Q := by
  intro s a s' _ h
  cases h

theorem get : Gives cx P get fun a s => a = s ∧ P s := by
  intro s a s' hP h
  cases h
  exact ⟨rfl, hP⟩

theorem modify {g : LowerState → LowerState} {Q : Unit → LowerState → Prop}
    (h : ∀ s, P s → Q () (g s)) : Gives cx P (modify g) Q := by
  intro s a s' hP hrun
  cases hrun
  exact h s hP

theorem lift {y : Except Cause α} : Gives cx P (liftM y) fun a s => y = .ok a ∧ P s := by
  intro s a s' hP hrun
  obtain ⟨hy, rfl⟩ := state_lift_ok (x := y) hrun
  exact ⟨hy, hP⟩

theorem read : Gives cx P read fun a s => a = cx ∧ P s := by
  intro s a s' hP h
  cases h
  exact ⟨rfl, hP⟩

theorem onPool {act : PoolM α}
    (h : ∀ s a pool, P s → act s.pool = .ok a pool → Q a { s with pool }) :
    Gives cx P (LowerM.onPool act) Q := by
  intro s a s' hP hrun
  obtain ⟨pool, hact, rfl⟩ := onPool_ok hrun
  exact h s a pool hP hact

theorem weaken {P' : LowerState → Prop} {Q' : α → LowerState → Prop} (h : Gives cx P x Q)
    (hP : ∀ s, P' s → P s) (hQ : ∀ a s, Q a s → Q' a s) : Gives cx P' x Q' :=
  fun s a s' hP' hrun => hQ a s' (h s a s' (hP s hP') hrun)

theorem of_fact {φ : Prop} (h : φ → Gives cx P x Q) :
    Gives cx (fun s => φ ∧ P s) x Q :=
  fun s a s' hφ hrun => h hφ.1 s a s' hφ.2 hrun

/-- What every computation along a list gives, all of them give. -/
theorem mapM {R : α → β → Prop} {l : List α}
    (h : ∀ a ∈ l, Gives cx P (f a) fun b s => R a b ∧ P s) :
    Gives cx P (l.mapM f) fun bs s => List.Forall₂ R l bs ∧ P s := by
  induction l with
  | nil =>
    rw [List.mapM_nil]
    exact .pure fun _ hP => ⟨.nil, hP⟩
  | cons a l ih =>
    rw [List.mapM_cons]
    refine .bind (h a (.head _)) fun b => .of_fact fun hb => ?_
    exact .bind (ih fun a' ha' => h a' (.tail _ ha'))
      fun bs => .pure fun _ h => ⟨.cons hb h.1, h.2⟩

theorem mapM_lift {g : α → Except Cause β} {l : List α} :
    Gives cx P (l.mapM fun a => (liftM (g a) : LowerM β))
      fun bs s => List.Forall₂ (fun a b => g a = .ok b) l bs ∧ P s :=
  mapM fun _ _ => .lift

end Gives

end BytecodeBridge
