/-
The constant pool only grows, and a rollback undoes its growth.

Interning either finds a constant or adds it at the end, so a pool comes
from an earlier one by adding constants that were missing when they were
added (`Pool.Grows`). That is all a rollback needs. It drops the entries
added since a length and erases their constants from the index, and since
none of them was in the index before, what remains is the earlier pool
itself, entries and index (`Pool.rollback_of_grows`). Nothing is asked of
the earlier pool.

A computation on the pool may fail half way through a compound reference
and leaves what it has added by then, so `Growing` speaks about every
outcome, not only about success.

In a pool that has grown from the empty one every index in use names one
constant, and goes on to name it (`Pool.Indexed`, `Pool.PartOf`).
-/
import Mathlib.Logic.Relation
import BytecodeBridge.Config
import BytecodeBridge.Proofs.Run

namespace BytecodeBridge

namespace Pool

-- ==== growth

/-- A pool with one more constant, which it lacked and has room for. -/
inductive Adds : Pool → Pool → Prop where
  | push {p : Pool} {c : Constant} (hnew : p.index[c]? = none)
      (hroom : p.count + c.size ≤ maxIndex) : Adds p (p.push c)

/-- A later state of a pool that is only added to. -/
abbrev Grows : Pool → Pool → Prop :=
  Relation.ReflTransGen Adds

/-- The marks of a pool ascend. -/
theorem Grows.checkpoint_le {p q : Pool} (h : p.Grows q) : p.checkpoint ≤ q.checkpoint := by
  induction h with
  | refl => exact Nat.le_refl _
  | tail _ hadds ih =>
    cases hadds with
    | push => exact Nat.le_succ_of_le ih

-- ==== rollback

/-- Erasing undoes the insertion of what was missing. -/
private theorem erase_insert_of_missing {index : Std.ExtHashMap Constant Nat} {c : Constant}
    (hnew : index[c]? = none) (i : Nat) : (index.insert c i).erase c = index := by
  refine Std.ExtHashMap.ext_getElem? fun d => ?_
  rw [Std.ExtHashMap.getElem?_erase, Std.ExtHashMap.getElem?_insert]
  by_cases heq : c = d
  · subst heq
    rw [if_pos (beq_self_eq_true c), hnew]
  · rw [if_neg (ne_true_of_eq_false (beq_false_of_ne heq)),
      if_neg (ne_true_of_eq_false (beq_false_of_ne heq))]

/-- A rollback takes the last constant out first. -/
theorem rollback_push {p : Pool} {c : Constant} {mark : Nat} (hnew : p.index[c]? = none)
    (hmark : mark ≤ p.checkpoint) : (p.push c).rollback mark = p.rollback mark := by
  have hadded : (p.push c).entries.length - mark = (p.entries.length - mark) + 1 :=
    Nat.succ_sub hmark
  unfold rollback
  rw [hadded]
  show Pool.mk _ (((_, c) :: p.entries.take _).foldl _ (p.index.insert c _)) = _
  rw [List.foldl_cons, erase_insert_of_missing hnew]
  rfl

@[simp] theorem rollback_checkpoint (p : Pool) : p.rollback p.checkpoint = p := by
  unfold rollback checkpoint
  rw [Nat.sub_self]
  rfl

/-- A rollback gives the earlier pool back, with its entries and its index. -/
theorem rollback_of_grows {p q : Pool} (h : p.Grows q) : q.rollback p.checkpoint = p := by
  induction h with
  | refl => exact rollback_checkpoint p
  | tail hgrows hadds ih =>
    cases hadds with
    | push hnew => rw [rollback_push hnew (Grows.checkpoint_le hgrows), ih]

end Pool

-- ==== computations

/-- Whatever comes of it, a computation only adds to the pool. -/
def Growing {α : Type} (x : PoolM α) : Prop :=
  ∀ p : Pool, p.Grows (finalState (x p))

namespace Growing

variable {α β : Type}

theorem pure (a : α) : Growing (pure a : PoolM α) :=
  fun _ => .refl

theorem throw (e : Cause) : Growing (throw e : PoolM α) :=
  fun _ => .refl

theorem lift (y : Except Cause α) : Growing (liftM y : PoolM α) := by
  intro p
  cases y with
  | ok a | error e => exact .refl

/-- What a first part has added stays, also if it fails. -/
theorem bind {x : PoolM α} {f : α → PoolM β} (hx : Growing x) (hf : ∀ a, Growing (f a)) :
    Growing (x >>= f) := by
  intro p
  have hfirst := hx p
  show p.Grows (finalState (EStateM.bind x f p))
  unfold EStateM.bind
  cases hrun : x p with
  | ok a q =>
    rw [hrun] at hfirst
    exact hfirst.trans (hf a q)
  | error e q =>
    rw [hrun] at hfirst
    exact hfirst

end Growing

-- ==== references

namespace Pool

/-- A constant is found, or added at the end. -/
theorem growing_intern (c : Constant) : Growing (intern c) := by
  intro p
  unfold intern
  cases hfound : p.index[c]? with
  | some i => exact .refl
  | none =>
    dsimp only
    split
    · exact .refl
    · next hroom => exact .single (.push hfound (Nat.not_lt.mp hroom))

theorem growing_classRef (name : String) : Growing (classRef name) :=
  (growing_intern _).bind fun _ => growing_intern _

theorem growing_stringRef (text : String) : Growing (stringRef text) :=
  (growing_intern _).bind fun _ => growing_intern _

private theorem growing_nameAndType (name descriptor : String) :
    Growing (nameAndType name descriptor) :=
  (growing_intern _).bind fun _ => (growing_intern _).bind fun _ => growing_intern _

theorem growing_methodRef (owner name descriptor : String) (onInterface : Bool) :
    Growing (methodRef owner name descriptor onInterface) :=
  (growing_classRef owner).bind fun _ =>
    (growing_nameAndType name descriptor).bind fun _ => growing_intern _

-- ==== look-up

/-- What an index names in the first pool it names in the second. -/
def PartOf (p q : Pool) : Prop :=
  ∀ i c, p.get? i = some c → q.get? i = some c

theorem PartOf.refl (p : Pool) : p.PartOf p :=
  fun _ _ h => h

theorem PartOf.trans {p q r : Pool} (hpq : p.PartOf q) (hqr : q.PartOf r) : p.PartOf r :=
  fun i c h => hqr i c (hpq i c h)

/-- Every entry lies below the next index, and the index of a constant names it. -/
structure Indexed (p : Pool) : Prop where
  below : ∀ e ∈ p.entries, e.1 < p.count
  names : ∀ c i, p.index[c]? = some i → p.get? i = some c

theorem indexed_empty : empty.Indexed := by
  refine ⟨nofun, fun c i h => ?_⟩
  unfold empty at h
  rw [Std.ExtHashMap.getElem?_empty] at h
  cases h

private theorem size_pos (c : Constant) : 0 < c.size := by
  cases c <;> exact Nat.succ_pos _

/-- An index that names something lies below the next one. -/
theorem Indexed.lt_count {p : Pool} (h : p.Indexed) {i : Nat} {c : Constant}
    (hc : p.get? i = some c) : i < p.count := by
  obtain ⟨e, he, -⟩ := Option.map_eq_some_iff.mp hc
  have hlt := h.below e (List.mem_of_find?_eq_some he)
  have hindex := List.find?_some he
  rwa [eq_of_beq hindex] at hlt

theorem get?_push (p : Pool) (c : Constant) (i : Nat) :
    (p.push c).get? i = if p.count = i then some c else p.get? i := by
  unfold get? push
  rw [List.find?_cons]
  by_cases hi : p.count = i
  · rw [if_pos hi, beq_iff_eq.mpr hi]
    rfl
  · rw [if_neg hi, beq_false_of_ne hi]

/-- An entry at the end leaves the others where they are. -/
theorem Adds.indexed {p q : Pool} (hadds : p.Adds q) (h : p.Indexed) :
    q.Indexed ∧ p.PartOf q := by
  cases hadds with
  | @push c hnew hroom =>
    have hpart : p.PartOf (p.push c) := by
      intro i d hd
      rw [get?_push, if_neg (Nat.ne_of_gt (h.lt_count hd))]
      exact hd
    have hgrows : p.count < (p.push c).count :=
      Nat.lt_add_of_pos_right (size_pos c)
    refine ⟨⟨List.forall_mem_cons.mpr ⟨hgrows, fun e he => ?_⟩, fun d i hd => ?_⟩, hpart⟩
    · exact Nat.lt_trans (h.below e he) hgrows
    · unfold Pool.push at hd
      rw [Std.ExtHashMap.getElem?_insert] at hd
      split at hd
      · next heq =>
        cases hd
        rw [get?_push, if_pos rfl, eq_of_beq heq]
      · exact hpart i d (h.names d i hd)

/-- Indices go on to name what they name, while the pool grows. -/
theorem Grows.indexed {p q : Pool} (hgrows : p.Grows q) (h : p.Indexed) :
    q.Indexed ∧ p.PartOf q := by
  induction hgrows with
  | refl => exact ⟨h, .refl p⟩
  | tail _ hadds ih =>
    obtain ⟨hindexed, hpart⟩ := hadds.indexed ih.1
    exact ⟨hindexed, ih.2.trans hpart⟩

theorem grows_of_ok {α : Type} {x : PoolM α} (hx : Growing x) {p p' : Pool} {a : α}
    (h : x p = .ok a p') : p.Grows p' := by
  have hgrows := hx p
  rwa [h] at hgrows

/-- An interned constant is what its index names from then on. -/
theorem get?_of_intern {p p' q : Pool} {c : Constant} {i : Nat} (hp : p.Indexed)
    (h : intern c p = .ok i p') (hq : p'.PartOf q) : q.get? i = some c := by
  refine hq i c ?_
  unfold intern at h
  split at h
  · next hfound =>
    cases h
    exact hp.names c i hfound
  · split at h
    · cases h
    · cases h
      rw [get?_push, if_pos rfl]

-- ==== names

/-- The text that an index names. -/
def text? (p : Pool) (i : Nat) : Option String :=
  match p.get? i with
  | some (.utf8 text) => some text
  | _ => none

/-- The class that an index names. -/
def class? (p : Pool) (i : Nat) : Option String :=
  match p.get? i with
  | some (.classRef name) => p.text? name
  | _ => none

/-- The text of the string constant that an index names. -/
def string? (p : Pool) (i : Nat) : Option String :=
  match p.get? i with
  | some (.stringRef text) => p.text? text
  | _ => none

/-- The method of a class that an index names. -/
def method? (p : Pool) (i : Nat) : Option MethodSpec :=
  match p.get? i with
  | some (.methodRef c nt) =>
    match p.get? c, p.get? nt with
    | some (.classRef owner), some (.nameAndType name descriptor) => do
      return ⟨← p.text? owner, ← p.text? name, ← p.text? descriptor⟩
    | _, _ => none
  | _ => none

/-- A constant made for a text holds, in any later pool, an index of the text. -/
theorem exists_of_reference {p p' q : Pool} {i : Nat} {text : String} {c : Nat → Constant}
    (hp : p.Indexed) (h : (intern (.utf8 text) >>= fun n => intern (c n)) p = .ok i p')
    (hq : p'.PartOf q) : ∃ n, q.get? i = some (c n) ∧ q.text? n = some text := by
  obtain ⟨n, p₁, hn, hi⟩ := state_bind_ok h
  obtain ⟨h₁, -⟩ := (grows_of_ok (growing_intern _) hn).indexed hp
  obtain ⟨-, h₂⟩ := (grows_of_ok (growing_intern _) hi).indexed h₁
  refine ⟨n, get?_of_intern h₁ hi hq, ?_⟩
  unfold text?
  rw [get?_of_intern hp hn (h₂.trans hq)]

/-- The index made for a class names it in any later pool. -/
theorem class?_of_classRef {p p' q : Pool} {i : Nat} {name : String} (hp : p.Indexed)
    (h : classRef name p = .ok i p') (hq : p'.PartOf q) : q.class? i = some name := by
  obtain ⟨n, hi, hn⟩ := exists_of_reference hp h hq
  unfold class?
  rwa [hi]

/-- The index made for a string names its text in any later pool. -/
theorem string?_of_stringRef {p p' q : Pool} {i : Nat} {text : String} (hp : p.Indexed)
    (h : stringRef text p = .ok i p') (hq : p'.PartOf q) : q.string? i = some text := by
  obtain ⟨n, hi, hn⟩ := exists_of_reference hp h hq
  unfold string?
  rwa [hi]

end Pool

open Pool

namespace Instr

/-- The ways in which the code for a constant of a kind is chosen. -/
inductive Chooses : NumKind → PoolM Instr → Prop where
  | const (k : NumKind) (n : Int) : Chooses k (pure (.const k n))
  | bipush (n : Int) : Chooses .int (pure (.bipush n))
  | sipush (n : Int) : Chooses .int (pure (.sipush n))
  | integer (n : Int32) : Chooses .int (intern (.integer n) >>= fun i => pure (ldcOf i))
  | float (bits : UInt32) : Chooses .float (intern (.float bits) >>= fun i => pure (ldcOf i))
  | long (n : Int64) : Chooses .long (intern (.long n) >>= fun i => pure (.ldc2W i))
  | double (bits : UInt64) : Chooses .double (intern (.double bits) >>= fun i => pure (.ldc2W i))

/-- Small integers are part of the instruction, others are in the pool. -/
theorem chooses_intConstant (value : Int32) : Chooses .int (intConstant value) := by
  unfold intConstant
  dsimp only
  split
  · exact .const _ _
  · split
    · exact .bipush _
    · split
      · exact .sipush _
      · exact .integer value

theorem chooses_longConstant (value : Int64) : Chooses .long (longConstant value) := by
  unfold longConstant
  split
  · exact .const _ _
  · exact .long value

theorem chooses_floatConstant (bits : UInt32) : Chooses .float (floatConstant bits) := by
  unfold floatConstant
  split
  · exact .const _ _
  · exact .float bits

theorem chooses_doubleConstant (bits : UInt64) : Chooses .double (doubleConstant bits) := by
  unfold doubleConstant
  split
  · exact .const _ _
  · exact .double bits

/-- The code for a constant adds to the pool at most. -/
theorem Chooses.growing {k : NumKind} {act : PoolM Instr} (h : Chooses k act) : Growing act := by
  cases h with
  | const | bipush | sipush => exact .pure _
  | _ => exact (growing_intern _).bind fun _ => .pure _

end Instr

end BytecodeBridge
