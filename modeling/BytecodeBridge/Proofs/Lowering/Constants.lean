/-
The pool indices of lowered methods name what they should.

While a method is lowered, every operand emitted so far names a constant of
the kind its instruction needs, and so does every index of the finished
method (`holdsAll_of_ok`). Later methods add to the pool or, if they fail,
give it back as they found it. Either way what a method names it goes on to
name, so its indices stay good for as long as the class is worked on
(`constants_of_session`).
-/
import BytecodeBridge.Proofs.Lowering.Isolation
import BytecodeBridge.Proofs.Lowering.Completion

namespace BytecodeBridge

open Pool

-- ==== sessions

open Lowering

/-- A successful method leaves a pool in which all its operands are good. -/
private theorem holdsAll_of_ok {config : Config} {T : TypeTable} {pool : Pool} {body : Body}
    {m : Method} (hpool : pool.Indexed) (h : (lowerMethod config T pool body).result = .ok m) :
    (lowerMethod config T pool body).pool.HoldsAll m.operands := by
  unfold lowerMethod at h ⊢
  cases hrun : run config T body (initial pool body) with
  | error cause s =>
    rw [hrun] at h
    cases h
  | ok m' s =>
    rw [hrun] at h
    cases h
    obtain ⟨cx, s₁, hprepare, hrun⟩ := state_bind_ok hrun
    obtain ⟨_, _, _, _, -, -, -, rfl⟩ := prepare_parts hprepare
    have hbody : Links cx .empty _ _ := (proper_body cx body).links trivial
    exact (hbody _ _ _ ⟨hpool, .empty⟩ nofun hrun).2.2

/-- The pool of a class before and after one more method is lowered, with whatever
types are known by then. -/
def Follows (p q : Pool) : Prop :=
  ∃ config T body, q = (lowerMethod config T p body).pool

/-- The pools of a class, from one on, while methods are lowered that succeed or fail. -/
abbrev Session : Pool → Pool → Prop :=
  Relation.ReflTransGen Follows

/-- A method only adds to the pool, or leaves it as it was. -/
theorem Follows.grows {p q : Pool} (h : Follows p q) : p.Grows q := by
  obtain ⟨config, T, body, rfl⟩ := h
  cases hresult : (lowerMethod config T p body).result with
  | error e =>
    obtain ⟨cause, s, hrun, hpool⟩ := exists_failed hresult
    rw [hpool, rollback_of_failed hrun]
  | ok m =>
    have hadds := adding_run config T body (initial p body)
    unfold lowerMethod at hresult ⊢
    cases hrun : run config T body (initial p body) with
    | error cause s =>
      rw [hrun] at hresult
      cases hresult
    | ok m' s =>
      rw [hrun] at hadds
      exact hadds.pool

theorem Session.grows {p q : Pool} (h : Session p q) : p.Grows q := by
  induction h with
  | refl => exact .refl
  | tail _ hlast ih => exact ih.trans hlast.grows

/-- Whatever a method names in the pool is of the kind that is needed, and it is the
same constant in the pool that the method leaves and in every later one. -/
theorem constants_of_session {config : Config} {T : TypeTable} {pool : Pool} {body : Body}
    {m : Method} (hpool : Session .empty pool)
    (h : (lowerMethod config T pool body).result = .ok m) :
    ∀ o ∈ m.operands, ∃ c, o.1.admits c = true ∧
      ∀ later, Session (lowerMethod config T pool body).pool later → later.get? o.2 = some c := by
  have hstart : pool.Indexed := (hpool.grows.indexed indexed_empty).1
  have hleft : (lowerMethod config T pool body).pool.Indexed :=
    ((Follows.grows ⟨config, T, body, rfl⟩).indexed hstart).1
  intro o ho
  obtain ⟨c, hc, hadmits⟩ := holdsAll_of_ok hstart h o ho
  exact ⟨c, hadmits, fun later hlater => (hlater.grows.indexed hleft).2 o.2 c hc⟩

/-- A method that mentions a number too large to be part of an instruction. -/
def loadsNumber : Body where
  owner := .ref "Store"
  name := "load"
  kind := .static
  params := []
  locals := []
  returns := none
  code := [(0, .loadInt32 100000), (1, .pop), (2, .ret)]
  handlers := []

private theorem preview_loadsNumber :
    preview {} (.ofConfig {}) loadsNumber
      = some [(0, .ldc 1), (2, .pop), (3, .returnVoid)] := by
  cbv

/-- The number that a method mentions after another method has failed. -/
theorem constants_after_addsToArray :
    ∃ m, (lowerMethod {} (.ofConfig {}) (lowerMethod {} (.ofConfig {}) .empty addsToArray).pool
          loadsNumber).result = .ok m ∧
      (Need.single, 1) ∈ m.operands ∧
      ∃ c, Need.single.admits c = true ∧ ∀ later,
        Session (lowerMethod {} (.ofConfig {})
          (lowerMethod {} (.ofConfig {}) .empty addsToArray).pool loadsNumber).pool later →
        later.get? 1 = some c := by
  have hfailed : ∃ e, (lowerMethod {} (.ofConfig {}) .empty addsToArray).result = .error e :=
    ⟨({ cause := .malformed (.badOperand .add (.array (.prim .int32) 1)) : Error }.inMethod
      "Store::add"), by cbv⟩
  obtain ⟨e, hfailed⟩ := hfailed
  obtain ⟨cause, s, hrun, hpool⟩ := exists_failed hfailed
  have hback : (lowerMethod {} (.ofConfig {}) .empty addsToArray).pool = .empty := by
    rw [hpool, rollback_of_failed hrun]
  obtain ⟨m, hm, hcode⟩ := exists_of_preview preview_loadsNumber
  rw [← hback] at hm
  have hmem : (Need.single, 1) ∈ m.operands := by
    unfold Method.operands
    rw [hcode]
    simp [Instr.operand?]
  exact ⟨m, hm, hmem, constants_of_session (.single ⟨_, _, _, rfl⟩) hm _ hmem⟩

end BytecodeBridge
