/-
Results that are read off an evaluation.

What a fixed input comes to is found by evaluating the program on it, with
`cbv`. This unfolds whatever it meets, the functions of the library too, by
equations that are scattered over the library. So a file that evaluates
imports this one, and no other file imports the library as a whole.
-/
import Mathlib

namespace BytecodeBridge

/-- A computation has a result if its outcome passes the test for it. -/
theorem exists_ok_of_test {ε σ α : Type} [DecidableEq α] {r : EStateM.Result ε σ α} {a : α}
    (h : (match r with
      | .ok b _ => decide (b = a)
      | .error _ _ => false) = true) : ∃ s, r = .ok a s := by
  split at h
  · next b s =>
    cases of_decide_eq_true h
    exact ⟨s, rfl⟩
  · cases h

end BytecodeBridge
