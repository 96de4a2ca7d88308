/-
How far a type is from its supertypes.

A walk is a loop over what it has seen and what is queued (`round`).
Supertypes may be declared in circles and more than once, so the queue may
hold one type several times, at different distances. What ends the loop is
that a round takes an entry off the queue, and whatever it adds stood in a
declaration that no round can add from again (`effort`).

What the loop ends with is told by paths alone (`Path`): which types there
are, and how far away each of them is.
-/
import Mathlib.Algebra.Order.Ring.Nat
import Mathlib.Data.List.Chain
import BytecodeBridge.Proofs.TypeTable.Walk

namespace BytecodeBridge.TypeTable

variable {T : TypeTable} {seen queue : List (Ty × Nat)} {t : Ty} {n : Nat}

-- ==== rounds

/-- One round of a walk. It takes the first entry off the queue; a type that was not seen
before is noted, and its supertypes are queued. -/
def round (T : TypeTable) : List (Ty × Nat) × List (Ty × Nat) → List (Ty × Nat) × List (Ty × Nat)
  | (seen, []) => (seen, [])
  | (seen, (t, n) :: rest) =>
    if reached seen t then (seen, rest) else ((t, n) :: seen, rest ++ T.steps t n)

/-- The supertypes in declarations of types that were not seen. -/
def pending (seen : List (Ty × Nat)) (classes : List (Ty × Declaration)) : Nat :=
  ((classes.filter fun e => !reached seen e.1).map fun e => e.2.supertypes.length).sum

/-- What a walk may still have to do: what is queued, and what may yet be. -/
def effort (T : TypeTable) (w : List (Ty × Nat) × List (Ty × Nat)) : Nat :=
  w.2.length + pending w.1 T.classes

theorem pending_cons (e : Ty × Declaration) (classes : List (Ty × Declaration)) :
    pending seen (e :: classes) =
      (if reached seen e.1 then 0 else e.2.supertypes.length) + pending seen classes := by
  unfold pending
  cases hseen : reached seen e.1 <;> simp [hseen]

private theorem pending_visit_le (seen : List (Ty × Nat)) (classes : List (Ty × Declaration))
    (e : Ty × Nat) : pending (e :: seen) classes ≤ pending seen classes := by
  induction classes with
  | nil => exact Nat.le_refl _
  | cons d classes ih =>
    rw [pending_cons, pending_cons, reached_cons]
    cases reached seen d.1 <;> cases e.1 == d.1 <;> simp <;> omega

/-- A visit queues what its type's declaration counted for until then. -/
private theorem length_lookup_add_pending (hnew : reached seen t = false)
    (classes : List (Ty × Declaration)) :
    ((classes.lookup t).elim 0 fun d => d.supertypes.length) + pending ((t, n) :: seen) classes
      ≤ pending seen classes := by
  induction classes with
  | nil => exact Nat.le_refl _
  | cons e classes ih =>
    rw [List.lookup_cons, pending_cons, pending_cons, reached_cons]
    cases heq : t == e.1 with
    | true =>
      rw [eq_of_beq heq] at hnew ⊢
      have hrest := pending_visit_le seen classes (e.1, n)
      simp only [hnew, Bool.true_or, if_true, Bool.false_eq_true, if_false, Option.elim_some]
      omega
    | false =>
      dsimp only
      rw [Bool.false_or]
      omega

private theorem length_steps_le (t : Ty) (n : Nat) :
    (T.steps t n).length ≤ (T.classes.lookup t).elim 0 fun d => d.supertypes.length := by
  unfold steps supertypes declaration?
  split
  · exact Nat.zero_le _
  · rw [List.length_map]
    cases T.classes.lookup t <;> exact Nat.le_refl _

/-- Every round with something queued brings the walk closer to its end. -/
private theorem effort_round_lt (seen : List (Ty × Nat)) (h : queue ≠ []) :
    T.effort (T.round (seen, queue)) < T.effort (seen, queue) := by
  cases queue with
  | nil => exact absurd rfl h
  | cons e rest =>
    obtain ⟨t, n⟩ := e
    unfold round
    dsimp only
    split
    · exact Nat.add_lt_add_right (Nat.lt_succ_self _) _
    · next hnew =>
      have hvisit := length_lookup_add_pending (n := n) (Bool.eq_false_iff.mpr hnew) T.classes
      have hsteps := T.length_steps_le t n
      simp only [effort, List.length_append, List.length_cons]
      omega

private theorem round_nil : T.round (seen, []) = (seen, []) := rfl

private theorem walk_round (w : List (Ty × Nat) × List (Ty × Nat)) :
    T.walk (T.round w).1 (T.round w).2 = T.walk w.1 w.2 := by
  obtain ⟨seen, queue⟩ := w
  cases queue with
  | nil => rfl
  | cons e rest =>
    obtain ⟨t, n⟩ := e
    rw [walk, round]
    split <;> rfl

/-- Once a walk has made as many rounds as it may have to, nothing is queued any more. -/
private theorem iterate_round (w : List (Ty × Nat) × List (Ty × Nat)) (hn : T.effort w ≤ n) :
    T.round^[n] w = ((T.walk w.1 w.2).reverse, []) := by
  induction n generalizing w with
  | zero =>
    obtain ⟨seen, queue⟩ := w
    obtain rfl : queue = [] := List.eq_nil_of_length_eq_zero
      (Nat.eq_zero_of_add_eq_zero_right (Nat.le_zero.mp hn))
    rw [walk, List.reverse_reverse]
    rfl
  | succ n ih =>
    obtain ⟨seen, queue⟩ := w
    by_cases hqueue : queue = []
    · subst hqueue
      rw [Function.iterate_fixed T.round_nil, walk, List.reverse_reverse]
    · have hless := T.effort_round_lt seen hqueue
      rw [Function.iterate_succ_apply, ih _ (by omega), walk_round]

-- ==== paths

/-- A path up the declared supertypes, given by the types behind its first. None of its
types but the last may be the root. -/
structure Path (T : TypeTable) (a u : Ty) (via : List Ty) : Prop where
  edges : List.IsChain (fun s t => t ∈ T.supertypes s) (a :: via)
  last : (a :: via).getLast (List.cons_ne_nil a via) = u
  inner : ∀ s ∈ (a :: via).dropLast, T.root ≠ some s

theorem Path.tail {a b c : Ty} {via : List Ty} (h : T.Path a b via) (hup : T.Up b c) :
    T.Path a c (via ++ [c]) := by
  have hlast := List.dropLast_concat_getLast (List.cons_ne_nil a via)
  rw [h.last] at hlast
  refine ⟨?_, by simp, fun s hs => ?_⟩
  · rw [← List.cons_append, List.isChain_append]
    refine ⟨h.edges, .singleton c, fun x hx y hy => ?_⟩
    rw [← hlast, List.getLast?_concat] at hx
    cases hx
    cases hy
    exact hup.2
  · rw [← List.cons_append, List.dropLast_concat, ← hlast] at hs
    rcases List.mem_append.mp hs with hs | hs
    · exact h.inner s hs
    · rw [List.mem_singleton.mp hs]
      exact hup.1

/-- The ways up are the paths, with as many steps as there are types behind the first. -/
private theorem way_iff_path {a u : Ty} : T.Way a n u ↔ ∃ via, T.Path a u via ∧ via.length = n := by
  constructor
  · intro h
    induction h with
    | refl => exact ⟨[], ⟨.singleton a, rfl, nofun⟩, rfl⟩
    | tail _ hup ih =>
      obtain ⟨via, hpath, rfl⟩ := ih
      exact ⟨_, hpath.tail hup, by simp⟩
  · rintro ⟨via, hpath, rfl⟩
    induction via generalizing a with
    | nil => exact hpath.last ▸ .refl
    | cons b via ih =>
      obtain ⟨hedge, hedges⟩ := List.isChain_cons_cons.mp hpath.edges
      have hinner := List.forall_mem_cons.mp hpath.inner
      have hfirst : T.Way a (0 + 1) b := .tail .refl ⟨hinner.1, hedge⟩
      have hway := hfirst.trans (ih ⟨hedges, hpath.last, hinner.2⟩)
      rwa [Nat.zero_add, Nat.add_comm] at hway

/-- The walk from a type ends, whatever is declared: with the types that a path leads to,
each once, and each with the length of a shortest path to it. -/
theorem ancestors_shortest (T : TypeTable) (t : Ty) :
    (∀ n, 1 + (T.classes.map fun e => e.2.supertypes.length).sum ≤ n →
      T.round^[n] ([], [(T.classOf t, 0)]) = ((T.ancestors t).reverse, [])) ∧
    ((T.ancestors t).map Prod.fst).Nodup ∧
    (∀ u, u ∈ (T.ancestors t).map Prod.fst ↔ ∃ via, T.Path (T.classOf t) u via) ∧
    ∀ u n, (u, n) ∈ T.ancestors t →
      (∃ via, T.Path (T.classOf t) u via ∧ via.length = n) ∧
        ∀ via, T.Path (T.classOf t) u via → n ≤ via.length := by
  refine ⟨fun n hn => ?_, ?_, fun u => ?_, fun u n hmem => ?_⟩
  · refine T.iterate_round ([], [(T.classOf t, 0)]) ?_
    simpa [effort, pending, reached] using hn
  · have hlevels : Levels [] [(T.classOf t, 0)] := ⟨by simp, by simp, by simp, by simp⟩
    exact (walk_levels hlevels (T := T) fun p hp => by cases hp).1
  · rw [List.mem_map]
    constructor
    · rintro ⟨⟨u, n⟩, hmem, rfl⟩
      obtain ⟨via, hpath, -⟩ := way_iff_path.mp (mem_ancestors_iff.mp hmem).way
      exact ⟨via, hpath⟩
    · rintro ⟨via, hpath⟩
      obtain ⟨n, hshortest⟩ := exists_shortest (way_iff_path.mpr ⟨via, hpath, rfl⟩)
      exact ⟨(u, n), mem_ancestors_iff.mpr hshortest, rfl⟩
  · have hshortest := mem_ancestors_iff.mp hmem
    exact ⟨way_iff_path.mp hshortest.way,
      fun via hpath => hshortest.le _ (way_iff_path.mpr ⟨via, hpath, rfl⟩)⟩

end BytecodeBridge.TypeTable
