/-
Walks up the declared supertypes.

A walk goes breadth first, so the number it lists with a type is the length
of a shortest way there (`Shortest`). The argument is the usual one: the
queue is sorted by distance, spans no more than two distances, and holds
nothing nearer than what was visited (`Levels`), so a type that is met again
is met no nearer than before. Everything else about a walk follows: what it
finds is what there is a way to (`reached_ancestors`), and apart from where
it starts that is a declared supertype (`Way.eq_or_supertype`).
-/
import Mathlib.Data.List.Nodup
import Mathlib.Logic.Relation
import Mathlib.Tactic.Tauto
import BytecodeBridge.TypeTable.Hierarchy

namespace BytecodeBridge.TypeTable

variable {T : TypeTable} {a b c : Ty} {m n : Nat}

-- ==== ways

/-- A walk goes from a type to its declared supertypes, but not past the root. -/
def Up (T : TypeTable) (t u : Ty) : Prop :=
  T.root ≠ some t ∧ u ∈ T.supertypes t

/-- There is a way up from a type to another. -/
abbrev Reaches (T : TypeTable) : Ty → Ty → Prop :=
  Relation.ReflTransGen T.Up

theorem reached_iff {seen : List (Ty × Nat)} {t : Ty} :
    reached seen t = true ↔ ∃ e ∈ seen, e.1 = t := by
  unfold reached
  simp only [List.any_eq_true, beq_iff_eq]

private theorem up_of_mem_steps {t : Ty} {n : Nat} {e : Ty × Nat} (h : e ∈ T.steps t n) :
    T.Up t e.1 := by
  unfold steps at h
  split at h
  · cases h
  · next hroot =>
    obtain ⟨u, hu, rfl⟩ := List.mem_map.mp h
    exact ⟨hroot, hu⟩

private theorem mem_steps_of_up {t u : Ty} (h : T.Up t u) (n : Nat) : (u, n + 1) ∈ T.steps t n := by
  unfold steps
  rw [if_neg h.1]
  exact List.mem_map.mpr ⟨u, h.2, rfl⟩

/-- There is a way up from a type in so many steps to another. -/
inductive Way (T : TypeTable) (a : Ty) : Nat → Ty → Prop where
  | refl : Way T a 0 a
  | tail {n : Nat} {b c : Ty} (h : Way T a n b) (hup : T.Up b c) : Way T a (n + 1) c

theorem Way.trans (hab : T.Way a m b) (hbc : T.Way b n c) : T.Way a (m + n) c := by
  induction hbc with
  | refl => exact hab
  | tail _ hup ih => exact ih.tail hup

theorem Way.pos (h : T.Way a n b) (hne : a ≠ b) : 0 < n := by
  cases n with
  | zero =>
    cases h
    exact absurd rfl hne
  | succ n => exact Nat.succ_pos n

/-- A way ends where it starts, or at a declared supertype. -/
theorem Way.eq_or_supertype (h : T.Way a n b) :
    b = a ∧ n = 0 ∨ 0 < n ∧ ∃ t, b ∈ T.supertypes t := by
  cases h with
  | refl => exact .inl ⟨rfl, rfl⟩
  | tail _ hup => exact .inr ⟨Nat.succ_pos _, _, hup.2⟩

theorem Way.reaches (h : T.Way a n b) : T.Reaches a b := by
  induction h with
  | refl => exact .refl
  | tail _ hup ih => exact ih.tail hup

theorem exists_way (h : T.Reaches a b) : ∃ n, T.Way a n b := by
  induction h with
  | refl => exact ⟨0, .refl⟩
  | tail _ hup ih =>
    obtain ⟨n, hn⟩ := ih
    exact ⟨n + 1, hn.tail hup⟩

/-- There is a way of so many steps, and none of fewer. -/
structure Shortest (T : TypeTable) (a : Ty) (n : Nat) (b : Ty) : Prop where
  way : T.Way a n b
  le : ∀ m, T.Way a m b → n ≤ m

-- ==== walks

/-- The distances in a walk: the queue is sorted and spans two distances at most, nothing
in it is nearer than what was visited, and nothing was visited twice. -/
structure Levels (seen queue : List (Ty × Nat)) : Prop where
  sorted : queue.Pairwise fun p q => p.2 ≤ q.2
  close : ∀ p ∈ queue, ∀ q ∈ queue, q.2 ≤ p.2 + 1
  behind : ∀ p ∈ seen, ∀ q ∈ queue, p.2 ≤ q.2
  once : (seen.map Prod.fst).Nodup

/-- A visited type is one step from its supertypes, and these are visited or queued no
further than that. -/
def Covered (T : TypeTable) (seen queue : List (Ty × Nat)) : Prop :=
  ∀ p ∈ seen, ∀ u, T.Up p.1 u → ∃ q ∈ seen ++ queue, q.1 = u ∧ q.2 ≤ p.2 + 1

theorem distance_of_mem_steps {t : Ty} {e : Ty × Nat} (h : e ∈ T.steps t n) : e.2 = n + 1 := by
  unfold steps at h
  split at h
  · cases h
  · obtain ⟨u, -, rfl⟩ := List.mem_map.mp h
    rfl

section Visits

variable {seen rest : List (Ty × Nat)} {t : Ty}

theorem Levels.drop (h : Levels seen ((t, n) :: rest)) : Levels seen rest where
  sorted := (List.pairwise_cons.mp h.sorted).2
  close p hp q hq := h.close p (.tail _ hp) q (.tail _ hq)
  behind p hp q hq := h.behind p hp q (.tail _ hq)
  once := h.once

/-- A visit queues what is one step further than the type that is visited. -/
theorem Levels.visit (h : Levels seen ((t, n) :: rest)) (hnew : reached seen t = false) :
    Levels ((t, n) :: seen) (rest ++ T.steps t n) := by
  obtain ⟨hfirst, hsorted⟩ := List.pairwise_cons.mp h.sorted
  have hrest : ∀ q ∈ rest, q.2 ≤ n + 1 := fun q hq =>
    h.close (t, n) (.head _) q (.tail _ hq)
  -- all that is queued now is at the distance of the visited type or one step further
  have hqueue : ∀ q ∈ rest ++ T.steps t n, n ≤ q.2 ∧ q.2 ≤ n + 1 := by
    intro q hq
    rcases List.mem_append.mp hq with hq | hq
    · exact ⟨hfirst q hq, hrest q hq⟩
    · rw [distance_of_mem_steps hq]
      omega
  refine ⟨?_, ?_, ?_, ?_⟩
  · refine List.pairwise_append.mpr ⟨hsorted, ?_, ?_⟩
    · refine List.pairwise_of_forall_mem_list fun p hp q hq => ?_
      exact Nat.le_of_eq ((distance_of_mem_steps hp).trans (distance_of_mem_steps hq).symm)
    · intro p hp q hq
      rw [distance_of_mem_steps hq]
      exact hrest p hp
  · intro p hp q hq
    have hle := (hqueue q hq).2
    have hge := (hqueue p hp).1
    omega
  · intro p hp q hq
    rcases List.mem_cons.mp hp with rfl | hp
    · exact (hqueue q hq).1
    · exact Nat.le_trans (h.behind p hp (t, n) (.head _)) (hqueue q hq).1
  · rw [List.map_cons, List.nodup_cons]
    refine ⟨fun hmem => ?_, h.once⟩
    obtain ⟨p, hp, heq⟩ := List.mem_map.mp hmem
    rw [reached_iff.mpr ⟨p, hp, heq⟩] at hnew
    cases hnew

theorem Levels.exists_nearer (h : Levels seen ((t, n) :: rest)) (hseen : reached seen t = true) :
    ∃ p ∈ seen, p.1 = t ∧ p.2 ≤ n := by
  obtain ⟨p, hp, heq⟩ := reached_iff.mp hseen
  exact ⟨p, hp, heq, h.behind p hp (t, n) (.head _)⟩

theorem Covered.drop (h : Covered T seen ((t, n) :: rest)) (hlevels : Levels seen ((t, n) :: rest))
    (hseen : reached seen t = true) : Covered T seen rest := by
  intro p hp u hup
  obtain ⟨q, hq, rfl, hle⟩ := h p hp u hup
  rcases List.mem_append.mp hq with hq | hq
  · exact ⟨q, List.mem_append_left _ hq, rfl, hle⟩
  · rcases List.mem_cons.mp hq with rfl | hq
    · obtain ⟨r, hr, heq, hnearer⟩ := hlevels.exists_nearer hseen
      exact ⟨r, List.mem_append_left _ hr, heq, Nat.le_trans hnearer hle⟩
    · exact ⟨q, List.mem_append_right _ hq, rfl, hle⟩

theorem Covered.visit (h : Covered T seen ((t, n) :: rest)) :
    Covered T ((t, n) :: seen) (rest ++ T.steps t n) := by
  intro p hp u hup
  rcases List.mem_cons.mp hp with rfl | hp
  · exact ⟨(u, n + 1), List.mem_append_right _ (List.mem_append_right _ (mem_steps_of_up hup n)),
      rfl, Nat.le_refl _⟩
  · obtain ⟨q, hq, heq, hle⟩ := h p hp u hup
    refine ⟨q, ?_, heq, hle⟩
    simp only [List.mem_append, List.mem_cons] at hq ⊢
    tauto

end Visits

/-- What a walk comes to: no type twice, its supertypes no further than one step, and all
that it has seen or queued no further away than it was. -/
theorem walk_levels {seen queue : List (Ty × Nat)} (hlevels : Levels seen queue)
    (hcovered : Covered T seen queue) :
    ((T.walk seen queue).map Prod.fst).Nodup ∧ Covered T (T.walk seen queue) [] ∧
      ∀ p ∈ seen ++ queue, ∃ q ∈ T.walk seen queue, q.1 = p.1 ∧ q.2 ≤ p.2 := by
  fun_induction walk T seen queue with
  | case1 seen =>
    refine ⟨?_, ?_, ?_⟩
    · rw [List.map_reverse]
      exact List.nodup_reverse.mpr hlevels.once
    · intro p hp u hup
      obtain ⟨q, hq, h⟩ := hcovered p (List.mem_reverse.mp hp) u hup
      rw [List.append_nil] at hq ⊢
      exact ⟨q, List.mem_reverse.mpr hq, h⟩
    · intro p hp
      rw [List.append_nil] at hp
      exact ⟨p, List.mem_reverse.mpr hp, rfl, Nat.le_refl _⟩
  | case2 seen t n rest hseen ih =>
    obtain ⟨honce, hclosed, hall⟩ := ih hlevels.drop (hcovered.drop hlevels hseen)
    refine ⟨honce, hclosed, fun p hp => ?_⟩
    rcases List.mem_append.mp hp with hp | hp
    · exact hall p (List.mem_append_left _ hp)
    · rcases List.mem_cons.mp hp with rfl | hp
      · obtain ⟨r, hr, heq, hnearer⟩ := hlevels.exists_nearer hseen
        obtain ⟨q, hq, hq', hle⟩ := hall r (List.mem_append_left _ hr)
        exact ⟨q, hq, hq'.trans heq, Nat.le_trans hle hnearer⟩
      · exact hall p (List.mem_append_right _ hp)
  | case3 seen t n rest hseen ih =>
    obtain ⟨honce, hclosed, hall⟩ :=
      ih (hlevels.visit (Bool.eq_false_iff.mpr hseen)) hcovered.visit
    refine ⟨honce, hclosed, fun p hp => hall p ?_⟩
    simp only [List.mem_append, List.mem_cons] at hp ⊢
    tauto

/-- A walk lists a type with the length of a way there. -/
private theorem way_of_mem_walk {start : Ty} {seen queue : List (Ty × Nat)}
    (hseen : ∀ p ∈ seen, T.Way start p.2 p.1) (hqueue : ∀ p ∈ queue, T.Way start p.2 p.1) :
    ∀ p ∈ T.walk seen queue, T.Way start p.2 p.1 := by
  fun_induction walk T seen queue with
  | case1 seen => exact fun p hp => hseen p (List.mem_reverse.mp hp)
  | case2 seen t n rest _ ih => exact ih hseen (List.forall_mem_cons.mp hqueue).2
  | case3 seen t n rest _ ih =>
    obtain ⟨ht, hrest⟩ := List.forall_mem_cons.mp hqueue
    refine ih (List.forall_mem_cons.mpr ⟨ht, hseen⟩) (List.forall_mem_append.mpr ⟨hrest, ?_⟩)
    intro p hp
    rw [distance_of_mem_steps hp]
    exact ht.tail (up_of_mem_steps hp)

/-- The ancestors of a type are what there is a way to, each once and with the length of a
shortest way. -/
theorem mem_ancestors_iff : (c, n) ∈ T.ancestors a ↔ T.Shortest (T.classOf a) n c := by
  have hlevels : Levels [] [(T.classOf a, 0)] := ⟨by simp, by simp, by simp, by simp⟩
  obtain ⟨honce, hclosed, hall⟩ := walk_levels hlevels (T := T) fun p hp => by cases hp
  have hway : ∀ p ∈ T.ancestors a, T.Way (T.classOf a) p.2 p.1 := by
    refine way_of_mem_walk (by simp) fun p hp => ?_
    rw [List.mem_singleton.mp hp]
    exact .refl
  -- along any way the distances grow by no more than its steps
  have hnear : ∀ {m t}, T.Way (T.classOf a) m t → ∃ q ∈ T.ancestors a, q.1 = t ∧ q.2 ≤ m := by
    intro m t h
    induction h with
    | refl => exact hall (T.classOf a, 0) (by simp)
    | tail _ hup ih =>
      obtain ⟨p, hp, rfl, hle⟩ := ih
      obtain ⟨q, hq, heq, hstep⟩ := hclosed p hp _ hup
      rw [List.append_nil] at hq
      exact ⟨q, hq, heq, by omega⟩
  have hunique : ∀ {p q}, p ∈ T.ancestors a → q ∈ T.ancestors a → p.1 = q.1 → p = q :=
    fun hp hq heq => List.inj_on_of_nodup_map honce hp hq heq
  constructor
  · intro h
    refine ⟨hway _ h, fun m hm => ?_⟩
    obtain ⟨q, hq, heq, hle⟩ := hnear hm
    cases hunique hq h heq
    exact hle
  · intro h
    obtain ⟨q, hq, rfl, hle⟩ := hnear h.way
    have hback := h.le _ (hway q hq)
    rwa [show n = q.2 by omega]

theorem exists_shortest (h : T.Way a m b) : ∃ n, T.Shortest a n b := by
  induction m using Nat.strongRecOn with
  | ind m ih =>
    by_cases hless : ∃ k, k < m ∧ T.Way a k b
    · obtain ⟨k, hlt, hk⟩ := hless
      exact ih k hlt hk
    · refine ⟨m, h, fun k hk => ?_⟩
      by_contra hlt
      exact hless ⟨k, Nat.not_le.mp hlt, hk⟩

theorem Shortest.unique (hm : T.Shortest a m b) (hn : T.Shortest a n b) : m = n :=
  Nat.le_antisymm (hm.le n hn.way) (hn.le m hm.way)

theorem reached_ancestors : reached (T.ancestors a) b = true ↔ T.Reaches (T.classOf a) b := by
  rw [reached_iff]
  constructor
  · rintro ⟨⟨b, n⟩, hmem, rfl⟩
    exact (mem_ancestors_iff.mp hmem).way.reaches
  · intro h
    obtain ⟨m, hway⟩ := exists_way h
    obtain ⟨n, hshortest⟩ := exists_shortest hway
    exact ⟨(b, n), mem_ancestors_iff.mpr hshortest, rfl⟩

private theorem lookup_ancestors_iff :
    (T.ancestors a).lookup c = some n ↔ T.Shortest (T.classOf a) n c := by
  rw [← mem_ancestors_iff]
  constructor
  · intro h
    obtain ⟨before, after, hsplit, -⟩ := List.lookup_eq_some_iff.mp h
    rw [hsplit]
    exact List.mem_append_right _ (.head _)
  · intro h
    cases hlookup : (T.ancestors a).lookup c with
    | none => exact absurd rfl (bne_iff_ne.mp (List.lookup_eq_none_iff.mp hlookup _ h))
    | some k =>
      obtain ⟨before, after, hsplit, -⟩ := List.lookup_eq_some_iff.mp hlookup
      have hk : (c, k) ∈ T.ancestors a := by
        rw [hsplit]
        exact List.mem_append_right _ (.head _)
      rw [(mem_ancestors_iff.mp hk).unique (mem_ancestors_iff.mp h)]

/-- The candidates are the types other than the universal object type that there are ways
to from both, with the sum of the shortest. -/
theorem mem_candidates_iff {x : Candidate} : x ∈ T.candidates a b ↔ x.ty ≠ T.object ∧
    ∃ m n, T.Shortest (T.classOf a) m x.ty ∧ T.Shortest (T.classOf b) n x.ty ∧
      x.distance = m + n := by
  unfold candidates
  rw [List.mem_filterMap]
  constructor
  · rintro ⟨⟨t, m⟩, ht, hone⟩
    dsimp only at hone
    split at hone
    · cases hone
    · next hobject =>
      obtain ⟨n, hn, rfl⟩ := Option.map_eq_some_iff.mp hone
      exact ⟨hobject, m, n, mem_ancestors_iff.mp ht, lookup_ancestors_iff.mp hn, rfl⟩
  · rintro ⟨hobject, m, n, hm, hn, hsum⟩
    refine ⟨(x.ty, m), mem_ancestors_iff.mpr hm, ?_⟩
    dsimp only
    rw [if_neg hobject, lookup_ancestors_iff.mpr hn, Option.map_some, ← hsum]

end BytecodeBridge.TypeTable
