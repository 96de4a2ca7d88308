/-
A common supertype is the nearest one, not the least one.

Of the types that two classes have in common, the one with the least sum of
distances is taken. Steps to a type behind it are more, if they go through
it; a common supertype that lies below the chosen one is therefore always
passed by, with a direct way from one of the two classes to the chosen one
that is shorter than every way through it (`Shortcut`). Where all ways
between two types have one length there are no such ways, and the nearest
common supertype is a least one.
-/
import BytecodeBridge.Proofs.TypeTable.Order

namespace BytecodeBridge.TypeTable

variable {T : TypeTable} {a b c d : Ty} {m n k : Nat}

-- ==== candidates

private theorem le_of_preference {x y : Candidate} (h : T.preference x y = .lt) :
    x.distance ≤ y.distance := by
  by_contra hlt
  rw [preference, Nat.compare_eq_gt.mpr (Nat.not_le.mp hlt)] at h
  cases h

private theorem le_of_not_preference {x y : Candidate} (h : T.preference x y ≠ .lt) :
    y.distance ≤ x.distance := by
  by_contra hlt
  rw [preference, Nat.compare_eq_lt.mpr (Nat.not_le.mp hlt)] at h
  exact h rfl

/-- No candidate is nearer than the preferred one. -/
private theorem distance_of_best {l : List Candidate} {x : Candidate} (h : T.best l = some x) :
    ∀ y ∈ l, x.distance ≤ y.distance := by
  cases l with
  | nil => cases h
  | cons first rest =>
    cases h
    -- the preferred one so far is no further than what it was compared with
    induction rest generalizing first with
    | nil => simp
    | cons z rest ih =>
      rw [List.foldl_cons]
      intro y hy
      have hbest := ih (if T.preference z first = .lt then z else first)
      have hstep := hbest _ (.head _)
      rcases List.mem_cons.mp hy with rfl | hy
      · refine Nat.le_trans hstep ?_
        split
        · next hlt => exact le_of_preference hlt
        · exact Nat.le_refl _
      · rcases List.mem_cons.mp hy with rfl | hy
        · refine Nat.le_trans hstep ?_
          split
          · exact Nat.le_refl _
          · next hlt => exact le_of_not_preference hlt
        · exact hbest y (.tail _ hy)

/-- The nearest type is one that no type in common is nearer than, or the universal object
type, if there is no other in common. -/
private theorem nearest_cases (T : TypeTable) (a b : Ty) :
    T.nearest a b = T.object ∧
        (∀ t m n, T.Way (T.classOf a) m t → T.Way (T.classOf b) n t → t = T.object) ∨
      ∃ i j, T.Way (T.classOf a) i (T.nearest a b) ∧ T.Way (T.classOf b) j (T.nearest a b) ∧
        T.nearest a b ≠ T.object ∧ ∀ t m n, t ≠ T.object → T.Way (T.classOf a) m t →
          T.Way (T.classOf b) n t → i + j ≤ m + n := by
  -- a type in common is a candidate, and no further than the ways there
  have hcandidate : ∀ {t m n}, t ≠ T.object → T.Way (T.classOf a) m t →
      T.Way (T.classOf b) n t → ∃ x ∈ T.candidates a b, x.distance ≤ m + n := by
    intro t m n ht hm hn
    obtain ⟨i, hi⟩ := exists_shortest hm
    obtain ⟨j, hj⟩ := exists_shortest hn
    refine ⟨⟨i + j, t⟩, mem_candidates_iff.mpr ⟨ht, i, j, hi, hj, rfl⟩, ?_⟩
    exact Nat.add_le_add (hi.le m hm) (hj.le n hn)
  unfold nearest
  split
  · next x hx =>
    obtain ⟨hobject, i, j, hi, hj, hsum⟩ := mem_candidates_iff.mp (mem_of_best hx)
    refine .inr ⟨i, j, hi.way, hj.way, hobject, fun t m n ht hm hn => ?_⟩
    obtain ⟨y, hy, hle⟩ := hcandidate ht hm hn
    have hbest := distance_of_best hx y hy
    omega
  · next hnone =>
    refine .inl ⟨rfl, fun t m n hm hn => ?_⟩
    by_contra ht
    obtain ⟨y, hy, -⟩ := hcandidate ht hm hn
    cases hlist : T.candidates a b with
    | nil =>
      rw [hlist] at hy
      cases hy
    | cons first rest =>
      rw [hlist] at hnone
      cases hnone

-- ==== common supertypes

/-- A class fits another if it is the universal object type or there is a way up to it. -/
theorem assignable_ref_iff {x y : String} :
    T.assignable (.ref x) (.ref y) = true ↔ .ref y = T.object ∨ ∃ n, T.Way (.ref x) n (.ref y) := by
  rw [assignable_iff]
  constructor
  · intro h
    cases h with
    | refl => exact .inr ⟨0, .refl⟩
    | object => exact .inl rfl
    | nominal _ _ hreach => exact .inr (exists_way hreach)
  · rintro (hobject | ⟨n, hway⟩)
    · rw [hobject]
      exact .object rfl nofun
    · exact .nominal rfl rfl hway.reaches

theorem commonSupertype_ref (T : TypeTable) (x y : String) :
    T.commonSupertype (.ref x) (.ref y)
      = if x = y then .ref x else T.nearest (.ref x) (.ref y) := by
  unfold commonSupertype
  simp only [Ty.ref.injEq]
  rfl

/-- From a type there is a way to another that is shorter than every way through a third. -/
def Shortcut (T : TypeTable) (a through b : Ty) : Prop :=
  ∃ i, T.Way a i b ∧ ∀ m n, T.Way a m through → T.Way through n b → i < m + n

/-- All ways from a type to another have one length. -/
def Even (T : TypeTable) (a b : Ty) : Prop :=
  ∀ m n, T.Way a m b → T.Way a n b → m = n

theorem Even.not_shortcut (h : T.Even a b) (hm : T.Way a m c) (hn : T.Way c n b) :
    ¬ T.Shortcut a c b := by
  rintro ⟨i, hi, hless⟩
  have hlt := hless m n hm hn
  have heq := h i (m + n) hi (hm.trans hn)
  omega

/-- Two classes have a common supertype that no other is nearer than, unless the universal
object type is the only one. -/
theorem commonSupertype_cases (T : TypeTable) (x y : String) :
    T.commonSupertype (.ref x) (.ref y) = T.object ∧
        (∀ t m n, T.Way (.ref x) m t → T.Way (.ref y) n t → t = T.object) ∨
      ∃ i j, T.Way (.ref x) i (T.commonSupertype (.ref x) (.ref y)) ∧
        T.Way (.ref y) j (T.commonSupertype (.ref x) (.ref y)) ∧
        (x = y ∨ T.commonSupertype (.ref x) (.ref y) ≠ T.object) ∧
        ∀ t m n, t ≠ T.object → T.Way (.ref x) m t → T.Way (.ref y) n t → i + j ≤ m + n := by
  rw [commonSupertype_ref]
  split
  · next heq =>
    subst heq
    exact .inr ⟨0, 0, .refl, .refl, .inl rfl, fun _ m n _ _ _ => Nat.zero_le _⟩
  · rcases nearest_cases T (.ref x) (.ref y) with h | ⟨i, j, hi, hj, hne, hleast⟩
    · exact .inl h
    · exact .inr ⟨i, j, hi, hj, .inr hne, hleast⟩

section Least

variable (hreferences : ∀ t, ∀ u ∈ T.supertypes t, ∃ name, u = .ref name)
  (hobject : T.supertypes T.object = [])

include hobject in
theorem Way.eq_object (h : T.Way T.object n a) : a = T.object := by
  induction h with
  | refl => rfl
  | tail _ hup ih =>
    have hmem := hup.2
    rw [ih, hobject] at hmem
    cases hmem

include hreferences in
theorem Way.exists_ref {x : String} (h : T.Way (.ref x) n a) : ∃ name, a = .ref name := by
  cases h with
  | refl => exact ⟨x, rfl⟩
  | tail _ hup => exact hreferences _ a hup.2

include hreferences in
private theorem exists_ref_commonSupertype (x y : String) :
    ∃ z, T.commonSupertype (.ref x) (.ref y) = .ref z := by
  rcases commonSupertype_cases T x y with ⟨heq, -⟩ | ⟨i, j, hi, -⟩
  · exact ⟨T.objectClass, heq⟩
  · exact hi.exists_ref hreferences

include hobject in
/-- A common supertype below the chosen one lies on a way there from both classes. -/
theorem ways_of_below {x y z d : String}
    (hz : T.commonSupertype (.ref x) (.ref y) = .ref z) (hne : Ty.ref d ≠ .ref z)
    (hx : T.assignable (.ref x) (.ref d) = true) (hy : T.assignable (.ref y) (.ref d) = true)
    (hbelow : T.assignable (.ref d) (.ref z) = true) :
    .ref d ≠ T.object ∧ ∃ m n k, T.Way (.ref x) m (.ref d) ∧ T.Way (.ref y) n (.ref d) ∧
      T.Way (.ref d) k (.ref z) := by
  have hd : .ref d ≠ T.object := by
    intro heq
    rcases assignable_ref_iff.mp hbelow with hobj | ⟨n, hway⟩
    · exact hne (heq.trans hobj.symm)
    · rw [heq] at hway hne
      exact hne (hway.eq_object hobject).symm
  obtain ⟨m, hm⟩ := (assignable_ref_iff.mp hx).resolve_left hd
  obtain ⟨n, hn⟩ := (assignable_ref_iff.mp hy).resolve_left hd
  refine ⟨hd, m, n, ?_⟩
  rcases assignable_ref_iff.mp hbelow with hobj | ⟨k, hk⟩
  · -- the universal object type is chosen only if there is nothing else in common
    rcases commonSupertype_cases T x y with ⟨-, honly⟩ | ⟨i, j, -, -, rfl | hnot, -⟩
    · exact absurd (honly _ m n hm hn) hd
    · rw [commonSupertype_ref, if_pos rfl] at hz
      rw [hz, hobj] at hm
      exact absurd (hm.eq_object hobject) hd
    · exact absurd (hz.trans hobj) hnot
  · exact ⟨k, hm, hn, hk⟩

private theorem exists_ways_of_not_shortcut (h : ¬ T.Shortcut a b c) (hway : T.Way a n c) :
    ∃ m k, T.Way a m b ∧ T.Way b k c ∧ m + k ≤ n := by
  by_contra hnone
  refine h ⟨n, hway, fun m k hm hk => ?_⟩
  by_contra hle
  exact hnone ⟨m, k, hm, hk, Nat.not_lt.mp hle⟩

include hobject in
/-- A common supertype below the chosen one is passed by on a shorter way. -/
private theorem shortcut_of_below {x y z d : String}
    (hz : T.commonSupertype (.ref x) (.ref y) = .ref z) (hne : Ty.ref d ≠ .ref z)
    (hx : T.assignable (.ref x) (.ref d) = true) (hy : T.assignable (.ref y) (.ref d) = true)
    (hbelow : T.assignable (.ref d) (.ref z) = true) :
    T.Shortcut (.ref x) (.ref d) (.ref z) ∨ T.Shortcut (.ref y) (.ref d) (.ref z) := by
  obtain ⟨hd, m, n, k, hm, hn, hk⟩ := ways_of_below hobject hz hne hx hy hbelow
  rcases commonSupertype_cases T x y with ⟨-, honly⟩ | ⟨i, j, hi, hj, -, hleast⟩
  · exact absurd (honly _ m n hm hn) hd
  · rw [hz] at hi hj
    by_contra hnone
    rw [not_or] at hnone
    -- the ways to the chosen type would go through this one, which is nearer to both
    obtain ⟨m', k, hm', hk, hlex⟩ := exists_ways_of_not_shortcut hnone.1 hi
    obtain ⟨n', k', hn', -, hley⟩ := exists_ways_of_not_shortcut hnone.2 hj
    have hsum := hleast _ m' n' hd hm' hn'
    have hpos := hk.pos hne
    omega

end Least

/-- A common supertype takes values of both classes. Another that lies below it is passed
by: from one of the two there is a way to the chosen type that is shorter than every way
through the other. So if from each of the two all ways to the chosen type have one length,
it is a least one, and it is the second class if that takes values of the first. -/
theorem commonSupertype_least (hreferences : ∀ t, ∀ u ∈ T.supertypes t, ∃ name, u = .ref name)
    (hobject : T.supertypes T.object = []) (x y : String) :
    let c := T.commonSupertype (.ref x) (.ref y)
    T.assignable (.ref x) c = true ∧ T.assignable (.ref y) c = true ∧
      (∀ d, .ref d ≠ c → T.assignable (.ref x) (.ref d) = true →
        T.assignable (.ref y) (.ref d) = true → T.assignable (.ref d) c = true →
        T.Shortcut (.ref x) (.ref d) c ∨ T.Shortcut (.ref y) (.ref d) c) ∧
      (T.Even (.ref x) c → T.Even (.ref y) c →
        (∀ d, .ref d ≠ c → T.assignable (.ref x) (.ref d) = true →
          T.assignable (.ref y) (.ref d) = true → T.assignable (.ref d) c = false) ∧
        (T.assignable (.ref x) (.ref y) = true → c = .ref y)) := by
  intro c
  obtain ⟨z, hz⟩ := exists_ref_commonSupertype hreferences x y
  have hc : c = .ref z := hz
  have hbounds : T.assignable (.ref x) c = true ∧ T.assignable (.ref y) c = true := by
    rw [hc, assignable_ref_iff, assignable_ref_iff, ← hz]
    rcases commonSupertype_cases T x y with ⟨heq, -⟩ | ⟨i, j, hi, hj, -, -⟩
    · exact ⟨.inl heq, .inl heq⟩
    · exact ⟨.inr ⟨i, hi⟩, .inr ⟨j, hj⟩⟩
  rw [hc] at hbounds ⊢
  have hleast : T.Even (.ref x) (.ref z) → T.Even (.ref y) (.ref z) →
      ∀ d, Ty.ref d ≠ .ref z → T.assignable (.ref x) (.ref d) = true →
        T.assignable (.ref y) (.ref d) = true → T.assignable (.ref d) (.ref z) = false := by
    intro hevenx heveny d hne hx hy
    by_contra hbelow
    rw [Bool.not_eq_false] at hbelow
    obtain ⟨-, m, n, k, hm, hn, hk⟩ := ways_of_below hobject hz hne hx hy hbelow
    rcases shortcut_of_below hobject hz hne hx hy hbelow with hcut | hcut
    · exact hevenx.not_shortcut hm hk hcut
    · exact heveny.not_shortcut hn hk hcut
  refine ⟨hbounds.1, hbounds.2, fun d hne hx hy hbelow => ?_, fun hevenx heveny => ?_⟩
  · exact shortcut_of_below hobject hz hne hx hy hbelow
  · refine ⟨hleast hevenx heveny, fun hxy => ?_⟩
    by_contra hne
    have hself := assignable_iff.mpr (Fits.refl (T := T) (.ref y))
    have hnot := hleast hevenx heveny y (Ne.symm hne) hxy hself
    rw [hbounds.2] at hnot
    cases hnot

/-- A class three steps below another. Both name an interface of their own. -/
def relists : TypeTable :=
  (((((TypeTable.ofConfig {}).declareInterface "Sized" []).declareClass "List" none
    [.ref "Sized"]).declareClass "Sorted" (some (.ref "List")) []).declareClass "Indexed"
    (some (.ref "Sorted")) []).declareClass "Queue" (some (.ref "Indexed")) [.ref "Sized"]

private theorem supertypes_relists :
    ["Queue", "Indexed", "Sized", "Sorted", "List", "java/lang/Object"].map
        (fun name => relists.supertypes (.ref name))
      = [[.ref "Indexed", .ref "Sized"], [.ref "Sorted"], [], [.ref "List"],
          [.ref "java/lang/Object", .ref "Sized"], []] := by
  decide +kernel

private theorem ancestors_relists :
    relists.ancestors (.ref "List")
        = [(.ref "List", 0), (.ref "java/lang/Object", 1), (.ref "Sized", 1)] ∧
      relists.ancestors (.ref "Queue")
        = [(.ref "Queue", 0), (.ref "Indexed", 1), (.ref "Sized", 1), (.ref "Sorted", 2),
            (.ref "List", 3), (.ref "java/lang/Object", 4)] := by
  have hroot : relists.root = some (.ref "system/Exception") := by decide +kernel
  have hup := supertypes_relists
  simp only [List.map_cons, List.map_nil, List.cons.injEq] at hup
  constructor <;> simp [ancestors, classOf, walk, reached, steps, hroot, hup]

/-- The interface is nearer to both than the class that the other one stands below. -/
theorem commonSupertype_relists :
    relists.assignable (.ref "Queue") (.ref "List") = true ∧
      relists.assignable (.ref "List") (.ref "Sized") = true ∧
      relists.commonSupertype (.ref "Queue") (.ref "List") = .ref "Sized" := by
  obtain ⟨hlist, hqueue⟩ := ancestors_relists
  have hcandidates : relists.candidates (.ref "Queue") (.ref "List")
      = [⟨2, .ref "Sized"⟩, ⟨3, .ref "List"⟩] := by
    unfold candidates
    rw [hqueue, hlist]
    decide +kernel
  refine ⟨?_, ?_, ?_⟩
  · have hbelow : relists.below (.ref "Queue") (.ref "List") = true := by
      unfold below
      rw [hqueue]
      decide
    exact hbelow
  · have hbelow : relists.below (.ref "List") (.ref "Sized") = true := by
      unfold below
      rw [hlist]
      decide
    exact hbelow
  · rw [commonSupertype_ref, if_neg (by decide), nearest, hcandidates]
    decide +kernel

/-- A type that takes values of both classes lies below the one that is chosen, and is the
second class, which takes values of the first. -/
theorem commonSupertype_not_least : ∃ d, .ref d = Ty.ref "List" ∧
    .ref d ≠ relists.commonSupertype (.ref "Queue") (.ref "List") ∧
    relists.assignable (.ref "Queue") (.ref d) = true ∧
    relists.assignable (.ref "List") (.ref d) = true ∧
    relists.assignable (.ref d) (relists.commonSupertype (.ref "Queue") (.ref "List")) = true := by
  obtain ⟨hqueue, hsized, hcommon⟩ := commonSupertype_relists
  rw [hcommon]
  exact ⟨"List", rfl, by decide, hqueue, assignable_iff.mpr (.refl _), hsized⟩

/-- The interface is reached from the lower class on a shortcut past the upper one. -/
theorem commonSupertype_least_relists :
    relists.Shortcut (.ref "Queue") (.ref "List") (.ref "Sized") ∨
      relists.Shortcut (.ref "List") (.ref "List") (.ref "Sized") := by
  have hreferences : ∀ t, ∀ u ∈ relists.supertypes t, ∃ name, u = .ref name :=
    forall_supertypes
      (by simp [relists, declareClass, declareInterface, declare, ofConfig, object])
  obtain ⟨hqueue, hsized, hcommon⟩ := commonSupertype_relists
  obtain ⟨-, -, hbelow, -⟩ :=
    commonSupertype_least hreferences (by decide +kernel) "Queue" "List"
  rw [hcommon] at hbelow
  exact hbelow "List" (by decide) hqueue (assignable_iff.mpr (.refl _)) hsized

end BytecodeBridge.TypeTable
