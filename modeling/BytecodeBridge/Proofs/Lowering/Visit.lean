/-
A run, seen from one of its operations.

What a statement about one operation of a body needs of a successful run is
always the same: the state in which the operation is reached, the one in
which it is entered, and the one it leaves, with steps from the start of
the run up to them and on to its end. `Visit` names them once, and
`exists_visit` finds them. Where one operation falls through to another the
second is reached in the state the first leaves (`Visit.next`), so what goes
on from one operation to the next can be followed along the code
(`Visit.reached_induction`).
-/
import BytecodeBridge.Proofs.Lowering.Execution

namespace BytecodeBridge

-- ==== operations in order

namespace Body

/-- The operations in front of an offset. -/
def before (body : Body) (offset : Nat) : List (Nat × Op) :=
  body.code.takeWhile fun e => e.1 != offset

variable {body : Body} {pre mid post : List (Nat × Op)} {e d : Nat × Op}

theorem before_eq (hcode : body.code = pre ++ e :: post) (hpre : ∀ d ∈ pre, d.1 < e.1) :
    body.before e.1 = pre := by
  unfold before
  rw [hcode, List.takeWhile_append_of_pos, List.takeWhile_cons_of_neg, List.append_nil]
  · simp
  · exact fun d hd => bne_iff_ne.mpr (Nat.ne_of_lt (hpre d hd))

theorem followingIn_append {o : Nat} {op : Op} (h : ∀ e ∈ pre, e.1 ≠ o) :
    followingIn o (pre ++ (o, op) :: post) = post.head?.map Prod.fst := by
  induction pre with
  | nil =>
    show (if o = o then _ else _) = _
    rw [if_pos rfl]
  | cons e pre ih =>
    show (if e.1 = o then _ else _) = _
    rw [if_neg (h e List.mem_cons_self)]
    exact ih fun d hd => h d (.tail _ hd)

theorem following_eq (hcode : body.code = pre ++ e :: post) (hpre : ∀ d ∈ pre, d.1 < e.1) :
    body.following e.1 = post.head?.map Prod.fst := by
  unfold following
  rw [hcode]
  exact followingIn_append fun d hd => Nat.ne_of_lt (hpre d hd)

variable (hordered : body.code.Pairwise fun a b => a.1 < b.1)
include hordered

/-- An operation splits code in ascending order: the rest lies behind it. -/
theorem exists_after (he : e ∈ body.code) :
    ∃ post, body.code = body.before e.1 ++ e :: post ∧ (∀ d ∈ body.before e.1, d.1 < e.1) ∧
      ∀ d ∈ post, e.1 < d.1 := by
  obtain ⟨pre, post, hcode⟩ := List.append_of_mem he
  rw [hcode] at hordered
  obtain ⟨-, hpost, hpre⟩ := List.pairwise_append.mp hordered
  have hlt := fun d hd => hpre d hd _ (.head _)
  rw [before_eq hcode hlt]
  exact ⟨post, hcode, hlt, (List.pairwise_cons.mp hpost).1⟩

theorem before_of_after (hcode : body.code = body.before e.1 ++ e :: (mid ++ d :: post)) :
    body.before d.1 = body.before e.1 ++ e :: mid := by
  have hsplit : body.code = (body.before e.1 ++ e :: mid) ++ d :: post := by
    rw [List.append_assoc]
    exact hcode
  rw [hsplit] at hordered
  exact before_eq hsplit fun c hc =>
    (List.pairwise_append.mp hordered).2.2 c hc d (.head _)

/-- An operation in front of another one splits what lies in front of that. -/
theorem exists_between (he : e ∈ body.code) (hd : d ∈ body.code) (hlt : e.1 < d.1) :
    ∃ mid, body.before d.1 = body.before e.1 ++ e :: mid := by
  obtain ⟨post, hcode, hbefore, -⟩ := exists_after hordered he
  have hpost : d ∈ post := by
    rw [hcode] at hd
    rcases List.mem_append.mp hd with hd | hd
    · exact absurd (hbefore d hd) (Nat.lt_asymm hlt)
    · rcases List.mem_cons.mp hd with rfl | hd
      · exact absurd hlt (Nat.lt_irrefl _)
      · exact hd
  obtain ⟨mid, rest, rfl⟩ := List.append_of_mem hpost
  exact ⟨mid, before_of_after hordered hcode⟩

/-- The next operation is right behind an operation, with none between the two. -/
theorem following_spec (he : e ∈ body.code) {o : Nat} (hnext : body.following e.1 = some o) :
    e.1 < o ∧ (∀ d ∈ body.code, d.1 ≤ e.1 ∨ o ≤ d.1) ∧ body.before o = body.before e.1 ++ [e] := by
  obtain ⟨post, hcode, hbefore, hbehind⟩ := exists_after hordered he
  rw [following_eq hcode hbefore] at hnext
  cases post with
  | nil => cases hnext
  | cons c post =>
    cases hnext
    refine ⟨hbehind c (.head _), fun d hd => ?_, before_of_after hordered hcode⟩
    rw [hcode] at hordered hd
    simp only [List.mem_append, List.mem_cons] at hd
    rcases hd with hd | rfl | rfl | hd
    · exact .inl (Nat.le_of_lt (hbefore d hd))
    · exact .inl (Nat.le_refl _)
    · exact .inr (Nat.le_refl _)
    · have hpost := (List.pairwise_cons.mp (List.pairwise_append.mp hordered).2.1).2
      exact .inr (Nat.le_of_lt ((List.pairwise_cons.mp hpost).1 d hd))

/-- An operation is the first, or the next after another. -/
theorem exists_previous {e : Nat × Op} (he : e ∈ body.code) :
    (body.before e.1 = [] ∧ ∀ d ∈ body.code, e.1 ≤ d.1) ∨
      ∃ d ∈ body.code, body.following d.1 = some e.1 := by
  obtain ⟨post, hcode, -, hbehind⟩ := exists_after hordered he
  rcases List.eq_nil_or_concat (body.before e.1) with hnil | ⟨pre, d, hpre⟩
  · refine .inl ⟨hnil, fun d hd => ?_⟩
    rw [hcode, hnil] at hd
    rcases List.mem_cons.mp hd with rfl | hd
    · exact Nat.le_refl _
    · exact Nat.le_of_lt (hbehind d hd)
  · have hsplit : body.code = pre ++ d :: e :: post := by
      rw [hcode, hpre]
      simp
    rw [hsplit] at hordered
    obtain ⟨-, -, hlt⟩ := List.pairwise_append.mp hordered
    refine .inr ⟨d, ?_, ?_⟩
    · rw [hsplit]
      exact List.mem_append_right _ (.head _)
    · exact following_eq hsplit fun c hc => hlt c hc d (.head _)

end Body

namespace Lowering

open LowerM

variable {cx : Context} {s s' : LowerState}

/-- The state in which the operation at an offset is lowered: everything before it is, and
its label is entered. -/
def entered? (config : Config) (T : TypeTable) (pool : Pool) (body : Body) (offset : Nat) :
    Option LowerState :=
  match prepare config T body (initial pool body) with
  | .error _ _ => none
  | .ok cx start =>
    match ((body.before offset).forM fun (o, op) => lowerAt o op) cx start with
    | .error _ _ => none
    | .ok _ before =>
      match enter offset (cx.atOffset offset) before with
      | .error _ _ => none
      | .ok _ entry => some entry

/-- The state in which all operations are lowered. -/
def completed? (config : Config) (T : TypeTable) (pool : Pool) (body : Body) :
    Option LowerState :=
  match prepare config T body (initial pool body) with
  | .error _ _ => none
  | .ok cx start =>
    match lowerAll body.code cx start with
    | .error _ _ => none
    | .ok _ final => some final

theorem forM_append_ok {pre post : List (Nat × Op)} {a : Unit}
    (h : ((pre ++ post).forM fun (o, op) => lowerAt o op) cx s = .ok a s') :
    ∃ t, (pre.forM fun (o, op) => lowerAt o op) cx s = .ok () t ∧
      (post.forM fun (o, op) => lowerAt o op) cx t = .ok a s' := by
  induction pre generalizing s with
  | nil => exact ⟨s, rfl, h⟩
  | cons e pre ih =>
    obtain ⟨o, op⟩ := e
    obtain ⟨_, t, hfirst, h⟩ := lower_bind_ok h
    obtain ⟨u, hpre, hpost⟩ := ih h
    exact ⟨u, (state_ok_bind hfirst).trans hpre, hpost⟩

/-- A successful run, seen from one of its operations. -/
structure Visit (config : Config) (T : TypeTable) (pool : Pool) (body : Body) (e : Nat × Op)
    (cx : Context) (start before entry after final : LowerState) : Prop where
  prepared : prepare config T body (initial pool body) = .ok cx start
  reached : ((body.before e.1).forM fun (o, op) => lowerAt o op) cx start = .ok () before
  enters : enter e.1 (cx.atOffset e.1) before = .ok () entry
  lowers : lowerOp e.1 e.2 (cx.atOffset e.1) entry = .ok () after
  rest : ∃ post : List (Nat × Op), (∀ d ∈ post, d ∈ body.code) ∧
    (post.forM fun (o, op) => lowerAt o op) cx after = .ok () final
  completed : lowerAll body.code cx start = .ok () final

section Visits

variable {config : Config} {T : TypeTable} {pool : Pool} {body : Body} {m : Method}
  {e d : Nat × Op} {start before entry after final : LowerState}

theorem exists_visit_of_lowered
    (hprepare : prepare config T body (initial pool body) = .ok cx start)
    (hlower : lowerAll body.code cx start = .ok () final)
    (hordered : body.code.Pairwise fun a b => a.1 < b.1) (he : e ∈ body.code) :
    ∃ before entry after, Visit config T pool body e cx start before entry after final := by
  obtain ⟨post, hsplit, -⟩ := Body.exists_after hordered he
  obtain ⟨hcode, -⟩ := lowerAll_ok hlower
  rw [hsplit] at hcode
  obtain ⟨before, hreached, hcode⟩ := forM_append_ok hcode
  obtain ⟨_, after, hat, hrest⟩ := lower_bind_ok hcode
  obtain ⟨entry, henters, hlowers⟩ := lowerAt_ok hat
  refine ⟨before, entry, after, hprepare, hreached, henters, hlowers, ⟨post, fun d hd => ?_, hrest⟩,
    hlower⟩
  rw [hsplit]
  exact List.mem_append_right _ (List.mem_cons_of_mem _ hd)

theorem exists_visit (h : (lowerMethod config T pool body).result = .ok m)
    (hordered : body.code.Pairwise fun a b => a.1 < b.1) (he : e ∈ body.code) :
    ∃ cx start before entry after final,
      Visit config T pool body e cx start before entry after final ∧
      ∃ s, finish body.targetName cx final = .ok m s := by
  obtain ⟨cx, start, final, s, hprepare, hlower, hfinish⟩ := run_ok h
  obtain ⟨before, entry, after, hvisit⟩ := exists_visit_of_lowered hprepare hlower hordered he
  exact ⟨cx, start, before, entry, after, final, hvisit, s, hfinish⟩

namespace Visit

variable (h : Visit config T pool body e cx start before entry after final)
include h

theorem entered : entered? config T pool body e.1 = some entry := by
  simp only [entered?, h.prepared, h.reached, h.enters]

theorem completes : Lowering.completed? config T pool body = some final := by
  simp only [Lowering.completed?, h.prepared, h.completed]

theorem started : cx.types = T ∧ cx.body = body ∧ Started cx start :=
  (prepare_ok h.prepared).2

theorem ready : Prepared (cx.atOffset e.1) :=
  h.started.2.2.prepared.atOffset e.1

theorem stepsReached : ∃ p, CodeSteps cx (body.before e.1) (start, []) (before, p) := by
  obtain ⟨-, rfl, hstarted⟩ := h.started
  exact codeSteps_of_forM hstarted.prepared (List.takeWhile_subset _) hstarted.backed h.reached []

theorem stepsBefore : ∃ p, CodeSteps cx body.code (start, []) (before, p) := by
  obtain ⟨p, hsteps⟩ := h.stepsReached
  exact ⟨p, hsteps.mono (List.takeWhile_subset _)⟩

/-- What is lowered behind an operation starts where the operation leaves off. -/
theorem leaves {post : List (Nat × Op)} (hrun : ((body.before e.1 ++ e :: post).forM fun (o, op) =>
    lowerAt o op) cx start = .ok () s) :
    (post.forM fun (o, op) => lowerAt o op) cx after = .ok () s := by
  obtain ⟨t, hreached, hcode⟩ := forM_append_ok hrun
  cases h.reached.symm.trans hreached
  obtain ⟨_, u, hat, hrest⟩ := lower_bind_ok hcode
  obtain ⟨v, henters, hlowers⟩ := lowerAt_ok hat
  cases h.enters.symm.trans henters
  cases h.lowers.symm.trans hlowers
  exact hrest

/-- Without handlers, an operation is entered by arriving at its label. -/
theorem arrival (hnone : body.handlers = []) : Arrival (cx.atOffset e.1) before entry := by
  obtain ⟨-, rfl, hstarted⟩ := h.started
  have hregions := hstarted.noRegions hnone
  have hhandler : (cx.atOffset e.1).regions.handlerAt? (cx.atOffset e.1).current = none :=
    RegionTree.handlerAt?_of_nil hregions e.1
  have hstarting : (cx.atOffset e.1).regions.startingAt e.1 = [] :=
    RegionTree.startingAt_of_nil hregions e.1
  have henters : arrive (cx.atOffset e.1) (cx.atOffset e.1) before = .ok () entry :=
    (congrFun (enter_of_no_handler hhandler) before).symm.trans h.enters
  obtain ⟨bound, harrive, hsaves⟩ := arrive_ok henters
  change HandlerSaves _ ((cx.atOffset e.1).regions.startingAt e.1) bound entry at hsaves
  rw [hstarting] at hsaves
  cases hsaves
  exact harrive

theorem backed : Backed cx .all before := by
  obtain ⟨p, hsteps⟩ := h.stepsBefore
  exact .codeSteps h.started.2.2.backed hsteps

theorem stepsEnterIn {scope : Scope} (henters : Enters (cx.atOffset e.1) scope)
    (hback : Backed cx scope before) (p : List Label) :
    ∃ q, StepsIn (cx.atOffset e.1) scope (before, p) (entry, q) :=
  (runs_enter h.ready henters before _ entry p (backed_atOffset.mpr hback) trivial h.enters).1

theorem stepsEnter (p : List Label) : ∃ q, Steps (cx.atOffset e.1) (before, p) (entry, q) :=
  h.stepsEnterIn (enters_all _) h.backed p

theorem stepsEntry (he : e ∈ body.code) : ∃ p, CodeSteps cx body.code (start, []) (entry, p) := by
  obtain ⟨p, hbefore⟩ := h.stepsBefore
  obtain ⟨q, henters⟩ := h.stepsEnter p
  exact ⟨q, hbefore.trans (CodeSteps.of_steps he henters)⟩

theorem backedEntry : Backed cx .all entry := by
  obtain ⟨p, hsteps⟩ := h.stepsEnter []
  exact backed_atOffset.mp ((backed_atOffset.mpr h.backed).steps hsteps)

theorem stepsLowerIn {scope : Scope} (he : e ∈ body.code)
    (hadmits : Admits (cx.atOffset e.1) scope e.2) (hback : Backed cx scope entry)
    (p : List Label) : ∃ q, StepsIn (cx.atOffset e.1) scope (entry, p) (after, q) := by
  have hready := h.ready
  obtain ⟨-, rfl, -⟩ := h.started
  exact (runs_lowerOp hready he hadmits entry _ after p (backed_atOffset.mpr hback) trivial
    h.lowers).1

theorem stepsOf (he : e ∈ body.code) {post : List (Nat × Op)} (hpost : post ⊆ body.code)
    (hrun : (post.forM fun (o, op) => lowerAt o op) cx after = .ok () s) (p : List Label) :
    ∃ q, CodeSteps cx post (after, p) (s, q) := by
  obtain ⟨_, hsteps⟩ := h.stepsLowerIn he (admits_all _ e.2) h.backedEntry []
  have hback := (backed_atOffset.mpr h.backedEntry).steps hsteps
  obtain ⟨-, rfl, hstarted⟩ := h.started
  exact codeSteps_of_forM hstarted.prepared hpost (backed_atOffset.mp hback) hrun p

theorem stepsLower (he : e ∈ body.code) (p : List Label) :
    ∃ q r, Steps (cx.atOffset e.1) (entry, p) (after, q) ∧
      CodeSteps cx body.code (after, q) (final, r) := by
  obtain ⟨q, hsteps⟩ := h.stepsLowerIn he (admits_all _ e.2) h.backedEntry p
  obtain ⟨post, hpost, hrest⟩ := h.rest
  obtain ⟨r, hfinal⟩ := h.stepsOf he hpost hrest q
  exact ⟨q, r, hsteps, hfinal.mono hpost⟩

theorem stepsFinal (he : e ∈ body.code) (p : List Label) :
    ∃ q, CodeSteps cx body.code (entry, p) (final, q) := by
  obtain ⟨q, r, hlowers, hfinal⟩ := h.stepsLower he p
  exact ⟨r, (CodeSteps.of_steps he hlowers).trans hfinal⟩

/-- The steps of a run, with the states of one operation among them. -/
theorem stepsThrough (he : e ∈ body.code) :
    ∃ p q r t, CodeSteps cx body.code (start, []) (before, p) ∧
      Steps (cx.atOffset e.1) (before, p) (entry, q) ∧
      Steps (cx.atOffset e.1) (entry, q) (after, r) ∧
      CodeSteps cx body.code (after, r) (final, t) := by
  obtain ⟨p, hbefore⟩ := h.stepsBefore
  obtain ⟨q, henters⟩ := h.stepsEnter p
  obtain ⟨r, t, hlowers, hfinal⟩ := h.stepsLower he q
  exact ⟨p, q, r, t, hbefore, henters, hlowers, hfinal⟩

variable (hordered : body.code.Pairwise fun a b => a.1 < b.1)
include hordered

theorem behind (he : e ∈ body.code) :
    ∃ post : List (Nat × Op), body.code = body.before e.1 ++ e :: post ∧ (∀ d ∈ post, e.1 < d.1) ∧
      (post.forM fun (o, op) => lowerAt o op) cx after = .ok () final := by
  obtain ⟨post, hsplit, -, hpost⟩ := Body.exists_after hordered he
  obtain ⟨hcode, -⟩ := lowerAll_ok h.completed
  rw [hsplit] at hcode
  exact ⟨post, hsplit, hpost, h.leaves hcode⟩

theorem stepsBehind (he : e ∈ body.code) (p : List Label) :
    ∃ post q, (∀ d ∈ post, e.1 < d.1) ∧ CodeSteps cx post (after, p) (final, q) := by
  obtain ⟨post, hcode, hlater, hrest⟩ := h.behind hordered he
  obtain ⟨q, hsteps⟩ := h.stepsOf he (fun d hd => hcode ▸ by simp [hd]) hrest p
  exact ⟨post, q, hlater, hsteps⟩

theorem exists_other (hd : d ∈ body.code) :
    ∃ before entry after, Visit config T pool body d cx start before entry after final :=
  exists_visit_of_lowered h.prepared h.completed hordered hd

variable {before' entry' after' : LowerState}
  (h' : Visit config T pool body d cx start before' entry' after' final) (he : e ∈ body.code)
include h' he

theorem next (hnext : body.following e.1 = some d.1) : before' = after := by
  have hreached := h'.reached
  rw [(Body.following_spec hordered he hnext).2.2] at hreached
  cases h.leaves hreached
  rfl

theorem stepsBetween (hd : d ∈ body.code) (hlt : e.1 < d.1) :
    ∃ p, CodeSteps cx body.code (after, []) (before', p) := by
  obtain ⟨mid, hmid⟩ := Body.exists_between hordered he hd hlt
  have hin : mid ⊆ body.code := fun c hc =>
    List.takeWhile_subset _ (show c ∈ body.before d.1 by simp [hmid, hc])
  have hreached := h'.reached
  rw [hmid] at hreached
  obtain ⟨p, hsteps⟩ := h.stepsOf he hin (h.leaves hreached) []
  exact ⟨p, hsteps.mono hin⟩

end Visit

/-- What holds where the first operation is reached, and from one operation to the next,
holds where any operation is reached. -/
theorem Visit.reached_induction
    (h : Visit config T pool body e cx start before entry after final)
    (hordered : body.code.Pairwise fun a b => a.1 < b.1) (he : e ∈ body.code)
    {I : Nat → LowerState → Prop}
    (hfirst : ∀ d ∈ body.code, (∀ c ∈ body.code, d.1 ≤ c.1) → I d.1 start)
    (hnext : ∀ d ∈ body.code, ∀ before entry after,
      Visit config T pool body d cx start before entry after final → I d.1 before →
      ∀ o, body.following d.1 = some o → I o after) : I e.1 before := by
  induction hn : e.1 using Nat.strongRecOn generalizing e before entry after with
  | _ n ih =>
    subst hn
    rcases Body.exists_previous hordered he with ⟨hnil, hle⟩ | ⟨d, hd, hfollowing⟩
    · have hreached := h.reached
      rw [hnil] at hreached
      cases hreached
      exact hfirst e he hle
    · obtain ⟨before', entry', after', h'⟩ := h.exists_other hordered hd
      cases h'.next hordered h hd hfollowing
      have hlt := (Body.following_spec hordered hd hfollowing).1
      exact hnext d hd before' entry' before h' (ih d.1 hlt h' hd rfl) e.1 hfollowing

end Visits

end Lowering

end BytecodeBridge
