/-
Ends of final clauses, in a run.

A clause may have several ends. Each of them is code that throws what the
clause was entered with or, if that is a sentinel, goes to the label that
resumes the leave with its index (`endFinally_resumes_leave`). The code at
those labels is emitted by one end only, the first that is lowered: before
it, no leave of the region is resumed, since neither other operations nor
handlers do that (`Visit.not_mem_resumed`).
-/
import BytecodeBridge.Proofs.Lowering.Dispatch

namespace BytecodeBridge.Lowering

open LowerM Objects

variable {cx : Context} {r : Nat}

/-- A region has one final clause. -/
private theorem eq_of_finalClauseAt {tree : RegionTree} (hlam : Laminar tree.regions) {o o' : Nat}
    {site site' : ClauseSite} (h : tree.finalClauseAt o = .ok site)
    (h' : tree.finalClauseAt o' = .ok site') (hindex : site'.regionIndex = site.regionIndex) :
    site'.region = site.region ∧ site'.clause = site.clause := by
  have hfinds := RegionTree.finds_finalClauseAt hlam o
  have hfinds' := RegionTree.finds_finalClauseAt hlam o'
  rw [h] at hfinds
  rw [h'] at hfinds'
  obtain ⟨⟨hregion, hclause⟩, hfinal, -⟩ := hfinds
  obtain ⟨⟨hregion', hclause'⟩, hfinal', -⟩ := hfinds'
  have hsame : site'.region = site.region :=
    Option.some.inj (hregion'.symm.trans (hindex ▸ hregion))
  rw [hsame] at hclause'
  have hsound := hlam.sound _ (List.mem_of_getElem? hregion)
  have hlast := hsound.getLast?_of_isFinal (List.mem_of_getElem? hclause)
    (Bool.and_eq_true_iff.mp hfinal).1
  have hlast' := hsound.getLast?_of_isFinal (List.mem_of_getElem? hclause')
    (Bool.and_eq_true_iff.mp hfinal').1
  exact ⟨hsame, Option.some.inj (hlast'.symm.trans hlast)⟩

-- ==== the first end

/-- An operation that ends the final clause of a region. -/
def EndsRegion (cx : Context) (r : Nat) (e : Nat × Op) : Prop :=
  e.2 = .endFinally ∧ ∃ site, cx.regions.finalClauseAt e.1 = .ok site ∧ site.regionIndex = r

private theorem exists_first_end {code : List (Nat × Op)} {e : Nat × Op} (he : e ∈ code)
    (hends : EndsRegion cx r e) :
    ∃ d ∈ code, EndsRegion cx r d ∧ ∀ c ∈ code, c.1 < d.1 → ¬ EndsRegion cx r c := by
  classical
  have hsome : ∃ o, ∃ d ∈ code, d.1 = o ∧ EndsRegion cx r d := ⟨e.1, e, he, rfl, hends⟩
  obtain ⟨d, hd, hoffset, hfirst⟩ := Nat.find_spec hsome
  refine ⟨d, hd, hfirst, fun c hc hlt hc' => ?_⟩
  exact Nat.find_min hsome (hoffset ▸ hlt) ⟨c, hc, rfl, hc'⟩

/-- The scope in which no leave of a region is resumed. -/
def Scope.sparing (r : Nat) : Scope :=
  { Scope.all with resumes := (· ≠ r) }

theorem Backed.sparing {s : LowerState} (h : Backed cx .all s) : Backed cx (.sparing r) s :=
  ⟨h.kept, h.fits, h.made, h.thin, h.slender, fun _ _ _ => trivial, fun _ _ _ => trivial⟩

private theorem enters_sparing : Enters cx (.sparing r) where
  source := ⟨trivial, trivial⟩
  handler _ _ := ⟨⟨trivial, trivial⟩, fun _ => ⟨trivial, trivial⟩, fun _ _ _ _ => trivial, trivial⟩
  starts _ _ := trivial

private theorem admits_sparing {op : Op} (h : ¬ EndsRegion cx r (cx.current, op)) :
    Admits cx (.sparing r) op where
  stores _ _ := trivial
  calls _ _ _ _ := trivial
  targets _ _ := trivial
  falls _ _ _ _ := trivial
  leaves _ _ := ⟨fun _ => trivial, fun _ _ _ _ => trivial, trivial⟩
  finals hop site hsite :=
    ⟨fun hr => h ⟨hop, site, hsite, hr⟩,
      fun _ _ => ⟨fun _ => trivial, fun _ _ _ _ => trivial, trivial⟩⟩
  filters _ _ _ := ⟨trivial, trivial, ⟨trivial, trivial⟩, trivial⟩
  turns _ := trivial

theorem StepIn.not_mem_resumed {a b : Stage} (h : StepIn cx (.sparing r) a b)
    (ha : r ∉ a.1.resumed) : r ∉ b.1.resumed := by
  cases h with
  | resumed q hq =>
    intro hmem
    rcases List.mem_cons.mp hmem with rfl | hmem
    · exact hq rfl
    · exact ha hmem
  | change hchange htold =>
    have hmade := htold.mends.made
    cases hchange with
    | put | replace => exact hmade.2 ▸ ha
  | repair hrepair => exact hrepair.mends.made.2 ▸ ha
  | save _ _ hsave | bindNew _ _ _ hsave => exact hsave.mends.made.2 ▸ ha
  | _ => exact ha

theorem StepsIn.not_mem_resumed {a b : Stage} (h : StepsIn cx (.sparing r) a b)
    (ha : r ∉ a.1.resumed) : r ∉ b.1.resumed := by
  induction h with
  | refl => exact ha
  | tail _ hstep ih => exact hstep.not_mem_resumed ih

-- ==== executions

section Executions

variable {Obj : Type} {rt : Runtime Obj} {site : ClauseSite} {first : Bool} {q : Pool}
  {front block pre post : List Item} {code : CodeBuffer} {asm : Assembly} {label : Label} {x : Obj}
  {vs : List (Value Obj)} {locals : Nat → Option (Value Obj)} {calls : List (Call Obj)}

/-- The end of a finally clause with leaves to resume tells sentinels from exceptions. -/
theorem Ending.resuming (h : Ending cx rt site first q block) (hkind : site.clause.kind = .cleanup)
    {i : Nat} (hi : i < site.region.leaveTargets.length) :
    Resuming cx rt site.regionIndex site.region site.clause first q block := by
  rw [Ending, if_neg] at h
  · exact h
  · rintro (hfault | hnil)
    · cases hkind.symm.trans hfault
    · rw [hnil] at hi
      cases hi

/-- The end of a fault clause throws what the clause was entered with, and that of a
finally clause does so unless it is a sentinel. -/
theorem Ending.leads_throw (h : Ending cx rt site first q block) (hasm : code.assemble = .ok asm)
    (hitems : code.items = pre ++ (.bind label :: (front ++ block) ++ post))
    (hfront : ∀ rest, exit? cx.config rt q (front ++ rest) ⟨vs, locals, calls⟩
      = exit? cx.config rt q rest ⟨[.object x], locals, calls⟩)
    (hthrown : site.clause.kind = .fault ∨
      rt.isInstance x cx.config.leaveSentinel.owner = false) :
    LeadsTo cx.config rt q asm label ⟨vs, locals, calls⟩ (.throws x calls) := by
  unfold Ending at h
  split at h
  · subst h
    exact leads_of_exit hasm hitems ((hfront _).trans exit?_athrow)
  · next hresumes =>
    obtain ⟨selected, test, back, rfl, htest, -⟩ := h
    have hplace : code.items = pre ++ (.bind label :: (front ++ test)
        ++ (.bind selected :: back ++ post)) := by simpa using hitems
    refine leads_of_exit hasm hplace ?_
    rw [hfront, htest, hthrown.resolve_left fun hfault => hresumes (.inl hfault)]
    rfl

/-- The end of a finally clause goes to the label that resumes the leave with the index
in a sentinel. -/
theorem Ending.leads_resume (h : Ending cx rt site first q block) (hasm : code.assemble = .ok asm)
    (hitems : code.items = pre ++ (.bind label :: (front ++ block) ++ post))
    (hfront : ∀ rest, exit? cx.config rt q (front ++ rest) ⟨vs, locals, calls⟩
      = exit? cx.config rt q rest ⟨[.object x], locals, calls⟩)
    (hkind : site.clause.kind = .cleanup)
    (hsentinel : rt.isInstance x cx.config.leaveSentinel.owner = true) {i : Nat}
    (hi : i < site.region.leaveTargets.length) (hindex : (rt.index x).toInt = i) :
    LeadsTo cx.config rt q asm label ⟨vs, locals, calls⟩
      (.arrives (.resume site.regionIndex i)
        ⟨[], locals, calls ++ site.region.indexCalls x⟩) := by
  obtain ⟨selected, test, back, rfl, htest, hselecting⟩ := h.resuming hkind hi
  have htested : LeadsTo cx.config rt q asm label ⟨vs, locals, calls⟩
      (.arrives selected ⟨[.object x], locals, calls⟩) := by
    have hplace : code.items = pre ++ (.bind label :: (front ++ test)
        ++ (.bind selected :: back ++ post)) := by simpa using hitems
    refine leads_of_exit hasm hplace ?_
    rw [hfront, htest, hsentinel]
    rfl
  have hplace : code.items = (pre ++ .bind label :: (front ++ test))
      ++ (.bind selected :: back ++ post) := by simpa using hitems
  exact htested.trans (leads_of_exit hasm hplace
    (hselecting.selects x locals calls i hsentinel hi hindex))

/-- The first end of a finally clause has the code of every leave that is resumed. -/
theorem Ending.exists_resumption (h : Ending cx rt site true q block)
    (hitems : code.items = pre ++ (.bind label :: (front ++ block) ++ post))
    (hkind : site.clause.kind = .cleanup) {i target : Nat}
    (hi : site.region.leaveTargets[i]? = some target) :
    ∃ before leave behind,
      code.items = before ++ (.bind (.resume site.regionIndex i) :: leave ++ behind) ∧
      Resumes cx rt site.clause q (target, i) leave := by
  obtain ⟨selected, test, back, rfl, -, hselecting⟩ :=
    h.resuming hkind (List.getElem?_eq_some_iff.mp hi).1
  obtain ⟨above, leave, below, rfl, hleave⟩ := hselecting.resumes rfl (target, i)
    (List.mk_mem_zipIdx_iff_getElem?.mpr hi)
  refine ⟨pre ++ .bind label :: (front ++ (test ++ .bind selected :: above)), leave, below ++ post,
    ?_, hleave⟩
  simpa using hitems

end Executions

-- ==== in a run

section Visits

variable {config : Config} {T : TypeTable} {pool : Pool} {body : Body} {m : Method}
  {e : Nat × Op} {start before entry after final s : LowerState}

/-- The first end of a final clause is entered before leaves of its region are resumed. -/
theorem Visit.not_mem_resumed (h : Visit config T pool body e cx start before entry after final)
    (hordered : body.code.Pairwise fun a b => a.1 < b.1) (he : e ∈ body.code)
    (hfirst : ∀ d ∈ body.code, d.1 < e.1 → ¬ EndsRegion cx r d) : r ∉ entry.resumed := by
  have henters : ∀ {d before entry after},
      Visit config T pool body d cx start before entry after final → r ∉ before.resumed →
      r ∉ entry.resumed := fun hd hbefore => by
    obtain ⟨_, hsteps⟩ := hd.stepsEnterIn enters_sparing hd.backed.sparing []
    exact StepsIn.not_mem_resumed hsteps hbefore
  refine henters h (h.reached_induction hordered he
    (I := fun o s => (∀ d ∈ body.code, d.1 < o → ¬ EndsRegion cx r d) → r ∉ s.resumed)
    (fun _ _ _ _ => ?_) (fun d hd before entry after hvisit hbefore o hnext hnone => ?_) hfirst)
  · obtain ⟨_, _, _, _, -, -, -, rfl⟩ := prepare_parts h.prepared
    exact List.not_mem_nil
  · have hlt := (Body.following_spec hordered hd hnext).1
    have hadmits : Admits (cx.atOffset d.1) (.sparing r) d.2 := admits_sparing (hnone d hd hlt)
    obtain ⟨_, hsteps⟩ := hvisit.stepsLowerIn hd hadmits hvisit.backedEntry.sparing []
    exact StepsIn.not_mem_resumed hsteps
      (henters hvisit (hbefore fun c hc hless => hnone c hc (Nat.lt_trans hless hlt)))

/-- The code of an end does not depend on the operation being lowered. -/
theorem Ending.ofOffset {Obj : Type} {rt : Runtime Obj} {o : Nat} {site : ClauseSite}
    {first : Bool} {q : Pool} {block : List Item}
    (h : Ending (cx.atOffset o) rt site first q block) : Ending cx rt site first q block := by
  unfold Ending at h ⊢
  split at h
  · next hthrows => rwa [if_pos hthrows]
  · next hresumes =>
    rw [if_neg hresumes]
    obtain ⟨selected, test, back, hblock, htest, hselecting⟩ := h
    exact ⟨selected, test, back, hblock, htest, hselecting.selects, hselecting.resumes⟩

/-- The end of a final clause is in the finished code. -/
theorem Visit.ending {Obj : Type} (rt : Runtime Obj) {o : Nat}
    (h : Visit config T pool body (o, .endFinally) cx start before entry after final)
    (hfinish : finish body.targetName cx final = .ok m s) (hpool : pool.Indexed)
    (he : (o, .endFinally) ∈ body.code) :
    ∃ site front block pre post, cx.regions.finalClauseAt o = .ok site ∧
      final.code.items = pre ++ (.bind (.source o) :: (front ++ block) ++ post) ∧
      (∀ x vs locals calls q rest, InFlight site.region entry.frames.live.stack x vs locals →
        exit? cx.config rt q (front ++ rest) ⟨vs, locals, calls⟩
          = exit? cx.config rt q rest ⟨[.object x], locals, calls⟩) ∧
      ∀ q, (lowerMethod config T pool body).pool.PartOf q →
        Ending cx rt site (!entry.resumed.contains site.regionIndex) q block := by
  obtain ⟨rest, hbound⟩ := h.bound
  obtain ⟨site, front, block, hsite, hemits, -, hsealed, hfront, hending⟩ :=
    endFinally_emits rt h.lowers (standing_atOffset.mpr (h.standingEntry hpool))
  obtain ⟨hstays, hpart⟩ := h.stays hpool he hfinish hsealed List.suffix_rfl
  rw [hemits.body, hbound] at hstays
  have hsuffix : (.bind (.source o) :: (front ++ block)).reverse ++ rest <:+ final.code.body := by
    simpa using hstays
  obtain ⟨pre, post, hitems⟩ := items_of_suffix hsuffix
  refine ⟨site, front, block, pre, post, hsite, by rw [hitems, List.append_assoc], hfront,
    fun q hq => (hending q (hpart.trans hq)).ofOffset⟩

/-- The first end of a finally clause has the code of every leave that is resumed. -/
theorem Visit.resumption {Obj : Type} (rt : Runtime Obj) {o : Nat}
    (h : Visit config T pool body (o, .endFinally) cx start before entry after final)
    (hfinish : finish body.targetName cx final = .ok m s) (hpool : pool.Indexed)
    (hordered : body.code.Pairwise fun a b => a.1 < b.1) (he : (o, .endFinally) ∈ body.code)
    {site : ClauseSite} (hsite : cx.regions.finalClauseAt o = .ok site)
    (hfirst : ∀ d ∈ body.code, d.1 < o → ¬ EndsRegion cx site.regionIndex d)
    (hkind : site.clause.kind = .cleanup) {i target : Nat}
    (hi : site.region.leaveTargets[i]? = some target) {q : Pool}
    (hq : (lowerMethod config T pool body).pool.PartOf q) :
    ∃ above leave below,
      final.code.items = above ++ (.bind (.resume site.regionIndex i) :: leave ++ below) ∧
      Resumes cx rt site.clause q (target, i) leave := by
  obtain ⟨site', front, block, pre, post, hsite', hitems, -, hending⟩ :=
    h.ending rt hfinish hpool he
  cases hsite.symm.trans hsite'
  have hnew : (!entry.resumed.contains site.regionIndex) = true := by
    simpa using h.not_mem_resumed hordered he hfirst
  have hblock := hending q hq
  rw [hnew] at hblock
  exact hblock.exists_resumption hitems hkind hi

end Visits

-- ==== where leaves go on

/-- The end of a final clause goes on with what entered the clause, if the offsets of the
body ascend. An exception is thrown again, and so is a sentinel in a fault clause. In a
finally clause, a sentinel with the index of a leave leads to the label for that leave,
which is bound once and shared by all ends of the clause; the code there is the leave from
the start of the clause. -/
theorem endFinally_resumes_leave {config : Config} {T : TypeTable} {pool p : Pool} {body : Body}
    {m : Method} (hpool : pool.Indexed) (hordered : body.code.Pairwise fun a b => a.1 < b.1)
    (h : (lowerMethod config T pool body).result = .ok m)
    (hp : (lowerMethod config T pool body).pool.PartOf p) :
    ∃ cx s asm rows, Tabled config T pool body m cx s asm rows ∧
      ∀ o, (o, .endFinally) ∈ body.code → ∃ site entry,
        cx.regions.finalClauseAt o = .ok site ∧
        entered? config T pool body o = some entry ∧
        (∀ (Obj : Type) (rt : Runtime Obj) x vs locals calls,
          InFlight site.region entry.frames.live.stack x vs locals →
          (site.clause.kind = .fault ∨ rt.isInstance x config.leaveSentinel.owner = false →
            LeadsTo config rt p asm (.source o) ⟨vs, locals, calls⟩ (.throws x calls)) ∧
          (site.clause.kind = .cleanup → rt.isInstance x config.leaveSentinel.owner = true →
            ∀ i < site.region.leaveTargets.length, (rt.index x).toInt = i →
              LeadsTo config rt p asm (.source o) ⟨vs, locals, calls⟩
                (.arrives (.resume site.regionIndex i)
                  ⟨[], locals, calls ++ site.region.indexCalls x⟩))) ∧
        (site.clause.kind = .cleanup → ∀ i target,
          site.region.leaveTargets[i]? = some target →
          (boundLabels s.code.items).count (.resume site.regionIndex i) = 1 ∧
          ∀ (Obj : Type) (rt : Runtime Obj) locals calls, ∃ e,
            cx.regions.leaveExit? rt site.clause.start target locals calls = some e ∧
            LeadsTo config rt p asm (.resume site.regionIndex i) ⟨[], locals, calls⟩ e) := by
  obtain ⟨cx, s, asm, rows, htabled⟩ := exists_tabled h
  obtain ⟨start₀, hprepare, hlower⟩ := htabled.lowered
  obtain ⟨-, -, -, hstarted⟩ := prepare_ok hprepare
  have hconfig : cx.config = config := by
    obtain ⟨_, _, _, _, -, -, rfl, -⟩ := prepare_parts hprepare
    rfl
  subst hconfig
  refine ⟨cx, s, asm, rows, htabled, fun o he => ?_⟩
  obtain ⟨cx', start, before, entry, after, final, hvisit, u, hfinish⟩ := exists_visit h hordered he
  cases hprepare.symm.trans hvisit.prepared
  cases hlower.symm.trans hvisit.completed
  obtain ⟨site, -, -, -, -, hsite, -⟩ := hvisit.ending (default : Runtime Unit) hfinish hpool he
  refine ⟨site, entry, hsite, hvisit.entered, fun Obj rt x vs locals calls hflight => ?_,
    fun hkind i target hi => ?_⟩
  · obtain ⟨site', front, block, pre, post, hsite', hitems, hfront, hending⟩ :=
      hvisit.ending rt hfinish hpool he
    cases hsite.symm.trans hsite'
    have hrest := fun rest => hfront x vs locals calls p rest hflight
    exact ⟨(hending p hp).leads_throw htabled.assembled hitems hrest,
      fun hkind hsentinel i hi hindex =>
        (hending p hp).leads_resume htabled.assembled hitems hrest hkind hsentinel hi hindex⟩
  · obtain ⟨⟨o₁, _⟩, hd, ⟨rfl, site₁, hsite₁, hindex⟩, hfirst⟩ :=
      exists_first_end he ⟨rfl, site, hsite, rfl⟩
    obtain ⟨_, _, _, hvisit₁⟩ := hvisit.exists_other hordered hd
    obtain ⟨hregion, hclause⟩ := eq_of_finalClauseAt hstarted.prepared.laminar hsite hsite₁ hindex
    -- it is the code that the first end emits for all of them
    have hresumes := fun {Obj : Type} (rt : Runtime Obj) =>
      hvisit₁.resumption rt hfinish hpool hordered hd hsite₁ (hindex ▸ hfirst) (hclause ▸ hkind)
        (hregion ▸ hi) hp
    rw [hindex, hclause] at hresumes
    refine ⟨?_, fun Obj rt locals calls => ?_⟩
    · obtain ⟨_, _, _, hitems, -⟩ := hresumes (default : Runtime Unit)
      refine List.count_eq_one_of_mem ?_ (mem_boundLabels.mpr (by simp [hitems]))
      rw [boundLabels_items, List.nodup_reverse]
      exact nodup_of_assemble htabled.assembled
    · obtain ⟨_, _, _, hitems, hleave⟩ := hresumes rt
      obtain ⟨e, he, hexit⟩ := hleave locals calls
      exact ⟨e, he, leads_of_exit htabled.assembled hitems hexit⟩

private theorem entered_catchThenFinally :
    (entered? shortNames (.ofConfig shortNames) .empty catchThenFinally 3).map
      (·.frames.live.stack) = some [.ref "T"] := by
  cbv

/-- The end of the finally clause of `catchThenFinally` throws exceptions on, and resumes
the leave to the operation behind it. -/
theorem endFinally_resumes_leave_catchThenFinally :
    ∃ m cx s asm rows,
      (lowerMethod shortNames (.ofConfig shortNames) .empty catchThenFinally).result = .ok m ∧
      Tabled shortNames (.ofConfig shortNames) .empty catchThenFinally m cx s asm rows ∧
      (boundLabels s.code.items).count (.resume 0 0) = 1 ∧
      ∀ (Obj : Type) (rt : Runtime Obj) x locals calls,
        (rt.isInstance x "L" = false →
          LeadsTo shortNames rt
            (lowerMethod shortNames (.ofConfig shortNames) .empty catchThenFinally).pool asm
            (.source 3) ⟨[.object x], locals, calls⟩ (.throws x calls)) ∧
        (rt.isInstance x "L" = true → (rt.index x).toInt = 0 →
          LeadsTo shortNames rt
            (lowerMethod shortNames (.ofConfig shortNames) .empty catchThenFinally).pool asm
            (.source 3) ⟨[.object x], locals, calls⟩
            (.arrives (.resume 0 0) ⟨[], locals, calls⟩)) ∧
        LeadsTo shortNames rt
          (lowerMethod shortNames (.ofConfig shortNames) .empty catchThenFinally).pool asm
          (.resume 0 0) ⟨[], locals, calls⟩ (.arrives (.source 4) ⟨[], locals, calls⟩) := by
  obtain ⟨m, hm⟩ := exists_of_surveyed surveyed_catchThenFinally
  obtain ⟨cx, s, asm, rows, htabled, hends⟩ := endFinally_resumes_leave Pool.indexed_empty
    (by decide) hm (.refl _)
  obtain ⟨hregions, -⟩ := htabled.eq_of_surveyed surveyed_catchThenFinally
  obtain ⟨site, entry, hsite, hentered, hend, hresume⟩ := hends 3 (by simp [catchThenFinally])
  obtain ⟨_, hentered', hstack⟩ := Option.map_eq_some_iff.mp entered_catchThenFinally
  cases hentered.symm.trans hentered'
  have htree : cx.regions = ⟨_⟩ := congrArg RegionTree.mk hregions
  rw [htree] at hsite hresume
  cases hsite
  obtain ⟨hcount, hleave⟩ := hresume rfl 0 4 rfl
  refine ⟨m, cx, s, asm, rows, hm, htabled, hcount, fun Obj rt x locals calls => ?_⟩
  obtain ⟨hthrows, hresumes⟩ := hend Obj rt x [.object x] locals calls
    ⟨by rw [hstack]; exact .cons rfl .nil, rfl⟩
  obtain ⟨e, he, hleads⟩ := hleave Obj rt locals calls
  cases he
  refine ⟨fun hnot => hthrows (.inr hnot), fun hsentinel hindex => ?_, hleads⟩
  simpa [Region.indexCalls] using hresumes rfl hsentinel 0 (by decide) hindex

end BytecodeBridge.Lowering
