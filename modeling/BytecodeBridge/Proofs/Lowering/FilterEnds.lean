/-
Filters whose condition has two ends.

The end of a filter's condition decides for or against the exception, and
where it decides against it the code goes on behind a label that is named
after the filter. A second end of the same condition binds that label
again. No operation is refused for that: it shows when the code is
assembled, and what is reported then is a broken invariant of the lowering,
not a flaw of the body (`filter_ended_twice_fails`).
-/
import BytecodeBridge.Proofs.Lowering.HandlerFrames

namespace BytecodeBridge

theorem CodeBuffer.assemble_of_not_nodup {b : CodeBuffer} (h : ¬ (boundLabels b.items).Nodup) :
    ∃ label, 2 ≤ (boundLabels b.items).count label ∧
      b.assemble = .error (.internal (.boundTwice label)) := by
  cases hsettle : settle b.items with
  | ok l => exact absurd (exists_settle_iff.mp ⟨l, hsettle⟩) h
  | error cause =>
    obtain ⟨label, hcount, rfl⟩ := settle_twice hsettle
    refine ⟨label, hcount, ?_⟩
    unfold assemble
    rw [hsettle]
    rfl

namespace Lowering

open LowerM

variable {cx : Context} {config : Config} {T : TypeTable} {pool : Pool}
  {body : Body} {start final : LowerState}

/-- The label of a filter is bound at an end of its condition. -/
theorem Visit.binds_filterReject {o : Nat} {before entry after : LowerState} {site : ClauseSite}
    (h : Visit config T pool body (o, .endFilter) cx start before entry after final)
    (hsite : cx.regions.filterAt o = .ok site) :
    List.Sublist (.filterReject site.regionIndex site.clauseIndex :: boundLabels before.code.body)
      (boundLabels after.code.body) := by
  obtain ⟨p, hsteps⟩ := h.stepsEnter []
  have hbound := (lasting_boundLabels_sublist _).steps hsteps (List.Sublist.refl _)
  exact (hbound.cons_cons _).trans
    (endFilter_binds (backed_atOffset.mpr h.backedEntry) h.lowers hsite)

/-- Code in which a filter's condition ends twice binds a label twice. -/
private theorem not_nodup_of_ends (hordered : body.code.Pairwise fun a b => a.1 < b.1) {o₁ o₂ : Nat}
    {first second : ClauseSite} (h₁ : (o₁, .endFilter) ∈ body.code)
    (h₂ : (o₂, .endFilter) ∈ body.code) (hlt : o₁ < o₂)
    (hfirst : cx.regions.filterAt o₁ = .ok first) (hsecond : cx.regions.filterAt o₂ = .ok second)
    (hsame : first.regionIndex = second.regionIndex ∧ first.clauseIndex = second.clauseIndex)
    (hprepare : prepare config T body (initial pool body) = .ok cx start)
    (hlower : lowerAll body.code cx start = .ok () final) :
    ¬ (boundLabels final.code.body).Nodup := by
  obtain ⟨_, _, _, hvisit₁⟩ := exists_visit_of_lowered hprepare hlower hordered h₁
  obtain ⟨_, _, _, hvisit₂⟩ := hvisit₁.exists_other hordered h₂
  obtain ⟨_, hkept⟩ := hvisit₁.stepsBetween hordered hvisit₂ h₁ h₂ hlt
  obtain ⟨_, _, -, hlater⟩ := hvisit₂.stepsLower h₂ []
  have hbound := (hvisit₁.binds_filterReject hfirst).subset (.head _)
  rw [hsame.1, hsame.2] at hbound
  intro hnodup
  have htwice := (hnodup.sublist hlater.boundLabels_suffix.sublist).sublist
    (hvisit₂.binds_filterReject hsecond)
  exact (List.nodup_cons.mp htwice).1 (hkept.boundLabels_suffix.subset hbound)

/-- A method whose code is not assembled fails with the cause of that. -/
private theorem result_of_assemble {cause : Cause}
    (hprepare : prepare config T body (initial pool body) = .ok cx start)
    (hlower : lowerAll body.code cx start = .ok () final)
    (h : final.code.assemble = .error cause) :
    (lowerMethod config T pool body).result = .error ⟨cause, [body.qualifiedName]⟩ := by
  obtain ⟨t, hbackfill, hcode⟩ : ∃ t, backfill cx final = .ok () t ∧ t.code = final.code := by
    obtain ⟨events, -, hbackfill⟩ := exists_backfill cx final
    exact ⟨_, hbackfill, rfl⟩
  have hfinish : finish body.targetName cx final = .error cause t := by
    refine (state_ok_bind (x := backfill cx) hbackfill).trans ?_
    refine state_error_bind (x := (liftM t.code.assemble : LowerM Assembly) cx) ?_
    rw [hcode, h]
    rfl
  have hrun : run config T body (initial pool body) = .error cause t :=
    (state_ok_bind hprepare).trans
      ((state_ok_bind (x := lowerAll body.code cx) hlower).trans hfinish)
  unfold lowerMethod
  rw [hrun]
  rfl

/-- A filter has one end. A body with ascending offsets in which the condition of a filter
ends twice is refused, and if each of its operations can be lowered, it is refused with an
internal error: a label is bound twice. -/
theorem filter_ended_twice_fails (hordered : body.code.Pairwise fun a b => a.1 < b.1)
    {o₁ o₂ : Nat} (h₁ : (o₁, .endFilter) ∈ body.code) (h₂ : (o₂, .endFilter) ∈ body.code)
    (hne : o₁ ≠ o₂) (hprepare : prepare config T body (initial pool body) = .ok cx start)
    {first second : ClauseSite} (hfirst : cx.regions.filterAt o₁ = .ok first)
    (hsecond : cx.regions.filterAt o₂ = .ok second)
    (hsame : first.regionIndex = second.regionIndex ∧ first.clauseIndex = second.clauseIndex) :
    (∃ e, (lowerMethod config T pool body).result = .error e) ∧
      ∀ final, lowerAll body.code cx start = .ok () final →
        ∃ label, 2 ≤ (boundLabels final.code.items).count label ∧
          (lowerMethod config T pool body).result
            = .error ⟨.internal (.boundTwice label), [body.qualifiedName]⟩ := by
  have hfails : ∀ final, lowerAll body.code cx start = .ok () final →
      ∃ label, 2 ≤ (boundLabels final.code.items).count label ∧
        (lowerMethod config T pool body).result
          = .error ⟨.internal (.boundTwice label), [body.qualifiedName]⟩ := by
    intro final hlower
    have htwice : ¬ (boundLabels final.code.body).Nodup := by
      rcases Nat.lt_or_gt_of_ne hne with hlt | hlt
      · exact not_nodup_of_ends hordered h₁ h₂ hlt hfirst hsecond hsame hprepare hlower
      · exact not_nodup_of_ends hordered h₂ h₁ hlt hsecond hfirst
          ⟨hsame.1.symm, hsame.2.symm⟩ hprepare hlower
    obtain ⟨label, hcount, hasm⟩ := CodeBuffer.assemble_of_not_nodup (b := final.code)
      (by rwa [boundLabels_items, List.nodup_reverse])
    exact ⟨label, hcount, result_of_assemble hprepare hlower hasm⟩
  refine ⟨?_, hfails⟩
  cases hresult : (lowerMethod config T pool body).result with
  | error e => exact ⟨e, rfl⟩
  | ok m =>
    obtain ⟨cx', start', final, _, hprepare', hlower, -⟩ := run_ok hresult
    cases hprepare.symm.trans hprepare'
    obtain ⟨label, -, herror⟩ := hfails final hlower
    cases hresult.symm.trans herror

/-- A filter that decides on each of two paths. -/
def endsTwice : Body where
  owner := .ref "Guard"
  name := "run"
  kind := .static
  params := [⟨none, .prim .int32⟩]
  locals := []
  returns := none
  code := [(0, .leave 10), (1, .pop), (2, .loadArg 0), (3, .branchIf true 6), (4, .loadInt32 0),
    (5, .endFilter), (6, .loadInt32 1), (7, .endFilter), (8, .pop), (9, .leave 10), (10, .ret)]
  handlers := [⟨.filtered, 0, 1, 8, 10, some 1, none⟩]

/-- The filters that two offsets are in the conditions of, in a body that is lowered. -/
def conditions? (config : Config) (T : TypeTable) (pool : Pool) (body : Body) (o₁ o₂ : Nat) :
    Option ((Nat × Nat) × (Nat × Nat)) :=
  match prepare config T body (initial pool body) with
  | .error _ _ => none
  | .ok cx start =>
    match lowerAll body.code cx start, cx.regions.filterAt o₁, cx.regions.filterAt o₂ with
    | .ok _ _, .ok first, .ok second =>
      some ((first.regionIndex, first.clauseIndex), (second.regionIndex, second.clauseIndex))
    | _, _, _ => none

private theorem conditions_endsTwice :
    conditions? shortNames (.ofConfig shortNames) .empty endsTwice 5 7
      = some ((0, 0), (0, 0)) := by
  cbv

/-- In `endsTwice` all operations are lowered, and both ends are those of one filter. -/
theorem filter_ended_twice_fails_endsTwice :
    endsTwice.code.Pairwise (fun a b => a.1 < b.1) ∧
    ∃ cx start final first second label,
      prepare shortNames (.ofConfig shortNames) endsTwice (initial .empty endsTwice)
        = .ok cx start ∧
      lowerAll endsTwice.code cx start = .ok () final ∧
      cx.regions.filterAt 5 = .ok first ∧ cx.regions.filterAt 7 = .ok second ∧
      (lowerMethod shortNames (.ofConfig shortNames) .empty endsTwice).result
        = .error ⟨.internal (.boundTwice label), [endsTwice.qualifiedName]⟩ := by
  have hordered : endsTwice.code.Pairwise fun a b => a.1 < b.1 := by decide
  have hconditions := conditions_endsTwice
  unfold conditions? at hconditions
  split at hconditions
  · cases hconditions
  · next cx start hprepare =>
    split at hconditions
    · next final first second hlower hfirst hsecond =>
      simp only [Option.some_inj, Prod.mk.injEq] at hconditions
      obtain ⟨⟨hregion, hclause⟩, hregion', hclause'⟩ := hconditions
      obtain ⟨-, hfails⟩ := filter_ended_twice_fails hordered (by simp [endsTwice])
        (by simp [endsTwice]) (by decide) hprepare hfirst hsecond
        ⟨hregion.trans hregion'.symm, hclause.trans hclause'.symm⟩
      obtain ⟨label, -, hresult⟩ := hfails final hlower
      exact ⟨hordered, cx, start, final, first, second, label, hprepare, hlower, hfirst, hsecond,
        hresult⟩
    · cases hconditions

end Lowering

end BytecodeBridge
