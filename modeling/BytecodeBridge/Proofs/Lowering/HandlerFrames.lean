/-
The frame of a handler covers the protected range.

A handler may be entered from every place of the range that it guards, so a
variable that its frame has set must be set throughout the range. One half
of that is plain: each change of the live locals within the range is told to
the handler, and what the frame of the handler has in the end, every live
frame had that it was told of (`HandlerSaves.told`). The other half is that
the live frame changes in one more way, by loading the frame of a label that
is bound. Those are frames that were saved earlier, and the proof follows
where from.

# Up to the range

Code in front of the range saves to no label strictly inside of it
(`admits_avoiding`, `enters_avoiding`), so long as no operation names such a
place. So when the first operation of the range is arrived at, these labels
have no frame but from handlers that were told of the live frame, together
with the handler of the range.

# In the range

From there on the labels inside have frames that were saved in the range,
with the variable set. The other labels that code of the range binds are
made for one operation. They have no frame when the operation is entered:
those that are numbered because they are not made yet, and the ones for
exceptions that a filter rejects because they are bound where they get a
frame, which happens once (`Rejects`).
-/
import BytecodeBridge.Proofs.Lowering.Assignment
import BytecodeBridge.Proofs.Lowering.Coverage
import BytecodeBridge.Proofs.Lowering.Standing
import BytecodeBridge.Proofs.Lowering.VariableTypes
import BytecodeBridge.Proofs.Region.Interior

namespace BytecodeBridge

namespace Lowering

open LowerM RegionTree

variable {cx : Context} {s s' : LowerState}

-- ==== avoiding labels

/-- The scope in which some labels are neither saved to nor bound. -/
def Scope.avoiding (D : Label → Prop) : Scope :=
  { Scope.all with saves := fun label => ¬ D label, binds := fun label => ¬ D label }

theorem Backed.avoiding {D : Label → Prop} (h : Backed cx .all s)
    (hD : ∀ label, D label → label.isNumbered = false) : Backed cx (.avoiding D) s := by
  refine ⟨h.kept, h.fits, h.made, h.thin, h.slender, fun _ label hnumbered hl => ?_,
    fun _ label hmade hl => ?_⟩
  · cases (hD label hl).symm.trans hnumbered
  · exact hmade (made_of_not_isNumbered (hD label hl))

theorem StepsIn.has_of_spared {D : Label → Prop} {a b : Stage}
    (h : StepsIn cx (.avoiding D) a b) {label : Label} (hD : D label)
    (hlabel : ∀ r, label ≠ .handler r) (hb : b.1.frames.has label = true) :
    a.1.frames.has label = true := by
  induction h with
  | refl => exact hb
  | tail _ hstep ih =>
    rcases hstep.has_cases hlabel hb with hhas | ⟨hsaves, -⟩
    · exact ih hhas
    · exact absurd hD hsaves

-- ==== rejected exceptions

/-- The label for exceptions that a filter rejects is bound if it has a frame. -/
def Rejects (s : LowerState) : Prop :=
  ∀ r k, s.frames.has (.filterReject r k) = true → .filterReject r k ∈ boundLabels s.code.body

theorem lasting_mem_boundLabels (label : Label) :
    Lasting cx fun s => label ∈ boundLabels s.code.body :=
  fun _ _ _ _ hstep hmem => hstep.boundLabels_suffix.subset hmem

theorem lasting_boundLabels_sublist (bound : List Label) :
    Lasting cx fun s => List.Sublist bound (boundLabels s.code.body) :=
  fun _ _ _ _ hstep hbound => hbound.trans hstep.boundLabels_suffix.sublist

/-- The end of a filter's condition binds the label for exceptions that it rejects, whether it
was bound before or not. -/
theorem endFilter_binds {a : Unit} (hback : Backed cx .all s)
    (h : endFilter cx.current cx s = .ok a s') {site : ClauseSite}
    (hsite : cx.regions.filterAt cx.current = .ok site) :
    List.Sublist (.filterReject site.regionIndex site.clauseIndex :: boundLabels s.code.body)
      (boundLabels s'.code.body) := by
  have hscope : ∀ other, cx.regions.filterAt cx.current = .ok other → Decides .all other :=
    fun _ _ => ⟨trivial, trivial, ⟨trivial, trivial⟩, trivial⟩
  refine (does_endFilter (lasting_boundLabels_sublist _) (lasting_boundLabels_sublist _) hscope
    (fun other hother => ?_) s a s' [] hback (List.Sublist.refl _) h).2
  cases hsite.symm.trans hother
  intro t b t' hbound hrun
  rw [gives_bindLabel _ _ t b t' rfl hrun]
  exact hbound.cons_cons _

theorem Rejects.enter {a : Unit} (hs : Rejects s) (hprepared : Prepared cx)
    (hback : Backed cx .all s) (h : LowerM.enter cx.current cx s = .ok a s') : Rejects s' := by
  intro r k hhas
  have henters : Enters cx (.avoiding (· = .filterReject r k)) :=
    ⟨⟨nofun, nofun⟩, fun _ _ => ⟨⟨nofun, nofun⟩, fun _ => ⟨nofun, nofun⟩, fun _ _ _ _ => nofun,
      trivial⟩, fun _ _ => nofun⟩
  obtain ⟨⟨p, hsteps⟩, -⟩ := runs_enter hprepared henters s a s' []
    (hback.avoiding fun _ heq => heq ▸ rfl) trivial h
  exact (lasting_mem_boundLabels _).steps hsteps
    (hs r k (StepsIn.has_of_spared hsteps rfl nofun hhas))

/-- The label gets a frame at the end of its own condition only, and is bound there. -/
theorem Rejects.lowerOp {a : Unit} {op : Op} (hs : Rejects s) (hprepared : Prepared cx)
    (hop : (cx.current, op) ∈ cx.body.code) (hback : Backed cx .all s)
    (h : LowerM.lowerOp cx.current op cx s = .ok a s') : Rejects s' := by
  intro r k hhas
  by_cases hown : op = .endFilter ∧ ∃ site, cx.regions.filterAt cx.current = .ok site ∧
      site.regionIndex = r ∧ site.clauseIndex = k
  · obtain ⟨rfl, site, hsite, rfl, rfl⟩ := hown
    exact (endFilter_binds hback h hsite).subset List.mem_cons_self
  · have hadmits : Admits cx (.avoiding (· = .filterReject r k)) op :=
      { stores := fun _ _ => trivial
        calls := fun _ _ _ _ => trivial
        targets := fun _ _ => nofun
        falls := fun _ _ _ _ => nofun
        leaves := fun _ _ => ⟨fun _ => nofun, fun _ _ _ _ => nofun, trivial⟩
        finals := fun _ _ _ =>
          ⟨trivial, fun _ _ => ⟨fun _ => nofun, fun _ _ _ _ => nofun, trivial⟩⟩
        turns := fun _ => trivial
        filters := by
          intro hend site hsite
          have hother : Label.filterReject site.regionIndex site.clauseIndex
              ≠ .filterReject r k := by
            intro heq
            cases heq
            exact hown ⟨hend, site, hsite, rfl, rfl⟩
          exact ⟨nofun, nofun, ⟨hother, hother⟩, trivial⟩ }
    obtain ⟨⟨p, hsteps⟩, -⟩ := runs_lowerOp hprepared hop hadmits s a s' []
      (hback.avoiding fun _ heq => heq ▸ rfl) trivial h
    exact (lasting_mem_boundLabels _).steps hsteps
      (hs r k (StepsIn.has_of_spared hsteps rfl nofun hhas))

section Visits

variable {config : Config} {T : TypeTable} {pool : Pool} {body : Body}
  {e : Nat × Op} {start before entry after final : LowerState}

theorem Visit.rejects (h : Visit config T pool body e cx start before entry after final)
    (hordered : body.code.Pairwise fun a b => a.1 < b.1) (he : e ∈ body.code) :
    Rejects entry := by
  have henter : ∀ {d before entry after},
      Visit config T pool body d cx start before entry after final → Rejects before →
      Rejects entry := fun hd hbefore =>
    hbefore.enter hd.ready (backed_atOffset.mpr hd.backed) hd.enters
  refine henter h (h.reached_induction hordered he (I := fun _ => Rejects) ?_ ?_)
  · intro _ _ _ r k hhas
    exact absurd (h.started.2.2.frameOf_eq_none _) (FrameStore.frameOf_ne_none hhas)
  · intro d hd before entry after hvisit hbefore _ _
    have hentry := henter hvisit hbefore
    have hback : Backed (cx.atOffset d.1) .all entry := backed_atOffset.mpr hvisit.backedEntry
    obtain ⟨-, rfl, hstarted⟩ := hvisit.started
    exact hentry.lowerOp (hstarted.prepared.atOffset d.1) hd hback hvisit.lowers

/-- In code that can be assembled, a filter's condition ends once. -/
theorem Visit.reject_unframed (h : Visit config T pool body e cx start before entry after final)
    (hordered : body.code.Pairwise fun a b => a.1 < b.1) (he : e ∈ body.code)
    (honce : (boundLabels final.code.body).Nodup) (hend : e.2 = .endFilter) {site : ClauseSite}
    (hsite : cx.regions.filterAt e.1 = .ok site) :
    entry.frames.has (.filterReject site.regionIndex site.clauseIndex) = false := by
  rw [← Bool.not_eq_true]
  intro hhas
  obtain ⟨_, _, -, hfinal⟩ := h.stepsLower he []
  have hlowers := h.lowers
  rw [hend] at hlowers
  have hbinds := endFilter_binds (backed_atOffset.mpr h.backedEntry) hlowers hsite
  have honce := (honce.sublist hfinal.boundLabels_suffix.sublist).sublist hbinds
  exact (List.nodup_cons.mp honce).1 (h.rejects hordered he _ _ hhas)

end Visits

-- ==== in front of the range

/-- The labels of code strictly inside a protected range: those of its operations but the
first, and those of handlers in front of them. -/
def Inner (t : RegionTree) (region : Region) : Label → Prop
  | .source o => region.Interior o
  | .handler q | .dispatch q _ => ∃ r, t.regions[q]? = some r ∧ region.Interior r.handlerOffset
  | .filterReject _ _ | .resume _ _ | .synthetic _ => False

theorem Inner.isNumbered {t : RegionTree} {region : Region} {label : Label}
    (h : Inner t region label) : label.isNumbered = false := by
  cases label with
  | resume | synthetic => exact h.elim
  | _ => rfl

section Avoiding

variable {region : Region} (hlam : Laminar cx.regions.regions)
  (hregion : region ∈ cx.regions.regions)
include hlam hregion

theorem not_inner_of_start_lt {q : Nat}
    (hq : ∀ r, cx.regions.regions[q]? = some r → r.start < region.start) :
    ¬ Inner cx.regions region (.handler q) := by
  rintro ⟨r, hr, hinterior⟩
  exact hlam.not_interior_handlerOffset hregion (List.mem_of_getElem? hr) (hq r hr) hinterior

/-- A handler that goes in front of the range tries no clause inside of it. -/
theorem dispatches_avoiding (hle : cx.current ≤ region.start) {q : Nat}
    (hq : cx.regions.handlerAt? cx.current = some q) :
    Dispatches cx (.avoiding (Inner cx.regions region)) q := by
  have hhandler : ¬ ∃ r, cx.regions.regions[q]? = some r ∧ region.Interior r.handlerOffset := by
    rintro ⟨r, hr, hlow, -⟩
    have := handlerOffset_of_handlerAt? hq hr
    omega
  refine ⟨⟨hhandler, hhandler⟩, fun _ => ⟨hhandler, hhandler⟩, fun r hget c hc => ?_,
    trivial⟩
  have hsame := handlerOffset_of_handlerAt? hq (getElem?_of_get hget)
  exact hlam.not_interior_clause hregion (mem_of_get hget) (by omega) hc

private theorem enters_avoiding (hlt : cx.current < region.start) :
    Enters cx (.avoiding (Inner cx.regions region)) := by
  have hsource : ¬ region.Interior cx.current := fun hinterior => by
    have := hinterior.1
    omega
  refine ⟨⟨hsource, hsource⟩, fun q hq => dispatches_avoiding hlam hregion (by omega) hq,
    fun q hq => not_inner_of_start_lt hlam hregion fun r hr => ?_⟩
  obtain ⟨_, hr', hstart⟩ := mem_startingAt_iff.mp hq
  cases hr.symm.trans hr'
  omega

private theorem relays_avoiding {source target : Nat} (hlt : source < region.start)
    (htarget : ¬ region.Interior target) :
    Relays cx (.avoiding (Inner cx.regions region)) source target := by
  refine ⟨fun _ => htarget, fun q index hplan k => ?_, trivial⟩
  exact not_inner_of_start_lt hlam hregion fun r hr =>
    Nat.lt_of_le_of_lt (start_le_of_planLeave hlam hplan hr) hlt

/-- Code in front of the range transfers to no place inside of it. -/
private theorem admits_avoiding {T : TypeTable} {config : Config} {slots slots' : Slots}
    (hbuild : build cx.body T config slots = .ok cx.regions slots')
    (hordered : cx.body.code.Pairwise fun a b => a.1 < b.1)
    (hclosed : cx.regions.EnteredAtStart cx.body.code region) {op : Op}
    (hop : (cx.current, op) ∈ cx.body.code) (hlt : cx.current < region.start) :
    Admits cx (.avoiding (Inner cx.regions region)) op := by
  have houtside : ∀ o < region.start, region.protects o = false := by
    intro o ho
    rw [← Bool.not_eq_true, Region.protects_iff]
    omega
  have htransfers := hclosed _ hop (houtside _ hlt)
  have htargets : ∀ t ∈ op.targets, ¬ region.Interior t :=
    fun t ht => htransfers t (List.mem_append_left _ ht)
  refine ⟨fun _ _ => trivial, fun _ _ _ _ => trivial, htargets, fun targets next _ hnext => ?_,
    fun target heq => ?_, fun _ site hsite => ⟨trivial, fun t ht => ?_⟩, fun heq site hsite => ?_,
    fun _ => trivial⟩
  · -- the range starts with an operation, so the next one is not behind its start
    obtain ⟨e, he, hstart⟩ := List.any_eq_true.mp
      (isBoundary_start_build hbuild region hregion)
    have hstart : e.1 = region.start := eq_of_beq hstart
    rintro ⟨hlow, -⟩
    rcases (Body.following_spec hordered hop hnext).2.1 e he with hle | hle
    · omega
    · omega
  · subst heq
    exact relays_avoiding hlam hregion hlt (htargets target (List.mem_singleton_self target))
  · obtain ⟨o, ho, hleave⟩ := exists_leave_before hbuild hsite ht
    have hstart := (has_of_finalClauseAt hlam hsite).2.2
    refine relays_avoiding hlam hregion (by omega) ?_
    exact hclosed _ hleave (houtside o (by omega)) t
      (List.mem_append_left _ (List.mem_singleton_self t))
  · subst heq
    obtain ⟨⟨hhas, -⟩, hle⟩ := has_of_filterAt hbuild hsite
    refine ⟨htransfers _ (List.mem_append_right _ ?_), ?_, ⟨not_false, not_false⟩, trivial⟩
    · rw [hsite]
      exact List.mem_singleton_self _
    · rintro ⟨r, hr, hlow, -⟩
      cases hhas.symm.trans hr
      omega

end Avoiding

-- ==== in the range

/-- What is known of a variable that the handler of a region has, in the end, as a
condition says. -/
structure Guarded (cx : Context) (start final : LowerState) (r : Nat) (region : Region)
    (base v : Nat) (ty : Ty) (R : Option Ty → Prop) : Prop where
  region : cx.regions.regions[r]? = some region
  firm : Firm cx.types ty R
  declared : VariableAt base v ty start.slots
  plain : final.slots.isDefaulted v = false
  ends : Holds v (· = .handler r) R final.frames

/-- The same, in a state of the run. -/
structure Tracked (cx : Context) (r base v : Nat) (ty : Ty) (R : Option Ty → Prop)
    (s : LowerState) : Prop where
  declared : VariableAt base v ty s.slots
  plain : s.slots.isDefaulted v = false
  ends : Holds v (· = .handler r) R s.frames

/-- The labels inside a range have a variable as a condition says, and so has the live
frame. -/
structure Covered (t : RegionTree) (region : Region) (v : Nat) (R : Option Ty → Prop)
    (s : LowerState) : Prop where
  labels : Holds v (Inner t region) R s.frames
  live : R (s.frames.live.locals.get? v)

/-- The scope in which only some labels are bound. -/
def Scope.binding (D : Label → Prop) : Scope :=
  { Scope.all with binds := D }

section Range

variable {config : Config} {T : TypeTable} {pool : Pool} {body : Body}
  {e : Nat × Op} {start before entry after final : LowerState} {r base v : Nat} {region : Region}
  {ty : Ty} {R : Option Ty → Prop}

theorem Guarded.tracked (h : Guarded cx start final r region base v ty R)
    {code : List (Nat × Op)} {p q : List Label} (hfrom : CodeSteps cx code (start, []) (s, p))
    (hto : CodeSteps cx code (s, p) (final, q)) : Tracked cx r base v ty R s := by
  have hdeclared := h.declared.codeSteps hfrom
  obtain ⟨hplain, hends⟩ := hto.reflects hdeclared h.plain h.firm h.ends
  exact ⟨hdeclared, hplain, hends⟩

/-- Code of the range that binds labels inside of it, or labels without a frame. -/
theorem Guarded.covers (h : Guarded cx start final r region base v ty R) {o : Nat}
    (hprotects : region.protects o = true) {p q : List Label}
    (hsteps : StepsIn (cx.atOffset o)
      (.binding fun l => Inner cx.regions region l ∨ s.frames.frameOf l = none) (s, p) (s', q))
    (ha : Tracked cx r base v ty R s) (hb : Tracked cx r base v ty R s')
    (hs : Covered cx.regions region v R s) : Covered cx.regions region v R s' := by
  have hlabels : Holds v (fun l => Inner cx.regions region l ∨ s.frames.frameOf l = none) R
      s.frames := by
    intro l hl found hfound
    rcases hl with hl | hnone
    · exact hs.labels l hl found hfound
    · unfold FrameStore.typeAt at hfound
      rw [hnone] at hfound
      cases hfound
  obtain ⟨hlabels, hlive⟩ := StepsIn.covered hsteps ha.declared hb.plain h.firm
    (mem_protecting_iff.mpr ⟨region, h.region, hprotects⟩) hb.ends (fun _ hl => hl) hlabels hs.live
  exact ⟨fun l hl => hlabels l (.inl hl), hlive⟩

theorem Visit.settled (h : Visit config T pool body e cx start before entry after final) :
    ∃ p, Settled cx.targets (before, p) := by
  obtain ⟨p, hsteps⟩ := h.stepsBefore
  exact ⟨p, hsteps.settled h.started.2.2.settled⟩

theorem Visit.settledEntry (h : Visit config T pool body e cx start before entry after final) :
    ∃ p, Settled cx.targets (entry, p) := by
  obtain ⟨p, hsettled⟩ := h.settled
  obtain ⟨q, hsteps⟩ := h.stepsEnter p
  exact ⟨q, @Settled.steps (cx.atOffset e.1) _ _ hsettled hsteps⟩

theorem Backed.binding {D : Label → Prop} (hback : Backed cx .all s)
    (hsettled : ∃ p, Settled cx.targets (s, p)) :
    Backed cx (.binding fun l => D l ∨ s.frames.frameOf l = none) s :=
  ⟨hback.kept, hback.fits, hback.made, hback.thin, hback.slender, fun _ _ _ => trivial,
    fun _ _ hmade => .inr (hback.frameOf_eq_none hsettled hmade)⟩

variable (h : Guarded cx start final r region base v ty R)
  (hvisit : Visit config T pool body e cx start before entry after final) (he : e ∈ body.code)
include h hvisit he

theorem Guarded.visit : Tracked cx r base v ty R before ∧ Tracked cx r base v ty R entry ∧
      Tracked cx r base v ty R after := by
  obtain ⟨p, q, t, u, hbefore, henters, hlowers, hfinal⟩ := hvisit.stepsThrough he
  have henters := CodeSteps.of_steps he henters
  have hlowers := CodeSteps.of_steps he hlowers
  exact ⟨h.tracked hbefore (henters.trans (hlowers.trans hfinal)),
    h.tracked (hbefore.trans henters) (hlowers.trans hfinal),
    h.tracked ((hbefore.trans henters).trans hlowers) hfinal⟩

/-- Code in front of the range leaves the labels inside of it alone. -/
theorem Guarded.spared (hordered : body.code.Pairwise fun a b => a.1 < b.1)
    (hclosed : cx.regions.EnteredAtStart body.code region) (hlt : e.1 < region.start)
    (hs : Holds v (Inner cx.regions region) R before.frames) :
    Holds v (Inner cx.regions region) R after.frames := by
  obtain ⟨hbefore, hentry, hafter⟩ := h.visit hvisit he
  obtain ⟨_, _, hbuild⟩ := build_of_prepare hvisit.prepared
  have hlam := (build_ok hbuild).1
  have hregion := List.mem_of_getElem? h.region
  -- no handler inside is told of what happens here
  have htold : ∀ q ∈ cx.regions.protecting e.1, ¬ Inner cx.regions region (.handler q) := by
    intro q hq
    refine not_inner_of_start_lt hlam hregion fun q' hq' => ?_
    obtain ⟨_, hget, hprotects⟩ := mem_protecting_iff.mp hq
    cases hget.symm.trans hq'
    exact Nat.lt_of_le_of_lt (Region.protects_iff.mp hprotects).1 hlt
  have hspared : ∀ {s s' : LowerState} {p},
      StepsIn (cx.atOffset e.1) (.avoiding (Inner cx.regions region)) (s, []) (s', p) →
      Tracked cx r base v ty R s → Tracked cx r base v ty R s' →
      Holds v (Inner cx.regions region) R s.frames →
      Holds v (Inner cx.regions region) R s'.frames :=
    fun hsteps ha hb hs => StepsIn.spared hsteps ha.declared hb.plain h.firm
      (fun _ hl => ⟨fun hnot => hnot hl, fun hnot => hnot hl⟩)
      (fun q hq hl => absurd hl (htold q hq)) hs
  obtain ⟨p, henters⟩ := hvisit.stepsEnterIn
    (@enters_avoiding (cx.atOffset e.1) _ hlam hregion hlt)
    (hvisit.backed.avoiding fun _ => Inner.isNumbered) []
  have hstarted := hvisit.started
  obtain ⟨-, rfl, -⟩ := hstarted
  obtain ⟨q, hlowers⟩ := hvisit.stepsLowerIn he
    (@admits_avoiding (cx.atOffset e.1) _ hlam hregion _ _ _ _ hbuild hordered hclosed _ he hlt)
    (hvisit.backedEntry.avoiding fun _ => Inner.isNumbered) []
  exact hspared hlowers hentry hafter (hspared henters hbefore hentry hs)

/-- At the start of the range its handler is told of the live frame, and so are the handlers
of other regions that start there. -/
theorem Guarded.arrives (heq : e.1 = region.start)
    (hs : Holds v (Inner cx.regions region) R before.frames) :
    Covered cx.regions region v R entry := by
  obtain ⟨hbefore, hentry, -⟩ := h.visit hvisit he
  obtain ⟨_, _, hbuild⟩ := build_of_prepare hvisit.prepared
  have hlam := (build_ok hbuild).1
  have hregion := List.mem_of_getElem? h.region
  have hback : Backed (cx.atOffset e.1) (.avoiding (Inner cx.regions region)) before :=
    backed_atOffset.mpr (hvisit.backed.avoiding fun _ => Inner.isNumbered)
  have hlt := (hlam.sound region hregion).start_lt
  have hprotects : region.protects e.1 = true := Region.protects_iff.mpr (by omega)
  have hstarting : r ∈ cx.regions.startingAt e.1 :=
    mem_startingAt_iff.mpr ⟨region, h.region, heq.symm⟩
  obtain ⟨s₁, s₂, p₁, hdispatch, hhandler, harrival, htold⟩ :=
    enter_ok hvisit.ready hback
      (fun q hq => @dispatches_avoiding (cx.atOffset e.1) _ hlam hregion (Nat.le_of_eq heq) q hq)
      [] hvisit.enters
  have hsource : ¬ region.Interior e.1 := by
    rintro ⟨hlow, -⟩
    omega
  obtain ⟨p₂, harrives⟩ : ∃ p₂, StepsIn (cx.atOffset e.1) (.avoiding (Inner cx.regions region))
      (s₁, p₁) (s₂, p₂) := harrival.stepsIn hhandler ⟨hsource, hsource⟩ p₁
  have hsteps := hdispatch.trans harrives
  -- the handlers are told of the live frame last, which gives back what it has
  have hdeclared : VariableAt base v ty s₂.slots :=
    hbefore.declared.steps (StepsIn.steps hsteps)
  have hplain := htold.plain hentry.plain
  obtain ⟨hends, hlive⟩ := htold.reflects hdeclared hentry.plain h.firm hentry.ends
  have hlive := hlive r hstarting rfl
  have hspared : Holds v (Inner cx.regions region) R s₂.frames :=
    StepsIn.spared hsteps hbefore.declared hplain h.firm
      (fun _ hl => ⟨fun hnot => hnot hl, fun hnot => hnot hl⟩)
      (fun _ _ _ => ⟨r, mem_protecting_iff.mpr ⟨region, h.region, hprotects⟩, hends⟩) hs
  obtain ⟨hlabels, hsame⟩ := htold.holds hdeclared hentry.plain h.firm.toSteady hspared
    fun _ _ _ => hlive
  exact ⟨hlabels, hsame ▸ hlive⟩

/-- An operation of the range is entered at a label inside of it, behind a handler there. -/
theorem Guarded.enters (hin : region.Interior e.1) (hs : Covered cx.regions region v R before) :
    Covered cx.regions region v R entry := by
  obtain ⟨hbefore, hentry, -⟩ := h.visit hvisit he
  have hprotects : region.protects e.1 = true :=
    Region.protects_iff.mpr ⟨Nat.le_of_lt hin.1, hin.2⟩
  have hhandler : ∀ q, cx.regions.handlerAt? e.1 = some q →
      Inner cx.regions region (.handler q) := by
    intro q hq
    obtain ⟨hlt, hoffset, -⟩ := List.findIdx?_eq_some_iff_getElem.mp hq
    exact ⟨_, List.getElem?_eq_getElem hlt, (eq_of_beq hoffset).symm ▸ hin⟩
  have henters : Enters (cx.atOffset e.1)
      (.binding fun l => Inner cx.regions region l ∨ before.frames.frameOf l = none) :=
    ⟨⟨trivial, .inl hin⟩, fun q hq => ⟨⟨trivial, .inl (hhandler q hq)⟩,
      fun _ => ⟨trivial, .inl (hhandler q hq)⟩, fun _ _ _ _ => trivial, trivial⟩,
      fun _ _ => trivial⟩
  obtain ⟨p, hsteps⟩ := hvisit.stepsEnterIn henters (hvisit.backed.binding hvisit.settled) []
  exact h.covers hprotects hsteps hbefore hentry hs

/-- The code of an operation binds labels that it makes, and a label for exceptions that a
filter rejects. -/
theorem Guarded.lowers (hordered : body.code.Pairwise fun a b => a.1 < b.1)
    (honce : (boundLabels final.code.body).Nodup) (hprotects : region.protects e.1 = true)
    (hs : Covered cx.regions region v R entry) : Covered cx.regions region v R after := by
  obtain ⟨-, hentry, hafter⟩ := h.visit hvisit he
  have hsettled := hvisit.settledEntry
  have hadmits : Admits (cx.atOffset e.1)
      (.binding fun l => Inner cx.regions region l ∨ entry.frames.frameOf l = none) e.2 :=
    { admits_all (cx.atOffset e.1) e.2 with
      leaves := fun _ _ => ⟨fun _ => trivial, fun _ _ _ _ => trivial, trivial⟩
      finals := fun _ _ _ =>
        ⟨trivial, fun _ _ => ⟨fun _ => trivial, fun _ _ _ _ => trivial, trivial⟩⟩
      filters := fun hend site hsite => ⟨trivial, trivial, ⟨trivial, .inr <| by
        obtain ⟨p, hsettled⟩ := hsettled
        exact hsettled.frameOf_eq_none_of_ne nofun
          (hvisit.reject_unframed hordered he honce hend hsite)⟩, trivial⟩ }
  obtain ⟨p, hsteps⟩ := hvisit.stepsLowerIn he hadmits (hvisit.backedEntry.binding hsettled) []
  exact h.covers hprotects hsteps hentry hafter hs

/-- In front of each operation of the range, and behind it, the live frame has the variable
as the handler has it in the end. -/
theorem Guarded.covered (hordered : body.code.Pairwise fun a b => a.1 < b.1)
    (honce : (boundLabels final.code.body).Nodup)
    (hclosed : cx.regions.EnteredAtStart body.code region)
    (hprotects : region.protects e.1 = true) :
    Covered cx.regions region v R entry ∧ Covered cx.regions region v R after := by
  obtain ⟨_, _, hbuild⟩ := build_of_prepare hvisit.prepared
  have hregion := List.mem_of_getElem? h.region
  obtain ⟨first, hfirst, hstart⟩ := List.any_eq_true.mp
    (isBoundary_start_build hbuild region hregion)
  have hstart : first.1 = region.start := eq_of_beq hstart
  -- the states of an operation in the range, from the one it is reached in
  have hparts : ∀ {d before entry after},
      Visit config T pool body d cx start before entry after final → d ∈ body.code →
      region.protects d.1 = true →
      (d.1 ≤ region.start → Holds v (Inner cx.regions region) R before.frames) →
      (region.Interior d.1 → Covered cx.regions region v R before) →
      Covered cx.regions region v R entry ∧ Covered cx.regions region v R after := by
    intro d before entry after hd hmem hin houtside hinside
    have hrange := Region.protects_iff.mp hin
    have hentry : Covered cx.regions region v R entry := by
      by_cases heq : d.1 = region.start
      · exact h.arrives hd hmem heq (houtside (Nat.le_of_eq heq))
      · have hinterior : region.Interior d.1 := ⟨by omega, hrange.2⟩
        exact h.enters hd hmem hinterior (hinside hinterior)
    exact ⟨hentry, h.lowers hd hmem hordered honce hin hentry⟩
  have hreached : (e.1 ≤ region.start → Holds v (Inner cx.regions region) R before.frames) ∧
      (region.Interior e.1 → Covered cx.regions region v R before) := by
    refine hvisit.reached_induction hordered he
      (I := fun o s => (o ≤ region.start → Holds v (Inner cx.regions region) R s.frames) ∧
        (region.Interior o → Covered cx.regions region v R s)) ?_ ?_
    · intro d _ hle
      refine ⟨fun _ l _ found hfound => ?_, fun hinterior => ?_⟩
      · rw [FrameStore.typeAt, hvisit.started.2.2.frameOf_eq_none] at hfound
        cases hfound
      · have hlow := hinterior.1
        have := hle first hfirst
        omega
    · intro d hd before entry after hvisit hbefore o hnext
      obtain ⟨hlt, hnone, -⟩ := Body.following_spec hordered hd hnext
      refine ⟨fun hle => ?_, fun hinterior => ?_⟩
      · exact h.spared hvisit hd hordered hclosed (by omega) (hbefore.1 (by omega))
      · obtain ⟨hlow, hhigh⟩ := hinterior
        have := hnone first hfirst
        exact (hparts hvisit hd (Region.protects_iff.mpr ⟨by omega, by omega⟩) hbefore.1
          hbefore.2).2
  exact hparts hvisit he hprotects hreached.1 hreached.2

end Range

-- ==== handler frames

/-- The state in which an operation is lowered. -/
def lowered? (config : Config) (T : TypeTable) (pool : Pool) (body : Body) (e : Nat × Op) :
    Option LowerState :=
  match prepare config T body (initial pool body), entered? config T pool body e.1 with
  | .ok cx _, some entry =>
    match LowerM.lowerOp e.1 e.2 (cx.atOffset e.1) entry with
    | .ok _ after => some after
    | .error _ _ => none
  | _, _ => none

theorem Visit.lowered {config : Config} {T : TypeTable} {pool : Pool} {body : Body} {e : Nat × Op}
    {start before entry after final : LowerState}
    (h : Visit config T pool body e cx start before entry after final) :
    lowered? config T pool body e = some after := by
  simp only [lowered?, h.prepared, h.entered, h.lowers]

/-- The live frame has the slot, with a type. -/
def Sets (s : LowerState) (slot : Nat) : Prop :=
  ∃ t, s.frames.live.locals.get? slot = some t ∧ t ≠ .top

theorem Covered.sets {t : RegionTree} {region : Region} {v : Nat} {F : Family}
    (h : Covered t region v (Among F) s) : Sets s v := by
  obtain ⟨u, hu, hF⟩ := h.live
  refine ⟨u, hu, fun htop => ?_⟩
  rw [htop] at hF
  cases hF

theorem Started.untyped (h : Started cx s) {i : Nat} {x : Variable}
    (hx : cx.body.locals[i]? = some x) :
    Holds (variableSlot cx.body i) (fun _ => True) (Untyped x.ty) s.frames ∧
      Untyped x.ty (s.frames.live.locals.get? (variableSlot cx.body i)) := by
  refine ⟨fun l _ found hfound => ?_, fun _ => h.get?_variable hx⟩
  rw [FrameStore.typeAt, h.frameOf_eq_none] at hfound
  cases hfound

/-- A variable that the frame of a handler has in the end is set throughout the protected
range, or has a default value: the prologue stores to it, or the live frame has it set in
front of each operation of the range and behind it. The offsets ascend, the range may be
entered at its start only, and what is declared as a supertype is a reference. -/
theorem handler_frame_covers_range {config : Config} {T : TypeTable} {pool : Pool} {body : Body}
    {m : Method} (hT : T.Referential) (hordered : body.code.Pairwise fun a b => a.1 < b.1)
    (hok : (lowerMethod config T pool body).result = .ok m) :
    ∃ cx start final, prepare config T body (initial pool body) = .ok cx start ∧
      completed? config T pool body = some final ∧
      ∀ r region, cx.regions.regions[r]? = some region →
        cx.regions.EnteredAtStart body.code region →
        ∀ i x, body.locals[i]? = some x → ∀ frame t,
          final.frames.backfill.1.recorded? (.handler r) = some frame →
          frame.locals.get? (variableSlot body i) = some t → t ≠ .top →
          (∃ kind, .storeSlot kind (variableSlot body i) ∈ final.code.prologue) ∨
          ∀ e ∈ body.code, region.protects e.1 = true → ∃ entry after,
            entered? config T pool body e.1 = some entry ∧
            lowered? config T pool body e = some after ∧
            Sets entry (variableSlot body i) ∧ Sets after (variableSlot body i) := by
  obtain ⟨cx, start, final, s, hprepare, hlower, hfinish⟩ := run_ok hok
  refine ⟨cx, start, final, hprepare, ?_, ?_⟩
  · simp only [completed?, hprepare, hlower]
  intro r region hregion hclosed i x hx frame t hframe ht htop
  obtain ⟨rfl, rfl, hstarted⟩ := (prepare_ok hprepare).2
  obtain ⟨p, hsteps⟩ := codeSteps_of_forM hstarted.prepared (fun _ h => h) hstarted.backed
    (lowerAll_ok hlower).1 []
  have hfollowed := hstarted.followed hx
  -- with a default value there is a store in the prologue
  have hdefaults := hsteps.keeps
    (I := fun a => VariableAt start.slots.next (variableSlot cx.body i) x.ty a.1.slots ∧
      Defaults (variableSlot cx.body i) x.ty a.1)
    (fun e _ _ _ ha hstep => ⟨ha.1.step hstep, ha.2.step ha.1 hstep⟩)
    ⟨hfollowed.variableAt, hfollowed.defaults⟩
  cases hplain : final.slots.isDefaulted (variableSlot cx.body i) with
  | true =>
    obtain ⟨_, hmem, kind, -, rfl⟩ := hdefaults.2.stored hplain
    exact .inl ⟨kind, hmem⟩
  | false =>
    refine .inr fun e he hprotects => ?_
    rw [FrameStore.recorded?_backfill] at hframe
    have htype : final.frames.typeAt (variableSlot cx.body i) (.handler r) = some (some t) := by
      unfold FrameStore.typeAt
      rw [hframe, Option.map_some, ht]
    -- a variable without a type is in no frame
    have hty : x.ty ≠ .top := by
      intro hty
      have hstart : Holds (variableSlot cx.body i) (fun _ => True) (Untyped x.ty) start.frames ∧
          Untyped x.ty (start.frames.live.locals.get? (variableSlot cx.body i)) :=
        hstarted.untyped hx
      have huntyped := (hsteps.untyped hfollowed.variableAt hplain hstart.1 hstart.2).1
      cases huntyped (.handler r) trivial _ htype hty
    obtain ⟨F, hF⟩ := Ty.exists_family htop
    have hguarded : Guarded cx start final r region start.slots.next (variableSlot cx.body i) x.ty
        (Among F) := by
      refine ⟨hregion, firm_among hT hty F, hfollowed.variableAt, hplain, ?_⟩
      rintro _ rfl found hfound
      cases htype.symm.trans hfound
      exact ⟨t, rfl, hF⟩
    obtain ⟨before, entry, after, hvisit⟩ := exists_visit_of_lowered hprepare hlower hordered he
    obtain ⟨⟨asm, frames, hfinished⟩, -⟩ := exists_finished hfinish
    obtain ⟨hentry, hafter⟩ := hguarded.covered hvisit he hordered
      (nodup_of_assemble hfinished.assembled) hclosed hprotects
    exact ⟨entry, after, hvisit.entered, hvisit.lowered, hentry.sets, hafter.sets⟩

-- ==== a look inside

/-- The regions of a body, what the frame of a handler has for a slot in the end, the
prologue, and what the live frame has for the slot where an operation is entered. -/
def inspected (config : Config) (T : TypeTable) (pool : Pool) (body : Body) (r slot o : Nat) :
    Option (List Region × Option Ty × List Instr × Option Ty) :=
  match previewedFrom config T pool body, entered? config T pool body o with
  | some p, some entry =>
    some (p.context.regions.regions,
      (p.state.frames.backfill.1.recorded? (.handler r)).bind (·.locals.get? slot),
      p.state.code.prologue, entry.frames.live.locals.get? slot)
  | _, _ => none

theorem exists_of_inspected {config : Config} {T : TypeTable} {pool : Pool} {body : Body}
    {r slot o : Nat} {regions : List Region} {t : Ty} {prologue : List Instr} {found : Option Ty}
    (h : inspected config T pool body r slot o = some (regions, some t, prologue, found)) :
    ∃ m cx start final entry frame, (lowerMethod config T pool body).result = .ok m ∧
      prepare config T body (initial pool body) = .ok cx start ∧
      completed? config T pool body = some final ∧ entered? config T pool body o = some entry ∧
      cx.regions.regions = regions ∧
      final.frames.backfill.1.recorded? (.handler r) = some frame ∧
      frame.locals.get? slot = some t ∧ final.code.prologue = prologue ∧
      entry.frames.live.locals.get? slot = found := by
  unfold inspected at h
  split at h
  · next p entry hpreview hentered =>
    obtain ⟨m, _, hok, hprepare, hlower, -⟩ := exists_of_previewedFrom hpreview
    simp only [Option.some_inj, Prod.mk.injEq] at h
    obtain ⟨hregions, hfound, hprologue, hlive⟩ := h
    obtain ⟨frame, hframe, ht⟩ := Option.bind_eq_some_iff.mp hfound
    refine ⟨m, _, _, p.state, entry, frame, hok, hprepare, ?_, hentered, hregions, hframe, ht,
      hprologue, hlive⟩
    simp only [completed?, hprepare, hlower]
  · cases h

/-- A variable that is set in front of a protected range. -/
def setsBefore : Body where
  owner := .ref "Guard"
  name := "run"
  kind := .static
  params := []
  locals := [⟨none, .prim .int32⟩]
  returns := none
  code := [(0, .loadInt32 1), (1, .storeLocal 0), (2, .nop), (3, .leave 5), (4, .endFinally),
    (5, .ret)]
  handlers := [⟨.fault, 2, 4, 4, 5, none, none⟩]

private theorem inspected_setsBefore :
    inspected {} (.ofConfig {}) .empty setsBefore 0 0 2 = some
      ([{ start := 2, stop := 4,
          clauses := [{ kind := .fault, start := 4, stop := 5, handlerStart := 4 }] }],
        some (.prim .int32), [], some (.prim .int32)) := by
  cbv

/-- In `setsBefore` the handler has the variable and the prologue is empty, so the variable is
set in front of the leave and behind it. -/
theorem handler_frame_covers_range_setsBefore :
    (TypeTable.ofConfig {}).Referential ∧ setsBefore.code.Pairwise (fun a b => a.1 < b.1) ∧
    ∃ m, (lowerMethod {} (.ofConfig {}) .empty setsBefore).result = .ok m ∧
      ∃ entry after, entered? {} (.ofConfig {}) .empty setsBefore 3 = some entry ∧
        lowered? {} (.ofConfig {}) .empty setsBefore (3, .leave 5) = some after ∧
        Sets entry 0 ∧ Sets after 0 := by
  have hT : (TypeTable.ofConfig {}).Referential := TypeTable.referential_of_classes (by decide)
  have hordered : setsBefore.code.Pairwise fun a b => a.1 < b.1 := by decide
  obtain ⟨m, cx, start, final, entry, frame, hok, hprepare, hcompleted, -, hregions, hframe, ht,
    hprologue, -⟩ := exists_of_inspected inspected_setsBefore
  refine ⟨hT, hordered, m, hok, ?_⟩
  obtain ⟨cx', start', final', hprepare', hcompleted', hcovers⟩ :=
    handler_frame_covers_range hT hordered hok
  cases hprepare.symm.trans hprepare'
  cases hcompleted.symm.trans hcompleted'
  have hclosed : ∀ t : RegionTree, t.EnteredAtStart setsBefore.code
      { start := 2, stop := 4,
        clauses := [{ kind := .fault, start := 4, stop := 5, handlerStart := 4 }] } := by
    intro t
    simp [RegionTree.EnteredAtStart, RegionTree.transfers, setsBefore, Region.protects, Op.targets,
      Region.Interior]
  have hregion := congrArg (·[0]?) hregions
  have htop : Ty.prim .int32 ≠ .top := by decide
  rcases hcovers 0 _ hregion (hclosed _) 0 _ rfl frame _ hframe ht htop with ⟨_, hstore⟩ | hsets
  · rw [hprologue] at hstore
    cases hstore
  · exact hsets (3, .leave 5) (by simp [setsBefore]) rfl

-- ==== ways in, and joins

/-- A filter whose handler starts inside a protected range. -/
def acceptsInside : Body where
  owner := .ref "Guard"
  name := "run"
  kind := .static
  params := [⟨none, .prim .int32⟩]
  locals := [⟨none, .prim .int32⟩]
  returns := none
  code := [(0, .leave 13), (1, .pop), (2, .loadArg 0), (3, .branchIf true 6), (4, .loadInt32 0),
    (5, .endFilter), (6, .loadInt32 5), (7, .storeLocal 0), (8, .nop), (9, .jump 8), (10, .pop),
    (11, .leave 13), (12, .endFinally), (13, .ret)]
  handlers := [⟨.filtered, 0, 1, 10, 13, some 1, none⟩, ⟨.fault, 8, 12, 12, 13, none, none⟩]

private theorem inspected_acceptsInside :
    inspected shortNames (.ofConfig shortNames) .empty acceptsInside 0 1 10 = some
      ([{ start := 8, stop := 12,
          clauses := [{ kind := .fault, start := 12, stop := 13, handlerStart := 12 }] },
        { start := 0, stop := 1,
          clauses := [{ kind := .filtered 1, start := 1, stop := 13, handlerStart := 10 }],
          filterSlot := some 2 }],
        some (.prim .int32), [], none) := by
  cbv

/-- The end of a filter's condition is a way into a range. In `acceptsInside` no operation
outside of the range names a place strictly inside of it. The variable is set where the range
starts, and the handler has it; but at the handler of the filter, which the end of the
condition goes to, it is not set, and it has no default value. -/
theorem filter_uncovers_acceptsInside :
    (TypeTable.ofConfig shortNames).Referential ∧
    acceptsInside.code.Pairwise (fun a b => a.1 < b.1) ∧
    ∃ m cx start final region frame entry,
      (lowerMethod shortNames (.ofConfig shortNames) .empty acceptsInside).result = .ok m ∧
      prepare shortNames (.ofConfig shortNames) acceptsInside (initial .empty acceptsInside)
        = .ok cx start ∧
      completed? shortNames (.ofConfig shortNames) .empty acceptsInside = some final ∧
      cx.regions.regions[0]? = some region ∧
      (∀ e ∈ acceptsInside.code, region.protects e.1 = false →
        ∀ target ∈ e.2.targets, ¬ region.Interior target) ∧
      final.frames.backfill.1.recorded? (.handler 0) = some frame ∧
      frame.locals.get? (variableSlot acceptsInside 0) = some (.prim .int32) ∧
      final.code.prologue = [] ∧ (10, .pop) ∈ acceptsInside.code ∧ region.protects 10 = true ∧
      entered? shortNames (.ofConfig shortNames) .empty acceptsInside 10 = some entry ∧
      entry.frames.live.locals.get? (variableSlot acceptsInside 0) = none := by
  obtain ⟨m, cx, start, final, entry, frame, hok, hprepare, hcompleted, hentered, hregions, hframe,
    ht, hprologue, hlive⟩ := exists_of_inspected inspected_acceptsInside
  refine ⟨TypeTable.referential_of_classes (by decide), by decide, m, cx, start, final, _, frame,
    entry, hok, hprepare, hcompleted, congrArg (·[0]?) hregions, ?_, hframe, ht, hprologue, ?_, rfl,
    hentered, hlive⟩
  · simp [acceptsInside, Region.protects, Op.targets, Region.Interior]
  · simp [acceptsInside]

/-- Two classes below a type that is no reference. -/
def belowTop : TypeTable :=
  ((TypeTable.ofConfig shortNames).declareClass "A" (some .top) []).declareClass "B" (some .top) []

/-- Two ways through a protected range, on which a variable is set to different classes. -/
def joinsInside : Body where
  owner := .ref "G"
  name := "run"
  kind := .static
  params := [⟨none, .prim .int32⟩, ⟨none, .ref "A"⟩, ⟨none, .ref "B"⟩, ⟨none, .ref "O"⟩]
  locals := [⟨none, .ref "X"⟩]
  returns := none
  code := [(0, .loadArg 3), (1, .storeLocal 0), (2, .loadArg 0), (3, .branchIf true 7),
    (4, .loadArg 1), (5, .storeLocal 0), (6, .jump 9), (7, .loadArg 2), (8, .storeLocal 0),
    (9, .ret), (10, .endFinally)]
  handlers := [⟨.fault, 2, 10, 10, 11, none, none⟩]

private theorem inspected_joinsInside :
    inspected shortNames belowTop .empty joinsInside 0 4 9 = some
      ([{ start := 2, stop := 10,
          clauses := [{ kind := .fault, start := 10, stop := 11, handlerStart := 10 }] }],
        some (.ref "O"), [], none) := by
  cbv

/-- A join may lose a variable inside a range. The range of `joinsInside` is entered at its
start only, and the variable is set there and on both ways through. The handler has it; but the
two classes have no join that a frame could hold, so where the ways meet it is not set. -/
theorem join_uncovers_joinsInside :
    joinsInside.code.Pairwise (fun a b => a.1 < b.1) ∧
    ∃ m cx start final region frame entry,
      (lowerMethod shortNames belowTop .empty joinsInside).result = .ok m ∧
      prepare shortNames belowTop joinsInside (initial .empty joinsInside) = .ok cx start ∧
      completed? shortNames belowTop .empty joinsInside = some final ∧
      cx.regions.regions[0]? = some region ∧
      (∀ e ∈ joinsInside.code, region.protects e.1 = false →
        ∀ target ∈ e.2.targets, ¬ region.Interior target) ∧
      final.frames.backfill.1.recorded? (.handler 0) = some frame ∧
      frame.locals.get? (variableSlot joinsInside 0) = some (.ref "O") ∧
      final.code.prologue = [] ∧ (9, .ret) ∈ joinsInside.code ∧ region.protects 9 = true ∧
      entered? shortNames belowTop .empty joinsInside 9 = some entry ∧
      entry.frames.live.locals.get? (variableSlot joinsInside 0) = none := by
  obtain ⟨m, cx, start, final, entry, frame, hok, hprepare, hcompleted, hentered, hregions, hframe,
    ht, hprologue, hlive⟩ := exists_of_inspected inspected_joinsInside
  refine ⟨by decide, m, cx, start, final, _, frame, entry, hok, hprepare, hcompleted,
    congrArg (·[0]?) hregions, ?_, hframe, ht, hprologue, ?_, rfl, hentered, hlive⟩
  · simp [joinsInside, Region.protects, Op.targets, Region.Interior]
  · simp [joinsInside]

end Lowering

end BytecodeBridge
