/-
Labels, where they are bound and what frames they have.

A label is bound where its code starts, and the code of a method binds none
twice: the assembler would refuse it. Most labels have a frame by then. One
that does not is the label of an operation that control reaches from above
and nothing else, and it never gets a frame (`Settled.framed`,
`Step.frameOf_eq_none`). A frame that is put aside belongs to a label that
is bound already, so a label that is bound for the first time has none
(`Settled.aside`).
-/
import BytecodeBridge.Proofs.Lowering.Execution

namespace BytecodeBridge

namespace Lowering

open FrameStore

open LowerM (widen)

-- ==== labels and frames

/-- Which labels are bound, and which of them have a frame. -/
structure Settled (targets : Std.TreeSet Nat) (a : Stage) : Prop where
  bound : ∀ label ∈ boundLabels a.1.code.body, a.1.frames.isBound label = true
  /-- a label without a frame is one that nothing transfers to -/
  framed : ∀ label ∈ boundLabels a.1.code.body, a.1.frames.frameOf label = none →
    ∃ o, label = .source o ∧ targets.contains o = false
  /-- a frame is put aside where its label is bound, which is one of the source -/
  aside : ∀ label, a.1.frames.has label = false → a.1.frames.frameOf label ≠ none →
    label ∈ boundLabels a.1.code.body ∧ ∃ o, label = .source o

section Labels

variable {cx : Context} {s s' : LowerState} {p : List Label}

theorem Repair.frameOf_eq_none (h : Repair s s') (l : Label) :
    s'.frames.frameOf l = none ↔ s.frames.frameOf l = none := by
  cases h with
  | fill => rw [frameOf_materialize, Option.map_eq_none_iff]
  | default => exact Iff.rfl

theorem Saves.frameOf_eq_none {label : Label} {frame : Frame} (h : Saves cx label frame s s')
    {l : Label} (hl : l ≠ label) : s'.frames.frameOf l = none ↔ s.frames.frameOf l = none :=
  h.keeps (I := fun t => t.frames.frameOf l = none ↔ s.frames.frameOf l = none)
    (fun hstored => by rw [(hstored.others l hl).1])
    fun _ _ ht hrepair => (hrepair.frameOf_eq_none l).trans ht

theorem Change.boundLabels (h : Change cx s s') :
    boundLabels s'.code.body = boundLabels s.code.body := by
  cases h with
  | put | replace => rfl

namespace Settled

variable {targets : Std.TreeSet Nat}

/-- Steps that bind no label and give none a frame. -/
theorem of_same (h : Settled targets (s, p))
    (hlabels : boundLabels s'.code.body = boundLabels s.code.body)
    (hbound : s'.frames.bound = s.frames.bound)
    (hhas : ∀ l, s'.frames.has l = s.frames.has l)
    (hframes : ∀ l, s'.frames.frameOf l = none ↔ s.frames.frameOf l = none) (p' : List Label) :
    Settled targets (s', p') := by
  refine ⟨fun l hl => ?_, fun l hl hnone => ?_, fun l hl hne => ?_⟩
  · unfold isBound
    rw [hbound]
    exact h.bound l (hlabels ▸ hl)
  · exact h.framed l (hlabels ▸ hl) ((hframes l).mp hnone)
  · rw [hlabels]
    exact h.aside l ((hhas l).symm.trans hl) fun hnone => hne ((hframes l).mpr hnone)

theorem of_live (h : Settled targets (s, p))
    (hlabels : boundLabels s'.code.body = boundLabels s.code.body)
    (hbound : s'.frames.bound = s.frames.bound)
    (hrecorded : s'.frames.recorded = s.frames.recorded)
    (hdeferred : s'.frames.deferred = s.frames.deferred) : Settled targets (s', []) := by
  refine h.of_same hlabels hbound (fun l => ?_) (fun l => ?_) []
  · unfold has
    rw [hrecorded]
  · unfold frameOf
    rw [hrecorded, hdeferred]

theorem saves {label : Label} {frame : Frame} (h : Settled targets (s, p))
    (hsave : Saves cx label frame s s') : Settled targets (s', label :: p) := by
  have hbody := hsave.mends.body
  refine ⟨fun l hl => ?_, fun l hl hnone => ?_, fun l hl hne => ?_⟩
  · exact (hsave.mends.isBound l).trans (h.bound l (hbody ▸ hl))
  · have hne : l ≠ label := fun heq => frameOf_ne_none hsave.has.1 (heq ▸ hnone)
    exact h.framed l (hbody ▸ hl) ((hsave.frameOf_eq_none hne).mp hnone)
  · have hother : l ≠ label := by
      rintro rfl
      exact Bool.false_ne_true (hl.symm.trans hsave.has.1)
    rw [hbody]
    exact h.aside l ((hsave.has_of_ne hother).symm.trans hl)
      fun hnone => hne ((hsave.frameOf_eq_none hother).mpr hnone)

/-- A label is bound at the end. -/
theorem bind (h : Settled targets (s, p)) {label : Label} {frames : FrameStore}
    (hbound : frames.bound = s.frames.bound.insert label)
    (hothers : ∀ l, l ≠ label → frames.has l = s.frames.has l ∧
      (frames.frameOf l = none ↔ s.frames.frameOf l = none))
    (hlabel : frames.frameOf label = none →
      ∃ o, label = .source o ∧ targets.contains o = false)
    (hsource : frames.has label = false → ∃ o, label = .source o) :
    Settled targets ({ s with code := s.code.bind label, frames, reachable := true }, []) := by
  have hisBound : ∀ l, l = label ∨ s.frames.isBound l = true → frames.isBound l = true := by
    intro l hl
    unfold isBound
    rw [hbound, Std.TreeSet.contains_insert, Bool.or_eq_true]
    refine hl.imp_left fun heq => ?_
    rw [heq]
    simp
  refine ⟨List.forall_mem_cons.mpr ⟨hisBound label (.inl rfl),
      fun l hl => hisBound l (.inr (h.bound l hl))⟩, fun l hl hnone => ?_, fun l hl hne => ?_⟩
  · by_cases heq : l = label
    · exact heq ▸ hlabel (heq ▸ hnone)
    · exact h.framed l ((List.mem_cons.mp hl).resolve_left heq) ((hothers l heq).2.mp hnone)
  · by_cases heq : l = label
    · subst heq
      exact ⟨.head _, hsource hl⟩
    · exact (h.aside l ((hothers l heq).1.symm.trans hl)
        fun hnone => hne ((hothers l heq).2.mpr hnone)).imp_left (List.mem_cons_of_mem _)

theorem step {a b : Stage} (h : Settled cx.targets a) (hstep : Step cx a b) :
    Settled cx.targets b := by
  cases hstep with
  | push hpush =>
    obtain ⟨-, rfl⟩ := FrameStore.push_ok hpush
    exact h.of_live rfl rfl rfl rfl
  | pop hpop =>
    obtain ⟨_, -, rfl⟩ := FrameStore.pop_ok hpop
    exact h.of_live rfl rfl rfl rfl
  | change hchange htold =>
    obtain ⟨-, -, hrecorded, hdeferred, hbound, -⟩ := hchange.outline
    exact htold.keeps (I := fun t => Settled cx.targets (t, []))
      (fun _ _ _ _ _ ht hsave => ⟨(ht.saves hsave).bound, (ht.saves hsave).framed,
        (ht.saves hsave).aside⟩) (h.of_live hchange.boundLabels hbound hrecorded hdeferred)
  | repair hrepair =>
    exact h.of_same (by rw [hrepair.mends.body]) hrepair.mends.bound hrepair.has
      hrepair.frameOf_eq_none []
  | save _ _ hsave => exact h.saves hsave
  | retract hretract =>
    obtain ⟨rest, hrest, rfl⟩ := Option.map_eq_some_iff.mp hretract
    exact h.of_live (boundLabels_retractFrom hrest) rfl rfl rfl
  | bindLoaded _ _ hframe =>
    refine h.bind rfl (fun l _ => ⟨rfl, Iff.rfl⟩) (fun hnone => ?_) fun hhas => ?_
    · cases hnone.symm.trans (FrameStore.frameOf_of_recorded? hframe)
    · cases hhas.symm.trans (FrameStore.has_of_recorded? hframe)
  | bindNew _ _ _ hsave =>
    refine (h.saves hsave).bind rfl (fun l _ => ⟨rfl, Iff.rfl⟩)
      (fun hnone => absurd hnone (FrameStore.frameOf_ne_none hsave.has.1)) fun hhas => ?_
    cases hhas.symm.trans hsave.has.1
  | pass _ _ htarget =>
    exact h.bind rfl (fun l _ => ⟨rfl, Iff.rfl⟩) (fun _ => ⟨_, rfl, htarget⟩) fun _ => ⟨_, rfl⟩
  | @defer s p hhas hreach =>
    refine h.bind rfl (fun l hl => ⟨rfl, ?_⟩) (fun hnone => ?_) fun _ => ⟨_, rfl⟩
    · show (s.frames.defer _ _).frameOf l = none ↔ _
      rw [FrameStore.frameOf_defer, if_neg (Ne.symm hl), Option.or_none]
    · change (s.frames.defer _ _).frameOf _ = none at hnone
      rw [FrameStore.frameOf_defer, if_pos rfl, Option.or_eq_none_iff] at hnone
      cases hnone.2
  | _ => exact h.of_live rfl rfl rfl rfl

theorem frameOf_eq_none {a : Stage} (h : Settled targets a)
    {label : Label} (hnew : label ∉ boundLabels a.1.code.body)
    (hhas : a.1.frames.has label = false) : a.1.frames.frameOf label = none := by
  by_contra hne
  exact hnew (h.aside label hhas hne).1

theorem frameOf_eq_none_of_ne {a : Stage} (h : Settled targets a) {label : Label}
    (hlabel : ∀ o, label ≠ .source o) (hhas : a.1.frames.has label = false) :
    a.1.frames.frameOf label = none := by
  by_contra hne
  obtain ⟨-, o, heq⟩ := h.aside label hhas hne
  exact hlabel o heq

end Settled

variable {code : List (Nat × Op)} {a b : Stage} {o : Nat}

theorem CodeSteps.settled (h : CodeSteps cx code a b) (ha : Settled cx.targets a) :
    Settled cx.targets b :=
  h.keeps (fun e _ _ _ ha hstep => @Settled.step (cx.atOffset e.1) _ _ ha hstep) ha

theorem Started.settled (h : Started cx s) : Settled cx.targets (s, []) := by
  refine ⟨?_, ?_, fun l _ hne => absurd (h.frameOf_eq_none l) hne⟩
  · simp [h.code, boundLabels]
  · simp [h.code, boundLabels]

-- ==== labels in code

/-- A label stays bound. -/
theorem Step.isBound (h : Step cx a b) {l : Label} (hl : a.1.frames.isBound l = true) :
    b.1.frames.isBound l = true := by
  have hmark : ∀ {frames : FrameStore} {label : Label}, frames.isBound l = true →
      (frames.markBound label).isBound l = true := by
    intro frames label hl
    rw [FrameStore.isBound_markBound, hl, Bool.or_true]
  cases h with
  | push hpush =>
    obtain ⟨-, rfl⟩ := FrameStore.push_ok hpush
    exact hl
  | pop hpop =>
    obtain ⟨_, -, rfl⟩ := FrameStore.pop_ok hpop
    exact hl
  | change hchange htold =>
    rw [htold.mends.isBound, FrameStore.isBound, hchange.outline.2.2.2.2.1]
    exact hl
  | repair h | save _ _ h => exact (h.mends.isBound l).trans hl
  | bindLoaded => exact hmark hl
  | bindNew _ _ _ hsave => exact hmark ((hsave.mends.isBound l).trans hl)
  | pass | defer => exact hmark hl
  | _ => exact hl

/-- A step binds one label at most, in its place, and takes none back. -/
theorem Step.binds (h : Step cx a b) :
    ∃ new, boundLabels b.1.code.body = new ++ boundLabels a.1.code.body ∧
      ∀ label ∈ new, InPlace cx label := by
  cases h with
  | change h htold =>
    exact ⟨[], (congrArg boundLabels htold.mends.body).trans h.boundLabels, by simp⟩
  | repair h | save _ _ h => exact ⟨[], congrArg boundLabels h.mends.body, by simp⟩
  | retract h =>
    obtain ⟨rest, hrest, rfl⟩ := Option.map_eq_some_iff.mp h
    exact ⟨[], boundLabels_retractFrom hrest, by simp⟩
  | @bindLoaded s p label frame hplace => exact ⟨[label], rfl, by simpa using hplace⟩
  | @bindNew s s' p label hlabel _ _ h =>
    rw [← h.mends.body]
    exact ⟨[label], rfl, by simpa using hlabel.1⟩
  | pass | defer => exact ⟨[.source cx.current], rfl, by simp [InPlace]⟩
  | _ => exact ⟨[], rfl, by simp⟩

theorem Step.boundLabels_suffix (h : Step cx a b) :
    boundLabels a.1.code.body <:+ boundLabels b.1.code.body := by
  obtain ⟨new, heq, -⟩ := h.binds
  exact ⟨new, heq.symm⟩

theorem CodeSteps.boundLabels_suffix (h : CodeSteps cx code a b) :
    boundLabels a.1.code.body <:+ boundLabels b.1.code.body := by
  induction h with
  | refl => exact List.suffix_rfl
  | tail _ hstep ih =>
    obtain ⟨_, _, hstep⟩ := hstep
    exact ih.trans hstep.boundLabels_suffix

/-- An arrival binds its label. -/
theorem Arrival.binds (h : Arrival cx s s') :
    s'.frames.isBound (.source cx.current) = true ∧
      boundLabels s'.code.body = .source cx.current :: boundLabels s.code.body := by
  have hmark : ∀ frames : FrameStore,
      (frames.markBound (.source cx.current)).isBound (.source cx.current) = true := by
    intro frames
    rw [isBound_markBound, beq_self_eq_true, Bool.true_or]
  cases h with
  | merged _ _ hsave =>
    rw [← hsave.mends.body]
    exact ⟨hmark _, rfl⟩
  | loaded | pass | defer => exact ⟨hmark _, rfl⟩

theorem nodup_of_assemble {code : CodeBuffer} {asm : Assembly} (h : code.assemble = .ok asm) :
    (boundLabels code.body).Nodup := by
  obtain ⟨items, l, hwide, hassembled⟩ := CodeBuffer.assemble_ok h
  have honce : (boundLabels items).Nodup := hassembled.nodup
  rwa [boundLabels_widens hwide, boundLabels_items, List.nodup_reverse] at honce

-- ==== labels without frames

theorem Open.ahead (h : Open cx s (.source o)) (htarget : cx.targets.contains o = false)
    (hnone : s.frames.frameOf (.source o) = none) : Ahead cx o := by
  rcases h o rfl with hin | hhas | hahead
  · rw [htarget] at hin
    cases hin
  · exact absurd hnone (frameOf_ne_none hhas)
  · exact hahead

/-- A label that was passed through gets no frame behind its operation. -/
theorem Step.passed (h : Step cx a b) (htarget : cx.targets.contains o = false)
    (hbehind : ¬ Ahead cx o) (hnone : a.1.frames.frameOf (.source o) = none)
    (hbound : .source o ∈ boundLabels a.1.code.body) (honce : (boundLabels b.1.code.body).Nodup) :
    b.1.frames.frameOf (.source o) = none := by
  cases h with
  | push hpush =>
    obtain ⟨-, rfl⟩ := FrameStore.push_ok hpush
    exact hnone
  | pop hpop =>
    obtain ⟨_, -, rfl⟩ := FrameStore.pop_ok hpop
    exact hnone
  | change hchange htold =>
    exact htold.keeps (I := fun t => t.frames.frameOf (.source o) = none)
      (fun _ _ _ _ _ ht hsave => (hsave.frameOf_eq_none (l := .source o) nofun).mpr ht)
      ((hchange.frameOf _).trans hnone)
  | repair hrepair => exact (hrepair.frameOf_eq_none _).mpr hnone
  | @save s s' p label frame _ hopen hsave =>
    have hne : Label.source o ≠ label := by
      rintro rfl
      exact hbehind (hopen.ahead htarget hnone)
    exact (hsave.frameOf_eq_none hne).mpr hnone
  | bindNew hlabel _ _ hsave =>
    exact (hsave.frameOf_eq_none (Ne.symm (hlabel.2 o))).mpr hnone
  | @defer s p hhas hreach =>
    have hne : Label.source cx.current ≠ .source o :=
      fun heq => (List.nodup_cons.mp honce).1 (heq ▸ hbound)
    show (s.frames.defer _ _).frameOf _ = none
    rw [FrameStore.frameOf_defer, hnone, if_neg hne]
    rfl
  | _ => exact hnone

theorem CodeSteps.passed (h : CodeSteps cx code a b) (htarget : cx.targets.contains o = false)
    (hbehind : ∀ e ∈ code, ¬ Ahead (cx.atOffset e.1) o)
    (hnone : a.1.frames.frameOf (.source o) = none) (hbound : .source o ∈ boundLabels a.1.code.body)
    (honce : (boundLabels b.1.code.body).Nodup) : b.1.frames.frameOf (.source o) = none := by
  induction h with
  | refl => exact hnone
  | tail hsteps hstep ih =>
    obtain ⟨e, he, hstep⟩ := hstep
    have hbefore := ih (honce.sublist hstep.boundLabels_suffix.sublist)
    exact hstep.passed htarget (hbehind e he) hbefore
      (CodeSteps.boundLabels_suffix hsteps |>.subset hbound) honce

end Labels

end Lowering

end BytecodeBridge
